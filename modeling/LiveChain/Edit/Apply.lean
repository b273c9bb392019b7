import LiveChain.Edit.Splice
import LiveChain.Locate.Candidates

/-!
# Applying edits to a snippet

Edits are applied to a snippet only as a whole: every edited value must stand in the text where
the syntax tree has it, every edit must have a text, and the result must look like code.
Otherwise the snippet is kept and the reason is reported.
-/

set_option autoImplicit false

namespace LiveChain

open Text

/-- Why a snippet is kept: an edit that cannot be made, or edits that cannot be dealt with. -/
inductive EditRefusal where
  | refused (message : String)
  | failed

/-- An error that can be shown refuses the edits; any other fails. -/
def EditRefusal.of (e : EditError) : EditRefusal :=
  match e.message? with
  | some message => .refused message
  | none => .failed

def atOrdinal? {α : Type} (xs : List α) (ordinal : Int) : Option α :=
  if ordinal < 0 then none else xs[ordinal.toNat]?

/-- Every edited value that the text or the tree has must stand at the same place in both. -/
def checkAlignment (spans : List ValueSpan) (located : List (Int × Int)) :
    Edits → Except EditRefusal Unit
  | [] => .ok ()
  | (.word _, _) :: _ => .error .failed
  | (.ordinal n, _) :: rest =>
    let inText := (atOrdinal? spans n).map fun span => (span.start, span.stop)
    let inTree := atOrdinal? located n
    if inText = inTree then checkAlignment spans located rest
    else .error (.of (.misaligned n inText inTree))

/-- An optional minus sign, digits, and optionally a point and digits. -/
def isBareNumber (cs : List Char) : Bool :=
  let unsigned := match cs with
    | '-' :: rest => rest
    | _ => cs
  match unsigned.dropWhile isDecimal with
  | [] => !unsigned.isEmpty
  | '.' :: fraction => (unsigned.head?.any isDecimal) && fraction.all isDecimal
  | _ => false

/-- A result must not be empty or a bare number. -/
def isPlausible (result : List Char) : Bool := !result.isEmpty && !isBareNumber (strip result)

/-- The text with the edits made, or what stands in the way. -/
def edited (names : SlotNames) (keywords : List String) (text : List Char)
    (located : List (Int × Int)) (edits : Edits) : Except EditRefusal (List Char) := do
  let spans := valueSpans names keywords text
  checkAlignment spans located edits
  let result ← (splice text spans edits).mapError .of
  if isPlausible result then return result
  else throw (.of (.notCode result))

def EditRefusal.notice : EditRefusal → Notice
  | .refused message => ⟨.error, .editing, message ++ "; keeping original code"⟩
  | .failed => ⟨.error, .editing, "Error generating code; keeping original code"⟩

/-- The text with the edits made where they can be made, and the text as it is otherwise. Only
the characters of edited values change. -/
def applyEdits (names : SlotNames) (keywords : List String) (program : Option Program)
    (text : List Char) (edits : Edits) : Noted (List Char) :=
  match program with
  | none => ⟨text, []⟩
  | some p =>
    if text.isEmpty || edits.isEmpty then ⟨text, []⟩
    else
      let located := valueOffsets names keywords (some p) text
      match edited names keywords text located.result edits with
      | .ok result => ⟨result, located.notices⟩
      | .error refusal => ⟨text, located.notices ++ [refusal.notice]⟩

end LiveChain
