import LiveChain.Locate.Candidates
import LiveChain.Locate.Identity
import LiveChain.Locate.Parameters
import LiveChain.Value.Editable

/-!
# Locating editable values

Every value node of a program becomes an editable value with its owner, parameter, key and
options. A node that cannot be placed or named is reported and left out; the others keep their
ordinals.
-/

set_option autoImplicit false

namespace LiveChain

open Text

inductive Obstacle where
  | outsideText
  | identity (e : IdentityError)

/-- The owner of a value node: from the tree, or else from its line. -/
def owner (line : List Char) (c : Candidate) : CallContext :=
  (ownerOf? c.path).getD (textualOwner line c.span.startColumn)

/-- The editable value of a value node with a known owner and parameter. -/
def describe (names : SlotNames) (c : Candidate) (ordinal : Nat) (context : CallContext)
    (info : ParameterInfo) : Except IdentityError EditableValue := do
  let line := c.span.startLine
  let column := c.span.startColumn
  let key ← valueKey (some context.callName) (some info.name) (some context.parameterIndex)
    (some line) (some column)
  let site ← callSiteId (some context.callName) (some line) (some context.anchorColumn)
  return {
    value := c.value
    kind := c.kind
    line := line
    column := column
    length := c.span.length
    ordinal := ordinal
    callName := context.callName
    callAnchorColumn := context.anchorColumn
    parameterIndex := context.parameterIndex
    parameterName := info.name
    parameterType := info.type
    parameterDefault := info.default
    key := key
    callSiteId := site
    options := names.optionsFor c.kind }

/-- The editable value of one value node, or why there is none. -/
def buildValue (names : SlotNames) (registry : Option Registry) (textLines : List (List Char))
    (c : Candidate) (ordinal : Nat) : Noted (Except Obstacle EditableValue) :=
  if textLines.length ≤ c.span.startLine then ⟨.error .outsideText, []⟩
  else match entry? textLines c.span.startLine with
    | none => ⟨.error .outsideText, []⟩
    | some line =>
      let context := owner line c
      let info := resolveParameter registry context.callName context.parameterIndex
      ⟨(describe names c ordinal context info.result).mapError .identity, info.notices⟩

def skipNotice (c : Candidate) : Notice :=
  ⟨.warning, .locating,
    "Skipping " ++ c.kind.name ++ " value " ++ (c.value.shown?.getD "") ++ " at line " ++
      toString c.span.startLine ++ " col " ++ toString c.span.startColumn⟩

def locateFrom (names : SlotNames) (registry : Option Registry) (textLines : List (List Char)) :
    Nat → List Candidate → Noted (List EditableValue)
  | _, [] => ⟨[], []⟩
  | ordinal, c :: rest =>
    let built := buildValue names registry textLines c ordinal
    let others := locateFrom names registry textLines (ordinal + 1) rest
    match built.result with
    | .ok value => ⟨value :: others.result, built.notices ++ others.notices⟩
    | .error _ => ⟨others.result, built.notices ++ skipNotice c :: others.notices⟩

/-- The editable values of a program, in text order. Without a program or a text there are
none. -/
def locate (names : SlotNames) (registry : Option Registry) (keywords : List String)
    (program : Option Program) (text : List Char) : Noted (List EditableValue) :=
  match program with
  | none => ⟨[], []⟩
  | some p =>
    if text.isEmpty then ⟨[], []⟩
    else
      let found := candidates names keywords text p
      let values := locateFrom names registry (lines text) 0 found.result
      ⟨values.result, found.notices ++ values.notices⟩

end LiveChain
