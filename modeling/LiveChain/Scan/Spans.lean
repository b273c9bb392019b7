import LiveChain.Scan.Lexeme
import LiveChain.Scan.Directive

/-!
# Spans of editable values in a text

The values that the lexemes of a text are, numbered in text order. The text need not be well
formed.
-/

set_option autoImplicit false

namespace LiveChain.Scan

open Text

/-- A value from offset `start` up to offset `stop`. -/
structure Found where
  start : Nat
  stop : Nat
  kind : ValueKind
deriving DecidableEq, Repr

/-- The values of the rest of a text that starts at `offset`, of which `skip` characters belong
to a lexeme that has been read. -/
def foundFrom (names : SlotNames) : Mode → Nat → Nat → List Char → List Found
  | _, _, _, [] => []
  | mode, skip + 1, offset, _ :: cs => foundFrom names mode skip (offset + 1) cs
  | mode, 0, offset, c :: cs =>
    let l := lexeme names mode c cs
    let rest := foundFrom names l.next (l.length - 1) (offset + 1) cs
    match l.kind with
    | some kind => ⟨offset, offset + l.length, kind⟩ :: rest
    | none => rest

def found (names : SlotNames) (text : List Char) : List Found :=
  foundFrom names Mode.initial 0 0 text

end LiveChain.Scan

namespace LiveChain

open Text

/-- One editable value in a text: the characters from `start` up to `stop`. -/
structure ValueSpan where
  index : Int
  start : Int
  stop : Int
  text : String
  kind : ValueKind
deriving DecidableEq, Repr

def Scan.Found.numbered (text : List Char) (f : Scan.Found) (index : Nat) : ValueSpan :=
  ⟨index, f.start, f.stop, String.ofList ((text.drop f.start).take (f.stop - f.start)), f.kind⟩

/-- The spans of all editable values of a text outside its directive lines, in text order. -/
def valueSpans (names : SlotNames) (keywords : List String) (text : List Char) :
    List ValueSpan :=
  ((Scan.found names text).filter fun f => !onDirective keywords text f.start).mapIdx
    fun index f => f.numbered text index

end LiveChain
