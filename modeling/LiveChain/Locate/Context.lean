import LiveChain.Syntax.Walk
import LiveChain.Text.Basic

/-!
# The call that owns a value

An editable value belongs to a parameter of a call. The syntax tree tells which call it is when
the value is an argument of a named call; otherwise the text before the value is searched.
-/

set_option autoImplicit false

namespace LiveChain

open Text

inductive Strategy where
  | structural
  | textual
deriving DecidableEq, Repr

def Strategy.name : Strategy → String
  | .structural => "structural"
  | .textual => "textual"

structure CallContext where
  callName : String
  anchorColumn : Int
  parameterIndex : Nat
  strategy : Strategy
deriving DecidableEq, Repr

/-! ## From the tree -/

/-- The call of which a node is an argument, given the node's path. A unary operator between the
two does not matter; a call without a plain name owns nothing. -/
def ownerOf? : List Crumb → Option CallContext
  | .argument callee index :: _ =>
    callee.map fun (name, column) => ⟨name, column, index, .structural⟩
  | .operand _ _ :: .argument callee index :: _ =>
    callee.map fun (name, column) => ⟨name, column, index, .structural⟩
  | _ => none

/-! ## From the text -/

def unknownCall : String := "unknown"

def isAsciiLetter (c : Char) : Bool := ('a' ≤ c && c ≤ 'z') || ('A' ≤ c && c ≤ 'Z')

/-- Lengths of the name and of the whole of a call opening: letters, white space and an opening
parenthesis. -/
def callAt? (cs : List Char) : Option (Nat × Nat) :=
  let name := (cs.takeWhile isAsciiLetter).length
  let blank := ((cs.drop name).takeWhile isBlank).length
  match cs.drop (name + blank) with
  | '(' :: _ => if name = 0 then none else some (name, name + blank + 1)
  | _ => none

/-- A call opening in a line: its name, where the name starts and where the opening ends. -/
structure CallOpening where
  name : List Char
  start : Nat
  stop : Nat

/-- The call openings of the rest of a line that starts at `offset`, of which `skip` characters
belong to an opening that has been found. -/
def callsFrom : Nat → Nat → List Char → List CallOpening
  | _, _, [] => []
  | skip + 1, offset, _ :: cs => callsFrom skip (offset + 1) cs
  | 0, offset, c :: cs =>
    match callAt? (c :: cs) with
    | some (name, whole) =>
      ⟨(c :: cs).take name, offset, offset + whole⟩ :: callsFrom (whole - 1) (offset + 1) cs
    | none => callsFrom 0 (offset + 1) cs

/-- The owner that a line suggests for a value at a column: the last call opened before the
column, with as many arguments before the value as there are commas after the opening. -/
def textualOwner (line : List Char) (column : Int) : CallContext :=
  let before := upTo line column
  match (callsFrom 0 0 before).getLast? with
  | some opening =>
    ⟨String.ofList opening.name, opening.start, (before.drop opening.stop).count ',', .textual⟩
  | none => ⟨unknownCall, column, 0, .textual⟩

end LiveChain
