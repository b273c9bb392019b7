import LiveChain.Syntax.Cursor

/-!
# Binary operators

Operands and operators are read as one sequence; how tightly the operators bind then tells which
operands belong together.
-/

set_option autoImplicit false

namespace LiveChain.Syntax

/-- How tightly a binary operator binds; none for what is no binary operator. -/
def bindingStrength? (operator : String) : Option Nat :=
  if operator == "??" then some 1
  else if operator == "||" then some 2
  else if operator == "&&" then some 3
  else if operator == "|" then some 4
  else if operator == "^" then some 5
  else if operator == "&" then some 6
  else if ["==", "!=", "===", "!=="].contains operator then some 7
  else if ["<", ">", "<=", ">=", "in", "instanceof"].contains operator then some 8
  else if ["<<", ">>", ">>>"].contains operator then some 9
  else if operator == "+" || operator == "-" then some 10
  else if ["*", "/", "%"].contains operator then some 11
  else if operator == "**" then some 12
  else none

/-- The strength of the one operator that groups from the right. -/
def powerStrength : Nat := 12

/-- An operand that waits for what is on the right of its operator. -/
structure Waiting where
  left : Node
  strength : Nat

def joined (l r : Node) : Node := .other (Span.cover l.span r.span) "binary_expression" [l, r]

/-- Joins `right` to the waiting operands whose operators bind tighter than the next one, or as
tightly and group from the left. -/
def settle (strength : Nat) (right : Node) : List Waiting → Node × List Waiting
  | [] => (right, [])
  | w :: rest =>
    if strength < w.strength || (strength = w.strength && strength != powerStrength) then
      settle strength (joined w.left right) rest
    else (right, w :: rest)

def settleAll (right : Node) : List Waiting → Node
  | [] => right
  | w :: rest => settleAll (joined w.left right) rest

/-- The tree of an operand followed by operators with their right operands. -/
def combineFrom : List Waiting → Node → List (Nat × Node) → Node
  | waiting, last, [] => settleAll last waiting
  | waiting, last, (strength, next) :: rest =>
    let (left, outer) := settle strength last waiting
    combineFrom (⟨left, strength⟩ :: outer) next rest

/-- The tree of operands with operators between them. -/
def combine (first : Node) (rest : List (Nat × Node)) : Node := combineFrom [] first rest

end LiveChain.Syntax
