import LiveChain.Syntax.Grammar.Basic

/-!
# Patterns

Patterns name the parts of a value. They are read as expressions: an array or object that turns
out to be declared or assigned to, and arguments that turn out to be parameters, are understood as
patterns afterwards.
-/

set_option autoImplicit false

namespace LiveChain.Node

/-- What stands for a place by itself: names, members and subscripts. -/
def isReference : Node → Bool
  | .identifier _ _ => true
  | .member _ _ _ _ => true
  | .other _ kind _ => kind == "subscript_expression" || kind == "undefined"
  | _ => false

/-- Whether a node is a pattern for an array or an object. -/
def isDestructuring : Node → Bool
  | .other _ kind _ => kind == "array_pattern" || kind == "object_pattern"
  | _ => false

mutual

/-- The pattern that an expression stands for: a reference, or an array or object of patterns. -/
def pattern? : Node → Option Node
  | .other s "array" items => (parameters? items).map (.other s "array_pattern")
  | .other s "object" items => (memberPatterns? items).map (.other s "object_pattern")
  | n => if n.isReference then some n else none

/-- The parameter that an argument stands for: a pattern, perhaps with a default value, or one for
all that is left. -/
def parameter? : Node → Option Node
  | .other s "assignment_expression" [left, right] =>
    if left.isReference || left.isDestructuring then
      some (.other s "assignment_pattern" [left, right])
    else none
  | .other s "spread_element" [inner] => (pattern? inner).map fun p => .other s "rest_pattern" [p]
  | .other s "array" items => (parameters? items).map (.other s "array_pattern")
  | .other s "object" items => (memberPatterns? items).map (.other s "object_pattern")
  | n => if n.isReference then some n else none

/-- The member of an object pattern that a member of an object stands for. -/
def memberPattern? : Node → Option Node
  | .other s "pair" [key, value] =>
    (parameter? value).map fun p => .other s "pair_pattern" [key, p]
  | .other s "shorthand_property_identifier" _ =>
    some (.other s "shorthand_property_identifier_pattern" [])
  | .other s "spread_element" [inner] => (pattern? inner).map fun p => .other s "rest_pattern" [p]
  | .other s "object_assignment_pattern" parts =>
    some (.other s "object_assignment_pattern" parts)
  | _ => none

def parameters? : List Node → Option (List Node)
  | [] => some []
  | n :: rest => do
    let first ← parameter? n
    let others ← parameters? rest
    return first :: others

/-- The members of an object pattern that members of an object stand for. -/
def memberPatterns? : List Node → Option (List Node)
  | [] => some []
  | n :: rest => do
    let first ← memberPattern? n
    let others ← memberPatterns? rest
    return first :: others

end

/-- Whether an expression stands between parentheses. -/
def isParenthesized : Node → Bool
  | .other _ kind _ => kind == "parenthesized_expression"
  | _ => false

/-- What an expression stands for on the left of an equals sign: itself in parentheses, or a
pattern. -/
def target? (n : Node) : Option Node := if n.isParenthesized then some n else n.pattern?

/-- What can be changed by an operation: references and what stands in parentheses. -/
def isChangeable : Node → Bool
  | .other _ "undefined" _ => false
  | n => n.isReference || n.isParenthesized

/-- Whether a member of an object can only be part of a pattern: it has a default value, or its
value is all that is left. -/
def isPatternMember : Node → Bool
  | .other _ "object_assignment_pattern" _ => true
  | .other _ "pair" [_, .other _ "spread_element" _] => true
  | _ => false

def isPatternOnly : Node → Bool
  | .other _ "object" members => members.any isPatternMember
  | _ => false

end LiveChain.Node
