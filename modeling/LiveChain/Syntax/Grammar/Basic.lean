import LiveChain.Syntax.Rule

/-!
# The shape of the grammar

The constructs of the language refer to each other in circles. Each rule is written against a
`Grammar`, the rules for smaller texts, and the circle is closed elsewhere.
-/

set_option autoImplicit false

namespace LiveChain.Syntax

/-- Where an expression stands: whether the statement may end right behind it, and whether the
operator `in` may follow an operand. -/
structure Setting where
  mayEnd : Bool
  allowIn : Bool

/-- An expression that something closes. -/
def Setting.inner : Setting := ⟨false, true⟩

/-- An expression at the end of a statement. -/
def Setting.last : Setting := ⟨true, true⟩

/-- The rules through which constructs nest: expressions without commas, statements, operands of
unary operators (with or without an increment behind them), and what `new` makes instances of. -/
structure Grammar where
  expression : Setting → Rule Node
  statement : Rule Node
  operand : Setting → Bool → Rule Node
  constructible : Setting → Rule Node

/-- The grammar of no text. -/
def Grammar.none : Grammar :=
  ⟨fun _ => failure, failure, fun _ _ => failure, fun _ => failure⟩

/-- Items between commas: the items, whether some were left out, and whether a comma comes
last. -/
structure CommaList where
  items : List Node
  hasHole : Bool
  trailing : Bool

/-- One item with the comma behind it, a comma for one that is left out, or the closing punctuator
with the last item before it. -/
def commaRound (close : String) (item : Rule Node) (found : CommaList) :
    Rule (Round CommaList CommaList) := do
  let p ← peekPunctuator
  if p == close then
    punct close
    return .done { found with items := found.items.reverse }
  else if p == "," then
    punct ","
    return .again { found with hasHole := true }
  else
    let x ← item
    let items := x :: found.items
    if ← optionalPunct "," then return .again ⟨items, found.hasHole, true⟩
    else
      punct close
      return .done ⟨items.reverse, found.hasHole, false⟩

/-- Items between commas up to `close`, which is passed too. Items may be left out. -/
def commaList (close : String) (item : Rule Node) : Rule CommaList :=
  Rule.iterate (commaRound close item) ⟨[], false, false⟩

/-- Whether the statement ends here, where it may. -/
def endsIn (s : Setting) : Rule Bool := do
  if s.mayEnd then endsHere false else return false

/-- Several expressions as a sequence; one stands for itself. -/
def sequenceOf : List Node → Rule Node
  | [] => failure
  | [only] => return only
  | first :: rest =>
    return .other (Span.cover first.span (rest.getLast?.getD first).span) "sequence_expression"
      (first :: rest)

namespace Grammar

/-- Expressions between commas; several make a sequence. -/
def expressions (g : Grammar) (s : Setting) : Rule Node := do
  let first ← g.expression s
  let all ← Rule.iterate (fun (found : List Node) => do
    if ← endsIn s then return .done found.reverse
    else if ← optionalPunct "," then
      let next ← g.expression s
      return .again (next :: found)
    else return .done found.reverse) [first]
  sequenceOf all

/-- An element of an array or an argument of a call. -/
def element (g : Grammar) : Rule Node := do
  let start ← place
  if ← optionalPunct "..." then
    let inner ← g.expression .inner
    node start "spread_element" [inner]
  else g.expression .inner

def elements (g : Grammar) : Rule CommaList := do
  punct "("
  commaList ")" g.element

def arrayRule (g : Grammar) : Rule Node := do
  let start ← place
  punct "["
  let list ← commaList "]" g.element
  node start "array" list.items

def parenthesized (g : Grammar) : Rule Node := do
  let start ← place
  punct "("
  let inner ← g.expressions .inner
  punct ")"
  node start "parenthesized_expression" [inner]

/-- Statements up to a closing brace, which is passed too. -/
def statementsToBrace (g : Grammar) : Rule (List Node) :=
  Rule.iterate (fun (found : List Node) => do
    if ← optionalPunct "\x7d" then return .done found.reverse
    else
      let next ← g.statement
      return .again (next :: found)) []

/-- Statements between braces, and the comments up to where a statement can end behind them.
`early` says that no operator could follow. -/
def block (g : Grammar) (early : Bool) : Rule Node := do
  let start ← place
  punct "\x7b"
  let inner ← g.statementsToBrace
  passToEnd early
  node start "statement_block" inner

/-- The initial value behind an equals sign, if there is one. -/
def initializer? (g : Grammar) (s : Setting) : Rule (Option Node) := do
  if ← optionalPunct "=" then return some (← g.expression s) else return Option.none

end Grammar

end LiveChain.Syntax
