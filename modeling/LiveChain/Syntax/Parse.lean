import LiveChain.Syntax.Concrete
import LiveChain.Syntax.Grammar.Statement
import LiveChain.Syntax.Walk

/-!
# Parsing snippets

The circle of grammar rules is closed by counting down how deep constructs may still nest, with a
bound that no text reaches. The parser knows scripts only: `import` and `export` declarations,
`debugger`, `with`, JSX, decorators, a line that starts with `#!` and comments in the style of HTML
are errors to it. `parseWith` takes any other parser in its place.
-/

set_option autoImplicit false

namespace LiveChain.Syntax

/-- The grammar for constructs that nest at most `depth` levels. -/
def grammar : Nat → Grammar
  | 0 => Grammar.none
  | depth + 1 =>
    let g := grammar depth
    ⟨g.expressionRule, g.statementRule, g.operandRule, g.constructibleRule⟩

/-- One statement of a program, or its end. -/
def programRound (g : Grammar) (found : List Node) : Rule (Round (List Node) (List Node)) := do
  if (← upcoming).isEmpty then return .done found.reverse
  else
    let next ← g.statement
    return .again (next :: found)

def programRule (g : Grammar) : Rule (List Node) := Rule.iterate (programRound g) []

/-- Every level of nesting passes a character, but a statement and its expression share one, and so
do an expression and its first operand. -/
def nestingBound (text : List Char) : Nat := 3 * text.length + 3

def statements? (text : List Char) : Option (List Node) :=
  (programRule (grammar (nestingBound text)) (Cursor.start text)).map (·.1)

/-- The span of a program: from the first character that is no white space to the end. -/
def programSpan (text : List Char) : Span :=
  Span.between (Place.origin.after (text.takeWhile isSpace)) (Place.origin.after text)

end LiveChain.Syntax

namespace LiveChain

open Syntax Text

/-- A parser for the grammar. Some objects are read as patterns only, and are errors where they
stayed objects. -/
def grammarParser (bytes : List UInt8) : Parsed :=
  let text := decodeLossy bytes
  let root := (programSpan text).site text "program" none
  match statements? text with
  | none => ⟨true, .node root []⟩
  | some body =>
    ⟨(Node.visitsAll [] body).any fun v => v.node.isPatternOnly,
      .node root (Node.toTrees text [] body)⟩

def parseProgram (text : List Char) : Except ParseError Program := parseWith grammarParser text

end LiveChain
