import LiveChain.Syntax.Grammar.Expression

/-!
# Statements

The first word or punctuator tells most statements; labels, declarations with `let` and objects that
start a statement take a look further ahead. What is none of these is an expression.
-/

set_option autoImplicit false

namespace LiveChain.Syntax

/-- Punctuators that go on with an expression and start no statement. -/
def joiningPunctuators : List String :=
  [".", "?.", ",", "*", "%", "**", "==", "===", "!=", "!==", "&", "|", "^", "&&", "||", "??", ">",
   ">=", "<=", "<<", ">>", ">>>", "?"]

/-- Whether an operator comes next that goes on with an expression and starts no statement. -/
def joinAhead : Rule Bool := do
  let w ← peekWord
  return joiningPunctuators.contains (← peekPunctuator) || w == "in" || w == "instanceof"

namespace Grammar

/-! ## Declarations -/

/-- A declared name, or a declared pattern for an array or an object. -/
def declaredPattern (g : Grammar) : Rule Node := do
  let p ← peekPunctuator
  if p == "[" || p == "\x7b" then
    let literal ← if p == "[" then g.arrayRule else g.objectRule
    match literal.pattern? with
    | some pattern => return pattern
    | Option.none => failure
  else identifier

/-- A declared variable: a name or a pattern, and its initial value if it has one. -/
def declarator (g : Grammar) : Rule Node := do
  let start ← place
  let target ← g.declaredPattern
  let value ← if ← endsHere true then pure Option.none else g.initializer? .last
  node start "variable_declarator" (target :: value.toList)

/-- Whether a declared variable has no initial value. -/
def isBareDeclarator : Node → Bool
  | .other _ _ nodes => nodes.length == 1
  | _ => true

/-- The variables of a declaration, and the end of it. -/
def declarators (g : Grammar) : Rule (List Node) := do
  let first ← g.declarator
  let (all, last) ← Rule.iterate (fun (found : List Node × Node) => do
    if ← endsHere (isBareDeclarator found.2) then return .done found
    else if ← optionalPunct "," then
      let next ← g.declarator
      return .again (found.2 :: found.1, next)
    else return .done found) ([], first)
  endStatement (isBareDeclarator last)
  return (last :: all).reverse

def declarationKind (w : String) : String :=
  if w == "var" then "variable_declaration" else "lexical_declaration"

/-- Whether a declaration of variables starts here. The word `let` is a name unless something
that can be declared follows, and where it may, the statement ends behind it. -/
def declarationAhead (s : Setting) : Rule Bool := do
  let w ← peekWord
  if w == "var" || w == "const" then return true
  else if w == "let" then
    let after ← upcomingAfterWord
    let p := punctuator after
    return (p == "[" || p == "\x7b" || isIdentifier (wordOf after)) &&
      !(s.mayEnd && statementEnds false (← behindWord))
  else return false

def declaration (g : Grammar) : Rule Node := do
  let start ← place
  let w ← word
  let all ← g.declarators
  node start (declarationKind w) all

/-! ## Loops -/

/-- Whether the head of a loop starts with a declaration. The word `of` behind `let` is never
declared. -/
def loopDeclarationAhead : Rule Bool := do
  let reserved := (← peekWord) == "let" && wordOf (← upcomingAfterWord) == "of"
  return !reserved && (← declarationAhead .inner)

/-- The rest of the head of a loop over members or items: the word `in` or `of`, and what is gone
through. -/
def forEachTail (g : Grammar) (targets : List Node) : Rule (List Node) := do
  let w ← word
  if w == "in" || w == "of" then
    let range ← g.expressions .inner
    punct ")"
    return targets ++ [range]
  else failure

/-- The head of a loop over members or items that declares a variable. Only one declared with
`var` may have an initial value; unless the loop `waits`, a declaration could end behind it, and
then there is no such loop. -/
def forEachDeclared (g : Grammar) (waits : Bool) : Rule (List Node) := do
  let w ← word
  let target ← g.declaredPattern
  if w != "var" then g.forEachTail [target]
  else if !waits && (← endsHere true) then failure
  else
    let value ← g.initializer? ⟨!waits, false⟩
    if !waits && (← endsHere value.isNone) then failure
    else g.forEachTail (target :: value.toList)

/-- The head of a loop over members or items that assigns to something. -/
def forEachAssigned (g : Grammar) : Rule (List Node) := do
  let left ← g.operandRule ⟨false, false⟩ true
  match left.target? with
  | some target => g.forEachTail [target]
  | Option.none => failure

/-- The condition and the step of a loop, after what it starts with. -/
def forTail (g : Grammar) (initial : Node) : Rule (List Node) := do
  let conditionStart ← place
  let condition ←
    if ← optionalPunct ";" then node conditionStart "empty_statement" []
    else
      let inner ← g.expressions .inner
      punct ";"
      pure inner
  let step ←
    if (← peekPunctuator) == ")" then pure Option.none else some <$> g.expressions .inner
  punct ")"
  return [initial, condition] ++ step.toList

def forHead (g : Grammar) : Rule (List Node) := do
  let start ← place
  if ← optionalPunct ";" then
    let initial ← node start "empty_statement" []
    g.forTail initial
  else if ← loopDeclarationAhead then
    let initial ← g.declaration
    g.forTail initial
  else
    let initial ← g.expressions .inner
    punct ";"
    g.forTail initial

/-- The head of a loop over members or items. A bracket behind `let` starts a pattern, unless the
loop `waits` and `let` can be the object of a subscript. -/
def forEachHead (g : Grammar) (waits : Bool) : Rule (List Node) := do
  let subscripted := (← peekWord) == "let" && (← punctuatorAfterWord) == "["
  if !(← loopDeclarationAhead) then g.forEachAssigned
  else if waits && subscripted then g.forEachAssigned <|> g.forEachDeclared waits
  else g.forEachDeclared waits

def forRule (g : Grammar) : Rule Node := do
  let start ← place
  keyword "for"
  let waits ← optionalKeyword "await"
  punct "("
  let each ← (some <$> g.forEachHead waits) <|> pure Option.none
  match each with
  | some parts =>
    let body ← g.statement
    node start "for_in_statement" (parts ++ [body])
  | Option.none =>
    if waits then failure
    else
      let parts ← g.forHead
      let body ← g.statement
      node start "for_statement" (parts ++ [body])

def whileRule (g : Grammar) : Rule Node := do
  let start ← place
  keyword "while"
  let condition ← g.parenthesized
  let body ← g.statement
  node start "while_statement" [condition, body]

def doRule (g : Grammar) : Rule Node := do
  let start ← place
  keyword "do"
  let body ← g.statement
  keyword "while"
  let condition ← g.parenthesized
  if !(← endsHere true) then
    let _ ← optionalPunct ";"
  node start "do_statement" [body, condition]

/-! ## Choices and errors -/

def ifRule (g : Grammar) : Rule Node := do
  let start ← place
  keyword "if"
  let condition ← g.parenthesized
  let yes ← g.statement
  let otherwise ←
    if (← peekWord) == "else" then
      let elseStart ← place
      keyword "else"
      let no ← g.statement
      some <$> node elseStart "else_clause" [no]
    else pure Option.none
  node start "if_statement" ([condition, yes] ++ otherwise.toList)

def caseStatements (g : Grammar) : Rule (List Node) :=
  Rule.iterate (fun (found : List Node) => do
    let w ← peekWord
    if w == "case" || w == "default" || (← peekPunctuator) == "\x7d" then
      return .done found.reverse
    else
      let next ← g.statement
      return .again (next :: found)) []

def caseRule (g : Grammar) : Rule Node := do
  let start ← place
  if ← optionalKeyword "default" then
    punct ":"
    let inner ← g.caseStatements
    node start "switch_default" inner
  else
    keyword "case"
    let value ← g.expressions .inner
    punct ":"
    let inner ← g.caseStatements
    node start "switch_case" (value :: inner)

def switchRule (g : Grammar) : Rule Node := do
  let start ← place
  keyword "switch"
  let value ← g.parenthesized
  let bodyStart ← place
  punct "\x7b"
  let cases ← Rule.iterate (fun (found : List Node) => do
    if ← optionalPunct "\x7d" then return .done found.reverse
    else
      let next ← g.caseRule
      return .again (next :: found)) []
  let body ← node bodyStart "switch_body" cases
  node start "switch_statement" [value, body]

def catchClause (g : Grammar) : Rule Node := do
  let start ← place
  keyword "catch"
  if ← optionalPunct "(" then
    let target ← g.declaredPattern
    punct ")"
    let body ← g.block true
    node start "catch_clause" [target, body]
  else
    let body ← g.block true
    node start "catch_clause" [body]

def finallyClause (g : Grammar) : Rule Node := do
  let start ← place
  keyword "finally"
  let body ← g.block true
  node start "finally_clause" [body]

def tryRule (g : Grammar) : Rule Node := do
  let start ← place
  keyword "try"
  let body ← g.block true
  let handler ←
    if (← peekWord) == "catch" then some <$> g.catchClause else pure Option.none
  let final ←
    if (← peekWord) == "finally" then some <$> g.finallyClause else pure Option.none
  node start "try_statement" (body :: (handler.toList ++ final.toList))

/-! ## Simple statements -/

def returnRule (g : Grammar) : Rule Node := do
  let start ← place
  keyword "return"
  if !(← endsHere true) && startsExpression (← upcoming) then
    let value ← g.expressions .last
    endStatement false
    node start "return_statement" [value]
  else
    endStatement true
    node start "return_statement" []

def throwRule (g : Grammar) : Rule Node := do
  let start ← place
  keyword "throw"
  let value ← g.expressions .last
  endStatement false
  node start "throw_statement" [value]

def jumpRule (w kind : String) : Rule Node := do
  let start ← place
  keyword w
  let label ←
    if !(← endsHere true) && isIdentifier (← peekWord) then
      some <$> wordNode "statement_identifier"
    else pure Option.none
  endStatement true
  node start kind label.toList

def labelRule (g : Grammar) : Rule Node := do
  let start ← place
  let label ← wordNode "statement_identifier"
  punct ":"
  let body ← g.statement
  node start "labeled_statement" [label, body]

def expressionStatement (g : Grammar) : Rule Node := do
  let start ← place
  let inner ← g.expressions .last
  endStatement false
  node start "expression_statement" [inner]

/-- A declaration of a function or a class, unless an operator makes it an expression. -/
def unjoined (declaration : Rule Node) : Rule Node := do
  let n ← declaration
  if ← joinAhead then failure else return n

/-- A block without statements, which no operator follows. -/
def emptyBlock (g : Grammar) : Rule Node := do
  let n ← g.block false
  if (← joinAhead) || (← peekPunctuator) == "=" then failure else return n

/-- Braces at the start of a statement: a block, or an object that starts an expression. With a
label they are an object if they can be one. -/
def braceRule (g : Grammar) : Rule Node := do
  match ← bracesAhead with
  | .empty => g.emptyBlock <|> g.expressionStatement
  | .label => g.expressionStatement <|> g.block true
  | .emptyCall => g.expressionStatement <|> g.block true
  | .member => g.block true <|> g.expressionStatement
  | .statements => g.block true

def wordStatement (g : Grammar) (w : String) : Rule Node := do
  match w with
  | "if" => g.ifRule
  | "for" => g.forRule
  | "while" => g.whileRule
  | "do" => g.doRule
  | "return" => g.returnRule
  | "throw" => g.throwRule
  | "break" => jumpRule "break" "break_statement"
  | "continue" => jumpRule "continue" "continue_statement"
  | "switch" => g.switchRule
  | "try" => g.tryRule
  | "function" => unjoined (g.functionRule true) <|> g.expressionStatement
  | "class" => unjoined (g.classRule true) <|> g.expressionStatement
  | _ =>
    if ← asyncFunctionAhead .last then
      unjoined (g.functionRule true) <|> g.expressionStatement
    else if ← declarationAhead .last then g.declaration
    else if isName w && (← punctuatorAfterWord) == ":" &&
        !statementEnds false (← behindWord) then g.labelRule
    else g.expressionStatement

def statementRule (g : Grammar) : Rule Node := do
  let start ← place
  let p ← peekPunctuator
  if p == ";" then
    punct ";"
    node start "empty_statement" []
  else if p == "\x7b" then g.braceRule
  else g.wordStatement (← peekWord)

end Grammar

end LiveChain.Syntax
