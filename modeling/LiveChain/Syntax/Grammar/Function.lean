import LiveChain.Syntax.Grammar.Pattern

/-!
# Functions

Function expressions, arrows and the declarations that begin with the word `function` share their
parameters and bodies. The word `async` may also be a name; what follows it decides.
-/

set_option autoImplicit false

namespace LiveChain.Syntax

/-- Whether `async function` stands here. The statement may end behind the word `async`. -/
def asyncFunctionAhead (s : Setting) : Rule Bool := do
  let rest ← behindWord
  return (← peekWord) == "async" && wordOf (← upcomingAfterWord) == "function" &&
    !(s.mayEnd && statementEnds false rest)

/-- The parameters that a list of elements from a place to the cursor stands for. -/
def parametersFrom (start : Place) (list : CommaList) : Rule Node := do
  match if list.hasHole then Option.none else Node.parameters? list.items with
  | some items => node start "formal_parameters" items
  | Option.none => failure

/-- Whether a word cannot be the key of the first member of an object where a block may start. -/
def startsStatementOnly (w : String) : Bool :=
  operatorWords.contains w || (reservedWords.contains w && !inertWords.contains w)

/-- What braces hold that may be a block or an object. -/
inductive Braces where
  | empty
  | label
  | emptyCall
  | member
  | statements
deriving DecidableEq

/-- What the text behind an opening brace may be. A word before a colon can be a label and a key;
before a comma, an equals sign or the closing brace it is no member. -/
def bracesOf (cs : List Char) : Braces :=
  let behind (cs : List Char) (n : Nat) := (cs.drop n).drop (triviaLength (cs.drop n))
  let inner := behind cs 0
  if punctuator inner == "\x7d" then .empty
  else
    let n := wordLength inner
    let after := behind inner n
    let p := punctuator after
    if n = 0 then .member
    else if startsStatementOnly (wordOf inner) then .statements
    else if p == ":" then .label
    else if [",", "=", "\x7d"].contains p then .statements
    else if p == "(" && punctuator (behind after 1) == ")" then .emptyCall
    else .member

def bracesAhead : Rule Braces := return bracesOf ((← upcoming).drop 1)

namespace Grammar

def formalParameters (g : Grammar) : Rule Node := do
  let start ← place
  let list ← g.elements
  parametersFrom start list

def signature (g : Grammar) (early : Bool) : Rule (List Node) := do
  let parameters ← g.formalParameters
  let body ← g.block early
  return [parameters, body]

/-- What follows the word `function`: a star for generators, a name, parameters and a body. A
declaration has a name. -/
def functionTail (g : Grammar) (start : Place) (declared : Bool) : Rule Node := do
  let star ← optionalPunct "*"
  let kind := match declared, star with
    | true, true => "generator_function_declaration"
    | true, false => "function_declaration"
    | false, true => "generator_function"
    | false, false => "function_expression"
  let name ← if isIdentifier (← peekWord) then some <$> identifier else pure Option.none
  if declared && name.isNone then failure
  else
    let rest ← g.signature false
    node start kind (name.toList ++ rest)

/-- A function that starts with `function` or `async function`. -/
def functionRule (g : Grammar) (declared : Bool) : Rule Node := do
  let start ← place
  let _ ← optionalKeyword "async"
  keyword "function"
  g.functionTail start declared

/-- A block as the body of an arrow function; an object to be assigned to is none. -/
def bodyBlock (g : Grammar) : Rule Node := do
  let body ← g.block false
  if (← peekPunctuator) == "=" then failure else return body

/-- The body of an arrow function: a block or an expression. Braces with a label are an object if
they can be one, and a block is preferred otherwise. -/
def arrowBody (g : Grammar) (s : Setting) : Rule Node := do
  if (← peekPunctuator) == "\x7b" then
    match ← bracesAhead with
    | .label => g.expression s <|> g.block false
    | .statements => g.block false
    | _ => g.bodyBlock <|> g.expression s
  else g.expression s

/-- An arrow and the body behind it, after parameters that start at a place. -/
def arrowTail (g : Grammar) (s : Setting) (start : Place) (parameters : Node) : Rule Node := do
  punct "=>"
  let body ← g.arrowBody s
  node start "arrow_function" [parameters, body]

end Grammar

end LiveChain.Syntax
