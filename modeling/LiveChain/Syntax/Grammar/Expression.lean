import LiveChain.Syntax.Grammar.Binary
import LiveChain.Syntax.Grammar.Member

/-!
# Expressions

Arrow functions, assignments and what `yield` hands out reach as far to the right as they can, and
they may be operands: what follows the left side of an assignment belongs to it, whatever stands
before it.
-/

set_option autoImplicit false

namespace LiveChain.Syntax

/-- Whether a node is an update, or a `yield` that hands out nothing: no primary expression. -/
def isCompound : Node → Bool
  | .other _ kind _ => kind == "update_expression" || kind == "yield_expression"
  | _ => false

/-- Whether a node is an instance made with `new`. -/
def isInstance : Node → Bool
  | .other _ kind _ => kind == "new_expression"
  | _ => false

def isSpread : Node → Bool
  | .other _ kind _ => kind == "spread_element"
  | _ => false

def expressionWords : List String :=
  ["class", "delete", "false", "function", "import", "new", "null", "super", "this", "true",
   "typeof", "void"]

def startsExpression (cs : List Char) : Bool :=
  let w := wordOf cs
  if !w.isEmpty then isIdentifier w || expressionWords.contains w
  else if punctuator cs == "!=" || punctuator cs == "!==" then false
  else startsNumber cs || cs.head?.any fun c => "\"'`([\x7b/+-!~#".toList.contains c

namespace Grammar

/-! ## Primary expressions -/

def templateRound (g : Grammar) (found : List Node) : Rule (Round (List Node) (List Node)) := do
  let c ← get
  match c.rest with
  | [] => failure
  | '`' :: _ =>
    let _ ← pass 1
    return .done found.reverse
  | '$' :: '{' :: _ =>
    let _ ← pass 2
    let inner ← g.expressions .inner
    punct "\x7d"
    let piece ← node c.place "template_substitution" [inner]
    return .again (piece :: found)
  | '\\' :: _ =>
    let n := escapeLength c.rest
    if n = 0 then failure
    else
      let _ ← pass n
      let piece ← node c.place "escape_sequence" []
      return .again (piece :: found)
  | _ =>
    let _ ← pass (fragmentLength c.rest)
    let piece ← node c.place "string_fragment" []
    return .again (piece :: found)

def template (g : Grammar) : Rule Node := do
  let start ← place
  punct "`"
  let pieces ← Rule.iterate g.templateRound []
  node start "template_string" pieces

/-- Parentheses: expressions between them, or the parameters of an arrow function. -/
def parenthesesRule (g : Grammar) (s : Setting) : Rule Node := do
  let start ← place
  let list ← g.elements
  if (← peekPunctuator) == "=>" then
    let parameters ← parametersFrom start list
    g.arrowTail s start parameters
  else if list.hasHole || list.trailing || list.items.any isSpread then failure
  else
    let inner ← sequenceOf list.items
    node start "parenthesized_expression" [inner]

/-- The word `async` as a name, perhaps `called`, or before the parameters of an arrow function. -/
def asyncRule (g : Grammar) (s : Setting) (called : Bool) : Rule Node := do
  let start ← place
  let name ← identifier
  let p ← peekPunctuator
  if ← endsIn s then return name
  else if p == "=>" then g.arrowTail s start name
  else if p == "(" then
    let behindName ← get
    let listStart ← place
    let list ← g.elements
    if (← peekPunctuator) == "=>" then
      let parameters ← parametersFrom listStart list
      g.arrowTail s start parameters
    else if called then return .call (← spanFrom start) name list.items
    else
      set behindName
      return name
  else if isIdentifier (← peekWord) && (← punctuatorAfterWord) == "=>" then
    let parameter ← identifier
    g.arrowTail s start parameter
  else return name

/-- The word `import` before a call or a point. -/
def importRule : Rule Node := do
  let start ← place
  keyword "import"
  if (← peekPunctuator) == "." && wordOf ((← upcoming).drop 1) == "meta" then
    punct "."
    keyword "meta"
    node start "meta_property" []
  else if ["(", ".", "?."].contains (← peekPunctuator) then node start "import" []
  else failure

/-- A word that is an expression by itself, or starts a function or a class. -/
def wordPrimary (g : Grammar) (s : Setting) (called : Bool) (w : String) : Rule Node := do
  let start ← place
  let literal (value : Literal) : Rule Node := do
    keyword w
    return .literal (← spanFrom start) value w
  match w with
  | "null" => literal .null
  | "true" => literal (.bool true)
  | "false" => literal (.bool false)
  | "this" => wordNode "this"
  | "super" => wordNode "super"
  | "undefined" => wordNode "undefined"
  | "function" => g.functionRule false
  | "class" => g.classRule false
  | "import" => importRule
  | "async" => if ← asyncFunctionAhead s then g.functionRule false else g.asyncRule s called
  | _ =>
    if !isName w then failure
    else
      let name ← identifier
      if (← peekPunctuator) == "=>" && !(← endsIn s) then g.arrowTail s start name
      else return name

/-- A literal, a name, a function or something between brackets. `called` says whether calls of it
can follow. -/
def primary (g : Grammar) (s : Setting) (called : Bool) : Rule Node := do
  let cs ← upcoming
  match cs with
  | [] => failure
  | c :: _ =>
    if c == '\'' || c == '"' then stringLiteral
    else if c == '`' then g.template
    else if c == '/' then regexLiteral
    else if c == '(' then g.parenthesesRule s
    else if c == '[' then g.arrayRule
    else if c == '{' then g.objectRule
    else if startsNumber cs then numberLiteral
    else g.wordPrimary s called (wordOf cs)

/-! ## Members and calls -/

def memberAccess (start : Place) (object : Node) : Rule Node := do
  let nameStart ← place
  let name ← if (← peekPunctuator) == "#" then privateName else word
  let nameSpan ← spanFrom nameStart
  return .member (← spanFrom start) object name nameSpan

def subscript (g : Grammar) (start : Place) (parts : List Node) : Rule Node := do
  punct "["
  let index ← g.expressions .inner
  punct "]"
  node start "subscript_expression" (parts ++ [index])

def callWith (g : Grammar) (start : Place) (callee : Node) : Rule Node := do
  let list ← g.elements
  return .call (← spanFrom start) callee list.items

/-- What follows a question mark and a point. Only a primary expression can be called so. -/
def optionalAccess (g : Grammar) (start : Place) (object : Node) : Rule Node := do
  let markStart ← place
  punct "?."
  let mark ← node markStart "optional_chain" []
  let p ← peekPunctuator
  if p == "(" then
    if isCompound object || isInstance object then failure else g.callWith start object
  else if p == "[" then g.subscript start [object, mark]
  else memberAccess start object

def tagged (g : Grammar) (start : Place) (tag : Node) : Rule Node := do
  let t ← g.template
  node start "call_expression" [tag, t]

/-- What may follow an expression in a chain: calls, and increments and decrements. -/
structure Links where
  calls : Bool
  updates : Bool

def chainRound (g : Grammar) (s : Setting) (links : Links) (start : Place) (object : Node) :
    Rule (Round Node Node) := do
  if ← endsIn s then return .done object
  else
    let p ← peekPunctuator
    if p == "." then
      punct "."
      .again <$> memberAccess start object
    else if p == "[" then .again <$> g.subscript start [object]
    else if p == "`" && !isCompound object then .again <$> g.tagged start object
    else if p == "?." then .again <$> g.optionalAccess start object
    else if p == "(" && links.calls then .again <$> g.callWith start object
    else if (p == "++" || p == "--") && links.updates then
      punct p
      .again <$> node start "update_expression" [object]
    else return .done object

/-- The links of a chain after its first expression. -/
def chainFrom (g : Grammar) (s : Setting) (links : Links) (start : Place) (head : Node) :
    Rule Node :=
  Rule.iterate (g.chainRound s links start) head

/-- An instance made with `new`, or the target of `new`. -/
def newRule (g : Grammar) (s : Setting) : Rule Node := do
  let start ← place
  keyword "new"
  if ← optionalPunct "." then
    keyword "target"
    node start "meta_property" []
  else
    let target ← g.constructible s
    if (← endsIn s) || (← peekPunctuator) != "(" then node start "new_expression" [target]
    else
      let argumentStart ← place
      let list ← g.elements
      let arguments ← node argumentStart "arguments" list.items
      node start "new_expression" [target, arguments]

/-- What `new` makes an instance of: another instance, or a primary expression or a template with
an instance as its tag, and member accesses. -/
def constructibleRule (g : Grammar) (s : Setting) : Rule Node := do
  let start ← place
  if (← peekWord) == "new" then
    let inner ← g.newRule s
    if isInstance inner && (← peekPunctuator) != "`" then return inner
    else g.chainFrom s ⟨false, false⟩ start inner
  else
    let head ← g.primary s false
    g.chainFrom s ⟨false, false⟩ start head

/-! ## Operands -/

/-- Operators that combine an operation with an assignment. -/
def augmentedOperators : List String :=
  ["+=", "-=", "*=", "/=", "%=", "^=", "&=", "|=", ">>=", ">>>=", "<<=", "**=", "&&=", "||=",
   "??="]

/-- What follows the left side of an assignment, or the left side alone. -/
def assignmentTail (g : Grammar) (s : Setting) (start : Place) (left : Node) : Rule Node := do
  let p ← peekPunctuator
  if p == "=" then
    match left.target? with
    | some target =>
      punct "="
      let value ← g.expression s
      node start "assignment_expression" [target, value]
    | Option.none => return left
  else if augmentedOperators.contains p && left.isChangeable then
    punct p
    let value ← g.expression s
    node start "augmented_assignment_expression" [left, value]
  else return left

/-- A chain after its first expression, or an assignment to it. -/
def chainTail (g : Grammar) (s : Setting) (updates : Bool) (start : Place) (head : Node) :
    Rule Node := do
  let chain ← g.chainFrom s ⟨true, updates⟩ start head
  if ← endsIn s then return chain else g.assignmentTail s start chain

def chainRule (g : Grammar) (s : Setting) (updates : Bool) : Rule Node := do
  let start ← place
  let head ← if (← peekWord) == "new" then g.newRule s else g.primary s true
  g.chainTail s updates start head

/-- The word `yield` and what it hands out, if an expression follows on. Where `in` is no operator,
neither is `of` a name. -/
def yieldRule (g : Grammar) (s : Setting) (updates : Bool) : Rule Node := do
  let start ← place
  keyword "yield"
  let ended ← endsIn s
  let star ← if ended then pure false else optionalPunct "*"
  let reserved := !s.allowIn && (← peekWord) == "of"
  if star || (!ended && !reserved && startsExpression (← upcoming)) then
    let inner ← g.expression s
    node start "yield_expression" [inner]
  else
    let bare ← node start "yield_expression" []
    g.chainTail s updates start bare

/-- A private name on the left of `in`; what is on the right binds tighter than that. -/
def privateOperand (rest : Rule Node) : Rule Node := do
  let start ← place
  let _ ← privateName
  let name ← node start "private_property_identifier" []
  keyword "in"
  return joined name (← rest)

/-- Reads a binary operator of at least a certain strength if one comes next, and gives its
strength. -/
def binaryOperator? (s : Setting) (least : Nat) : Rule (Option Nat) := do
  if ← endsIn s then return Option.none
  else
    let w ← peekWord
    let p ← peekPunctuator
    let operator := if w.isEmpty then p else w
    match bindingStrength? operator with
    | some strength =>
      if strength < least || (operator == "in" && !s.allowIn) then return Option.none
      else
        passTrivia
        let _ ← pass operator.length
        return some strength
    | Option.none => return Option.none

/-- Operands joined by binary operators of at least a certain strength. -/
def operandsFrom (s : Setting) (least : Nat) (operand : Rule Node) : Rule Node := do
  let first ← operand
  let rest ← Rule.iterate (fun (found : List (Nat × Node)) => do
    match ← binaryOperator? s least with
    | some strength =>
      let right ← operand
      return .again ((strength, right) :: found)
    | Option.none => return .done found.reverse) []
  return combine first rest

/-- An operand of a binary operator: unary operators before a chain, or an expression that
reaches as far as it can. Behind a chain, `updates` says whether it may be incremented. -/
def operandRule (g : Grammar) (s : Setting) (updates : Bool) : Rule Node := do
  let start ← place
  let w ← peekWord
  let p ← peekPunctuator
  if w == "typeof" || w == "void" || w == "delete" then
    keyword w
    let inner ← g.operand s true
    return .unary (← spanFrom start) w inner
  else if w == "await" then
    keyword w
    let inner ← g.operand s true
    node start "await_expression" [inner]
  else if w == "yield" then g.yieldRule s updates
  else if p == "-" || p == "+" || p == "!" || p == "~" then
    punct p
    let inner ← g.operand s true
    return .unary (← spanFrom start) p inner
  else if p == "++" || p == "--" then
    punct p
    let inner ← g.operand s false
    let update ← node start "update_expression" [inner]
    g.chainFrom s ⟨true, updates⟩ start update
  else if p == "#" then privateOperand (operandsFrom s 9 (g.operand s true))
  else g.chainRule s updates

/-! ## Whole expressions -/

def binaryRule (g : Grammar) (s : Setting) : Rule Node := operandsFrom s 0 (g.operandRule s true)

/-- An expression without commas: operands and operators, perhaps as the condition of a choice
between two expressions. -/
def expressionRule (g : Grammar) (s : Setting) : Rule Node := do
  let start ← place
  let test ← g.binaryRule s
  if ← endsIn s then return test
  else if startsChoice (← get).rest then
    punct "?"
    let yes ← g.expression .inner
    punct ":"
    let no ← g.expression s
    node start "ternary_expression" [test, yes, no]
  else return test

end Grammar

end LiveChain.Syntax
