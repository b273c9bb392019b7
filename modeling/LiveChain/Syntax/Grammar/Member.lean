import LiveChain.Syntax.Grammar.Function

/-!
# Members of objects and classes

Members of objects and classes have a key, which may be a word, a literal or an expression between
brackets. Words such as `get` and `static` are keys themselves unless a key follows them.
-/

set_option autoImplicit false

namespace LiveChain.Syntax

def startsNumber (cs : List Char) : Bool := (numberToken? cs).isSome

def privateName : Rule String := do
  passTrivia
  match (← get).rest with
  | '#' :: cs =>
    let n := wordLength cs
    if n = 0 then failure else pass (n + 1)
  | _ => failure

def startsKey (cs : List Char) : Bool :=
  wordLength cs != 0 || startsNumber cs || cs.head?.any fun c => "\"'[#".toList.contains c

/-- Reads `w` when it comes before a key or another `follower`, rather than being a key. In a
class, a member may end behind its key. -/
def modifier (inClass : Bool) (followers : List String) (w : String) : Rule Bool := do
  let rest ← behindWord
  let after ← upcomingAfterWord
  if (← peekWord) == w && (startsKey after || followers.contains (punctuator after)) &&
      !(inClass && statementEnds true rest) then
    keyword w
    return true
  else return false

/-- Reads the words and the star before the key of a method, and says whether there were any. A
member does not end behind `async` and a second word. -/
def methodModifiers (inClass : Bool) : Rule Bool := do
  let isAsync ← modifier inClass ["*"] "async"
  let getter ← modifier (inClass && !isAsync) [] "get"
  let setter ← if getter then pure false else modifier (inClass && !isAsync) [] "set"
  let star ← if getter || setter then pure false else optionalPunct "*"
  return isAsync || getter || setter || star

namespace Grammar

/-- The key of a member: a name, a private name, a string, a number or an expression in
brackets. -/
def propertyKey (g : Grammar) : Rule Node := do
  let start ← place
  let cs := (← get).rest
  match cs with
  | '[' :: _ =>
    punct "["
    let inner ← g.expression .inner
    punct "]"
    node start "computed_property_name" [inner]
  | '"' :: _ => stringLiteral
  | '\'' :: _ => stringLiteral
  | '#' :: _ =>
    let _ ← privateName
    node start "private_property_identifier" []
  | _ => if startsNumber cs then numberLiteral else wordNode "property_identifier"

def method (g : Grammar) (start : Place) (key : Node) : Rule Node := do
  let rest ← g.signature true
  node start "method_definition" (key :: rest)

/-- What follows a key without modifiers in an object: a value, or nothing after a plain name,
which may have a default value. -/
def plainMember (g : Grammar) (start : Place) (key : Node) : Rule Node := do
  if ← optionalPunct ":" then
    let value ← g.element
    node start "pair" [key, value]
  else match key with
    | .other span "property_identifier" _ =>
      match ← g.initializer? .inner with
      | some value =>
        node start "object_assignment_pattern"
          [.other span "shorthand_property_identifier_pattern" [], value]
      | Option.none => return .other span "shorthand_property_identifier" []
    | _ => failure

def objectMember (g : Grammar) : Rule Node := do
  let start ← place
  if ← optionalPunct "..." then
    let inner ← g.expression .inner
    node start "spread_element" [inner]
  else
    let isStatic ← modifier false ["*"] "static"
    let modified ← methodModifiers false
    let key ← g.propertyKey
    if (← peekPunctuator) == "(" then g.method start key
    else if isStatic || modified then failure
    else g.plainMember start key

def objectRule (g : Grammar) : Rule Node := do
  let start ← place
  punct "\x7b"
  let members ← commaList "\x7d" g.objectMember
  node start "object" members.items

def field (g : Grammar) (start : Place) (key : Node) : Rule Node := do
  let value ← g.initializer? .last
  let member ← node start "field_definition" (key :: value.toList)
  endStatement value.isNone
  return member

/-- A member of a class: a method, a field or a block of statements. -/
def classMember (g : Grammar) : Rule Node := do
  let start ← place
  let isStatic ← modifier true ["*", "\x7b"] "static"
  if isStatic && (← peekPunctuator) == "\x7b" then
    let body ← g.block true
    node start "class_static_block" [body]
  else
    let modified ← methodModifiers true
    let key ← g.propertyKey
    let ended ← if modified then pure false else endsHere true
    if !ended && (← peekPunctuator) == "(" then g.method start key
    else if modified then failure
    else g.field start key

def classBody (g : Grammar) : Rule Node := do
  let start ← place
  punct "\x7b"
  let members ← Rule.iterate (fun (found : List Node) => do
    if ← optionalPunct "\x7d" then return .done found.reverse
    else if ← optionalPunct ";" then return .again found
    else
      let next ← g.classMember
      return .again (next :: found)) []
  node start "class_body" members

/-- A class: a name, which a declaration has, a base class and a body. -/
def classRule (g : Grammar) (declared : Bool) : Rule Node := do
  let start ← place
  keyword "class"
  let name ← if isIdentifier (← peekWord) then some <$> identifier else pure Option.none
  if declared && name.isNone then failure
  else
    let baseStart ← place
    let base ←
      if ← optionalKeyword "extends" then
        let inner ← g.expression .inner
        some <$> node baseStart "class_heritage" [inner]
      else pure Option.none
    let body ← g.classBody
    node start (if declared then "class_declaration" else "class")
      (name.toList ++ base.toList ++ [body])

end Grammar

end LiveChain.Syntax
