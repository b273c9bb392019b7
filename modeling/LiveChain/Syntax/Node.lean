import LiveChain.Number.Basic

/-!
# Syntax trees

What value discovery needs to know of a snippet: calls, member accesses, unary operators,
identifiers and literals. Every other construct keeps its name and its parts.
-/

set_option autoImplicit false

namespace LiveChain

structure Span where
  startLine : Int
  startColumn : Int
  endLine : Int
  endColumn : Int
  startOffset : Int
  endOffset : Int
deriving DecidableEq, Repr, Inhabited

def Span.length (s : Span) : Int := s.endOffset - s.startOffset

inductive Literal where
  | null
  | bool (b : Bool)
  | number (n : Number)
  | text (s : String)
deriving DecidableEq, Inhabited

/-- A syntax node. A member access holds its property as a name, not as a node. -/
inductive Node where
  | literal (span : Span) (value : Literal) (raw : String)
  | identifier (span : Span) (name : String)
  | member (span : Span) (object : Node) (property : String) (propertySpan : Span)
  | call (span : Span) (callee : Node) (arguments : List Node)
  | unary (span : Span) (operator : String) (argument : Node)
  | other (span : Span) (kind : String) (nodes : List Node)
deriving Inhabited

structure Program where
  span : Span
  body : List Node
deriving Inhabited

namespace Node

def span : Node → Span
  | .literal s _ _ => s
  | .identifier s _ => s
  | .member s _ _ _ => s
  | .call s _ _ => s
  | .unary s _ _ => s
  | .other s _ _ => s

def children : Node → List Node
  | .literal _ _ _ => []
  | .identifier _ _ => []
  | .member _ object _ _ => [object]
  | .call _ callee arguments => callee :: arguments
  | .unary _ _ argument => [argument]
  | .other _ _ nodes => nodes

/-- The name that a callee is called by and the column of that name: an identifier's own, or the
property of a member access. Other callees have none. -/
def calleeName? : Node → Option (String × Int)
  | .identifier s name => some (name, s.startColumn)
  | .member _ _ property s => some (property, s.startColumn)
  | _ => none

end Node

end LiveChain
