/-!
# Concrete trees

What a parser makes of the bytes of a text: a tree with all tokens in it, also punctuators, which
have no name, and comments. Positions count bytes.
-/

set_option autoImplicit false

namespace LiveChain.Syntax

/-- A place in a text: the line feeds before it, and the bytes since the last one. -/
structure Point where
  row : Nat
  column : Nat
deriving DecidableEq, Repr

/-- What a node is, which field of its parent it fills, and where it stands. -/
structure Site where
  kind : String
  named : Bool
  field : Option String
  start : Nat
  stop : Nat
  startPoint : Point
  stopPoint : Point
deriving DecidableEq, Repr

/-- A node with its children in the order of the text. -/
inductive ParseTree where
  | node (site : Site) (children : List ParseTree)

namespace ParseTree

def site : ParseTree → Site
  | .node site _ => site

def children : ParseTree → List ParseTree
  | .node _ children => children

/-- The first of some children that fills a field. -/
def field? (name : String) (children : List ParseTree) : Option ParseTree :=
  children.find? fun t => t.site.field == some name

end ParseTree

/-- The outcome of parsing: a tree, and whether the text breaks the grammar. -/
structure Parsed where
  hasError : Bool
  root : ParseTree

end LiveChain.Syntax
