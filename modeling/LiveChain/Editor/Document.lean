import LiveChain.Editor.Range

/-!
# Documents

A document is a text that is read and changed between positions.
-/

set_option autoImplicit false

namespace LiveChain.Editor

open Text

/-- The offset of a position: the lines before it with their line feeds, and its column. Past the
end it is the end. -/
def offsetOf (document : List Char) (p : Position) : Int :=
  let all := lines document
  let before := all.take (cut all.length p.line)
  let ended := before.flatMap fun line => line ++ ['\n']
  min (ended.length + p.column) document.length

def read (document : List Char) (r : Range) : List Char :=
  let first := cut document.length (offsetOf document r.start)
  let last := cut document.length (offsetOf document r.stop)
  (document.take last).drop first

def write (document : List Char) (r : Range) (new : List Char) : List Char :=
  upTo document (offsetOf document r.start) ++ new ++ fromOn document (offsetOf document r.stop)

end LiveChain.Editor
