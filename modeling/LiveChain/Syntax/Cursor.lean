import LiveChain.Syntax.Node

/-!
# Places in a text

A cursor is what is left to read of a text, with the line, the column and the offset where it starts.
-/

set_option autoImplicit false

namespace LiveChain

/-- Line, column and offset of a character. Only a line feed starts a new line. -/
structure Place where
  line : Nat
  column : Nat
  offset : Nat
deriving DecidableEq, Repr, Inhabited

def Place.origin : Place := ⟨0, 0, 0⟩

def Place.next (p : Place) (c : Char) : Place :=
  if c = '\n' then ⟨p.line + 1, 0, p.offset + 1⟩ else ⟨p.line, p.column + 1, p.offset + 1⟩

def Place.after (p : Place) (cs : List Char) : Place := cs.foldl Place.next p

def Span.between (a b : Place) : Span :=
  ⟨a.line, a.column, b.line, b.column, a.offset, b.offset⟩

/-- The span from the start of one span to the end of another. -/
def Span.cover (a b : Span) : Span :=
  ⟨a.startLine, a.startColumn, b.endLine, b.endColumn, a.startOffset, b.endOffset⟩

/-- What is left to read of a text, and where it starts. -/
structure Cursor where
  place : Place
  rest : List Char
deriving Inhabited

def Cursor.start (text : List Char) : Cursor := ⟨.origin, text⟩

/-- Passes `n` characters. -/
def Cursor.skip (c : Cursor) (n : Nat) : Cursor := ⟨c.place.after (c.rest.take n), c.rest.drop n⟩

end LiveChain
