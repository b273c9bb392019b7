import LiveChain.Text.Basic

/-!
# Positions and ranges in an editor

Lines and columns count from zero. A line, a document or the block of lines around a cursor can be
evaluated as a whole.
-/

set_option autoImplicit false

namespace LiveChain.Editor

open Text

/-- A line and a column, counted from zero. -/
structure Position where
  line : Int
  column : Int
deriving DecidableEq, Repr, Inhabited

def Position.next (p : Position) (c : Char) : Position :=
  if c = '\n' then ⟨p.line + 1, 0⟩ else ⟨p.line, p.column + 1⟩

/-- The position behind a text that is inserted at a position. -/
def Position.after (p : Position) (cs : List Char) : Position := cs.foldl Position.next p

structure Range where
  start : Position
  stop : Position
deriving DecidableEq, Repr, Inhabited

/-- Whether a change of some lines lies within the lines of a range. -/
def Range.containsLines (r : Range) (first last : Int) : Bool :=
  r.start.line ≤ first && last ≤ r.stop.line

/-- One line, up to the start of the next. -/
def lineRange (line : Int) : Range := ⟨⟨line, 0⟩, ⟨line + 1, 0⟩⟩

def documentRange (lineCount : Int) : Range := ⟨⟨0, 0⟩, ⟨lineCount, 0⟩⟩

/-! ## Blocks -/

def isBlankLine (line : List Char) : Bool := (strip line).isEmpty

/-- The first line of the block that ends before line `n`: lines are taken upwards until a blank
one. None when a line does not exist. -/
def blockStart? (textLines : List (List Char)) : Nat → Option Nat
  | 0 => some 0
  | n + 1 =>
    match textLines[n]? with
    | none => none
    | some line => if isBlankLine line then some (n + 1) else blockStart? textLines n

/-- The last line of the block that starts at a line: at most `fuel` lines are taken downwards
until a blank one. None when a line does not exist. -/
def blockEnd? (textLines : List (List Char)) : Nat → Int → Option Int
  | 0, last => some last
  | fuel + 1, last =>
    match entry? textLines (last + 1) with
    | none => none
    | some line => if isBlankLine line then some last else blockEnd? textLines fuel (last + 1)

/-- The lines around a cursor up to the next blank ones or the ends of the document, up to the
start of the line after them. None when the cursor leads to lines that do not exist. -/
def blockRange? (textLines : List (List Char)) (cursor : Int) : Option Range := do
  let first ←
    if cursor ≤ 0 then some cursor
    else (blockStart? textLines cursor.toNat).map fun (n : Nat) => (n : Int)
  let last ← blockEnd? textLines ((textLines.length : Int) - 1 - cursor).toNat cursor
  return ⟨⟨first, 0⟩, ⟨last + 1, 0⟩⟩

end LiveChain.Editor
