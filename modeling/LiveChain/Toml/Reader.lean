import LiveChain.Text.Basic

/-!
# Reading a TOML document

A reader takes from the front of a text or fails with the reason why the text is no document.
-/

set_option autoImplicit false

namespace LiveChain

/-- Why a text is no TOML document: it breaks the format, or it has a decimal integer of more
digits than are read. -/
inductive TomlError where
  | malformed
  | tooLong (digits : Nat)
deriving DecidableEq, Repr

def TomlError.message : TomlError → String
  | .malformed => "the document is malformed"
  | .tooLong digits => "an integer has " ++ toString digits ++ " digits"

namespace Toml

/-- Reads from the front of a text and leaves the rest. -/
abbrev Reader (α : Type) := StateT (List Char) (Except TomlError) α

def reject {α : Type} : Reader α := throw .malformed

def require {α : Type} (result : Option α) : Reader α :=
  match result with
  | some a => pure a
  | none => reject

def requireRest {α : Type} (result : Option (α × List Char)) : Reader α := do
  let (a, rest) ← require result
  set rest
  return a

def peek : Reader (Option Char) := return (← get).head?

def expect (s : List Char) : Reader Unit := do
  let cs ← get
  if s.isPrefixOf cs then set (cs.drop s.length) else reject

/-- Passes a text if it comes next, and says whether it did. -/
def optional (s : List Char) : Reader Bool := do
  let cs ← get
  if s.isPrefixOf cs then
    set (cs.drop s.length)
    return true
  else return false

/-- Spaces and tabs. -/
def isGap (c : Char) : Bool := c == ' ' || c == '\t'

def isGapOrBreak (c : Char) : Bool := isGap c || c == '\n'

/-- Characters that may stand nowhere on a line: control characters other than the tab. -/
def isForbidden (c : Char) : Bool := (c.toNat < 0x20 && c != '\t') || c.toNat == 0x7F

def skipBlanks : Reader Unit := modify fun cs => cs.dropWhile isGap

/-- Passes a comment up to the end of its line, if one comes next. -/
def skipComment : Reader Unit := do
  let cs ← get
  match cs with
  | '#' :: body =>
    if (body.takeWhile (· ≠ '\n')).any isForbidden then reject
    else set (body.dropWhile (· ≠ '\n'))
  | _ => pure ()

/-- Passes white space, line breaks and comments, at most `fuel` comments. -/
def skipFillerUpTo : Nat → Reader Unit
  | 0 => pure ()
  | fuel + 1 => do
    modify fun cs => cs.dropWhile isGapOrBreak
    match ← peek with
    | some '#' =>
      skipComment
      skipFillerUpTo fuel
    | _ => pure ()

def skipFiller : Reader Unit := do skipFillerUpTo ((← get).length + 1)

end Toml

end LiveChain
