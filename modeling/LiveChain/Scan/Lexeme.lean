import LiveChain.Scan.Munch
import LiveChain.Value.Slots

/-!
# Lexemes of a snippet

A snippet is read as a sequence of lexemes with a little memory between them: whether an operand
has just ended, whether a point has just been read, and which braces and templates are open. A
lexeme may be an editable value.
-/

set_option autoImplicit false

namespace LiveChain.Scan

open Text

/-- After these words an expression starts, so `-1` and `/re/` are operands there. -/
def expressionKeywords : List String :=
  ["await", "case", "delete", "do", "else", "in", "instanceof", "new", "of", "return", "throw",
   "typeof", "void", "yield"]

/-- What is remembered from one lexeme to the next: whether an operand has just ended, whether a
point has just been read, how many braces are open, and at which of those depths a template
interpolation was opened, innermost first. -/
structure Mode where
  afterOperand : Bool
  afterDot : Bool
  depth : Int
  templates : List Int
deriving DecidableEq, Repr

def Mode.initial : Mode := ⟨false, false, 0, []⟩

def Mode.operand (mode : Mode) : Mode := { mode with afterOperand := true, afterDot := false }

/-- The memory after a lexeme that expects an operand. -/
def Mode.operator (mode : Mode) : Mode := { mode with afterOperand := false, afterDot := false }

/-- A lexeme: how long it is, what kind of editable value it is if any, and what is remembered
after it. -/
structure Lexeme where
  length : Nat
  kind : Option ValueKind
  next : Mode

/-- Template text after `before` characters that open it. -/
def templateLexeme (mode : Mode) (before : Nat) (cs : List Char) : Lexeme :=
  let (n, ending) := templateTail cs
  match ending with
  | .closed => ⟨before + n, none, mode.operand⟩
  | .interpolation =>
    ⟨before + n, none, { mode.operator with templates := mode.depth :: mode.templates }⟩
  | .unfinished => ⟨before + n, none, { mode with afterDot := false }⟩

/-- A single character that is no part of a longer lexeme. -/
def punctuation (mode : Mode) (c : Char) (cs : List Char) : Lexeme :=
  if c == '.' then ⟨1, none, { mode.operator with afterDot := true }⟩
  else if c == '{' then ⟨1, none, { mode.operator with depth := mode.depth + 1 }⟩
  else if c == '}' then
    match mode.templates with
    | opened :: outer =>
      if opened = mode.depth then templateLexeme { mode with templates := outer } 1 cs
      else ⟨1, none, { mode.operand with depth := mode.depth - 1 }⟩
    | [] => ⟨1, none, { mode.operand with depth := mode.depth - 1 }⟩
  else if c == ')' || c == ']' then ⟨1, none, mode.operand⟩
  else ⟨1, none, mode.operator⟩

/-- A name of `n` characters: a reference when it names a slot and is no property. -/
def nameLexeme (names : SlotNames) (mode : Mode) (n : Nat) (cs : List Char) : Lexeme :=
  let name := String.ofList (cs.take n)
  let kind := if mode.afterDot then none else names.kindOf? name
  ⟨n, kind, if expressionKeywords.contains name then mode.operator else mode.operand⟩

def wordLexeme (names : SlotNames) (mode : Mode) (c : Char) (cs : List Char) : Lexeme :=
  let n := nameLength (c :: cs)
  if n ≠ 0 then nameLexeme names mode n (c :: cs)
  else match c, cs with
    | '.', '.' :: '.' :: _ => ⟨3, none, mode.operator⟩
    | c, cs => punctuation mode c cs

/-- The length of a minus sign together with the number that follows it over white space and
comments. -/
def signedNumber? (cs : List Char) : Option Nat :=
  match gapLength? cs with
  | some gap => (numberAt? (cs.drop gap)).map fun n => 1 + gap + n
  | none => none

/-- A sign, or what is left when no sign stands first. -/
def signLexeme (names : SlotNames) (mode : Mode) (c : Char) (cs : List Char) : Lexeme :=
  match c, cs with
  | '+', '+' :: _ => ⟨2, none, { mode with afterDot := false }⟩
  | '-', '-' :: _ => ⟨2, none, { mode with afterDot := false }⟩
  | '-', cs =>
    match mode.afterOperand, signedNumber? cs with
    | false, some n => ⟨n, some .number, mode.operand⟩
    | _, _ => wordLexeme names mode '-' cs
  | c, cs => wordLexeme names mode c cs

/-- The length of a regular expression with its flags, where one may stand. -/
def regexLength? (mode : Mode) (c : Char) (cs : List Char) : Option Nat :=
  if c == '/' && !mode.afterOperand then
    (regexTail? false cs).map fun n => 1 + n + nameLength (cs.drop n)
  else none

/-- A lexeme that is neither white space nor a comment. -/
def solidLexeme (names : SlotNames) (mode : Mode) (c : Char) (cs : List Char) : Lexeme :=
  if c == '\'' || c == '"' then ⟨1 + stringTail c cs, none, mode.operand⟩
  else if c == '`' then templateLexeme mode 1 cs
  else match regexLength? mode c cs with
    | some n => ⟨n, none, mode.operand⟩
    | none =>
      match numberAt? (c :: cs) with
      | some n => ⟨n, some .number, mode.operand⟩
      | none => signLexeme names mode c cs

/-- The lexeme that the text `c :: cs` starts with. White space and comments leave the memory as
it is. -/
def lexeme (names : SlotNames) (mode : Mode) (c : Char) (cs : List Char) : Lexeme :=
  if isBlank c then ⟨1, none, mode⟩
  else match c, cs with
    | '/', '/' :: rest => ⟨2 + lineCommentLength rest, none, mode⟩
    | '/', '*' :: rest => ⟨2 + (blockTail? rest).getD rest.length, none, mode⟩
    | c, cs => solidLexeme names mode c cs

end LiveChain.Scan
