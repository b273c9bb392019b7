import LiveChain.Text.Basic

/-!
# How far a lexeme reaches

Each function looks at the start of a text and says how many characters belong to one lexeme
there. Nothing here knows what stood before.
-/

set_option autoImplicit false

namespace LiveChain.Scan

open Text

/-! ## Names -/

/-- The length of the name that a text starts with, or zero. -/
def nameLength : List Char → Nat
  | [] => 0
  | c :: cs => if isNameStart c then 1 + (cs.takeWhile isNamePart).length else 0

/-! ## Numbers -/

def isHexDigit (c : Char) : Bool :=
  c.isDigit || ('a' ≤ c && c ≤ 'f') || ('A' ≤ c && c ≤ 'F')

/-- The digits of a base, for the character after a leading zero that announces the base. -/
def baseDigits? (c : Char) : Option (Char → Bool) :=
  if c = 'x' ∨ c = 'X' then some isHexDigit
  else if c = 'o' ∨ c = 'O' then some fun d => '0' ≤ d && d ≤ '7'
  else if c = 'b' ∨ c = 'B' then some fun d => d == '0' || d == '1'
  else none

/-- The length of the run of digits and underscores that a text starts with. -/
def runLength (digit : Char → Bool) (cs : List Char) : Nat :=
  (cs.takeWhile fun c => digit c || c == '_').length

def suffixLength : List Char → Nat
  | 'n' :: _ => 1
  | _ => 0

/-- A run that starts with a decimal digit. -/
def digitsLength : List Char → Nat
  | [] => 0
  | c :: cs => if isDecimal c then 1 + runLength isDecimal cs else 0

/-- The length of an exponent; zero when no digit follows its mark and sign. -/
def exponentLength : List Char → Nat
  | e :: cs =>
    if e == 'e' || e == 'E' then
      let sign := match cs with
        | '+' :: _ => 1
        | '-' :: _ => 1
        | _ => 0
      let digits := digitsLength (cs.drop sign)
      if digits = 0 then 0 else 1 + sign + digits
    else 0
  | [] => 0

/-- The length of a fraction after whole digits: a point and any digits. -/
def fractionLength : List Char → Nat
  | '.' :: cs => 1 + runLength isDecimal cs
  | _ => 0

/-- Adds an exponent and a suffix to the `n` characters of a decimal. -/
def withTail (cs : List Char) (n : Nat) : Nat :=
  let m := n + exponentLength (cs.drop n)
  m + suffixLength (cs.drop m)

def decimalLength? : List Char → Option Nat
  | [] => none
  | c :: cs =>
    if isDecimal c then
      let whole := 1 + runLength isDecimal cs
      some (withTail (c :: cs) (whole + fractionLength ((c :: cs).drop whole)))
    else if c == '.' then
      let digits := digitsLength cs
      if digits = 0 then none else some (withTail (c :: cs) (1 + digits))
    else none

def prefixedLength? : List Char → Option Nat
  | '0' :: c :: cs =>
    match baseDigits? c with
    | some digit =>
      let run := runLength digit cs
      if run = 0 then none else some (2 + run + suffixLength (cs.drop run))
    | none => none
  | _ => none

/-- The length of the numeric literal that a text starts with. -/
def numberLength? (cs : List Char) : Option Nat :=
  (prefixedLength? cs).or (decimalLength? cs)

/-- The length of a number at a place where a digit, or a point and a digit, stands. -/
def numberAt? (cs : List Char) : Option Nat :=
  match cs with
  | [] => none
  | '.' :: d :: _ => if isDigitLike d then numberLength? cs else none
  | c :: _ => if isDigitLike c then numberLength? cs else none

/-! ## Comments -/

def lineCommentLength (cs : List Char) : Nat := (cs.takeWhile (· ≠ '\n')).length

/-- The length of a block comment after its opening, through its end. -/
def blockTail? : List Char → Option Nat
  | [] => none
  | '*' :: '/' :: _ => some 2
  | _ :: cs => (blockTail? cs).map (· + 1)

/-- The length of the white space and closed comments that a text starts with; none when a
comment is not closed. The first argument counts the characters of a comment still to be
passed. -/
def gapFrom? : Nat → List Char → Option Nat
  | _, [] => some 0
  | skip + 1, _ :: cs => (gapFrom? skip cs).map (· + 1)
  | 0, c :: cs =>
    if isBlank c then (gapFrom? 0 cs).map (· + 1)
    else if c == '/' then
      match cs with
      | '*' :: rest =>
        match blockTail? rest with
        | some n => (gapFrom? (1 + n) cs).map (· + 1)
        | none => none
      | '/' :: _ =>
        if cs.contains '\n' then (gapFrom? (lineCommentLength cs) cs).map (· + 1) else none
      | _ => some 0
    else some 0

/-- The length of the white space and closed comments that a text starts with. -/
def gapLength? (cs : List Char) : Option Nat := gapFrom? 0 cs

/-! ## Quoted literals -/

/-- The length of a string literal after its opening quote. It ends at the quote or at a line
feed; a backslash takes the next character with it. -/
def stringTail (quote : Char) : List Char → Nat
  | [] => 0
  | '\\' :: _ :: cs => 2 + stringTail quote cs
  | c :: cs => if c == '\\' || c == quote || c == '\n' then 1 else 1 + stringTail quote cs

inductive TemplateEnd where
  | closed
  | interpolation
  | unfinished
deriving DecidableEq, Repr

/-- The length of template text through its closing backtick or the opening of an
interpolation. -/
def templateTail : List Char → Nat × TemplateEnd
  | [] => (0, .unfinished)
  | '\\' :: _ :: cs =>
    let (n, ending) := templateTail cs
    (n + 2, ending)
  | '`' :: _ => (1, .closed)
  | '$' :: '{' :: _ => (2, .interpolation)
  | _ :: cs =>
    let (n, ending) := templateTail cs
    (n + 1, ending)

/-- The length of a regular expression after its opening slash, through the closing one; none
when the line ends first. A slash inside a character class does not close it. -/
def regexTail? (inClass : Bool) : List Char → Option Nat
  | [] => none
  | '\n' :: _ => none
  | '\\' :: _ :: cs => (regexTail? inClass cs).map (· + 2)
  | c :: cs =>
    if c == '\\' then none
    else if c == '/' && !inClass then some 1
    else (regexTail? (c == '[' || (inClass && c != ']')) cs).map (· + 1)

end LiveChain.Scan
