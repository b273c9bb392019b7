import LiveChain.Syntax.Words

/-!
# Literal tokens

How far literals reach. A length of zero, or none, means that no such literal stands there.
-/

set_option autoImplicit false

namespace LiveChain.Syntax

/-! ## Numbers -/

/-- Digits after a first one, with single underscores between digits. -/
def moreDigits (digit : Char → Bool) : List Char → Nat
  | [] => 0
  | c :: cs =>
    if digit c then 1 + moreDigits digit cs
    else match c, cs with
      | '_', d :: rest => if digit d then 2 + moreDigits digit rest else 0
      | _, _ => 0

/-- The length of a run of digits with single underscores between digits. -/
def digitRun (digit : Char → Bool) : List Char → Nat
  | [] => 0
  | c :: cs => if digit c then 1 + moreDigits digit cs else 0

/-- The digits that follow a leading zero and a base letter. -/
def digitsOfBase? (c : Char) : Option (Char → Bool) :=
  if c = 'x' ∨ c = 'X' then some isHex
  else if c = 'o' ∨ c = 'O' then some fun d => '0' ≤ d && d ≤ '7'
  else if c = 'b' ∨ c = 'B' then some fun d => d == '0' || d == '1'
  else none

def bigMark : List Char → Nat
  | 'n' :: _ => 1
  | _ => 0

def basedNumber? : List Char → Option Nat
  | '0' :: c :: cs =>
    match digitsOfBase? c with
    | some digit =>
      let run := digitRun digit cs
      if run = 0 then none else some (2 + run + bigMark (cs.drop run))
    | none => none
  | _ => none

/-- The length of an exponent with at least one digit, or zero. -/
def exponentPart : List Char → Nat
  | e :: cs =>
    if e == 'e' || e == 'E' then
      let sign := match cs with
        | '+' :: _ => 1
        | '-' :: _ => 1
        | _ => 0
      let run := digitRun Char.isDigit (cs.drop sign)
      if run = 0 then 0 else 1 + sign + run
    else 0
  | [] => 0

/-- Whether whole digits may be followed by a fraction or an exponent: a single zero, or digits
with a non-zero one first or directly after a zero. -/
def takesFraction : List Char → Bool
  | ['0'] => true
  | '0' :: d :: _ => d.isDigit && d != '0'
  | _ => true

def plainNumber? (cs : List Char) : Option Nat :=
  let whole := digitRun Char.isDigit cs
  if whole = 0 then
    match cs with
    | '.' :: rest =>
      let run := digitRun Char.isDigit rest
      if run = 0 then none else some (1 + run + exponentPart (rest.drop run))
    | _ => none
  else
    let rest := cs.drop whole
    if bigMark rest = 1 then some (whole + 1)
    else if takesFraction (cs.take whole) then
      match rest with
      | '.' :: more =>
        let run := digitRun Char.isDigit more
        some (whole + 1 + run + exponentPart (more.drop run))
      | _ => some (whole + exponentPart rest)
    else some whole

/-- The length of the numeric literal that a text starts with. -/
def numberToken? (cs : List Char) : Option Nat := (basedNumber? cs).or (plainNumber? cs)

/-! ## Strings and templates -/

/-- The length of the escape that starts with a backslash, or zero when it is malformed. -/
def escapeLength : List Char → Nat
  | '\\' :: 'x' :: cs => if (cs.take 2).length = 2 && (cs.take 2).all isHex then 4 else 0
  | '\\' :: 'u' :: cs => wordEscape ('\\' :: 'u' :: cs)
  | '\\' :: '\r' :: '\n' :: _ => 3
  | '\\' :: c :: cs =>
    if '0' ≤ c && c ≤ '7' then
      2 + ((cs.take 2).takeWhile fun d => '0' ≤ d && d ≤ '7').length
    else 2
  | _ => 0

/-- The length of a string after its opening quote, through the closing one. The first argument
is what is left of an escape. -/
def stringFrom? (quote : Char) : Nat → List Char → Option Nat
  | _, [] => none
  | skip + 1, _ :: cs => (stringFrom? quote skip cs).map (· + 1)
  | 0, c :: cs =>
    if c == quote then some 1
    else if c == '\n' || c == '\r' then none
    else if c == '\\' then
      let n := escapeLength (c :: cs)
      if n = 0 then none else (stringFrom? quote (n - 1) cs).map (· + 1)
    else (stringFrom? quote 0 cs).map (· + 1)

/-- The length of the string literal that a text starts with. -/
def stringToken? : List Char → Option Nat
  | [] => none
  | c :: cs => if c == '\'' || c == '"' then (stringFrom? c 0 cs).map (· + 1) else none

/-- The length of template text up to an escape, an interpolation or the end of the template. -/
def fragmentLength : List Char → Nat
  | [] => 0
  | '`' :: _ => 0
  | '\\' :: _ => 0
  | '$' :: '{' :: _ => 0
  | _ :: cs => 1 + fragmentLength cs

/-! ## Regular expressions -/

/-- The length of a regular expression's pattern up to the slash that closes it; none when the
line ends first. -/
def regexFrom? (inClass : Bool) : List Char → Option Nat
  | [] => none
  | '\n' :: _ => none
  | '\\' :: c :: cs => if c == '\n' then none else (regexFrom? inClass cs).map (· + 2)
  | c :: cs =>
    if c == '/' && !inClass then some 0
    else (regexFrom? (c == '[' || (inClass && c != ']')) cs).map (· + 1)

/-- The length of the pattern after an opening slash, which is not empty. -/
def regexBody? (cs : List Char) : Option Nat := (regexFrom? false cs).filter (· ≠ 0)

/-- The length of the flags after a closing slash. -/
def regexFlags (cs : List Char) : Nat := (cs.takeWhile fun c => 'a' ≤ c && c ≤ 'z').length

end LiveChain.Syntax
