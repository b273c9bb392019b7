import LiveChain.Number.Binary64
import LiveChain.Text.Basic

/-!
# Reading numbers from text

Integers and floating-point numbers as people type them: padded with white space, signed, with
decimal digits of any script and single underscores between digits.
-/

set_option autoImplicit false

namespace LiveChain

open Text

/-! ## Digits -/

/-- Every decimal digit of another script as its ASCII form. -/
def asciiDigits (cs : List Char) : List Char :=
  cs.map fun c => match digitValue? c with
    | some d => Char.ofNat (48 + d)
    | none => c

def stripPadding (cs : List Char) : List Char :=
  ((cs.dropWhile isPadding).reverse.dropWhile isPadding).reverse

/-- Splits off a sign; `true` stands for minus. -/
def splitSign : List Char → Bool × List Char
  | '-' :: rest => (true, rest)
  | '+' :: rest => (false, rest)
  | cs => (false, cs)

/-- The value of a digit: decimal digits of any script, then the letters `a` to `f`. -/
def digitIn? (base : Nat) (c : Char) : Option Nat :=
  let value :=
    match digitValue? c with
    | some d => some d
    | none =>
      if 'a' ≤ c ∧ c ≤ 'f' then some (c.toNat - 'a'.toNat + 10)
      else if 'A' ≤ c ∧ c ≤ 'F' then some (c.toNat - 'A'.toNat + 10)
      else none
  value.filter (· < base)

/-- The value of a digit sequence continued from `acc`. -/
def positionalFrom? (base : Nat) : Nat → List Char → Option Nat
  | acc, [] => some acc
  | acc, c :: cs =>
    match digitIn? base c with
    | some d => positionalFrom? base (acc * base + d) cs
    | none => none

/-- The value of a non-empty digit sequence in a base. -/
def positional? (base : Nat) (cs : List Char) : Option Nat :=
  if cs.isEmpty then none else positionalFrom? base 0 cs

/-! ## Integers -/

/-- The most decimal digits an integer may have to be read from or shown as text. -/
def digitLimit : Nat := 4300

inductive IntError where
  | malformed
  | tooLong (digits : Nat)
deriving DecidableEq

/-- The text that says that an integer has more digits than are read. -/
def tooManyDigits (digits : Nat) : String :=
  "Exceeds the limit (4300 digits) for integer string conversion: value has " ++
    toString digits ++ " digits; use sys.set_int_max_str_digits() to increase the limit"

/-- Whether underscores stand only singly and between other characters. -/
def wellSeparated : List Char → Bool
  | [] => true
  | '_' :: _ => false
  | _ :: '_' :: [] => false
  | _ :: '_' :: rest => wellSeparated rest
  | _ :: rest => wellSeparated rest

/-- Reads a decimal integer of at most `digitLimit` digits. -/
def readInt (cs : List Char) : Except IntError Int :=
  let (negative, body) := splitSign (stripPadding cs)
  let run := body.takeWhile fun c => isDecimal c || c == '_'
  let rest := body.dropWhile fun c => isDecimal c || c == '_'
  let digits := run.filter (· ≠ '_')
  if !wellSeparated run then .error .malformed
  else if digitLimit < digits.length then .error (.tooLong digits.length)
  else if !rest.isEmpty then .error .malformed
  else match positional? 10 digits with
    | some n => .ok (if negative then -(n : Int) else n)
    | none => .error .malformed

/-- The digits of an integer, unless there are more than may be shown. -/
def showInt? (n : Int) : Option String :=
  let text := toString n
  if digitLimit < (toString n.natAbs).length then none else some text

/-! ## Floating-point numbers -/

/-- Reads an exponent: an optional sign and at least one digit. -/
def readExponent? (cs : List Char) : Option Int :=
  let (negative, body) := splitSign cs
  if body.all Char.isDigit then
    (positional? 10 body).map fun n => if negative then -(n : Int) else n
  else none

/-- Reads an unsigned decimal: digits with at most one point and at least one digit, and an
optional exponent. -/
def readDecimal? (negative : Bool) (cs : List Char) : Option Binary64 :=
  let whole := cs.takeWhile Char.isDigit
  let afterWhole := cs.dropWhile Char.isDigit
  let (fraction, tail) :=
    match afterWhole with
    | '.' :: more => (more.takeWhile Char.isDigit, more.dropWhile Char.isDigit)
    | other => ([], other)
  match positional? 10 (whole ++ fraction) with
  | none => none
  | some digits =>
    match tail with
    | [] => some (.ofDecimal negative digits (-(fraction.length : Int)))
    | e :: more =>
      if e == 'e' || e == 'E' then
        (readExponent? more).map fun x => .ofDecimal negative digits (x - fraction.length)
      else none

/-- The spellings of infinity and not-a-number, in any case. -/
def readSpecial? (negative : Bool) (cs : List Char) : Option Binary64 :=
  let word := String.ofList (cs.map Char.toLower)
  if word == "inf" || word == "infinity" then some (.infinite negative)
  else if word == "nan" then some .nan
  else none

/-- Reads a signed floating-point number without padding or separators. -/
def readSigned? (cs : List Char) : Option Binary64 :=
  let (negative, body) := splitSign cs
  (readSpecial? negative body).or (readDecimal? negative body)

/-- Whether every underscore stands between two digits. -/
def digitsAroundSeparators : Bool → List Char → Bool
  | _, [] => true
  | afterDigit, '_' :: rest =>
    afterDigit && (match rest with | c :: _ => c.isDigit | [] => false) &&
      digitsAroundSeparators false rest
  | _, c :: rest => digitsAroundSeparators c.isDigit rest

/-- Reads a floating-point number: padding around it, a sign, digits of any script, and
underscores between digits. -/
def readFloat? (cs : List Char) : Option Binary64 :=
  let text := asciiDigits (stripPadding cs)
  if digitsAroundSeparators false text then readSigned? (text.filter (· ≠ '_')) else none

end LiveChain
