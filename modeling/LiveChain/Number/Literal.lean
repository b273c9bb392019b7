import LiveChain.Number.Basic
import LiveChain.Number.Reading

/-!
# Number literals

The text of a numeric literal as a number. Separators and the big-integer suffix do not matter;
then a prefix decides the base, a leading zero before octal digits means base eight, a point or an
exponent makes a double, and everything else is a decimal integer.
-/

set_option autoImplicit false

namespace LiveChain.NumberLiteral

open Text

/-- The notation of a literal, with what is left to read. -/
inductive Form where
  | prefixed (base : Nat) (digits : List Char)
  | octal (digits : List Char)
  | float (text : List Char)
  | decimal (text : List Char)

/-- A literal without separators and without the big-integer suffix. -/
def bare (raw : List Char) : List Char :=
  let text := raw.filter (· ≠ '_')
  if text.getLast? = some 'n' then text.dropLast else text

/-- The base that the character after a leading zero stands for. -/
def baseOf? (c : Char) : Option Nat :=
  if c = 'x' ∨ c = 'X' then some 16
  else if c = 'o' ∨ c = 'O' then some 8
  else if c = 'b' ∨ c = 'B' then some 2
  else none

def isOctalDigit (c : Char) : Bool := '0' ≤ c && c ≤ '7'

/-- A decimal or floating-point notation, told apart by a point or an exponent mark. -/
def plainForm (text : List Char) : Form :=
  if text.any fun c => c == '.' || c == 'e' || c == 'E' then .float text else .decimal text

/-- The notation of a literal without separators and suffix. -/
def formOfBare (text : List Char) : Form :=
  match text with
  | '0' :: c :: rest =>
    match baseOf? c with
    | some base => .prefixed base rest
    | none =>
      if text.all isDigitLike then
        if text.all isOctalDigit then .octal text else .decimal text
      else plainForm text
  | _ => plainForm text

def form (raw : List Char) : Form := formOfBare (bare raw)

def decimalValue? (text : List Char) : Option Int :=
  let (negative, body) := splitSign (stripPadding text)
  (positional? 10 body).map fun n => if negative then -(n : Int) else n

def Form.value? : Form → Option Number
  | .prefixed base digits =>
    (positional? base (digits.reverse.dropWhile isPadding).reverse).map fun n => .int n
  | .octal digits => (positional? 8 digits).map fun n => .int n
  | .float text => (readFloat? text).map .float
  | .decimal text => (decimalValue? text).map .int

/-- The number that a literal denotes, whatever its length. -/
def value? (raw : List Char) : Option Number := (form raw).value?

/-- The number of digits of a decimal integer literal that has more than `digitLimit` of them. -/
def excess? (raw : List Char) : Option Nat :=
  match form raw with
  | .decimal text =>
    let count := (splitSign (stripPadding text)).2.length
    if digitLimit < count then some count else none
  | _ => none

/-- The number that a literal denotes, or why it is not read. -/
def read (raw : List Char) : Except IntError Number :=
  match value? raw with
  | none => .error .malformed
  | some n =>
    match excess? raw with
    | some digits => .error (.tooLong digits)
    | none => .ok n

end LiveChain.NumberLiteral
