import LiveChain.Number.Basic
import LiveChain.Number.Reading
import LiveChain.Toml.Reader

/-!
# Numbers in a TOML document

Integers in four bases, decimals and the special doubles. Digits may have single underscores between
them.
-/

set_option autoImplicit false

namespace LiveChain.Toml

/-- How many characters at the start of a text belong to digits with single underscores between
them, after a digit. -/
def digitTail (isDigit : Char → Bool) : List Char → Nat
  | '_' :: c :: rest => if isDigit c then digitTail isDigit rest + 2 else 0
  | c :: rest => if isDigit c then digitTail isDigit rest + 1 else 0
  | [] => 0

/-- How many characters at the start of a text are digits with single underscores between
them. -/
def digitRun (isDigit : Char → Bool) : List Char → Nat
  | c :: rest => if isDigit c then digitTail isDigit rest + 1 else 0
  | [] => 0

def isDigitOf (base : Nat) (c : Char) : Bool := c.isAlphanum && (digitIn? base c).isSome

def basedInteger? (base : Nat) (cs : List Char) : Option (Number × List Char) :=
  let n := digitRun (isDigitOf base) cs
  if n = 0 then none
  else (positional? base ((cs.take n).filter (· ≠ '_'))).map fun value =>
    (.int value, cs.drop n)

/-- The length of the whole part of a decimal: a zero, or digits that do not start with one. -/
def wholeLength : List Char → Nat
  | '0' :: _ => 1
  | cs => digitRun Char.isDigit cs

def fractionLength : List Char → Nat
  | '.' :: rest =>
    let n := digitRun Char.isDigit rest
    if n = 0 then 0 else n + 1
  | _ => 0

/-- The length of an exponent: its mark, perhaps a sign, and digits. -/
def exponentLength : List Char → Nat
  | e :: rest =>
    if e == 'e' || e == 'E' then
      let sign := match rest with
        | '+' :: _ => 1
        | '-' :: _ => 1
        | _ => 0
      let n := digitRun Char.isDigit (rest.drop sign)
      if n = 0 then 0 else n + sign + 1
    else 0
  | [] => 0

/-- The lengths of the signed whole part of a decimal and of what follows it; none when there is
no whole part. -/
def decimalLengths? (cs : List Char) : Option (Nat × Nat) :=
  let sign := match cs with
    | '+' :: _ => 1
    | '-' :: _ => 1
    | _ => 0
  let whole := wholeLength (cs.drop sign)
  let fraction := fractionLength (cs.drop (sign + whole))
  let exponent := exponentLength (cs.drop (sign + whole + fraction))
  if whole = 0 then none else some (sign + whole, fraction + exponent)

def decimalNumber? (cs : List Char) : Except TomlError (Option (Number × List Char)) :=
  match decimalLengths? cs with
  | none => .ok none
  | some (whole, more) =>
    let text := (cs.take (whole + more)).filter (· ≠ '_')
    let rest := cs.drop (whole + more)
    if more = 0 then
      match readInt text with
      | .ok n => .ok (some (.int n, rest))
      | .error (.tooLong digits) => .error (.tooLong digits)
      | .error .malformed => .ok none
    else .ok ((readSigned? text).map fun x => (.float x, rest))

/-- Infinity or not-a-number, perhaps signed. -/
def special? (cs : List Char) : Option (Number × List Char) :=
  let length := match cs with
    | '+' :: _ => 4
    | '-' :: _ => 4
    | _ => 3
  let word := String.ofList (cs.take length)
  if ["inf", "+inf", "-inf", "nan", "+nan", "-nan"].contains word then
    (readSigned? (cs.take length)).map fun x => (.float x, cs.drop length)
  else none

def number? (cs : List Char) : Except TomlError (Option (Number × List Char)) :=
  let based := match cs with
    | '0' :: 'x' :: rest => basedInteger? 16 rest
    | '0' :: 'o' :: rest => basedInteger? 8 rest
    | '0' :: 'b' :: rest => basedInteger? 2 rest
    | _ => none
  match based with
  | some found => .ok (some found)
  | none => (decimalNumber? cs).map fun found => found.or (special? cs)

end LiveChain.Toml
