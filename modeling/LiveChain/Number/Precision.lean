import LiveChain.Number.Basic

/-!
# Numbers written back into a snippet

A number is written with a precision that fits its magnitude: three decimal places below one, two
below ten, none from ten on. Zeros at the end of the fraction are dropped, and a number that is
written as zero has no sign.
-/

set_option autoImplicit false

namespace LiveChain

/-- A whole number of units of `10 ^ -places`, without zeros at the end of the fraction. -/
def fixedText (places : Nat) (units : Nat) : List Char :=
  let whole := Nat.toDigits 10 (units / Nat.pow 10 places)
  let digits := Nat.toDigits 10 (units % Nat.pow 10 places)
  let fraction := List.replicate (places - digits.length) '0' ++ digits
  let kept := (fraction.reverse.dropWhile (· == '0')).reverse
  if kept.isEmpty then whole else whole ++ '.' :: kept

namespace Binary64

/-- The nearest whole number of units of `10 ^ -places`, a half going to the even neighbour. -/
def Finite.units (x : Finite) (places : Nat) : Nat :=
  roundHalfEven (x.ratio.1 * Nat.pow 10 places) x.ratio.2

/-- The magnitude plus one half, rounded to a double and then down to a whole number. -/
def Finite.rounded (x : Finite) : Nat :=
  match x.plusHalf with
  | .finite y => y.floor
  | _ => 0

def Finite.magnitudeText (x : Finite) : List Char :=
  if x.below 1 then fixedText 3 (x.units 3)
  else if x.below 10 then fixedText 2 (x.units 2)
  else Nat.toDigits 10 x.rounded

def Finite.written (x : Finite) : List Char :=
  let text := x.magnitudeText
  if x.negative && text != ['0'] then '-' :: text else text

def written : Binary64 → List Char
  | .finite x => x.written
  | .infinite false => "Infinity".toList
  | .infinite true => "-Infinity".toList
  | .nan => "NaN".toList

end Binary64

/-- The text of a number written back into a snippet. An integer is written as the double nearest
to it; one beyond the range of doubles cannot be written. -/
def Number.written? : Number → Option (List Char)
  | .float x => some x.written
  | .int n =>
    match Binary64.ofInt n with
    | .finite x => some x.written
    | _ => none

end LiveChain
