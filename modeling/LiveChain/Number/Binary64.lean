/-!
# Binary floating-point numbers, exactly

A finite double is a sign, a mantissa `m` and an exponent `q` that stand for `± m · 2^q` in the
one canonical form that binary64 has for the value. All arithmetic on them is exact integer
arithmetic followed by one rounding.
-/

set_option autoImplicit false

namespace LiveChain

/-- The natural number nearest to `n / d`; a half goes to the even neighbour. -/
def roundHalfEven (n d : Nat) : Nat :=
  let k := n / d
  let r := n % d
  if 2 * r < d then k
  else if d < 2 * r then k + 1
  else if k % 2 = 0 then k
  else k + 1

/-! ## Representation -/

/-- The mantissas and exponents of binary64: 53 bits, the top one set unless the exponent is the
least one. -/
def Binary64.Canonical (m : Nat) (q : Int) : Prop :=
  m < Nat.pow 2 53 ∧ -1074 ≤ q ∧ q ≤ 971 ∧ (Nat.pow 2 52 ≤ m ∨ q = -1074)

instance (m : Nat) (q : Int) : Decidable (Binary64.Canonical m q) := by
  unfold Binary64.Canonical
  infer_instance

/-- The finite double `± mantissa · 2 ^ exponent`. -/
structure Binary64.Finite where
  negative : Bool
  mantissa : Nat
  exponent : Int
  canonical : Binary64.Canonical mantissa exponent
deriving DecidableEq

inductive Binary64 where
  | finite (x : Binary64.Finite)
  | infinite (negative : Bool)
  | nan
deriving DecidableEq

namespace Binary64

def Finite.zero (negative : Bool) : Finite := ⟨negative, 0, -1074, by decide⟩

instance : Inhabited Binary64 := ⟨.finite (.zero false)⟩

def Finite.neg (x : Finite) : Finite := { x with negative := !x.negative }

/-- The double with the opposite sign; not-a-number has none. -/
def neg : Binary64 → Binary64
  | .finite x => .finite x.neg
  | .infinite negative => .infinite (!negative)
  | .nan => .nan

/-- The magnitude of a finite double as a quotient of natural numbers. -/
def Finite.ratio (x : Finite) : Nat × Nat :=
  if 0 ≤ x.exponent then (x.mantissa * Nat.pow 2 x.exponent.toNat, 1)
  else (x.mantissa, Nat.pow 2 (-x.exponent).toNat)

/-- Whether the magnitude of a finite double is below a natural number. -/
def Finite.below (x : Finite) (k : Nat) : Bool := x.ratio.1 < k * x.ratio.2

/-- Whether a double equals zero, whatever its sign. -/
def isZero : Binary64 → Bool
  | .finite x => x.mantissa == 0
  | _ => false

def isPositive : Binary64 → Bool
  | .finite x => !x.negative && x.mantissa != 0
  | .infinite negative => !negative
  | .nan => false

/-! ## Rounding to a double -/

/-- The greatest `e` with `2 ^ e ≤ num / den`, for positive `num` and `den`. -/
def floorLog2 (num den : Nat) : Int :=
  let guess : Int := (num.log2 : Int) - den.log2
  let reached :=
    if 0 ≤ guess then den * Nat.pow 2 guess.toNat ≤ num else den ≤ num * Nat.pow 2 (-guess).toNat
  if reached then guess else guess - 1

/-- The double `± m · 2 ^ q` for a mantissa of at most 53 bits, carried to the next exponent when
it is `2 ^ 53`; what lies beyond the range is infinite. -/
def pack (negative : Bool) (m : Nat) (q : Int) : Binary64 :=
  let carried := if m = Nat.pow 2 53 then (Nat.pow 2 52, q + 1) else (m, q)
  if h : Canonical carried.1 carried.2 then .finite ⟨negative, carried.1, carried.2, h⟩
  else .infinite negative

/-- The double nearest to `± num / den`, a half going to the even mantissa. -/
def ofRatio (negative : Bool) (num den : Nat) : Binary64 :=
  if num = 0 then .finite (.zero negative)
  else
    let q := max (floorLog2 num den - 52) (-1074)
    let m :=
      if 0 ≤ q then roundHalfEven num (den * Nat.pow 2 q.toNat)
      else roundHalfEven (num * Nat.pow 2 (-q).toNat) den
    pack negative m q

def ofInt (n : Int) : Binary64 := ofRatio (n < 0) n.natAbs 1

/-- The double nearest to `± digits · 10 ^ exponent`. Exponents far outside the range of doubles
are settled by the number of digits alone. -/
def ofDecimal (negative : Bool) (digits : Nat) (exponent : Int) : Binary64 :=
  let top : Int := (Nat.toDigits 10 digits).length + exponent
  if digits = 0 then .finite (.zero negative)
  else if 400 < top then .infinite negative
  else if top < -400 then .finite (.zero negative)
  else if 0 ≤ exponent then ofRatio negative (digits * Nat.pow 10 exponent.toNat) 1
  else ofRatio negative digits (Nat.pow 10 (-exponent).toNat)

/-- The double nearest to the sum of a finite magnitude and one half. -/
def Finite.plusHalf (x : Finite) : Binary64 :=
  ofRatio false (2 * x.ratio.1 + x.ratio.2) (2 * x.ratio.2)

/-- The greatest natural number not above a magnitude. -/
def Finite.floor (x : Finite) : Nat := x.ratio.1 / x.ratio.2

end Binary64

end LiveChain
