import LiveChain.Number.Binary64

/-!
# The shortest decimal of a double

A double stands for all reals that round to it. Its shortest decimal is the one with the fewest
digits among them, and of those the nearest to the double.
-/

set_option autoImplicit false

namespace LiveChain

namespace Binary64

/-! ## Digits -/

/-- The reals that round to a double, as numerators over one denominator; the ends belong to the
interval when `closed`. -/
structure Interval where
  lo : Nat
  value : Nat
  hi : Nat
  den : Nat
  closed : Bool

/-- The rounding interval of a finite magnitude. Below a power of two the neighbours are half as
far apart. -/
def Finite.interval (x : Finite) : Interval :=
  let narrow := x.mantissa = Nat.pow 2 52 ∧ x.exponent ≠ -1074
  let lo := if narrow then 4 * x.mantissa - 1 else 4 * x.mantissa - 2
  let q := x.exponent - 2
  if 0 ≤ q then
    let s := Nat.pow 2 q.toNat
    ⟨lo * s, 4 * x.mantissa * s, (4 * x.mantissa + 2) * s, 1, x.mantissa % 2 = 0⟩
  else
    ⟨lo, 4 * x.mantissa, 4 * x.mantissa + 2, Nat.pow 2 (-q).toNat, x.mantissa % 2 = 0⟩

/-- Whether the fraction `num / den` lies in the interval. -/
def Interval.contains (i : Interval) (num den : Nat) : Bool :=
  let above := if i.closed then i.lo * den ≤ num * i.den else i.lo * den < num * i.den
  let below := if i.closed then num * i.den ≤ i.hi * den else num * i.den < i.hi * den
  above && below

/-- The least `j` from `start` on with `num · 10 ^ j ≥ den`, among the next `fuel` candidates. -/
def leastPower (num den : Nat) : Nat → Nat → Nat
  | 0, start => start
  | fuel + 1, start =>
    if den ≤ num * Nat.pow 10 start then start else leastPower num den fuel (start + 1)

/-- The greatest `e` with `10 ^ e ≤ num / den`, for a positive quotient not below `10 ^ -400`. -/
def floorLog10 (num den : Nat) : Int :=
  if den ≤ num then ((Nat.toDigits 10 (num / den)).length : Int) - 1
  else -(leastPower num den 400 0 : Int)

/-- The decimal with step `10 ^ p` nearest to the interval's value among those in the interval; a
tie goes to the even multiple. -/
def Interval.onGrid (i : Interval) (p : Int) : Option Nat :=
  let step : Nat × Nat := if 0 ≤ p then (Nat.pow 10 p.toNat, 1) else (1, Nat.pow 10 (-p).toNat)
  -- value / step = (value * step.2) / (den * step.1)
  let num := i.value * step.2
  let den := i.den * step.1
  let g := num / den
  let r := num % den
  let low := i.contains (g * step.1) step.2
  let high := i.contains ((g + 1) * step.1) step.2
  if low && high then
    some (if 2 * r < den then g else if den < 2 * r then g + 1 else if g % 2 = 0 then g else g + 1)
  else if low then some g
  else if high then some (g + 1)
  else none

/-- Tries decimals of `count`, `count + 1`, ... digits. -/
def Interval.search (i : Interval) (e : Int) : Nat → Nat → Nat × Int
  | 0, count => (i.value / i.den, count)
  | fuel + 1, count =>
    let p := e - (count : Int) + 1
    match i.onGrid p with
    | some d => (d, p)
    | none => i.search e fuel (count + 1)

/-- Moves the zeros at the end of a positive integer into its power of ten. -/
def trimZeros : Nat → Nat → Int → Nat × Int
  | 0, d, p => (d, p)
  | fuel + 1, d, p => if d % 10 = 0 then trimZeros fuel (d / 10) (p + 1) else (d, p)

/-- Digits and power of ten of the shortest decimal of a non-zero magnitude. -/
def Finite.shortest (x : Finite) : Nat × Int :=
  let i := x.interval
  let found := i.search (floorLog10 i.value i.den) 17 1
  if found.1 = 0 then found else trimZeros 20 found.1 found.2

end Binary64

/-! ## Text -/

/-- How a double is written: the decimal exponents that are written positionally, and the least
number of digits of a written exponent. -/
structure Layout where
  lowest : Int
  highest : Int
  exponentDigits : Nat

def padded (width : Nat) (n : Nat) : List Char :=
  let ds := Nat.toDigits 10 n
  List.replicate (width - ds.length) '0' ++ ds

/-- The text of a positive decimal `d · 10 ^ p`. -/
def Layout.positive (layout : Layout) (d : Nat) (p : Int) : List Char :=
  let ds := Nat.toDigits 10 d
  let e : Int := p + ds.length - 1
  if layout.lowest ≤ e ∧ e ≤ layout.highest then
    if e < 0 then
      '0' :: '.' :: List.replicate ((-e).toNat - 1) '0' ++ ds
    else
      let whole := e.toNat + 1
      if ds.length ≤ whole then ds ++ List.replicate (whole - ds.length) '0' ++ ['.', '0']
      else ds.take whole ++ '.' :: ds.drop whole
  else
    let sign := if e < 0 then '-' else '+'
    let mantissa := match ds with
      | [] => []
      | [c] => [c]
      | c :: rest => c :: '.' :: rest
    mantissa ++ 'e' :: sign :: padded layout.exponentDigits e.natAbs

def Layout.finite (layout : Layout) (x : Binary64.Finite) : List Char :=
  let sign := if x.negative then ['-'] else []
  if x.mantissa = 0 then sign ++ ['0', '.', '0']
  else
    let found := x.shortest
    sign ++ layout.positive found.1 found.2

/-- Floating-point numbers in messages: positional from `10 ^ -4` up to `10 ^ 16`, exponents of
at least two digits. -/
def Layout.message : Layout := ⟨-4, 15, 2⟩

/-- Floating-point numbers in listings: positional from `10 ^ -5` up to `10 ^ 16`, exponents
without padding. -/
def Layout.listing : Layout := ⟨-5, 15, 1⟩

/-- A double as messages show it. -/
def Binary64.text : Binary64 → List Char
  | .finite x => Layout.message.finite x
  | .infinite true => ['-', 'i', 'n', 'f']
  | .infinite false => ['i', 'n', 'f']
  | .nan => ['n', 'a', 'n']

end LiveChain
