import LiveChain.Proofs.Number.Order

/-!
# Which numbers are written accurately

Below `2 ^ 52` a number is written as the nearest one with so many places. From there on doubles
hold no halves: a number is written as itself if it is even and a double, and as another one
otherwise.
-/

set_option autoImplicit false

namespace LiveChain

/-! ## Accuracy -/

/-- A multiple of `1 / k` such that no other one is nearer to a number. -/
def NearestMultiple (k : ℕ) (a v : ℚ) : Prop :=
  (∃ z : ℤ, v = z / k) ∧ ∀ z : ℤ, |v - a| ≤ |z / k - a|

/-- A number is given with the precision that fits its magnitude: to the nearest thousandth below one,
to the nearest hundredth below ten, and from ten on to the nearest whole number, of two that are equally
near to the one that is further from zero. -/
structure Accurate (a v : ℚ) : Prop where
  small : |a| < 1 → NearestMultiple 1000 a v
  medium : 1 ≤ |a| → |a| < 10 → NearestMultiple 100 a v
  large : 10 ≤ |a| → NearestMultiple 1 a v ∧ ∀ z : ℤ, |z - a| = |v - a| → |(z : ℚ)| ≤ |v|

theorem abs_signed_sub (s : Bool) (v w : ℚ) : |signed s v - signed s w| = |v - w| := by
  cases s with
  | false => rfl
  | true => rw [signed, signed, if_pos rfl, if_pos rfl, neg_sub_neg, abs_sub_comm]

/-- What is at most half a unit away is the nearest multiple of the unit, whatever the sign. -/
theorem nearestMultiple_signed {k u : ℕ} {m : ℚ} (hk : 0 < k) (s : Bool)
    (h : |m * k - u| ≤ 1 / 2) : NearestMultiple k (signed s m) (signed s (u / k)) := by
  have hkpos : (0 : ℚ) < k := by exact_mod_cast hk
  have hscaled : ∀ w : ℚ, |w / k - m| = |w - m * k| / k := by
    intro w
    rw [← abs_of_pos hkpos, ← abs_div, abs_of_pos hkpos, sub_div,
      mul_div_cancel_right₀ _ hkpos.ne']
  have hnearest : ∀ z : ℤ, |(u / k : ℚ) - m| ≤ |z / k - m| := by
    intro z
    rw [hscaled, hscaled]
    refine div_le_div_of_nonneg_right ?_ hkpos.le
    by_cases hz : z = u
    · rw [hz, Int.cast_natCast]
    · -- another whole number is a unit away, of which half a unit at least is left
      have hapart : (1 : ℚ) ≤ |(z : ℚ) - u| := by
        exact_mod_cast Int.one_le_abs (sub_ne_zero.mpr hz)
      have htriangle : |(z : ℚ) - u| ≤ |z - m * k| + |m * k - u| := abs_sub_le _ _ _
      rw [abs_sub_comm]
      linarith
  cases s with
  | false => exact ⟨⟨u, by rw [Int.cast_natCast]; rfl⟩, hnearest⟩
  | true =>
    refine ⟨⟨-u, by push_cast; rw [neg_div]; rfl⟩, fun z => ?_⟩
    have hopposite : |(z / k : ℚ) - signed true m| = |((-z : ℤ) : ℚ) / k - m| := by
      have hsides : (z / k : ℚ) - signed true m = -(((-z : ℤ) : ℚ) / k - m) := by
        rw [signed, if_pos rfl]
        push_cast
        ring
      rw [hsides, abs_neg]
    rw [abs_signed_sub, hopposite]
    exact hnearest (-z)

/-- A whole number from ten on is given accurately only by itself. -/
theorem accurate_whole_iff {n : ℤ} {v : ℚ} (h : 10 ≤ |(n : ℚ)|) : Accurate n v ↔ v = n := by
  constructor
  · intro haccurate
    have hnearest := (haccurate.large h).1.2 n
    rw [Nat.cast_one, div_one, sub_self, abs_zero] at hnearest
    exact sub_eq_zero.mp (abs_nonpos_iff.mp hnearest)
  · rintro rfl
    refine ⟨fun hlt => by linarith, fun _ hlt => by linarith, fun _ => ⟨⟨⟨n, ?_⟩, ?_⟩, ?_⟩⟩
    · rw [Nat.cast_one, div_one]
    · intro z
      rw [sub_self, abs_zero]
      exact abs_nonneg _
    · intro z hz
      rw [sub_self, abs_zero, abs_eq_zero, sub_eq_zero] at hz
      rw [hz]

/-! ## Rounding to whole numbers -/

namespace Binary64

theorem normal_of_le {x : Finite} (h : 10 ≤ x.magnitude) : 2 ^ 52 ≤ x.mantissa := by
  obtain ⟨hbits, -, -, hnormal⟩ := x.canonical
  refine hnormal.resolve_right fun hleast => ?_
  have hbits : (x.mantissa : ℚ) ≤ 2 ^ (53 : ℤ) := by exact_mod_cast hbits.le
  have hsmall : x.magnitude ≤ 2 ^ (53 : ℤ) * 2 ^ (-1074 : ℤ) := by
    rw [Finite.magnitude, hleast]
    exact mul_le_mul_of_nonneg_right hbits (two_zpow_pos _).le
  rw [← zpow_add₀ (by norm_num)] at hsmall
  have hone : (2 : ℚ) ^ (53 + -1074 : ℤ) ≤ 2 ^ (0 : ℤ) := two_zpow_le_iff.mpr (by decide)
  rw [zpow_zero] at hone
  linarith

section Halves

variable {x : Finite} (hlow : 10 ≤ x.magnitude) (hhigh : x.magnitude < 2 ^ 52)

include hlow hhigh

/-- The binade of a magnitude in which halves are doubles. -/
theorem exponent_bounds : ∃ k : ℕ, x.exponent = -(k + 1 : ℕ) ∧
    (2 : ℚ) ^ (x.exponent + 52) ≤ x.magnitude ∧ x.magnitude < 2 ^ (x.exponent + 53) := by
  have hbelow : (2 : ℚ) ^ (x.exponent + 52) ≤ x.magnitude := by
    have hnormal : (2 : ℚ) ^ (52 : ℤ) ≤ x.mantissa := by exact_mod_cast normal_of_le hlow
    rw [add_comm, zpow_add₀ (by norm_num)]
    exact mul_le_mul_of_nonneg_right hnormal (two_zpow_pos _).le
  have habove : x.magnitude < 2 ^ (x.exponent + 53) := by
    have hbits : (x.mantissa : ℚ) < 2 ^ (53 : ℤ) := by exact_mod_cast x.canonical.1
    rw [add_comm, zpow_add₀ (by norm_num)]
    exact mul_lt_mul_of_pos_right hbits (two_zpow_pos _)
  have hexponent : x.exponent + 52 < 52 := by
    refine two_zpow_lt_iff.mp (hbelow.trans_lt ?_)
    exact_mod_cast hhigh
  obtain ⟨k, hk⟩ := Int.eq_ofNat_of_zero_le (by omega : 0 ≤ -x.exponent - 1)
  exact ⟨k, by omega, hbelow, habove⟩

/-- The next whole number is at least one unit of the magnitude above its sum with one half. -/
theorem unit_le_gap {n : ℕ} (h : x.magnitude + 1 / 2 < n) :
    (2 : ℚ) ^ x.exponent ≤ n - (x.magnitude + 1 / 2) := by
  obtain ⟨k, hk, -, -⟩ := exponent_bounds hlow hhigh
  have hpos : (0 : ℚ) < 2 ^ (k + 1) := by positivity
  have hunit : (2 : ℚ) ^ x.exponent = 1 / 2 ^ (k + 1) := by
    rw [hk, zpow_neg, zpow_natCast, one_div]
  have hsum : x.magnitude + 1 / 2 = (x.mantissa + 2 ^ k : ℕ) / 2 ^ (k + 1) := by
    rw [Finite.magnitude, hunit]
    push_cast
    rw [pow_succ]
    field_simp
  rw [hsum, div_lt_iff₀ hpos] at h
  have hnext : x.mantissa + 2 ^ k + 1 ≤ n * 2 ^ (k + 1) := by exact_mod_cast h
  have hnext : ((x.mantissa + 2 ^ k : ℕ) : ℚ) + 1 ≤ n * 2 ^ (k + 1) := by exact_mod_cast hnext
  rw [hsum, hunit, le_sub_iff_add_le, ← add_div, div_le_iff₀ hpos]
  linarith

/-- The sum with one half is not rounded up to the next whole number. -/
theorem plusHalf_lt {z : Finite} {n : ℕ} (hz : x.plusHalf = .finite z)
    (h : x.magnitude + 1 / 2 < n) : z.magnitude < n := by
  obtain ⟨k, hk, hbelow, habove⟩ := exponent_bounds hlow hhigh
  have hgap := unit_le_gap hlow hhigh h
  have hclose : ∀ e : ℤ, e ≤ 1023 → x.magnitude + 1 / 2 < 2 ^ e →
      |z.magnitude - (x.magnitude + 1 / 2)| ≤ 2 ^ (e - 54) := by
    intro e he hlt
    obtain ⟨y, hy, -, hclose⟩ := @ofRatio_close false _ _ e (two_ratio_pos x)
      (least_normal_le (by rw [plusHalf_value]; linarith)) (by rwa [plusHalf_value]) he
    obtain rfl : z = y := finite.inj (hz.symm.trans hy)
    rwa [plusHalf_value] at hclose
  have hpos := two_zpow_pos x.exponent
  rcases lt_or_ge (x.magnitude + 1 / 2) (2 ^ (x.exponent + 53)) with hlt | hge
  · have herror := (abs_le.mp (hclose _ (by omega) hlt)).2
    have hhalf : (2 : ℚ) ^ (x.exponent + 53 - 54) = 2 ^ x.exponent / 2 := by
      rw [show x.exponent + 53 - 54 = x.exponent - 1 by ring, zpow_sub_one₀ (by norm_num)]
      rfl
    linarith
  · -- the sum is carried over a power of two, by less than one half
    have hdouble : (2 : ℚ) ^ (x.exponent + 54) = 2 * 2 ^ (x.exponent + 53) := by
      rw [show x.exponent + 54 = x.exponent + 53 + 1 by ring, zpow_add_one₀ (by norm_num), mul_comm]
    have herror := (abs_le.mp (hclose (x.exponent + 54) (by omega) (by linarith))).2
    rw [add_sub_cancel_right] at herror
    have hwhole : 0 ≤ x.exponent + 53 := by
      have hten : (2 : ℚ) ^ (0 : ℤ) < 2 ^ (x.exponent + 53) := by
        rw [zpow_zero]
        linarith
      exact (two_zpow_lt_iff.mp hten).le
    have hnext : (2 : ℚ) ^ (x.exponent + 53) + 1 ≤ n := by
      rw [two_zpow_of_nonneg hwhole] at hge ⊢
      exact_mod_cast (hge.trans_lt h)
    have hunit : (2 : ℚ) ^ x.exponent ≤ 1 / 2 := by
      have hle : (2 : ℚ) ^ x.exponent ≤ 2 ^ (-1 : ℤ) := two_zpow_le_iff.mpr (by omega)
      norm_num at hle ⊢
      exact hle
    linarith

/-- Below `2 ^ 52` a magnitude is rounded to the nearest whole number, and one half is rounded up. -/
theorem rounded_halves :
    (x.rounded : ℚ) ≤ x.magnitude + 1 / 2 ∧ x.magnitude + 1 / 2 < x.rounded + 1 := by
  obtain ⟨z, hz⟩ := plusHalf_finite hlow
  obtain ⟨n, hn⟩ : ∃ n, n = ⌊x.magnitude + 1 / 2⌋₊ := ⟨_, rfl⟩
  have hbelow : (n : ℚ) ≤ x.magnitude + 1 / 2 := hn ▸ Nat.floor_le (by linarith)
  have habove : x.magnitude + 1 / 2 < (n + 1 : ℕ) := by
    push_cast
    exact hn ▸ Nat.lt_floor_add_one _
  have hpos : 0 < n := by
    have : (10 : ℚ) < (n + 1 : ℕ) := by linarith
    have : 10 < n + 1 := by exact_mod_cast this
    omega
  have hbits : n < 2 ^ 53 := by
    have : (n : ℚ) < 2 ^ 53 := by linarith
    exact_mod_cast this
  obtain ⟨y, hy, -, hmagnitude⟩ := @ofRatio_exact false n 1 n 0 Nat.one_pos hpos hbits
    (by decide) (by decide) (by norm_num)
  rw [zpow_zero, mul_one] at hmagnitude
  have hrounded : x.rounded = n := by
    rw [Finite.rounded_of hz, z.floor_eq_iff]
    constructor
    · rw [← hmagnitude]
      refine ofRatio_mono Nat.one_pos (two_ratio_pos x) ?_ hy hz
      rwa [plusHalf_value, Nat.cast_one, div_one]
    · exact_mod_cast plusHalf_lt hlow hhigh hz habove
  rw [hrounded]
  exact ⟨hbelow, by exact_mod_cast habove⟩

end Halves

/-! ## Accurate texts -/

/-- Below `2 ^ 52` the text of a double is accurate. -/
theorem accurate_of_lt {f : Finite} (h : f.magnitude < 2 ^ 52) :
    Accurate f.value (signed f.negative f.shownMagnitude) := by
  have habs : |f.value| = f.magnitude := abs_signed f.negative f.magnitude_nonneg
  refine ⟨fun hone => ?_, fun hone hten => ?_, fun hten => ?_⟩
  · rw [habs] at hone
    have hunit : ((1000 : ℕ) : ℚ) = 10 ^ 3 := by norm_num
    have hnearest := @nearestMultiple_signed 1000 (f.units 3) f.magnitude (by decide) f.negative
      (by rw [hunit]; exact (f.units_nearest 3).close)
    rw [(shownMagnitude_small hone).1]
    rwa [Nat.cast_ofNat] at hnearest
  · rw [habs] at hone hten
    have hunit : ((100 : ℕ) : ℚ) = 10 ^ 2 := by norm_num
    have hnearest := @nearestMultiple_signed 100 (f.units 2) f.magnitude (by decide) f.negative
      (by rw [hunit]; exact (f.units_nearest 2).close)
    rw [(shownMagnitude_medium hone hten).1]
    rwa [Nat.cast_ofNat] at hnearest
  · rw [habs] at hten
    obtain ⟨hbelow, habove⟩ := rounded_halves hten h
    have hhalf : |f.magnitude - f.rounded| ≤ 1 / 2 := abs_le.mpr ⟨by linarith, by linarith⟩
    rw [(shownMagnitude_large hten).1]
    refine ⟨?_, fun z hz => ?_⟩
    · have hnearest := @nearestMultiple_signed 1 f.rounded f.magnitude (by decide) f.negative
        (by rwa [Nat.cast_one, mul_one])
      rwa [Nat.cast_one, div_one] at hnearest
    · -- a whole number further from zero is more than one half away
      rw [abs_signed _ (Nat.cast_nonneg _)]
      by_contra hfar
      have hnext : (f.rounded : ℚ) + 1 ≤ |(z : ℚ)| := by exact_mod_cast not_le.mp hfar
      have htriangle : |(z : ℚ)| - |f.value| ≤ |(z : ℚ) - f.value| := abs_sub_abs_le_abs_sub _ _
      rw [hz, Finite.value, abs_signed_sub, abs_sub_comm, ← Finite.value, habs] at htriangle
      linarith

/-- From `2 ^ 52` on the text of a double is that of an even double, so it is accurate for a whole
number only if this is one. -/
theorem shown_large_iff {f : Finite} {n : ℤ} (h : 2 ^ 52 ≤ f.magnitude)
    (hexact : ∀ g : Finite, g.value = n → f.value = n) :
    signed f.negative f.shownMagnitude = n ↔ Even n ∧ ∃ g : Finite, g.value = n := by
  have hten : 10 ≤ f.magnitude := le_trans (by norm_num) h
  obtain ⟨heven, -, ⟨y, hy⟩, hkept⟩ := rounded_large h
  rw [(shownMagnitude_large hten).1]
  constructor
  · intro hn
    refine ⟨?_, { y with negative := f.negative }, ?_⟩
    · have habs : |(n : ℚ)| = f.rounded := by rw [← hn, abs_signed _ (Nat.cast_nonneg _)]
      have habs : n.natAbs = f.rounded := by
        have : ((n.natAbs : ℕ) : ℚ) = f.rounded := by rw [Nat.cast_natAbs, Int.cast_abs, habs]
        exact_mod_cast this
      rwa [← habs, Int.natAbs_even] at heven
    · rw [← hn, ← hy]
      rfl
  · rintro ⟨hn, g, hg⟩
    have hvalue := hexact g hg
    have habs : f.magnitude = n.natAbs := by
      rw [Nat.cast_natAbs, Int.cast_abs, ← hvalue, Finite.value, abs_signed _ f.magnitude_nonneg]
    rw [← hkept ⟨n.natAbs, Int.natAbs_even.mpr hn, habs⟩]
    exact hvalue

/-- From ten on a double is written as the digits of an integer if its text says this integer. -/
theorem written_digits_iff {f : Finite} {n : ℤ} (h : 10 ≤ f.magnitude) :
    f.written = signText (decide (n < 0)) ++ Nat.toDigits 10 n.natAbs ↔
      signed f.negative f.shownMagnitude = n := by
  obtain ⟨hshown, hten⟩ := shownMagnitude_large h
  constructor
  · intro htext
    obtain ⟨whole, fraction, hshort, hdigits, hvalue⟩ := toDigits_decimal n.natAbs
    have hread := readRational?_written f
    rw [htext, hdigits, hshort.readRational?_eq, hvalue, signed_natAbs] at hread
    exact (Option.some.inj hread).symm
  · intro hn
    rw [hshown] at hn
    have habs : f.rounded = n.natAbs := by
      have habs := congrArg abs hn
      rw [abs_signed _ (Nat.cast_nonneg _), ← Int.cast_abs, ← Nat.cast_natAbs] at habs
      exact_mod_cast habs
    have hsign : f.negative = decide (n < 0) := by
      rw [← signed_natAbs n, ← habs] at hn
      have hpos : (0 : ℚ) < f.rounded := by exact_mod_cast (by omega : 0 < f.rounded)
      cases hf : f.negative <;> cases hs : decide (n < 0) <;> simp [signed, hf, hs] at hn ⊢ <;>
        linarith
    rw [written_eq hsign (magnitudeText_whole h), habs]
    intro _ hzero
    have hnone := congrArg (Nat.ofDigitChars 10 · 0) hzero
    simp only [Nat.ofDigitChars_ten_toDigits] at hnone
    rw [hnone] at hten
    exact absurd hten (by decide)

end Binary64

/-! ## Numbers that are doubles -/

section Number

variable {x : Number} {a : ℚ} {f : Binary64.Finite} (hx : x.rational? = some a)
  (hf : x.toBinary64 = .finite f)

include hx hf

theorem value_of_double {g : Binary64.Finite} (h : g.value = a) : f.value = a := by
  have hg : (Number.float (.finite g)).rational? = some a := congrArg some h
  have hle := value_mono hx hg le_rfl hf rfl
  have hge := value_mono hg hx le_rfl rfl hf
  exact (le_antisymm hle hge).trans h

/-- Whole numbers below `2 ^ 52` are doubles, and so is every double. -/
theorem value_of_lt (h : |a| < 2 ^ 52) : f.value = a := by
  cases x with
  | float y =>
    obtain rfl : y = .finite f := hf
    exact Option.some.inj hx
  | int n =>
    obtain rfl : (n : ℚ) = a := Option.some.inj hx
    have hlt : n.natAbs < 2 ^ 52 := by
      rw [← Int.cast_abs] at h
      have : ((n.natAbs : ℕ) : ℚ) < 2 ^ 52 := by rwa [Nat.cast_natAbs]
      exact_mod_cast this
    obtain ⟨y, hy⟩ : ∃ y : Binary64.Finite, y.magnitude = n.natAbs := by
      rcases Nat.eq_zero_or_pos n.natAbs with hzero | hpos
      · refine ⟨.zero false, ?_⟩
        rw [hzero, Binary64.Finite.magnitude, Binary64.Finite.zero, Nat.cast_zero, zero_mul]
      · exact (Binary64.kept_of_lt hpos hlt).1
    refine value_of_double hx hf (g := { y with negative := decide (n < 0) }) ?_
    change signed (decide (n < 0)) y.magnitude = n
    rw [hy, signed_natAbs]

theorem le_magnitude {g : Binary64.Finite} (h : g.magnitude ≤ |a|) : g.magnitude ≤ f.magnitude := by
  obtain ⟨negative, num, den, hden, rfl, hround⟩ := Number.toBinary64_ratio hx
  rw [hf] at hround
  rw [abs_signed negative (by positivity), g.magnitude_eq] at h
  exact Binary64.ofRatio_mono g.ratio_pos hden h (Binary64.ofRatio_ratio g g.negative) hround.symm

theorem whole_le_magnitude {n : ℕ} (hn : 0 < n) (hbits : n < 2 ^ 53) (h : n ≤ |a|) :
    n ≤ f.magnitude := by
  obtain ⟨y, -, -, hy⟩ := @Binary64.ofRatio_exact false n 1 n 0 Nat.one_pos hn hbits
    (by decide) (by decide) (by norm_num)
  rw [zpow_zero, mul_one] at hy
  rw [← hy] at h ⊢
  exact le_magnitude hx hf h

theorem whole_of_le (h : 2 ^ 52 ≤ |a|) : ∃ n : ℤ, a = n := by
  cases x with
  | int n => exact ⟨n, (Option.some.inj hx).symm⟩
  | float y =>
    obtain rfl : y = .finite f := hf
    obtain rfl : f.value = a := Option.some.inj hx
    rw [Binary64.Finite.value, abs_signed _ f.magnitude_nonneg] at h
    obtain ⟨e, he⟩ := Int.eq_ofNat_of_zero_le (Binary64.large h).1
    have hwhole : f.magnitude = (f.mantissa * 2 ^ e : ℕ) := by
      rw [Binary64.Finite.magnitude, he, zpow_natCast]
      push_cast
      rfl
    refine ⟨if f.negative then -(f.mantissa * 2 ^ e : ℕ) else (f.mantissa * 2 ^ e : ℕ), ?_⟩
    rw [Binary64.Finite.value, signed, hwhole]
    split <;> push_cast <;> rfl

end Number

/-- A number is written accurately if and only if it is below `2 ^ 52` or it is an even whole number
and a double; in these cases whole numbers from ten on are written as their digits, and in no others. -/
theorem written_accurate_iff {x : Number} {a : ℚ} {text : List Char} (hx : x.rational? = some a)
    (h : replacement (.number x) = .ok text) :
    ∃ v, readRational? text = some v ∧
      (Accurate a v ↔
        |a| < 2 ^ 52 ∨ ∃ n : ℤ, a = n ∧ Even n ∧ ∃ g : Binary64.Finite, g.value = n) ∧
      ∀ n : ℤ, a = n → 10 ≤ |n| →
        (text = signText (decide (n < 0)) ++ Nat.toDigits 10 n.natAbs ↔ Accurate a v) := by
  obtain ⟨f, hf, rfl⟩ := Number.replacement_eq hx h
  refine ⟨_, Binary64.readRational?_written f, ?_, ?_⟩
  · rcases lt_or_ge |a| (2 ^ 52) with hlt | hge
    · have hvalue := value_of_lt hx hf hlt
      have haccurate : Accurate a (signed f.negative f.shownMagnitude) := by
        rw [← hvalue] at hlt ⊢
        rw [Binary64.Finite.value, abs_signed _ f.magnitude_nonneg] at hlt
        exact Binary64.accurate_of_lt hlt
      exact iff_of_true haccurate (.inl hlt)
    · obtain ⟨n, rfl⟩ := whole_of_le hx hf hge
      have hlarge : 2 ^ 52 ≤ f.magnitude := by
        exact_mod_cast whole_le_magnitude hx hf (n := 2 ^ 52) (by decide) (by decide)
          (by exact_mod_cast hge)
      rw [accurate_whole_iff (le_trans (by norm_num) hge),
        Binary64.shown_large_iff hlarge fun g hg => value_of_double hx hf hg]
      constructor
      · exact fun hn => .inr ⟨n, rfl, hn⟩
      · rintro (hlt | ⟨n', hn', hdouble⟩)
        · exact absurd hge (not_le.mpr hlt)
        · obtain rfl : n = n' := by exact_mod_cast hn'
          exact hdouble
  · rintro n rfl hn
    have hn : (10 : ℚ) ≤ |(n : ℚ)| := by exact_mod_cast hn
    have hten : 10 ≤ f.magnitude := by
      exact_mod_cast whole_le_magnitude hx hf (n := 10) (by decide) (by decide) (by exact_mod_cast hn)
    rw [accurate_whole_iff hn, Binary64.written_digits_iff hten]

theorem written_accurate_iff_even :
    let x : Number := .int 9007199254740994
    let text := "9007199254740994".toList
    (x.rational? = some 9007199254740994 ∧ replacement (.number x) = .ok text) ∧
      ∃ v, readRational? text = some v ∧
        (Accurate 9007199254740994 v ↔ |(9007199254740994 : ℚ)| < 2 ^ 52 ∨
          ∃ n : ℤ, (9007199254740994 : ℚ) = n ∧ Even n ∧ ∃ g : Binary64.Finite, g.value = n) ∧
        ∀ n : ℤ, (9007199254740994 : ℚ) = n → 10 ≤ |n| →
          (text = signText (decide (n < 0)) ++ Nat.toDigits 10 n.natAbs ↔
            Accurate 9007199254740994 v) := by
  intro x text
  have hdouble : x.toBinary64 = .finite ⟨false, 4503599627370497, 1, by decide⟩ := by
    decide +kernel
  have hx : x.rational? = some 9007199254740994 := by norm_num [x, Number.rational?]
  have h : replacement (.number x) = .ok text := by
    rw [replacement_finite hdouble]
    exact congrArg _ (by decide +kernel)
  exact ⟨⟨hx, h⟩, written_accurate_iff hx h⟩

/-- An odd integer above `2 ^ 52` is written as its neighbour, although it is a double. -/
theorem written_inaccurate :
    replacement (.number (.int 4503599627370497)) = .ok "4503599627370498".toList ∧
      ¬ ∀ x : Number, ∀ a text v, x.rational? = some a → replacement (.number x) = .ok text →
        readRational? text = some v → Accurate a v := by
  have hdouble : (Number.int 4503599627370497).toBinary64 =
      .finite ⟨false, 4503599627370497, 0, by decide⟩ := by decide +kernel
  have hwritten : replacement (.number (.int 4503599627370497)) =
      .ok "4503599627370498".toList := by
    rw [replacement_finite hdouble]
    exact congrArg _ (by decide +kernel)
  refine ⟨hwritten, fun haccurate => ?_⟩
  obtain ⟨whole, fraction, hshort, htext, hvalue⟩ := toDigits_decimal 4503599627370498
  have hdigits : "4503599627370498".toList = Nat.toDigits 10 4503599627370498 := by decide +kernel
  have hread : readRational? "4503599627370498".toList =
      some ((4503599627370498 : ℕ) : ℚ) := by
    rw [hdigits, htext, ← hvalue]
    exact hshort.readRational?_eq false
  have h := haccurate _ _ _ _ rfl hwritten hread
  rw [accurate_whole_iff (by norm_num)] at h
  norm_num at h

end LiveChain
