import LiveChain.Number.Precision
import Mathlib

/-!
# What rounding to a double does

Doubles as rational numbers: which one the arithmetic gives, and how far it is from the number that
is rounded. All of it rests on the nearest whole number, the even one of two.
-/

set_option autoImplicit false

namespace LiveChain

/-! ## Whole numbers -/

/-- A whole number nearest to a rational number, the even one where two are equally near. -/
structure Nearest (v : ℚ) (m : ℕ) : Prop where
  close : |v - m| ≤ 1 / 2
  even : |v - m| = 1 / 2 → Even m

theorem Nearest.of_lt {v : ℚ} {m : ℕ} (h : |v - m| < 1 / 2) : Nearest v m :=
  ⟨h.le, fun heq => absurd heq h.ne⟩

theorem Nearest.of_eq {v : ℚ} {m : ℕ} (h : v = m) : Nearest v m :=
  .of_lt (by rw [h, sub_self, abs_zero]; norm_num)

theorem Nearest.unique {v : ℚ} {m m' : ℕ} (h : Nearest v m) (h' : Nearest v m') : m = m' := by
  by_contra hne
  wlog hlt : m < m' generalizing m m' with hwlog
  · exact hwlog h' h (Ne.symm hne) (by omega)
  -- both are half a unit away, so they are neighbours and one of them is odd
  have hle : (m : ℚ) + 1 ≤ m' := by exact_mod_cast hlt
  obtain ⟨hlow, hhigh⟩ := abs_le.mp h.close
  obtain ⟨hlow', hhigh'⟩ := abs_le.mp h'.close
  have hhalf : v - m = 1 / 2 := by linarith
  have hhalf' : v - m' = -(1 / 2) := by linarith
  have hnext : m' = m + 1 := by
    have : (m' : ℚ) = m + 1 := by linarith
    exact_mod_cast this
  have heven : Even m := h.even (by rw [hhalf]; norm_num)
  have heven' : Even m' := h'.even (by rw [hhalf', abs_neg]; norm_num)
  rw [hnext, Nat.even_add_one] at heven'
  exact heven' heven

/-- A whole number nearest to a number between two whole numbers lies between them. -/
theorem Nearest.le {v : ℚ} {m k : ℕ} (h : Nearest v m) (hv : v ≤ k) : m ≤ k := by
  have := (abs_le.mp h.close).1
  by_contra hlt
  have hnext : (k : ℚ) + 1 ≤ m := by exact_mod_cast Nat.lt_of_not_le hlt
  linarith

theorem Nearest.ge {v : ℚ} {m k : ℕ} (h : Nearest v m) (hv : k ≤ v) : k ≤ m := by
  have := (abs_le.mp h.close).2
  by_contra hlt
  have hnext : (m : ℚ) + 1 ≤ k := by exact_mod_cast Nat.lt_of_not_le hlt
  linarith

theorem roundHalfEven_nearest (n : ℕ) {d : ℕ} (hd : 0 < d) :
    Nearest (n / d) (roundHalfEven n d) := by
  have hdpos : (0 : ℚ) < d := by exact_mod_cast hd
  have hn : (n : ℚ) = d * (n / d : ℕ) + (n % d : ℕ) := by exact_mod_cast (Nat.div_add_mod n d).symm
  have hmod : ((n % d : ℕ) : ℚ) < d := by exact_mod_cast Nat.mod_lt n hd
  have hnonneg : (0 : ℚ) ≤ (n % d : ℕ) := Nat.cast_nonneg _
  have hlow : (n : ℚ) / d - (n / d : ℕ) = (n % d : ℕ) / d := by
    rw [eq_div_iff hdpos.ne', sub_mul, div_mul_cancel₀ _ hdpos.ne', hn]
    ring
  have hhigh : (n : ℚ) / d - (n / d + 1 : ℕ) = -((d - (n % d : ℕ)) / d) := by
    rw [Nat.cast_add_one, ← sub_sub, hlow]
    field_simp
    ring
  unfold roundHalfEven
  simp only
  split
  · next hless =>
    have hless : 2 * ((n % d : ℕ) : ℚ) < d := by exact_mod_cast hless
    refine .of_lt ?_
    rw [hlow, abs_of_nonneg (by positivity), div_lt_iff₀ hdpos]
    linarith
  · split
    · next hmore =>
      have hmore : (d : ℚ) < 2 * (n % d : ℕ) := by exact_mod_cast hmore
      refine .of_lt ?_
      rw [hhigh, abs_neg, abs_of_nonneg (div_nonneg (by linarith) hdpos.le), div_lt_iff₀ hdpos]
      linarith
    · next hless hmore =>
      -- halfway between two neighbours, the even one of which is taken
      have hhalf : 2 * ((n % d : ℕ) : ℚ) = d := by exact_mod_cast (by omega : 2 * (n % d) = d)
      split
      · next heven =>
        refine ⟨?_, fun _ => Nat.even_iff.mpr heven⟩
        rw [hlow, abs_of_nonneg (by positivity), div_le_iff₀ hdpos]
        linarith
      · next hodd =>
        refine ⟨?_, fun _ => Nat.even_iff.mpr (by omega)⟩
        rw [hhigh, abs_neg, abs_of_nonneg (div_nonneg (by linarith) hdpos.le), div_le_iff₀ hdpos]
        linarith

/-! ## Powers of two -/

theorem two_zpow_pos (q : ℤ) : (0 : ℚ) < 2 ^ q := zpow_pos (by norm_num) q

theorem two_zpow_of_nonneg {q : ℤ} (h : 0 ≤ q) : (2 : ℚ) ^ q = (Nat.pow 2 q.toNat : ℕ) := by
  lift q to ℕ using h
  rw [zpow_natCast, Int.toNat_natCast, Nat.pow_eq, Nat.cast_pow, Nat.cast_ofNat]

theorem two_zpow_of_neg {q : ℤ} (h : ¬0 ≤ q) :
    (2 : ℚ) ^ q = ((Nat.pow 2 (-q).toNat : ℕ) : ℚ)⁻¹ := by
  rw [← two_zpow_of_nonneg (by omega), zpow_neg, inv_inv]

theorem two_zpow_lt_iff {a b : ℤ} : (2 : ℚ) ^ a < 2 ^ b ↔ a < b :=
  zpow_lt_zpow_iff_right₀ (by norm_num)

theorem two_zpow_le_iff {a b : ℤ} : (2 : ℚ) ^ a ≤ 2 ^ b ↔ a ≤ b :=
  zpow_le_zpow_iff_right₀ (by norm_num)

namespace Binary64

/-- What is not very small is above the least normal double. -/
theorem least_normal_le {v : ℚ} (h : 1 / 1024 ≤ v) : (2 : ℚ) ^ (-1022 : ℤ) ≤ v := by
  have hpower : (2 : ℚ) ^ (-1022 : ℤ) ≤ 2 ^ (-10 : ℤ) := two_zpow_le_iff.mpr (by decide)
  refine hpower.trans (le_trans ?_ h)
  norm_num

theorem log2_bounds {n : ℕ} (h : 0 < n) :
    (2 : ℚ) ^ (n.log2 : ℤ) ≤ n ∧ (n : ℚ) < 2 ^ ((n.log2 : ℤ) + 1) := by
  rw [← Nat.cast_succ, zpow_natCast, zpow_natCast]
  exact ⟨by exact_mod_cast Nat.log2_self_le h.ne', by exact_mod_cast Nat.lt_log2_self⟩

/-- Comparing a quotient with a power of two takes no fractions. -/
theorem two_zpow_le_div_iff {num den : ℕ} (hden : 0 < den) (e : ℤ) :
    (2 : ℚ) ^ e ≤ num / den ↔
      if 0 ≤ e then den * Nat.pow 2 e.toNat ≤ num else den ≤ num * Nat.pow 2 (-e).toNat := by
  rw [le_div_iff₀ (by exact_mod_cast hden)]
  split
  · next he =>
    rw [two_zpow_of_nonneg he, mul_comm]
    exact_mod_cast Iff.rfl
  · next he =>
    rw [two_zpow_of_neg he, inv_mul_le_iff₀ (by exact_mod_cast Nat.pow_pos (by decide)), mul_comm]
    exact_mod_cast Iff.rfl

section Quotient

variable {num den : ℕ} (hnum : 0 < num) (hden : 0 < den)

include hnum hden

/-- The difference of the logarithms is that of the quotient, or one more. -/
theorem div_log2_bounds : (2 : ℚ) ^ ((num.log2 : ℤ) - den.log2 - 1) ≤ num / den ∧
    (num : ℚ) / den < 2 ^ ((num.log2 : ℤ) - den.log2 + 1) := by
  have hdenpos : (0 : ℚ) < den := by exact_mod_cast hden
  obtain ⟨hnumlow, hnumhigh⟩ := log2_bounds hnum
  obtain ⟨hdenlow, hdenhigh⟩ := log2_bounds hden
  constructor
  · rw [le_div_iff₀ hdenpos]
    calc (2 : ℚ) ^ ((num.log2 : ℤ) - den.log2 - 1) * den
        ≤ 2 ^ ((num.log2 : ℤ) - den.log2 - 1) * 2 ^ ((den.log2 : ℤ) + 1) :=
          mul_le_mul_of_nonneg_left hdenhigh.le (two_zpow_pos _).le
      _ = 2 ^ (num.log2 : ℤ) := by
        rw [← zpow_add₀ (by norm_num)]
        congr 1
        ring
      _ ≤ num := hnumlow
  · rw [div_lt_iff₀ hdenpos]
    calc (num : ℚ) < 2 ^ ((num.log2 : ℤ) + 1) := hnumhigh
      _ = 2 ^ ((num.log2 : ℤ) - den.log2 + 1) * 2 ^ (den.log2 : ℤ) := by
        rw [← zpow_add₀ (by norm_num)]
        congr 1
        ring
      _ ≤ 2 ^ ((num.log2 : ℤ) - den.log2 + 1) * den :=
        mul_le_mul_of_nonneg_left hdenlow (two_zpow_pos _).le

/-- The quotient lies between two neighbouring powers of two. -/
theorem floorLog2_bounds : (2 : ℚ) ^ floorLog2 num den ≤ num / den ∧
    (num : ℚ) / den < 2 ^ (floorLog2 num den + 1) := by
  obtain ⟨hlow, hhigh⟩ := div_log2_bounds hnum hden
  unfold floorLog2
  extract_lets guess reached
  have hreached : (2 : ℚ) ^ guess ≤ num / den ↔ reached := two_zpow_le_div_iff hden guess
  split
  · next h => exact ⟨hreached.mpr h, hhigh⟩
  · next h =>
    rw [sub_add_cancel]
    exact ⟨hlow, lt_of_not_ge fun hle => h (hreached.mp hle)⟩

/-- The exponent of a quotient is found from the powers of two around it. -/
theorem floorLog2_eq {e : ℤ} (hlow : (2 : ℚ) ^ e ≤ num / den)
    (hhigh : (num : ℚ) / den < 2 ^ (e + 1)) : floorLog2 num den = e := by
  obtain ⟨hlow', hhigh'⟩ := floorLog2_bounds hnum hden
  have hle := two_zpow_lt_iff.mp (hlow.trans_lt hhigh')
  have hge := two_zpow_lt_iff.mp (hlow'.trans_lt hhigh)
  omega

end Quotient

/-! ## Magnitudes -/

def Finite.magnitude (x : Finite) : ℚ := x.mantissa * 2 ^ x.exponent

namespace Finite

variable (x : Finite)

theorem ratio_pos : 0 < x.ratio.2 := by
  unfold ratio
  split
  · exact Nat.one_pos
  · exact Nat.pow_pos (by decide)

theorem magnitude_eq : x.magnitude = x.ratio.1 / x.ratio.2 := by
  unfold magnitude ratio
  split
  · next h => rw [two_zpow_of_nonneg h, Nat.cast_mul, Nat.cast_one, div_one]
  · next h => rw [two_zpow_of_neg h, div_eq_mul_inv]

theorem below_iff {k : ℕ} : x.below k = true ↔ x.magnitude < k := by
  have hpos : (0 : ℚ) < x.ratio.2 := by exact_mod_cast x.ratio_pos
  rw [below, decide_eq_true_eq, magnitude_eq, div_lt_iff₀ hpos]
  exact_mod_cast Iff.rfl

theorem floor_eq_iff {n : ℕ} : x.floor = n ↔ (n : ℚ) ≤ x.magnitude ∧ x.magnitude < n + 1 := by
  have hpos : (0 : ℚ) < x.ratio.2 := by exact_mod_cast x.ratio_pos
  rw [floor, Nat.div_eq_iff x.ratio_pos, magnitude_eq, le_div_iff₀ hpos, div_lt_iff₀ hpos]
  have := x.ratio_pos
  constructor
  · rintro ⟨hlow, hhigh⟩
    have hnext : x.ratio.1 < (n + 1) * x.ratio.2 := by
      rw [Nat.succ_mul]
      omega
    exact ⟨by exact_mod_cast hlow, by exact_mod_cast hnext⟩
  · rintro ⟨hlow, hhigh⟩
    have hnext : x.ratio.1 < (n + 1) * x.ratio.2 := by exact_mod_cast hhigh
    rw [Nat.succ_mul] at hnext
    exact ⟨by exact_mod_cast hlow, by omega⟩

theorem units_nearest (places : ℕ) : Nearest (x.magnitude * 10 ^ places) (x.units places) := by
  have hnearest := roundHalfEven_nearest (x.ratio.1 * Nat.pow 10 places) x.ratio_pos
  rw [magnitude_eq, div_mul_eq_mul_div]
  rw [Nat.cast_mul, Nat.pow_eq, Nat.cast_pow, Nat.cast_ofNat] at hnearest
  exact hnearest

end Finite

/-! ## Rounding to a double -/

section Round

variable {negative : Bool} {num den m : ℕ} {q : ℤ}

/-- A mantissa of 53 bits makes a double, also where it is carried to the next exponent. -/
theorem pack_magnitude (hm : m ≤ 2 ^ 53) (hlow : 2 ^ 52 ≤ m ∨ q = -1074) (hq : -1074 ≤ q)
    (hq' : q ≤ 970 ∨ q = 971 ∧ m < 2 ^ 53) :
    ∃ y : Finite, pack negative m q = .finite y ∧ y.negative = negative ∧
      y.magnitude = m * 2 ^ q := by
  by_cases hcarry : m = Nat.pow 2 53
  · have hcanonical : Canonical (Nat.pow 2 52) (q + 1) := by
      refine ⟨by decide, by omega, ?_, .inl (Nat.le_refl _)⟩
      rcases hq' with hq' | ⟨-, hlt⟩
      · omega
      · exact absurd hcarry (Nat.ne_of_lt hlt)
    refine ⟨⟨negative, Nat.pow 2 52, q + 1, hcanonical⟩, ?_, rfl, ?_⟩
    · simp only [pack, if_pos hcarry]
      exact dif_pos hcanonical
    · rw [Finite.magnitude, hcarry, zpow_add_one₀ (by norm_num)]
      norm_num
      ring
  · have hcanonical : Canonical m q :=
      ⟨Nat.lt_of_le_of_ne hm hcarry, hq, by omega, hlow⟩
    refine ⟨⟨negative, m, q, hcanonical⟩, ?_, rfl, rfl⟩
    simp only [pack, if_neg hcarry]
    exact dif_pos hcanonical

/-- A quotient is rounded to a whole number of units, 53 bits of which reach up to it. -/
theorem ofRatio_eq (hnum : 0 < num) (hden : 0 < den)
    (hq : q = max (floorLog2 num den - 52) (-1074)) :
    ∃ m, Nearest ((num / den : ℚ) / 2 ^ q) m ∧ ofRatio negative num den = pack negative m q := by
  have hrounded : ofRatio negative num den = pack negative (if 0 ≤ q then
      roundHalfEven num (den * Nat.pow 2 q.toNat)
    else roundHalfEven (num * Nat.pow 2 (-q).toNat) den) q := by
    simp only [ofRatio, if_neg hnum.ne', ← hq]
  refine ⟨_, ?_, hrounded⟩
  split
  · next h =>
    have hnearest := roundHalfEven_nearest num (d := den * Nat.pow 2 q.toNat)
      (Nat.mul_pos hden (Nat.pow_pos (by decide)))
    rwa [Nat.cast_mul, ← two_zpow_of_nonneg h, ← div_div] at hnearest
  · next h =>
    have hnearest := roundHalfEven_nearest (num * Nat.pow 2 (-q).toNat) hden
    rwa [Nat.cast_mul, mul_div_right_comm, ← inv_inv ((Nat.pow 2 (-q).toNat : ℕ) : ℚ),
      ← two_zpow_of_neg h, ← div_eq_mul_inv] at hnearest

/-- A quotient between `2 ^ 52` and `2 ^ 53` units is rounded to the nearest number of them. -/
theorem ofRatio_of_nearest (hden : 0 < den) (hq : -1074 ≤ q)
    (hlow : (2 : ℚ) ^ (q + 52) ≤ num / den) (hhigh : (num : ℚ) / den < 2 ^ (q + 53))
    (hm : Nearest ((num / den : ℚ) / 2 ^ q) m) (hq' : q ≤ 970 ∨ q = 971 ∧ m < 2 ^ 53) :
    ∃ y : Finite, ofRatio negative num den = .finite y ∧ y.negative = negative ∧
      y.magnitude = m * 2 ^ q := by
  have hnum : 0 < num := by
    refine Nat.pos_of_ne_zero fun hzero => ?_
    rw [hzero, Nat.cast_zero, zero_div] at hlow
    exact absurd hlow (not_le.mpr (two_zpow_pos _))
  have hlog : floorLog2 num den = q + 52 :=
    floorLog2_eq hnum hden hlow (by rwa [add_assoc])
  obtain ⟨m', hm', hrounded⟩ := @ofRatio_eq negative num den q hnum hden (by omega)
  obtain rfl := hm'.unique hm
  have hscaled : ((2 ^ 52 : ℕ) : ℚ) ≤ num / den / 2 ^ q := by
    rw [le_div_iff₀ (two_zpow_pos q)]
    refine le_of_eq_of_le ?_ hlow
    rw [add_comm, zpow_add₀ (by norm_num)]
    norm_num
  have hscaled' : (num : ℚ) / den / 2 ^ q ≤ (2 ^ 53 : ℕ) := by
    rw [div_le_iff₀ (two_zpow_pos q)]
    refine hhigh.le.trans_eq ?_
    rw [add_comm, zpow_add₀ (by norm_num)]
    norm_num
  rw [hrounded]
  exact pack_magnitude (hm'.le hscaled') (.inl (hm'.ge hscaled)) hq hq'

/-- A number of at most 53 bits times a power of two is not changed. -/
theorem ofRatio_exact {k : ℕ} {e : ℤ} (hden : 0 < den) (hk : 0 < k) (hk' : k < 2 ^ 53)
    (he : -1022 ≤ e) (he' : e ≤ 971) (hvalue : (num / den : ℚ) = k * 2 ^ e) :
    ∃ y : Finite, ofRatio negative num den = .finite y ∧ y.negative = negative ∧
      y.magnitude = k * 2 ^ e := by
  -- the mantissa is shifted until its top bit is set
  have hlog : k.log2 ≤ 52 := by
    have := (Nat.log2_lt hk.ne').mpr hk'
    omega
  have hlow : 2 ^ k.log2 ≤ k := Nat.log2_self_le hk.ne'
  have hhigh : k < 2 ^ (k.log2 + 1) := Nat.lt_log2_self
  generalize k.log2 = l at hlog hlow hhigh
  have hshift : ((k * 2 ^ (52 - l) : ℕ) : ℚ) * 2 ^ (e + l - 52) = k * 2 ^ e := by
    have hpower : ((2 ^ (52 - l) : ℕ) : ℚ) = 2 ^ (52 - l : ℤ) := by
      rw [Nat.cast_pow, Nat.cast_ofNat, ← zpow_natCast, Nat.cast_sub hlog]
      rfl
    rw [Nat.cast_mul, hpower, mul_assoc, ← zpow_add₀ (by norm_num)]
    congr 2
    ring
  have hscaled : (num : ℚ) / den / 2 ^ (e + l - 52) = (k * 2 ^ (52 - l) : ℕ) := by
    rw [hvalue, ← hshift, mul_div_cancel_right₀ _ (two_zpow_pos _).ne']
  have hlow' : (2 : ℚ) ^ (e + l - 52 + 52) ≤ num / den := by
    rw [hvalue, sub_add_cancel, add_comm, zpow_add₀ (by norm_num), zpow_natCast]
    exact mul_le_mul_of_nonneg_right (by exact_mod_cast hlow) (two_zpow_pos e).le
  have hhigh' : (num : ℚ) / den < 2 ^ (e + l - 52 + 53) := by
    have hexponent : e + l - 52 + 53 = (l + 1 : ℕ) + e := by push_cast; ring
    rw [hvalue, hexponent, zpow_add₀ (by norm_num), zpow_natCast]
    exact mul_lt_mul_of_pos_right (by exact_mod_cast hhigh) (two_zpow_pos e)
  obtain ⟨y, hy, hsign, hmagnitude⟩ := @ofRatio_of_nearest negative num den _ _ hden (by omega)
    hlow' hhigh' (.of_eq hscaled) (by
      by_cases hl : e + l - 52 ≤ 970
      · exact .inl hl
      · refine .inr ⟨by omega, ?_⟩
        obtain rfl : l = 52 := by omega
        simpa using hk')
  exact ⟨y, hy, hsign, hmagnitude.trans hshift⟩

/-- What a quotient is rounded to is no more than half a unit of the last bit away. -/
theorem ofRatio_close {k : ℤ} (hden : 0 < den) (hlow : (2 : ℚ) ^ (-1022 : ℤ) ≤ num / den)
    (hhigh : (num : ℚ) / den < 2 ^ k) (hk : k ≤ 1023) :
    ∃ y : Finite, ofRatio negative num den = .finite y ∧ y.negative = negative ∧
      |y.magnitude - num / den| ≤ 2 ^ (k - 54) := by
  have hnum : 0 < num := by
    refine Nat.pos_of_ne_zero fun hzero => ?_
    rw [hzero, Nat.cast_zero, zero_div] at hlow
    exact absurd hlow (not_le.mpr (two_zpow_pos _))
  obtain ⟨hlog, hlog'⟩ := floorLog2_bounds hnum hden
  have hleast := two_zpow_lt_iff.mp (hlow.trans_lt hlog')
  have hmost := two_zpow_lt_iff.mp (hlog.trans_lt hhigh)
  obtain ⟨q, hq⟩ : ∃ q, floorLog2 num den = q + 52 := ⟨floorLog2 num den - 52, by ring⟩
  rw [hq] at hlog hlog' hleast hmost
  obtain ⟨m, hm, -⟩ := @ofRatio_eq negative num den q hnum hden (by omega)
  obtain ⟨y, hy, hsign, hmagnitude⟩ := @ofRatio_of_nearest negative num den m q hden (by omega)
    hlog (by rwa [add_assoc] at hlog') hm (.inl (by omega))
  refine ⟨y, hy, hsign, ?_⟩
  have hunits : y.magnitude - num / den = -((num / den / 2 ^ q - m) * 2 ^ q) := by
    rw [hmagnitude, sub_mul, div_mul_cancel₀ _ (two_zpow_pos q).ne', neg_sub]
  rw [hunits, abs_neg, abs_mul, abs_of_pos (two_zpow_pos q)]
  calc |(num / den / 2 ^ q - m : ℚ)| * 2 ^ q ≤ 1 / 2 * 2 ^ q :=
        mul_le_mul_of_nonneg_right hm.close (two_zpow_pos q).le
    _ = 2 ^ (q - 1) := by
      rw [zpow_sub_one₀ (by norm_num)]
      ring
    _ ≤ 2 ^ (k - 54) := two_zpow_le_iff.mpr (by omega)

end Round

end Binary64

end LiveChain
