import LiveChain.Proofs.Number.Rounding

/-!
# The precision of written numbers

Every text of a magnitude is one of three kinds, and each of them says a number that is written as
the same text again once it is rounded to a double.
-/

set_option autoImplicit false

namespace LiveChain.Binary64

/-! ## Whole numbers -/

theorem Finite.rounded_of {x y : Finite} (h : x.plusHalf = .finite y) : x.rounded = y.floor := by
  rw [Finite.rounded, h]

section Half

variable {x : Finite}

theorem plusHalf_value (x : Finite) :
    ((2 * x.ratio.1 + x.ratio.2 : ℕ) : ℚ) / (2 * x.ratio.2 : ℕ) = x.magnitude + 1 / 2 := by
  have hpos : (0 : ℚ) < x.ratio.2 := by exact_mod_cast x.ratio_pos
  rw [x.magnitude_eq]
  push_cast
  field_simp

theorem two_ratio_pos (x : Finite) : 0 < 2 * x.ratio.2 := Nat.mul_pos (by decide) x.ratio_pos

theorem large (h : 2 ^ 52 ≤ x.magnitude) : 0 ≤ x.exponent ∧ 2 ^ 52 ≤ x.mantissa := by
  obtain ⟨hmantissa, -, -, hnormal⟩ := x.canonical
  have hexponent : 0 ≤ x.exponent := by
    by_contra hneg
    have hpower : (2 : ℚ) ^ x.exponent ≤ 2 ^ (-1 : ℤ) := two_zpow_le_iff.mpr (by omega)
    have hbits : (x.mantissa : ℚ) < 2 ^ 53 := by exact_mod_cast hmantissa
    have hless : x.magnitude < 2 ^ 53 * 2 ^ (-1 : ℤ) :=
      mul_lt_mul_of_lt_of_le_of_nonneg_of_pos hbits hpower (Nat.cast_nonneg _) (by norm_num)
    norm_num at hless
    norm_num at h
    linarith
  exact ⟨hexponent, hnormal.resolve_right (by omega)⟩

/-- One half more than a magnitude, where the doubles around it are whole. -/
theorem rounded_of_nearest {m e : ℕ} (hlow : (2 : ℚ) ^ (e + 52) ≤ x.magnitude)
    (hhigh : x.magnitude + 1 / 2 < 2 ^ (e + 53))
    (hm : Nearest ((x.magnitude + 1 / 2) / 2 ^ e) m) (he : e ≤ 970 ∨ e = 971 ∧ m < 2 ^ 53) :
    x.rounded = m * 2 ^ e ∧ ∃ y : Finite, y.magnitude = x.rounded := by
  rw [← plusHalf_value] at hhigh hm
  obtain ⟨y, hy, -, hmagnitude⟩ := @ofRatio_of_nearest false _ _ m e (two_ratio_pos x) (by omega)
    (by
      rw [plusHalf_value]
      exact_mod_cast hlow.trans (by linarith))
    (by exact_mod_cast hhigh) (by exact_mod_cast hm) (by omega)
  have hwhole : y.magnitude = (m * 2 ^ e : ℕ) := by
    rw [hmagnitude]
    push_cast
    rw [zpow_natCast]
  have hrounded : x.rounded = m * 2 ^ e := by
    rw [Finite.rounded_of hy, y.floor_eq_iff, hwhole]
    exact ⟨le_refl _, lt_add_one _⟩
  exact ⟨hrounded, y, by rw [hwhole, hrounded]⟩

/-- The magnitude of a double that is whole, in units of its last bit. -/
theorem exists_units (h : 2 ^ 52 ≤ x.magnitude) : ∃ m e : ℕ, 2 ^ 52 ≤ m ∧
    (e ≤ 970 ∨ e = 971 ∧ m < 2 ^ 53) ∧ x.magnitude = (m * 2 ^ e : ℕ) ∧
    (2 : ℚ) ^ (e + 52) ≤ x.magnitude ∧ x.magnitude + 1 / 2 < 2 ^ (e + 53) := by
  obtain ⟨hexponent, hmantissa⟩ := large h
  obtain ⟨hbits, -, hmost, -⟩ := x.canonical
  obtain ⟨e, he⟩ := Int.eq_ofNat_of_zero_le hexponent
  have hwhole : x.magnitude = (x.mantissa * 2 ^ e : ℕ) := by
    rw [Finite.magnitude, he, zpow_natCast]
    push_cast
    rfl
  generalize x.mantissa = m at hmantissa hbits hwhole
  have hbits : m + 1 ≤ 2 ^ 53 := hbits
  refine ⟨m, e, hmantissa, by omega, hwhole, ?_, ?_⟩
  · rw [hwhole, add_comm, pow_add]
    exact_mod_cast Nat.mul_le_mul_right (2 ^ e) hmantissa
  · have hunit : (1 : ℚ) ≤ 2 ^ e := one_le_pow₀ (by norm_num)
    have hnext : x.magnitude + 2 ^ e ≤ 2 ^ (e + 53) := by
      rw [hwhole, add_comm e, pow_add]
      have := Nat.mul_le_mul_right (2 ^ e) hbits
      rw [Nat.succ_mul] at this
      exact_mod_cast this
    linarith

/-- The even neighbour is the one nearest to a number and a half. -/
theorem nearest_half (m : ℕ) : Nearest ((m : ℚ) + 1 / 2) (if Even m then m else m + 1) := by
  split
  · next heven => exact ⟨by rw [add_sub_cancel_left]; norm_num, fun _ => heven⟩
  · next hodd =>
    have hhalf : (m : ℚ) + 1 / 2 - (m + 1 : ℕ) = -(1 / 2) := by
      push_cast
      ring
    exact ⟨by rw [hhalf, abs_neg]; norm_num, fun _ => (Nat.not_even_iff_odd.mp hodd).add_one⟩

/-- One half is lost where the units are greater than one. -/
theorem nearest_units {e : ℕ} (he : 0 < e) (m : ℕ) :
    Nearest ((((m * 2 ^ e : ℕ) : ℚ) + 1 / 2) / 2 ^ e) m := by
  have htwo : (2 : ℚ) ≤ 2 ^ e := le_self_pow₀ (by norm_num) he.ne'
  have hpart : (((m * 2 ^ e : ℕ) : ℚ) + 1 / 2) / 2 ^ e - m = 1 / 2 / 2 ^ e := by
    push_cast
    field_simp
    ring
  refine .of_lt ?_
  rw [hpart, abs_of_pos (by positivity), div_lt_iff₀ (by positivity)]
  linarith

/-- Among the doubles that are whole, one half makes an odd number one of its neighbours, and is lost
otherwise. -/
theorem rounded_large (h : 2 ^ 52 ≤ x.magnitude) : Even x.rounded ∧ 2 ^ 52 ≤ x.rounded ∧
    (∃ y : Finite, y.magnitude = x.rounded) ∧
      ((∃ n : ℕ, Even n ∧ x.magnitude = n) → x.magnitude = x.rounded) := by
  obtain ⟨m, e, hmantissa, hmost, hwhole, hlow, hhigh⟩ := exists_units h
  rcases Nat.eq_zero_or_pos e with rfl | hpos
  · rw [pow_zero, mul_one] at hwhole
    have hnearest := nearest_half m
    rw [← hwhole, ← div_one (x.magnitude + 1 / 2), ← pow_zero 2] at hnearest
    obtain ⟨hrounded, hdouble⟩ := rounded_of_nearest hlow hhigh hnearest (.inl (by decide))
    rw [pow_zero, mul_one] at hrounded
    rw [hrounded] at hdouble ⊢
    split at hdouble
    · next heven =>
      rw [if_pos heven]
      exact ⟨heven, hmantissa, hdouble, fun _ => hwhole⟩
    · next hodd =>
      rw [if_neg hodd]
      refine ⟨(Nat.not_even_iff_odd.mp hodd).add_one, by omega, hdouble, ?_⟩
      rintro ⟨n, heven, hn⟩
      obtain rfl : m = n := by exact_mod_cast hwhole.symm.trans hn
      exact absurd heven hodd
  · have hnearest := nearest_units hpos m
    rw [← hwhole] at hnearest
    obtain ⟨hrounded, hdouble⟩ := rounded_of_nearest hlow hhigh hnearest hmost
    refine ⟨?_, ?_, hdouble, fun _ => by rw [hwhole, hrounded]⟩
    · rw [hrounded]
      exact (Nat.even_pow.mpr ⟨even_two, hpos.ne'⟩).mul_left m
    · rw [hrounded]
      exact hmantissa.trans (Nat.le_mul_of_pos_right m (Nat.two_pow_pos e))

end Half

/-- Whole numbers that are doubles and even where doubles hold no halves: adding one half and rounding
down leaves them as they are. -/
def Kept (n : ℕ) : Prop :=
  (∃ y : Finite, y.magnitude = n) ∧ (2 ^ 52 ≤ n → Even n)

section Whole

variable {negative : Bool} {num den n : ℕ}

theorem kept_of_lt (hn : 0 < n) (h : n < 2 ^ 52) : Kept n := by
  obtain ⟨y, -, -, hmagnitude⟩ := @ofRatio_exact false n 1 n 0 Nat.one_pos hn (by omega)
    (by decide) (by decide) (by norm_num)
  exact ⟨⟨y, by rw [hmagnitude, zpow_zero, mul_one]⟩, fun hle => absurd h (not_lt.mpr hle)⟩

/-- A whole number that is a double is rounded to itself. -/
theorem Kept.ofRatio (h : Kept n) (hn : 0 < n) (hden : 0 < den) (hvalue : (num / den : ℚ) = n) :
    ∃ y : Finite, Binary64.ofRatio negative num den = .finite y ∧ y.negative = negative ∧
      y.magnitude = n := by
  obtain ⟨⟨x, hx⟩, -⟩ := h
  obtain ⟨hbits, -, hmost, -⟩ := x.canonical
  have hone : (1 : ℚ) ≤ x.magnitude := by
    rw [hx]
    exact_mod_cast hn
  have hpos : 0 < x.mantissa := by
    refine Nat.pos_of_ne_zero fun hzero => ?_
    rw [Finite.magnitude, hzero, Nat.cast_zero, zero_mul] at hone
    norm_num at hone
  have hleast : -1022 ≤ x.exponent := by
    by_contra hless
    have hpower : (2 : ℚ) ^ x.exponent ≤ 2 ^ (-53 : ℤ) := two_zpow_le_iff.mpr (by omega)
    have hbits : (x.mantissa : ℚ) < 2 ^ 53 := by exact_mod_cast hbits
    have hless : x.magnitude < 2 ^ 53 * 2 ^ (-53 : ℤ) :=
      mul_lt_mul_of_lt_of_le_of_nonneg_of_pos hbits hpower (Nat.cast_nonneg _) (by norm_num)
    norm_num at hless
    linarith
  obtain ⟨y, hy, hsign, hmagnitude⟩ := @ofRatio_exact negative num den x.mantissa x.exponent hden
    hpos hbits hleast hmost (hvalue.trans hx.symm)
  exact ⟨y, hy, hsign, hmagnitude.trans hx⟩

/-- A double that is such a number is written as this number. -/
theorem Kept.rounded {x : Finite} (h : Kept n) (hn : 0 < n) (hx : x.magnitude = n) :
    x.rounded = n := by
  rcases Nat.lt_or_ge n (2 ^ 52) with hlt | hge
  · -- one bit is left for the half
    obtain ⟨y, hy, -, hmagnitude⟩ := @ofRatio_exact false _ _ (2 * n + 1) (-1) (two_ratio_pos x)
      (by omega) (by omega) (by decide) (by decide) (by
        rw [plusHalf_value, hx]
        push_cast
        ring)
    have hhalf : y.magnitude = n + 1 / 2 := by
      rw [hmagnitude]
      push_cast
      ring
    rw [Finite.rounded_of hy, y.floor_eq_iff, hhalf]
    constructor <;> linarith
  · have hlarge : 2 ^ 52 ≤ x.magnitude := by
      rw [hx]
      exact_mod_cast hge
    obtain ⟨-, -, -, hkept⟩ := rounded_large hlarge
    have heq := hkept ⟨n, h.2 hge, hx⟩
    rw [hx] at heq
    exact_mod_cast heq.symm

/-- From ten on, doubles are written as such numbers. -/
theorem rounded_kept {x : Finite} (h : 10 ≤ x.magnitude) : 10 ≤ x.rounded ∧ Kept x.rounded := by
  rcases lt_or_ge x.magnitude (2 ^ 52) with hlt | hge
  · have hvalue := plusHalf_value x
    obtain ⟨y, hy, -, hclose⟩ := @ofRatio_close false _ _ 53 (two_ratio_pos x)
      (least_normal_le (by rw [hvalue]; linarith))
      (by
        rw [hvalue]
        norm_num at hlt ⊢
        linarith)
      (by decide)
    rw [hvalue] at hclose
    norm_num at hclose
    obtain ⟨hlow, hhigh⟩ := abs_le.mp hclose
    rw [Finite.rounded_of hy]
    obtain ⟨hfloor, hnext⟩ := (y.floor_eq_iff).mp rfl
    have hten : 10 ≤ y.floor := by
      have : (10 : ℚ) < y.floor + 1 := by linarith
      have : 10 < y.floor + 1 := by exact_mod_cast this
      omega
    have hmost : y.floor ≤ 2 ^ 52 := by
      have : (y.floor : ℚ) < 2 ^ 52 + 1 := by linarith
      have : y.floor < 2 ^ 52 + 1 := by exact_mod_cast this
      omega
    refine ⟨hten, ?_⟩
    rcases Nat.lt_or_ge y.floor (2 ^ 52) with hfew | hmany
    · exact kept_of_lt (by omega) hfew
    · rw [Nat.le_antisymm hmost hmany]
      refine ⟨?_, fun _ => by decide⟩
      obtain ⟨z, -, -, hz⟩ := @ofRatio_exact false (2 ^ 52) 1 1 52 Nat.one_pos Nat.one_pos
        (by decide) (by decide) (by decide) (by norm_num)
      exact ⟨z, by rw [hz]; norm_num⟩
  · obtain ⟨heven, hmany, hdouble, -⟩ := rounded_large hge
    exact ⟨by omega, hdouble, fun _ => heven⟩

end Whole

/-! ## Texts of magnitudes -/

/-- The texts of magnitudes, and the numbers that they say: thousandths below one, hundredths below
ten, and from ten on whole numbers. -/
inductive Shown : List Char → ℚ → Prop
  | thousandths {u : ℕ} (h : u < 1000) : Shown (fixedText 3 u) (u / 1000)
  | hundredths {u : ℕ} (hlow : 100 ≤ u) (hhigh : u < 1000) : Shown (fixedText 2 u) (u / 100)
  | whole {n : ℕ} (hlow : 10 ≤ n) (h : Kept n) : Shown (Nat.toDigits 10 n) n

/-- The text of a magnitude is one of these, also where rounding carries it to one or to ten. -/
theorem magnitudeText_shown (x : Finite) : ∃ v, Shown x.magnitudeText v := by
  unfold Finite.magnitudeText
  split
  · next hone =>
    have hbelow := x.below_iff.mp hone
    have hle : x.units 3 ≤ 1000 := (x.units_nearest 3).le (by push_cast at hbelow ⊢; linarith)
    rcases Nat.lt_or_eq_of_le hle with hlt | heq
    · exact ⟨_, .thousandths hlt⟩
    · rw [heq]
      exact ⟨_, @Shown.hundredths 100 (by decide) (by decide)⟩
  · next hone =>
    have habove : 1 ≤ x.magnitude := by
      simpa using not_lt.mp fun hlt => hone (x.below_iff.mpr hlt)
    split
    · next hten =>
      have hbelow := x.below_iff.mp hten
      have hge : 100 ≤ x.units 2 := (x.units_nearest 2).ge (by push_cast; linarith)
      have hle : x.units 2 ≤ 1000 := (x.units_nearest 2).le (by push_cast at hbelow ⊢; linarith)
      rcases Nat.lt_or_eq_of_le hle with hlt | heq
      · exact ⟨_, .hundredths hge hlt⟩
      · rw [heq]
        exact ⟨_, @Shown.whole 10 (by decide) (kept_of_lt (by decide) (by decide))⟩
    · next hten =>
      have hlarge : 10 ≤ x.magnitude := by
        simpa using not_lt.mp fun hlt => hten (x.below_iff.mpr hlt)
      obtain ⟨hlow, hkept⟩ := rounded_kept hlarge
      exact ⟨_, .whole hlow hkept⟩

/-- A double near to a number of units is written with so many of them. -/
theorem units_eq {x : Finite} {places u : ℕ}
    (h : |x.magnitude - u / 10 ^ places| * 10 ^ places < 1 / 2) : x.units places = u := by
  refine (x.units_nearest places).unique (.of_lt ?_)
  have hpos : (0 : ℚ) < 10 ^ places := by positivity
  have hscaled : x.magnitude * 10 ^ places - u = (x.magnitude - u / 10 ^ places) * 10 ^ places := by
    rw [sub_mul, div_mul_cancel₀ _ hpos.ne']
  rwa [hscaled, abs_mul, abs_of_pos hpos]

theorem magnitudeText_thousandths {x : Finite} {u : ℕ} (hone : x.magnitude < 1)
    (hclose : |x.magnitude - u / 1000| ≤ 2 ^ (-50 : ℤ)) : x.magnitudeText = fixedText 3 u := by
  have hbelow : x.below 1 = true := by rwa [x.below_iff, Nat.cast_one]
  rw [Finite.magnitudeText, if_pos hbelow, units_eq]
  norm_num at hclose ⊢
  linarith

theorem magnitudeText_hundredths {x : Finite} {u : ℕ} (hone : 1 ≤ x.magnitude)
    (hten : x.magnitude < 10) (hclose : |x.magnitude - u / 100| ≤ 2 ^ (-50 : ℤ)) :
    x.magnitudeText = fixedText 2 u := by
  have habove : ¬x.below 1 = true := by rwa [x.below_iff, Nat.cast_one, not_lt]
  have hbelow : x.below 10 = true := by rwa [x.below_iff, Nat.cast_ofNat]
  rw [Finite.magnitudeText, if_neg habove, if_pos hbelow, units_eq]
  norm_num at hclose ⊢
  linarith

theorem magnitudeText_whole {x : Finite} (hten : 10 ≤ x.magnitude) :
    x.magnitudeText = Nat.toDigits 10 x.rounded := by
  have habove : ¬x.below 1 = true := by
    rw [x.below_iff, Nat.cast_one]
    linarith
  have habove' : ¬x.below 10 = true := by rwa [x.below_iff, Nat.cast_ofNat, not_lt]
  rw [Finite.magnitudeText, if_neg habove, if_neg habove']

section Back

variable {negative : Bool} {num den u n : ℕ} (hden : 0 < den)

include hden

theorem ofRatio_thousandths (h : u < 1000) (hvalue : (num / den : ℚ) = u / 1000) :
    ∃ y : Finite, ofRatio negative num den = .finite y ∧ y.negative = negative ∧
      y.magnitudeText = fixedText 3 u := by
  have hdenpos : (0 : ℚ) < den := by exact_mod_cast hden
  rcases Nat.eq_zero_or_pos u with rfl | hpos
  · obtain rfl : num = 0 := by
      rw [Nat.cast_zero, zero_div, div_eq_zero_iff] at hvalue
      exact_mod_cast hvalue.resolve_right hdenpos.ne'
    have hzero : (Finite.zero negative).magnitude = 0 := by
      rw [Finite.magnitude, Finite.zero, Nat.cast_zero, zero_mul]
    refine ⟨.zero negative, rfl, rfl, magnitudeText_thousandths ?_ ?_⟩ <;> norm_num [hzero]
  · have hlow : (1 : ℚ) ≤ u := by exact_mod_cast hpos
    have hhigh : (u : ℚ) + 1 ≤ 1000 := by exact_mod_cast h
    obtain ⟨y, hy, hsign, hclose⟩ := @ofRatio_close negative num den 4 hden
      (least_normal_le (by rw [hvalue]; linarith)) (by rw [hvalue]; norm_num; linarith) (by decide)
    rw [hvalue] at hclose
    refine ⟨y, hy, hsign, magnitudeText_thousandths ?_ hclose⟩
    have := (abs_le.mp hclose).2
    norm_num at this
    linarith

theorem ofRatio_hundredths (hlow : 100 ≤ u) (hhigh : u < 1000)
    (hvalue : (num / den : ℚ) = u / 100) :
    ∃ y : Finite, ofRatio negative num den = .finite y ∧ y.negative = negative ∧
      y.magnitudeText = fixedText 2 u := by
  have hhigh : (u : ℚ) + 1 ≤ 1000 := by exact_mod_cast hhigh
  obtain ⟨y, hy, hsign, hone, hclose⟩ : ∃ y : Finite, ofRatio negative num den = .finite y ∧
      y.negative = negative ∧ 1 ≤ y.magnitude ∧ |y.magnitude - u / 100| ≤ 2 ^ (-50 : ℤ) := by
    rcases Nat.lt_or_eq_of_le hlow with hlt | rfl
    · have hlow : (101 : ℚ) ≤ u := by exact_mod_cast hlt
      obtain ⟨y, hy, hsign, hclose⟩ := @ofRatio_close negative num den 4 hden
        (least_normal_le (by rw [hvalue]; linarith))
        (by
          rw [hvalue]
          norm_num
          linarith)
        (by decide)
      rw [hvalue] at hclose
      refine ⟨y, hy, hsign, ?_, hclose⟩
      have := (abs_le.mp hclose).1
      norm_num at this
      linarith
    · -- one itself is a double
      obtain ⟨y, hy, hsign, hmagnitude⟩ := @ofRatio_exact negative num den 1 0 hden (by decide)
        (by decide) (by decide) (by decide) (by rw [hvalue]; norm_num)
      rw [zpow_zero, mul_one, Nat.cast_one] at hmagnitude
      refine ⟨y, hy, hsign, hmagnitude.ge, ?_⟩
      rw [hmagnitude]
      norm_num
  refine ⟨y, hy, hsign, magnitudeText_hundredths hone ?_ hclose⟩
  have := (abs_le.mp hclose).2
  norm_num at this
  linarith

theorem ofRatio_whole (hlow : 10 ≤ n) (h : Kept n) (hvalue : (num / den : ℚ) = n) :
    ∃ y : Finite, ofRatio negative num den = .finite y ∧ y.negative = negative ∧
      y.magnitudeText = Nat.toDigits 10 n := by
  obtain ⟨y, hy, hsign, hmagnitude⟩ := h.ofRatio (by omega) hden hvalue
  have hten : (10 : ℚ) ≤ y.magnitude := by
    rw [hmagnitude]
    exact_mod_cast hlow
  refine ⟨y, hy, hsign, ?_⟩
  rw [magnitudeText_whole hten, h.rounded (by omega) hmagnitude]

/-- The double nearest to the number that a text says has this text. -/
theorem Shown.ofRatio {text : List Char} {v : ℚ} (h : Shown text v)
    (hvalue : (num / den : ℚ) = v) :
    ∃ y : Finite, Binary64.ofRatio negative num den = .finite y ∧ y.negative = negative ∧
      y.magnitudeText = text := by
  cases h with
  | thousandths h => exact ofRatio_thousandths hden h hvalue
  | hundredths hlow hhigh => exact ofRatio_hundredths hden hlow hhigh hvalue
  | whole hlow h => exact ofRatio_whole hden hlow h hvalue

end Back

end LiveChain.Binary64
