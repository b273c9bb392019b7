import LiveChain.Proofs.Number.Exact

/-!
# Written numbers keep the order

Rounding to a double and writing with few places keep the order of numbers, also where the precision
changes and across zero.
-/

set_option autoImplicit false

namespace LiveChain

/-! ## Rounding -/

theorem Nearest.mono {v v' : ℚ} {m m' : ℕ} (h : Nearest v m) (h' : Nearest v' m') (hv : v ≤ v') :
    m ≤ m' := by
  by_contra hlt
  have hnext : (m' : ℚ) + 1 ≤ m := by exact_mod_cast Nat.lt_of_not_le hlt
  have hlow := (abs_le.mp h.close).1
  have hhigh := (abs_le.mp h'.close).2
  -- both are the number in the middle, so they are rounded to the same
  obtain rfl : v = v' := by linarith
  exact hlt (h.unique h').le

namespace Binary64

section Round

variable {negative negative' : Bool} {num den num' den' : ℕ}

/-- The exponent of the units in which a quotient is rounded. -/
def unitExponent (num den : ℕ) : ℤ := max (floorLog2 num den - 52) (-1074)

theorem pack_finite {m : ℕ} {q : ℤ} {y : Finite} (h : pack negative m q = .finite y) :
    y.negative = negative ∧ y.magnitude = m * 2 ^ q := by
  have hcarried : ∀ carried : ℕ × ℤ,
      carried = (if m = Nat.pow 2 53 then (Nat.pow 2 52, q + 1) else (m, q)) →
        (carried.1 : ℚ) * 2 ^ carried.2 = m * 2 ^ q := by
    rintro carried rfl
    split
    · next hcarry =>
      rw [hcarry, zpow_add_one₀ (by norm_num)]
      norm_num
      ring
    · rfl
  unfold pack at h
  simp only at h
  generalize heq : (if m = Nat.pow 2 53 then (Nat.pow 2 52, q + 1) else (m, q)) = carried at h
  split at h
  · cases h
    exact ⟨rfl, hcarried carried heq.symm⟩
  · cases h

theorem ofRatio_finite {y : Finite} (hnum : 0 < num) (hden : 0 < den)
    (h : ofRatio negative num den = .finite y) :
    ∃ m : ℕ, Nearest ((num / den : ℚ) / 2 ^ unitExponent num den) m ∧
      y.negative = negative ∧ y.magnitude = m * 2 ^ unitExponent num den := by
  obtain ⟨m, hm, hrounded⟩ := @ofRatio_eq negative num den _ hnum hden rfl
  rw [hrounded] at h
  obtain ⟨hsign, hmagnitude⟩ := pack_finite h
  exact ⟨m, hm, hsign, hmagnitude⟩

theorem ofRatio_sign {y : Finite} (hden : 0 < den) (h : ofRatio negative num den = .finite y) :
    y.negative = negative ∧ (num = 0 → y.magnitude = 0) := by
  rcases Nat.eq_zero_or_pos num with rfl | hnum
  · cases h
    refine ⟨rfl, fun _ => ?_⟩
    rw [Finite.magnitude, Finite.zero, Nat.cast_zero, zero_mul]
  · obtain ⟨m, -, hsign, -⟩ := ofRatio_finite hnum hden h
    exact ⟨hsign, fun hzero => absurd hzero hnum.ne'⟩

theorem Finite.magnitude_nonneg (x : Finite) : 0 ≤ x.magnitude :=
  mul_nonneg (Nat.cast_nonneg _) (two_zpow_pos _).le

/-- Rounding in smaller and in larger units does not pass a power of two that stands between. -/
theorem nearest_units_le {v v' : ℚ} {m m' : ℕ} {q q' : ℤ} (hunit : q ≤ q')
    (h : Nearest (v / 2 ^ q) m) (h' : Nearest (v' / 2 ^ q') m') (hv : v ≤ 2 ^ (q' + 52))
    (hv' : 2 ^ (q' + 52) ≤ v') : (m : ℚ) * 2 ^ q ≤ m' * 2 ^ q' := by
  obtain ⟨k, hk⟩ := Int.eq_ofNat_of_zero_le (by omega : 0 ≤ q' - q + 52)
  have hscale : (2 : ℚ) ^ (q' + 52) / 2 ^ q = (2 ^ k : ℕ) := by
    rw [← zpow_sub₀ (by norm_num), Nat.cast_pow, Nat.cast_ofNat, ← zpow_natCast]
    congr 1
    omega
  have hscale' : (2 : ℚ) ^ (q' + 52) / 2 ^ q' = (2 ^ 52 : ℕ) := by
    rw [← zpow_sub₀ (by norm_num), add_sub_cancel_left]
    norm_num
  have hbelow : m ≤ 2 ^ k := h.le (hscale ▸ div_le_div_of_nonneg_right hv (two_zpow_pos q).le)
  have habove : 2 ^ 52 ≤ m' := h'.ge (hscale' ▸ div_le_div_of_nonneg_right hv' (two_zpow_pos q').le)
  calc (m : ℚ) * 2 ^ q ≤ (2 ^ k : ℕ) * 2 ^ q :=
        mul_le_mul_of_nonneg_right (by exact_mod_cast hbelow) (two_zpow_pos q).le
    _ = (2 ^ 52 : ℕ) * 2 ^ q' := by
        rw [← hscale, ← hscale', div_mul_cancel₀ _ (two_zpow_pos q).ne',
          div_mul_cancel₀ _ (two_zpow_pos q').ne']
    _ ≤ m' * 2 ^ q' :=
        mul_le_mul_of_nonneg_right (by exact_mod_cast habove) (two_zpow_pos q').le

theorem ofRatio_mono {y y' : Finite} (hden : 0 < den) (hden' : 0 < den')
    (hle : (num / den : ℚ) ≤ num' / den') (h : ofRatio negative num den = .finite y)
    (h' : ofRatio negative' num' den' = .finite y') : y.magnitude ≤ y'.magnitude := by
  rcases Nat.eq_zero_or_pos num with hzero | hnum
  · rw [(ofRatio_sign hden h).2 hzero]
    exact y'.magnitude_nonneg
  have hpos : (0 : ℚ) < num / den := by positivity
  have hnum' : 0 < num' := by
    refine Nat.pos_of_ne_zero fun hzero => ?_
    rw [hzero, Nat.cast_zero, zero_div] at hle
    exact absurd hle (not_le.mpr hpos)
  obtain ⟨m, hm, -, hmagnitude⟩ := ofRatio_finite hnum hden h
  obtain ⟨m', hm', -, hmagnitude'⟩ := ofRatio_finite hnum' hden' h'
  obtain ⟨hlow, hhigh⟩ := floorLog2_bounds hnum hden
  obtain ⟨hlow', hhigh'⟩ := floorLog2_bounds hnum' hden'
  have hlog : floorLog2 num den ≤ floorLog2 num' den' := by
    have := two_zpow_lt_iff.mp (hlow.trans_lt (hle.trans_lt hhigh'))
    omega
  have hunit : unitExponent num den ≤ unitExponent num' den' :=
    max_le_max_right _ (by omega)
  rw [hmagnitude, hmagnitude']
  rcases eq_or_lt_of_le hunit with heq | hlt
  · rw [heq] at hm ⊢
    have hscaled := div_le_div_of_nonneg_right hle (two_zpow_pos (unitExponent num' den')).le
    exact mul_le_mul_of_nonneg_right (by exact_mod_cast hm.mono hm' hscaled) (two_zpow_pos _).le
  · -- the power of two below the larger quotient is not below the smaller one
    refine nearest_units_le hlt.le hm hm' (hhigh.le.trans (two_zpow_le_iff.mpr ?_))
      (le_trans (two_zpow_le_iff.mpr ?_) hlow')
    all_goals
      simp only [unitExponent] at hlt ⊢
      omega

/-- The units of a double are those in which it is rounded. -/
theorem unitExponent_ratio {x : Finite} (h : x.mantissa ≠ 0) :
    unitExponent x.ratio.1 x.ratio.2 = x.exponent := by
  obtain ⟨hbits, hleast, -, hnormal⟩ := x.canonical
  have hmantissa : 0 < x.mantissa := Nat.pos_of_ne_zero h
  have hpos : 0 < x.ratio.1 := by
    unfold Finite.ratio
    split
    · exact Nat.mul_pos hmantissa (Nat.two_pow_pos _)
    · exact hmantissa
  have hhigh : x.magnitude < 2 ^ (x.exponent + 52 + 1) := by
    have hbits : (x.mantissa : ℚ) < 2 ^ (53 : ℤ) := by exact_mod_cast hbits
    rw [add_assoc, add_comm, zpow_add₀ (by norm_num)]
    exact mul_lt_mul_of_pos_right hbits (two_zpow_pos _)
  rw [x.magnitude_eq] at hhigh
  rcases hnormal with hnormal | hsmall
  · have hlow : (2 : ℚ) ^ (x.exponent + 52) ≤ x.magnitude := by
      have hnormal : (2 : ℚ) ^ (52 : ℤ) ≤ x.mantissa := by exact_mod_cast hnormal
      rw [add_comm, zpow_add₀ (by norm_num)]
      exact mul_le_mul_of_nonneg_right hnormal (two_zpow_pos _).le
    rw [x.magnitude_eq] at hlow
    rw [unitExponent, floorLog2_eq hpos x.ratio_pos hlow hhigh]
    omega
  · have hlog := two_zpow_lt_iff.mp ((floorLog2_bounds hpos x.ratio_pos).1.trans_lt hhigh)
    rw [unitExponent]
    omega

theorem ofRatio_ratio (x : Finite) (negative : Bool) :
    ofRatio negative x.ratio.1 x.ratio.2 = .finite { x with negative := negative } := by
  by_cases hzero : x.mantissa = 0
  · obtain ⟨sign, mantissa, exponent, hcanonical⟩ := x
    obtain rfl : mantissa = 0 := hzero
    obtain rfl : exponent = -1074 := hcanonical.2.2.2.resolve_left (by decide)
    rfl
  · have hnum : 0 < x.ratio.1 := by
      refine Nat.pos_of_ne_zero fun hnum => hzero ?_
      have hmagnitude := x.magnitude_eq
      rw [hnum, Nat.cast_zero, zero_div, Finite.magnitude] at hmagnitude
      have := (mul_eq_zero.mp hmagnitude).resolve_right (two_zpow_pos _).ne'
      exact_mod_cast this
    obtain ⟨m, hm, hrounded⟩ := @ofRatio_eq negative _ _ _ hnum x.ratio_pos rfl
    rw [show max (floorLog2 x.ratio.1 x.ratio.2 - 52) (-1074) = x.exponent from
      unitExponent_ratio hzero] at hm hrounded
    have hexact : (x.ratio.1 / x.ratio.2 : ℚ) / 2 ^ x.exponent = x.mantissa := by
      rw [← x.magnitude_eq, Finite.magnitude, mul_div_cancel_right₀ _ (two_zpow_pos _).ne']
    obtain rfl := hm.unique (.of_eq hexact)
    rw [hrounded, pack]
    simp only [if_neg (Nat.ne_of_lt x.canonical.1)]
    exact dif_pos x.canonical

end Round

end Binary64

/-! ## Numbers -/

theorem Number.toBinary64_ratio {x : Number} {a : ℚ} (hx : x.rational? = some a) :
    ∃ negative num den, 0 < den ∧ a = signed negative ((num : ℕ) / (den : ℕ) : ℚ) ∧
      x.toBinary64 = .ofRatio negative num den := by
  cases x with
  | int n =>
    obtain rfl : (n : ℚ) = a := Option.some.inj hx
    refine ⟨decide (n < 0), n.natAbs, 1, Nat.one_pos, ?_, rfl⟩
    rw [Nat.cast_one, div_one, signed_natAbs]
  | float y =>
    cases y with
    | finite f =>
      obtain rfl : f.value = a := Option.some.inj hx
      refine ⟨f.negative, f.ratio.1, f.ratio.2, f.ratio_pos, ?_, ?_⟩
      · rw [← f.magnitude_eq]
        rfl
      · rw [Binary64.ofRatio_ratio]
        rfl
    | infinite negative => cases hx
    | nan => cases hx

/-- What keeps the order of magnitudes, and zero, keeps the order of numbers with signs. -/
theorem signed_le_signed {s s' : Bool} {v v' w w' : ℚ} (hv : 0 ≤ v) (hv' : 0 ≤ v') (hw : 0 ≤ w)
    (hw' : 0 ≤ w') (hle : v ≤ v' → w ≤ w') (hge : v' ≤ v → w' ≤ w) (hzero : v = 0 → w = 0)
    (hzero' : v' = 0 → w' = 0) (h : signed s v ≤ signed s' v') : signed s w ≤ signed s' w' := by
  cases s <;> cases s' <;> simp only [signed, if_true, if_false, Bool.false_eq_true] at h ⊢
  · exact hle h
  · rw [hzero (by linarith), hzero' (by linarith), neg_zero]
  · linarith
  · exact neg_le_neg (hge (neg_le_neg_iff.mp h))

/-- The doubles nearest to numbers are in the order of the numbers. -/
theorem value_mono {x y : Number} {a b : ℚ} {f g : Binary64.Finite} (hx : x.rational? = some a)
    (hy : y.rational? = some b) (hab : a ≤ b) (hf : x.toBinary64 = .finite f)
    (hg : y.toBinary64 = .finite g) : f.value ≤ g.value := by
  obtain ⟨negative, num, den, hden, rfl, hround⟩ := Number.toBinary64_ratio hx
  obtain ⟨negative', num', den', hden', rfl, hround'⟩ := Number.toBinary64_ratio hy
  rw [hround] at hf
  rw [hround'] at hg
  have hzero : ∀ {num den : ℕ}, 0 < den → (num / den : ℚ) = 0 → num = 0 := by
    intro num den hden h
    have := (div_eq_zero_iff.mp h).resolve_right (by positivity)
    exact_mod_cast this
  obtain ⟨hsign, hnone⟩ := Binary64.ofRatio_sign hden hf
  obtain ⟨hsign', hnone'⟩ := Binary64.ofRatio_sign hden' hg
  rw [Binary64.Finite.value, Binary64.Finite.value, hsign, hsign']
  refine signed_le_signed (by positivity) (by positivity) f.magnitude_nonneg g.magnitude_nonneg
    (fun hle => Binary64.ofRatio_mono hden hden' hle hf hg)
    (fun hle => Binary64.ofRatio_mono hden' hden hle hg hf)
    (fun h => hnone (hzero hden h)) (fun h => hnone' (hzero hden' h)) hab

/-! ## Texts of magnitudes -/

namespace Binary64

section Shown

variable {x y : Finite}

theorem shownMagnitude_small (h : x.magnitude < 1) :
    x.shownMagnitude = x.units 3 / 1000 ∧ x.units 3 ≤ 1000 := by
  have hbelow : x.below 1 = true := by rwa [x.below_iff, Nat.cast_one]
  refine ⟨by rw [Finite.shownMagnitude, if_pos hbelow], (x.units_nearest 3).le ?_⟩
  push_cast
  linarith

theorem shownMagnitude_medium (hone : 1 ≤ x.magnitude) (hten : x.magnitude < 10) :
    x.shownMagnitude = x.units 2 / 100 ∧ 100 ≤ x.units 2 ∧ x.units 2 ≤ 1000 := by
  have habove : ¬ x.below 1 = true := by rwa [x.below_iff, Nat.cast_one, not_lt]
  have hbelow : x.below 10 = true := by rwa [x.below_iff, Nat.cast_ofNat]
  refine ⟨by rw [Finite.shownMagnitude, if_neg habove, if_pos hbelow],
    (x.units_nearest 2).ge ?_, (x.units_nearest 2).le ?_⟩
  · push_cast
    linarith
  · push_cast
    linarith

theorem shownMagnitude_large (h : 10 ≤ x.magnitude) :
    x.shownMagnitude = x.rounded ∧ 10 ≤ x.rounded := by
  have habove : ¬ x.below 1 = true := by
    rw [x.below_iff, Nat.cast_one]
    linarith
  have habove' : ¬ x.below 10 = true := by rwa [x.below_iff, Nat.cast_ofNat, not_lt]
  exact ⟨by rw [Finite.shownMagnitude, if_neg habove, if_neg habove'], (rounded_kept h).1⟩

theorem shownMagnitude_zero (h : x.magnitude = 0) : x.shownMagnitude = 0 := by
  have hnone : x.units 3 ≤ 0 := (x.units_nearest 3).le (by rw [h]; norm_num)
  rw [(shownMagnitude_small (by rw [h]; norm_num)).1, Nat.le_zero.mp hnone, Nat.cast_zero, zero_div]

theorem floor_mono (h : x.magnitude ≤ y.magnitude) : x.floor ≤ y.floor := by
  have hlow := ((x.floor_eq_iff).mp rfl).1
  have hhigh := ((y.floor_eq_iff).mp rfl).2
  have hlt : (x.floor : ℚ) < y.floor + 1 := hlow.trans_lt (h.trans_lt hhigh)
  exact Nat.lt_succ_iff.mp (by exact_mod_cast hlt)

theorem plusHalf_finite (h : 10 ≤ x.magnitude) : ∃ z : Finite, x.plusHalf = .finite z := by
  have hlarge := (rounded_kept h).1
  unfold Finite.rounded at hlarge
  split at hlarge
  · next z hz => exact ⟨z, hz⟩
  · omega

theorem rounded_mono (hx : 10 ≤ x.magnitude) (h : x.magnitude ≤ y.magnitude) :
    x.rounded ≤ y.rounded := by
  obtain ⟨z, hz⟩ := plusHalf_finite hx
  obtain ⟨w, hw⟩ := plusHalf_finite (hx.trans h)
  rw [Finite.rounded_of hz, Finite.rounded_of hw]
  refine floor_mono (ofRatio_mono (two_ratio_pos x) (two_ratio_pos y) ?_ hz hw)
  rw [plusHalf_value, plusHalf_value]
  linarith

/-- A smaller magnitude does not have the text of a larger number, also where the number of places
changes. -/
theorem shownMagnitude_mono (h : x.magnitude ≤ y.magnitude) :
    x.shownMagnitude ≤ y.shownMagnitude := by
  have hunits : ∀ places, x.units places ≤ y.units places := fun places =>
    (x.units_nearest places).mono (y.units_nearest places)
      (mul_le_mul_of_nonneg_right h (by positivity))
  rcases lt_or_ge x.magnitude 1 with hx | hx
  · obtain ⟨hshown, hmost⟩ := shownMagnitude_small hx
    have hone : x.shownMagnitude ≤ 1 := by
      have : (x.units 3 : ℚ) ≤ 1000 := by exact_mod_cast hmost
      rw [hshown]
      linarith
    rcases lt_or_ge y.magnitude 1 with hy | hy
    · have : (x.units 3 : ℚ) ≤ y.units 3 := by exact_mod_cast hunits 3
      rw [hshown, (shownMagnitude_small hy).1]
      linarith
    · refine hone.trans ?_
      rcases lt_or_ge y.magnitude 10 with hy' | hy'
      · obtain ⟨hshown', hleast, -⟩ := shownMagnitude_medium hy hy'
        have : (100 : ℚ) ≤ y.units 2 := by exact_mod_cast hleast
        rw [hshown']
        linarith
      · obtain ⟨hshown', hleast⟩ := shownMagnitude_large hy'
        rw [hshown']
        exact_mod_cast (by omega : 1 ≤ y.rounded)
  · rcases lt_or_ge x.magnitude 10 with hx' | hx'
    · obtain ⟨hshown, -, hmost⟩ := shownMagnitude_medium hx hx'
      rcases lt_or_ge y.magnitude 10 with hy | hy
      · have : (x.units 2 : ℚ) ≤ y.units 2 := by exact_mod_cast hunits 2
        rw [hshown, (shownMagnitude_medium (hx.trans h) hy).1]
        linarith
      · obtain ⟨hshown', hleast⟩ := shownMagnitude_large hy
        have : (x.units 2 : ℚ) ≤ 1000 := by exact_mod_cast hmost
        have : (10 : ℚ) ≤ y.rounded := by exact_mod_cast hleast
        rw [hshown, hshown']
        linarith
    · rw [(shownMagnitude_large hx').1, (shownMagnitude_large (hx'.trans h)).1]
      exact_mod_cast rounded_mono hx' h

end Shown

/-- The text of a double says no more than that of a larger one. -/
theorem shown_le_shown {f g : Finite} (h : f.value ≤ g.value) :
    signed f.negative f.shownMagnitude ≤ signed g.negative g.shownMagnitude :=
  signed_le_signed f.magnitude_nonneg g.magnitude_nonneg f.shownMagnitude_nonneg
    g.shownMagnitude_nonneg shownMagnitude_mono shownMagnitude_mono shownMagnitude_zero
    shownMagnitude_zero h

end Binary64

/-- The text of a number that can be written and that of its opposite say opposite numbers. -/
theorem readRational?_neg {x : Number} {f : Binary64.Finite} (hf : x.toBinary64 = .finite f) :
    ∃ text, replacement (.number x.neg) = .ok text ∧
      readRational? text = some (-signed f.negative f.shownMagnitude) := by
  by_cases hzero : x = .int 0
  · subst hzero
    obtain rfl : Binary64.Finite.zero false = f := Binary64.finite.inj hf
    have hshown : (Binary64.Finite.zero false).shownMagnitude = 0 := by
      refine Binary64.shownMagnitude_zero ?_
      rw [Binary64.Finite.magnitude, Binary64.Finite.zero, Nat.cast_zero, zero_mul]
    refine ⟨_, replacement_finite hf, ?_⟩
    rw [Binary64.readRational?_written, hshown, signed_zero, neg_zero]
  · have hneg : x.neg.toBinary64 = .finite f.neg := by
      rw [Number.toBinary64_neg hzero, hf]
      rfl
    refine ⟨_, replacement_finite hneg, ?_⟩
    rw [Binary64.readRational?_written, ← signed_not]
    rfl

/-- Of two numbers that can be written, integers or doubles, the smaller one is not written as a
larger number, and the opposite of a number is written as the opposite number. -/
theorem written_monotone {x y : Number} {a b : ℚ} {s t : List Char} (hx : x.rational? = some a)
    (hy : y.rational? = some b) (hab : a ≤ b) (hs : replacement (.number x) = .ok s)
    (ht : replacement (.number y) = .ok t) :
    ∃ u v, readRational? s = some u ∧ readRational? t = some v ∧ u ≤ v ∧
      ∃ s', replacement (.number x.neg) = .ok s' ∧ readRational? s' = some (-u) := by
  obtain ⟨f, hf, rfl⟩ := Number.replacement_eq hx hs
  obtain ⟨g, hg, rfl⟩ := Number.replacement_eq hy ht
  exact ⟨_, _, Binary64.readRational?_written f, Binary64.readRational?_written g,
    Binary64.shown_le_shown (value_mono hx hy hab hf hg), readRational?_neg hf⟩

/-- An integer below ten and a double above it that is written as ten. -/
theorem written_monotone_carried :
    let f : Binary64.Finite := ⟨false, 5627247734399435, -49, by decide⟩
    let x : Number := .int 9
    let y : Number := .float (.finite f)
    (x.rational? = some 9 ∧ y.rational? = some f.value ∧ (9 : ℚ) ≤ f.value ∧
      replacement (.number x) = .ok ['9'] ∧ replacement (.number y) = .ok ['1', '0']) ∧
      ∃ u v, readRational? ['9'] = some u ∧ readRational? ['1', '0'] = some v ∧ u ≤ v ∧
        ∃ s', replacement (.number x.neg) = .ok s' ∧ readRational? s' = some (-u) := by
  intro f x y
  have hle : (9 : ℚ) ≤ f.value := by
    norm_num [f, Binary64.Finite.value, signed, Binary64.Finite.magnitude]
  have hnine : x.toBinary64 = .finite ⟨false, 5066549580791808, -49, by decide⟩ := by
    decide +kernel
  have hx : replacement (.number x) = .ok ['9'] := by
    rw [replacement_finite hnine]
    exact congrArg _ (by decide +kernel)
  have hy : replacement (.number y) = .ok ['1', '0'] := by
    rw [replacement_finite rfl]
    exact congrArg _ (by decide +kernel : f.written = ['1', '0'])
  exact ⟨⟨rfl, rfl, hle, hx, hy⟩, written_monotone rfl rfl hle hx hy⟩

end LiveChain
