import LiveChain.Proofs.Chain.Agreement
import Mathlib.Algebra.Group.Nat.Defs

/-!
# Written numbers in a chain

The text of a finite double is a number that a chain may have as an argument: perhaps a minus sign,
digits without further zeros in front, and perhaps a fraction.
-/

set_option autoImplicit false

namespace LiveChain.Chain

open Text Syntax Scan

/-- Digits that are one numeral of a chain and not too long. -/
structure IsLiteral (digits : List Char) : Prop where
  token : numberToken? digits = some digits.length
  short : Short digits

/-! ## Digits -/

theorem head_toDigits {n : Nat} (h : 0 < n) : (Nat.toDigits 10 n).head? ≠ some '0' := by
  induction n using Nat.strongRecOn with
  | ind n ih =>
    rw [Nat.toDigits_eq_if (by decide)]
    split
    · next hlt =>
      have hdigit : ∀ d < 10, 0 < d → Nat.digitChar d ≠ '0' := by decide
      rw [List.head?_cons]
      exact fun heq => hdigit n hlt h (Option.some.inj heq)
    · have hfirst := ih (n / 10) (by omega) (by omega)
      have hne : Nat.toDigits 10 (n / 10) ≠ [] := Nat.toDigits_ne_nil
      obtain ⟨c, rest, hcons⟩ := List.exists_cons_of_ne_nil hne
      rw [hcons] at hfirst ⊢
      exact hfirst

theorem takesFraction_of_head {whole : List Char} (h : whole.head? ≠ some '0') :
    takesFraction whole = true := by
  unfold takesFraction
  split
  · rfl
  · exact absurd rfl h
  · rfl

/-- The digits of a natural number, before a fraction or alone. -/
theorem plainDecimal_toDigits (n : Nat) {fraction : List Char}
    (h : fraction = [] ∨ ∃ digits, fraction = '.' :: digits ∧ ∀ c ∈ digits, c.isDigit = true) :
    PlainDecimal (Nat.toDigits 10 n) fraction where
  ne_nil := Nat.toDigits_ne_nil
  digits _ hc := Nat.isDigit_of_mem_toDigits (by decide) (by decide) hc
  takes := by
    rcases Nat.eq_zero_or_pos n with rfl | hpos
    · rfl
    · exact takesFraction_of_head (head_toDigits hpos)
  point := h

/-- A fraction makes a numeral a floating-point number, whatever its length. -/
theorem isLiteral_of_decimal {whole fraction : List Char} (h : PlainDecimal whole fraction)
    (hlength : whole.length ≤ digitLimit) : IsLiteral (whole ++ fraction) := by
  refine ⟨h.numberToken?_eq, ?_⟩
  rcases h.point with rfl | ⟨digits, rfl, -⟩
  · rw [List.append_nil]
    exact .of_length hlength
  · have hchars : ∀ c ∈ whole ++ '.' :: digits, IsNumeralChar c := by
      intro c hc
      rcases h.chars c hc with hdigit | rfl
      · exact .inl hdigit
      · exact .inr (by decide)
    have hbare : NumberLiteral.bare (whole ++ '.' :: digits) = whole ++ '.' :: digits := by
      refine bare_of_chars hchars fun hmem => ?_
      rcases h.chars _ hmem with hdigit | heq
      · exact absurd hdigit (by decide)
      · exact absurd heq (by decide)
    have hfloat : NumberLiteral.form (whole ++ '.' :: digits) = .float (whole ++ '.' :: digits) := by
      rw [NumberLiteral.form, hbare]
      exact formOfBare_float hchars ⟨'.', by simp, .inl rfl⟩
    intro text hform
    rw [hfloat] at hform
    cases hform

/-! ## Magnitudes -/

theorem length_toDigits_of_lt {n : Nat} (h : n < 10 ^ digitLimit) :
    (Nat.toDigits 10 n).length ≤ digitLimit :=
  (Nat.length_toDigits_le_iff (by decide) (by decide)).mpr h

theorem fixedText_literal {places units : Nat} (h : units / Nat.pow 10 places < 10 ^ digitLimit) :
    IsLiteral (fixedText places units) := by
  have hlength := length_toDigits_of_lt h
  unfold fixedText
  simp only
  split
  · have hliteral :=
      isLiteral_of_decimal (plainDecimal_toDigits (units / Nat.pow 10 places) (.inl rfl)) hlength
    rwa [List.append_nil] at hliteral
  · refine isLiteral_of_decimal (plainDecimal_toDigits _ (.inr ⟨_, rfl, fun c hc => ?_⟩)) hlength
    have hmem := (List.dropWhile_sublist _).subset (List.mem_reverse.mp hc)
    rcases List.mem_append.mp (List.mem_reverse.mp hmem) with hzero | hdigit
    · rw [List.eq_of_mem_replicate hzero]
      decide
    · exact Nat.isDigit_of_mem_toDigits (by decide) (by decide) hdigit

theorem roundHalfEven_le (n d : Nat) : roundHalfEven n d ≤ n / d + 1 := by
  unfold roundHalfEven
  simp only
  split
  · omega
  · split
    · omega
    · split <;> omega

/-- A magnitude below a natural number is rounded to at most that number. -/
theorem whole_units_le {x : Binary64.Finite} {k : Nat} (h : x.below k = true) (places : Nat) :
    x.units places / Nat.pow 10 places ≤ k := by
  have hbelow : x.ratio.1 < k * x.ratio.2 := by simpa [Binary64.Finite.below] using h
  have hpow : 0 < Nat.pow 10 places := Nat.pow_pos (by decide)
  have hscaled : x.ratio.1 * Nat.pow 10 places < x.ratio.2 * (k * Nat.pow 10 places) := by
    have hlt := Nat.mul_lt_mul_of_pos_right hbelow hpow
    rwa [Nat.mul_comm k, Nat.mul_assoc] at hlt
  have hdiv := Nat.div_lt_of_lt_mul hscaled
  have hround := roundHalfEven_le (x.ratio.1 * Nat.pow 10 places) x.ratio.2
  refine Nat.div_le_of_le_mul ?_
  rw [Nat.mul_comm]
  exact Nat.le_trans hround hdiv

theorem mul_pow_lt {m e a b n : Nat} (h : m < Nat.pow 2 a) (he : e ≤ b)
    (hn : Nat.pow 2 a * Nat.pow 2 b ≤ n) : m * Nat.pow 2 e < n := by
  have hpow : Nat.pow 2 e ≤ Nat.pow 2 b := Nat.pow_le_pow_right (by decide) he
  have hmul := Nat.mul_lt_mul_of_lt_of_le h hpow (Nat.pow_pos (by decide))
  exact Nat.lt_of_lt_of_le hmul hn

theorem floor_le (x : Binary64.Finite) :
    x.floor ≤ x.mantissa * Nat.pow 2 x.exponent.toNat := by
  refine Nat.le_trans (Nat.div_le_self _ _) ?_
  unfold Binary64.Finite.ratio
  split
  · exact Nat.le_refl _
  · exact Nat.le_mul_of_pos_right _ (Nat.pow_pos (by decide))

theorem floor_lt (x : Binary64.Finite) : x.floor < 10 ^ digitLimit := by
  obtain ⟨hmantissa, -, hexponent, -⟩ := x.canonical
  have hle : x.exponent.toNat ≤ 971 := by omega
  exact Nat.lt_of_le_of_lt (floor_le x) (mul_pow_lt hmantissa hle (by decide +kernel))

theorem magnitudeText_literal (x : Binary64.Finite) : IsLiteral x.magnitudeText := by
  have hsmall : ∀ {k places : Nat}, k ≤ 10 → x.below k = true →
      x.units places / Nat.pow 10 places < 10 ^ digitLimit := by
    intro k places hk hbelow
    have hten : 10 < 10 ^ digitLimit := by decide +kernel
    exact Nat.lt_of_le_of_lt (Nat.le_trans (whole_units_le hbelow places) hk) hten
  unfold Binary64.Finite.magnitudeText
  split
  · next hbelow => exact fixedText_literal (hsmall (by decide) hbelow)
  · split
    · next hbelow => exact fixedText_literal (hsmall (by decide) hbelow)
    · have hrounded : x.rounded < 10 ^ digitLimit := by
        unfold Binary64.Finite.rounded
        split
        · exact floor_lt _
        · decide +kernel
      have hliteral := isLiteral_of_decimal (plainDecimal_toDigits x.rounded (.inl rfl))
        (length_toDigits_of_lt hrounded)
      rwa [List.append_nil] at hliteral

/-- A finite double is written as a sign, or none, and a literal. -/
theorem written_literal (x : Binary64.Finite) :
    ∃ sign digits, x.written = sign ++ digits ∧ Sign sign ∧ IsLiteral digits := by
  unfold Binary64.Finite.written
  simp only
  split
  · exact ⟨['-'], _, rfl, .minus .nil, magnitudeText_literal x⟩
  · exact ⟨[], _, rfl, .none, magnitudeText_literal x⟩

end LiveChain.Chain
