import LiveChain.Proofs.Number.Places
import LiveChain.Proofs.Chain.Written
import Mathlib.Data.List.DropRight

/-!
# Short decimals

A written magnitude is a decimal with at most three digits behind its point. What it says is the
whole number that its digits spell, divided by a power of ten, and this is also what is read from
it.
-/

set_option autoImplicit false

namespace LiveChain

open Text Syntax

/-! ## Spelling -/

/-- Digits, and behind them a point and more digits if there are any. -/
def decimalText (whole fraction : List Char) : List Char :=
  if fraction.isEmpty then whole else whole ++ '.' :: fraction

/-- The number that all digits of a decimal spell together. -/
def spelledDigits (whole fraction : List Char) : ℕ := Nat.ofDigitChars 10 (whole ++ fraction) 0

def decimalValue (whole fraction : List Char) : ℚ :=
  (spelledDigits whole fraction : ℚ) / 10 ^ fraction.length

/-- The digits of a decimal: before the point no zero stands in front of others, and behind it are at
most three digits, of which the last is no zero. -/
structure ShortDecimal (whole fraction : List Char) : Prop where
  ne_nil : whole ≠ []
  whole_digits : ∀ c ∈ whole, c.isDigit = true
  leading : whole.head? = some '0' → whole = ['0']
  fraction_digits : ∀ c ∈ fraction, c.isDigit = true
  few : fraction.length ≤ 3
  trimmed : fraction.getLast? ≠ some '0'

section Texts

variable {places units n : ℕ} {whole fraction text : List Char} {v : ℚ}

theorem shortDecimal_toDigits (hdigits : ∀ c ∈ fraction, c.isDigit = true)
    (hfew : fraction.length ≤ 3) (htrimmed : fraction.getLast? ≠ some '0') :
    ShortDecimal (Nat.toDigits 10 n) fraction where
  ne_nil := Nat.toDigits_ne_nil
  whole_digits _ hc := Nat.isDigit_of_mem_toDigits (by decide) (by decide) hc
  leading hhead := by
    rcases Nat.eq_zero_or_pos n with rfl | hpos
    · rfl
    · exact absurd hhead (Chain.head_toDigits hpos)
  fraction_digits := hdigits
  few := hfew
  trimmed := htrimmed

theorem spelledDigits_toDigits :
    spelledDigits (Nat.toDigits 10 n) fraction =
      10 ^ fraction.length * n + Nat.ofDigitChars 10 fraction 0 := by
  rw [spelledDigits, Nat.ofDigitChars_append, Nat.ofDigitChars_ten_toDigits,
    Nat.ofDigitChars_eq_ofDigitChars_zero]

theorem decimalValue_zeros {j : ℕ} :
    decimalValue whole (fraction ++ List.replicate j '0') = decimalValue whole fraction := by
  rw [decimalValue, decimalValue, spelledDigits, spelledDigits, ← List.append_assoc,
    Nat.ofDigitChars_append, Nat.ofDigitChars_replicate_zero, List.length_append,
    List.length_replicate, pow_add, mul_comm]
  push_cast
  exact mul_div_mul_right _ _ (by positivity)

/-- Digits are those without the zeros at their end, and these zeros. -/
theorem exists_zeros (cs : List Char) :
    ∃ j, cs = cs.rdropWhile (· == '0') ++ List.replicate j '0' := by
  refine ⟨(cs.rtakeWhile (· == '0')).length, ?_⟩
  have hzeros : cs.rtakeWhile (· == '0') =
      List.replicate (cs.rtakeWhile (· == '0')).length '0' :=
    List.eq_replicate_of_mem fun c hc => by simpa using List.mem_rtakeWhile_imp hc
  rw [← hzeros, List.rdropWhile_append_rtakeWhile]

theorem getLast?_rdropWhile (cs : List Char) :
    (cs.rdropWhile (· == '0')).getLast? ≠ some '0' := by
  intro hlast
  have hne : cs.rdropWhile (· == '0') ≠ [] := by
    intro hnil
    rw [hnil] at hlast
    cases hlast
  rw [List.getLast?_eq_some_getLast hne] at hlast
  have hzero := List.rdropWhile_last_not (· == '0') cs hne
  rw [Option.some.inj hlast] at hzero
  exact hzero rfl

/-- The digits of a part of so many places, filled up with zeros in front. -/
theorem exists_padded (hplaces : 0 < places) (h : n < 10 ^ places) :
    ∃ digits, List.replicate (places - (Nat.toDigits 10 n).length) '0' ++ Nat.toDigits 10 n = digits ∧
      digits.length = places ∧ (∀ c ∈ digits, c.isDigit = true) ∧
      Nat.ofDigitChars 10 digits 0 = n := by
  have hlength := (Nat.length_toDigits_le_iff (by decide) hplaces).mpr h
  refine ⟨_, rfl, ?_, ?_, ?_⟩
  · rw [List.length_append, List.length_replicate, Nat.sub_add_cancel hlength]
  · intro c hc
    rcases List.mem_append.mp hc with hzero | hdigit
    · rw [List.eq_of_mem_replicate hzero]
      decide
    · exact Nat.isDigit_of_mem_toDigits (by decide) (by decide) hdigit
  · rw [Nat.ofDigitChars_append, Nat.ofDigitChars_replicate_zero, mul_zero,
      Nat.ofDigitChars_ten_toDigits]

/-- A number of units is written as a short decimal that says it. -/
theorem fixedText_decimal (units : ℕ) (hplaces : 0 < places) (hfew : places ≤ 3) :
    ∃ whole fraction, ShortDecimal whole fraction ∧
      fixedText places units = decimalText whole fraction ∧
      decimalValue whole fraction = units / 10 ^ places := by
  have hpart : units % 10 ^ places < 10 ^ places := Nat.mod_lt _ (by positivity)
  obtain ⟨digits, hdigits, hlength, hall, hspelled⟩ := exists_padded hplaces hpart
  have hvalue : decimalValue (Nat.toDigits 10 (units / 10 ^ places)) digits =
      units / 10 ^ places := by
    rw [decimalValue, spelledDigits_toDigits, hspelled, hlength, Nat.div_add_mod]
  have hkept : digits.rdropWhile (· == '0') <+: digits := List.rdropWhile_prefix _ _
  refine ⟨Nat.toDigits 10 (units / 10 ^ places), digits.rdropWhile (· == '0'), ?_, ?_, ?_⟩
  · exact shortDecimal_toDigits (fun c hc => hall c (hkept.subset hc))
      (hkept.length_le.trans (by omega)) (getLast?_rdropWhile digits)
  · rw [← hdigits]
    rfl
  · obtain ⟨j, hzeros⟩ := exists_zeros digits
    rw [hzeros, decimalValue_zeros] at hvalue
    exact hvalue

/-- A whole number is written as a short decimal that says it. -/
theorem toDigits_decimal (n : ℕ) :
    ∃ whole fraction, ShortDecimal whole fraction ∧
      Nat.toDigits 10 n = decimalText whole fraction ∧ decimalValue whole fraction = n := by
  refine ⟨Nat.toDigits 10 n, [], shortDecimal_toDigits (by simp) (by simp) (by simp), rfl, ?_⟩
  rw [decimalValue, spelledDigits_toDigits, Nat.ofDigitChars_nil]
  norm_num

/-- The text of a magnitude is a short decimal that says the same number. -/
theorem Binary64.Shown.decimal (h : Binary64.Shown text v) :
    ∃ whole fraction, ShortDecimal whole fraction ∧ text = decimalText whole fraction ∧
      decimalValue whole fraction = v := by
  cases h with
  | @thousandths u =>
    obtain ⟨whole, fraction, hshort, htext, hvalue⟩ :=
      @fixedText_decimal 3 u (by decide) (by decide)
    exact ⟨whole, fraction, hshort, htext, by rw [hvalue]; norm_num⟩
  | @hundredths u =>
    obtain ⟨whole, fraction, hshort, htext, hvalue⟩ :=
      @fixedText_decimal 2 u (by decide) (by decide)
    exact ⟨whole, fraction, hshort, htext, by rw [hvalue]; norm_num⟩
  | @whole n => exact toDigits_decimal n

end Texts

/-! ## Reading -/

def signText (negative : Bool) : List Char := if negative then ['-'] else []

theorem signText_cases (negative : Bool) :
    (signText negative = [] ∨ signText negative = ['+'] ∨ signText negative = ['-']) ∧
      decide (signText negative = ['-']) = negative := by
  cases negative <;> exact ⟨by decide, by decide⟩

namespace ShortDecimal

variable {whole fraction : List Char}

theorem decimalText_eq (h : ShortDecimal whole fraction) :
    DecimalText (decimalText whole fraction) (spelledDigits whole fraction)
      (-(fraction.length : ℤ)) := by
  have hne : whole ++ fraction ≠ [] := by simp [h.ne_nil]
  rw [← Int.zero_sub]
  cases fraction with
  | nil =>
    have htext := DecimalText.mk h.whole_digits .none .none hne
    rw [List.append_nil, List.append_nil] at htext
    rwa [decimalText, if_pos List.isEmpty_nil, spelledDigits, List.append_nil]
  | cons d fraction =>
    have htext := DecimalText.mk h.whole_digits (.point h.fraction_digits) .none hne
    rwa [List.append_nil] at htext

/-- A short decimal, read as a floating-point number. -/
theorem readFloat?_eq (h : ShortDecimal whole fraction) (negative : Bool) :
    readFloat? (signText negative ++ decimalText whole fraction) =
      some (.ofDecimal negative (spelledDigits whole fraction) (-(fraction.length : ℤ))) := by
  obtain ⟨hsign, hnegative⟩ := signText_cases negative
  rw [h.decimalText_eq.readFloat?_eq hsign, hnegative]

/-- A short decimal as a literal is a decimal integer, or a floating-point number if it has a
fraction. A zero in front of other digits would make it an octal number. -/
theorem form_eq (h : ShortDecimal whole fraction) :
    NumberLiteral.form (decimalText whole fraction) =
      if fraction.isEmpty then .decimal whole else .float (decimalText whole fraction) := by
  have hbare : NumberLiteral.bare (decimalText whole fraction) = decimalText whole fraction :=
    bare_of_chars (fun c hc => (h.decimalText_eq.chars c hc).1) fun hmem =>
      (h.decimalText_eq.chars _ hmem).2 rfl
  rw [NumberLiteral.form, hbare]
  by_cases hempty : fraction.isEmpty = true
  · rw [decimalText, if_pos hempty, if_pos hempty, formOfBare_digits h.whole_digits]
    refine if_neg ?_
    rintro ⟨hlength, hhead, -⟩
    rw [h.leading hhead] at hlength
    exact absurd hlength (by decide)
  · rw [if_neg hempty]
    refine formOfBare_float (fun c hc => (h.decimalText_eq.chars c hc).1) ⟨'.', ?_, .inl rfl⟩
    rw [decimalText, if_neg hempty]
    exact List.mem_append_right _ List.mem_cons_self

theorem not_octal (h : ShortDecimal whole fraction) (digits : List Char) :
    NumberLiteral.form (decimalText whole fraction) ≠ .octal digits := by
  rw [h.form_eq]
  split <;> simp

/-- The number that is read from a short decimal as a literal. -/
theorem value?_eq (h : ShortDecimal whole fraction) :
    NumberLiteral.value? (decimalText whole fraction) = some
      (if fraction.isEmpty then .int (spelledDigits whole fraction)
        else .float (.ofDecimal false (spelledDigits whole fraction) (-(fraction.length : ℤ)))) := by
  rw [NumberLiteral.value?, h.form_eq]
  split
  · next hempty =>
    rw [List.isEmpty_iff] at hempty
    rw [NumberLiteral.Form.value?, NumberLiteral.decimalValue?, splitSign_digits h.whole_digits,
      spelledDigits, hempty, List.append_nil]
    simp only [positional?_spelled h.ne_nil h.whole_digits]
    rfl
  · have hread := h.readFloat?_eq false
    rw [signText, if_neg Bool.false_ne_true, List.nil_append] at hread
    rw [NumberLiteral.Form.value?, hread]
    rfl

end ShortDecimal

/-! ## Rounding -/

/-- A decimal with few digits behind its point is rounded as the quotient that it is. -/
theorem Binary64.ofDecimal_eq (negative : Bool) {digits places : ℕ} (hplaces : places ≤ 3)
    (hlength : (Nat.toDigits 10 digits).length ≤ 400) :
    ofDecimal negative digits (-(places : ℤ)) = ofRatio negative digits (10 ^ places) := by
  unfold ofDecimal
  simp only
  split
  · next hzero =>
    rw [ofRatio, if_pos hzero]
  · rw [if_neg (by omega), if_neg (by omega)]
    split
    · obtain rfl : places = 0 := by omega
      simp
    · rw [neg_neg, Int.toNat_natCast]
      rfl

end LiveChain
