import LiveChain.Proofs.Chain.Editing
import LiveChain.Proofs.Number.Decimal

/-!
# Written numbers, read back

A number that is written, read back and written again has the same text, whether it is read as a
literal, and negated where a sign stands before it, or with its sign as a floating-point number.
-/

set_option autoImplicit false

namespace LiveChain

open Text Syntax

/-! ## Signs -/

namespace Binary64

/-- Negative numbers are rounded as their magnitudes are. -/
theorem ofRatio_neg (num den : ℕ) : ofRatio true num den = (ofRatio false num den).neg := by
  have hpack : ∀ m q, pack true m q = (pack false m q).neg := by
    intro m q
    unfold pack
    simp only
    generalize (if m = Nat.pow 2 53 then (Nat.pow 2 52, q + 1) else (m, q)) = carried
    split <;> rfl
  unfold ofRatio
  split
  · rfl
  · exact hpack _ _

theorem neg_neg (x : Binary64) : x.neg.neg = x := by
  cases x with
  | finite x => cases x; simp [neg, Finite.neg]
  | infinite negative => simp [neg]
  | nan => rfl

end Binary64

/-- There is no negative integer zero; everything else is negated before it is rounded or after. -/
theorem Number.toBinary64_neg {y : Number} (h : y ≠ .int 0) :
    y.neg.toBinary64 = y.toBinary64.neg := by
  cases y with
  | float x => rfl
  | int n =>
    have hn : n ≠ 0 := fun heq => h (congrArg _ heq)
    change Binary64.ofInt (-n) = (Binary64.ofInt n).neg
    rw [Binary64.ofInt, Binary64.ofInt, Int.natAbs_neg]
    rcases Int.lt_or_gt_of_ne hn with hneg | hpos
    · rw [decide_eq_true hneg, decide_eq_false (by omega), Binary64.ofRatio_neg, Binary64.neg_neg]
    · rw [decide_eq_true (by omega : -n < 0), decide_eq_false (by omega), Binary64.ofRatio_neg]

namespace Binary64

section Written

variable {x : Finite} {negative : Bool} {text : List Char}

theorem magnitudeText_neg (x : Finite) : x.neg.magnitudeText = x.magnitudeText := rfl

theorem written_eq (hsign : x.negative = negative) (htext : x.magnitudeText = text)
    (hzero : negative = true → text ≠ ['0']) : x.written = signText negative ++ text := by
  unfold Finite.written
  rw [hsign, htext]
  cases negative with
  | false => rfl
  | true => simp [signText, hzero rfl]

/-- The text of a double is a sign, or none, and the text of its magnitude; zero has no sign. -/
theorem written_split (x : Finite) : ∃ negative, x.written = signText negative ++ x.magnitudeText ∧
    (negative = true → x.magnitudeText ≠ ['0']) := by
  unfold Finite.written
  simp only
  split
  · next hsign =>
    refine ⟨true, rfl, fun _ => ?_⟩
    simp only [Bool.and_eq_true, bne_iff_ne] at hsign
    exact hsign.2
  · exact ⟨false, rfl, by simp⟩

end Written

/-! ## Bounds -/

theorem Finite.magnitude_lt {x : Finite} {e : ℕ} (h : x.exponent ≤ e) :
    x.magnitude < (2 ^ (53 + e) : ℕ) := by
  have hbits : (x.mantissa : ℚ) < 2 ^ 53 := by exact_mod_cast x.canonical.1
  have hpower : (2 : ℚ) ^ x.exponent ≤ 2 ^ (e : ℤ) := two_zpow_le_iff.mpr h
  calc x.magnitude < 2 ^ 53 * 2 ^ (e : ℤ) :=
        mul_lt_mul_of_lt_of_le_of_nonneg_of_pos hbits hpower (Nat.cast_nonneg _) (by positivity)
    _ = (2 ^ (53 + e) : ℕ) := by
        push_cast
        rw [zpow_natCast, pow_add]

theorem Shown.lt {text : List Char} {v : ℚ} (h : Shown text v) : v < (2 ^ (53 + 971) : ℕ) := by
  have hten : ((10 : ℕ) : ℚ) < (2 ^ (53 + 971) : ℕ) := Nat.cast_lt.mpr (by decide +kernel)
  cases h with
  | @thousandths u h =>
    have hu : (u : ℚ) < 1000 := by exact_mod_cast h
    refine lt_trans ?_ hten
    push_cast
    linarith
  | @hundredths u _ h =>
    have hu : (u : ℚ) < 1000 := by exact_mod_cast h
    refine lt_of_le_of_lt ?_ hten
    push_cast
    linarith
  | whole _ h =>
    obtain ⟨⟨x, hx⟩, -⟩ := h
    rw [← hx]
    exact Finite.magnitude_lt x.canonical.2.2.1

end Binary64

theorem length_spelledDigits {whole fraction : List Char} (h : ShortDecimal whole fraction)
    (hvalue : decimalValue whole fraction < (2 ^ (53 + 971) : ℕ)) :
    (Nat.toDigits 10 (spelledDigits whole fraction)).length ≤ 400 := by
  have hpower : 10 ^ fraction.length ≤ 10 ^ 3 := Nat.pow_le_pow_right (by decide) h.few
  have hspelled : spelledDigits whole fraction < 2 ^ (53 + 971) * 10 ^ fraction.length := by
    rw [decimalValue, div_lt_iff₀ (by positivity)] at hvalue
    exact_mod_cast hvalue
  refine (Nat.length_toDigits_le_iff (by decide) (by decide)).mpr (lt_of_lt_of_le hspelled ?_)
  exact (Nat.mul_le_mul_left _ hpower).trans (by decide +kernel)

/-! ## Reading back -/

section Back

variable {negative : Bool} {whole fraction text : List Char} {v : ℚ}

/-- The number that is read from a short decimal as a literal, rounded. -/
theorem ShortDecimal.value?_rounded (h : ShortDecimal whole fraction)
    (hlength : (Nat.toDigits 10 (spelledDigits whole fraction)).length ≤ 400) :
    ∃ y, NumberLiteral.value? (decimalText whole fraction) = some y ∧
      y.toBinary64 = .ofRatio false (spelledDigits whole fraction) (10 ^ fraction.length) := by
  refine ⟨_, h.value?_eq, ?_⟩
  split
  · next hempty =>
    rw [List.isEmpty_iff.mp hempty]
    change Binary64.ofInt (spelledDigits whole [] : ℤ) = _
    rw [Binary64.ofInt, decide_eq_false (by omega), Int.natAbs_natCast]
    rfl
  · exact Binary64.ofDecimal_eq false h.few hlength

namespace Binary64

/-- The digits of the text of a magnitude are rounded to doubles with this text. -/
theorem Shown.nearest (h : Shown text v) :
    ∃ whole fraction, ShortDecimal whole fraction ∧ text = decimalText whole fraction ∧
      (Nat.toDigits 10 (spelledDigits whole fraction)).length ≤ 400 ∧
      ∀ negative, ∃ z : Finite, Binary64.ofRatio negative (spelledDigits whole fraction)
        (10 ^ fraction.length) = .finite z ∧ z.negative = negative ∧ z.magnitudeText = text := by
  obtain ⟨whole, fraction, hshort, rfl, hvalue⟩ := h.decimal
  refine ⟨whole, fraction, hshort, rfl, length_spelledDigits hshort (hvalue ▸ h.lt), fun negative => ?_⟩
  refine Shown.ofRatio (by positivity) h ?_
  rw [← hvalue, decimalValue]
  push_cast
  rfl

/-- A text of a magnitude, with a sign or without, read as a floating-point number. -/
theorem Shown.float (h : Shown text v) (hzero : negative = true → text ≠ ['0']) :
    ∃ z, readFloat? (signText negative ++ text) = some (.finite z) ∧
      z.written = signText negative ++ text := by
  obtain ⟨whole, fraction, hshort, rfl, hlength, hnearest⟩ := h.nearest
  obtain ⟨z, hz, hsign, htext⟩ := hnearest negative
  refine ⟨z, ?_, written_eq hsign htext hzero⟩
  rw [hshort.readFloat?_eq, ofDecimal_eq negative hshort.few hlength, hz]

/-- A text of a magnitude read as a literal, and negated for the sign before it. -/
theorem Shown.literal (h : Shown text v) (hzero : negative = true → text ≠ ['0']) :
    ∃ y, NumberLiteral.value? text = some y ∧
      replacement (.number (if negative then y.neg else y)) = .ok (signText negative ++ text) := by
  obtain ⟨whole, fraction, hshort, rfl, hlength, hnearest⟩ := h.nearest
  obtain ⟨z, hz, hsign, htext⟩ := hnearest false
  obtain ⟨y, hy, hrounded⟩ := hshort.value?_rounded hlength
  rw [hz] at hrounded
  refine ⟨y, hy, ?_⟩
  cases negative with
  | false =>
    rw [if_neg Bool.false_ne_true, replacement_finite hrounded, written_eq hsign htext (by simp)]
  | true =>
    -- what has a sign is not zero, so the integer that is read can be negated
    have hnonzero : y ≠ .int 0 := by
      rintro rfl
      have hz : z = .zero false := Binary64.finite.inj hrounded.symm
      rw [hz] at htext
      exact hzero rfl (htext ▸ by decide +kernel)
    have hneg : y.neg.toBinary64 = .finite z.neg := by
      rw [Number.toBinary64_neg hnonzero, hrounded]
      rfl
    have hsign : z.neg.negative = true := congrArg not hsign
    rw [if_pos rfl, replacement_finite hneg,
      written_eq hsign ((magnitudeText_neg z).trans htext) hzero]

end Binary64

end Back

/-- A finite number that can be written is written as a minus sign or nothing, digits before the point
without further zeros in front, and perhaps a point and at most three digits that do not end in a zero.
It is not written as a negative zero, its digits are one number of the scan, and as a literal they are
not octal. Read back as a literal, negated for its sign, or as a floating-point number, it is written
as the same text. -/
theorem written_stable {x : Number} (hx : x.IsFinite) {text : List Char}
    (h : replacement (.number x) = .ok text) :
    ∃ negative whole fraction, ShortDecimal whole fraction ∧
      text = signText negative ++ decimalText whole fraction ∧ text ≠ ['-', '0'] ∧
      Scan.numberAt? (decimalText whole fraction) = some (decimalText whole fraction).length ∧
      (∀ digits, NumberLiteral.form (decimalText whole fraction) ≠ .octal digits) ∧
      (∃ y, NumberLiteral.read (decimalText whole fraction) = .ok y ∧
        replacement (.number (if negative then y.neg else y)) = .ok text) ∧
      ∃ z, readFloat? text = some z ∧ replacement (.number (.float z)) = .ok text := by
  obtain ⟨f, rfl⟩ := hx.replacement_eq h
  obtain ⟨v, hshown⟩ := Binary64.magnitudeText_shown f
  obtain ⟨negative, hwritten, hzero⟩ := Binary64.written_split f
  have hscan := Scan.numberAt?_of_unsigned f.magnitudeText_unsigned
  have hexcess := (Chain.magnitudeText_literal f).short.excess?_eq
  obtain ⟨y, hy, hliteral⟩ := hshown.literal hzero
  obtain ⟨z, hz, hfloat⟩ := hshown.float hzero
  have hread : NumberLiteral.read f.magnitudeText = .ok y := by
    rw [NumberLiteral.read, hy, hexcess]
  obtain ⟨whole, fraction, hshort, htext, -⟩ := hshown.decimal
  have hoctal := hshort.not_octal
  refine ⟨negative, whole, fraction, hshort, ?_⟩
  rw [← htext] at hoctal ⊢
  refine ⟨hwritten, ?_, hscan, hoctal, ⟨y, hread, ?_⟩, .finite z, ?_, ?_⟩
  · rw [hwritten]
    intro heq
    cases negative with
    | false => exact f.magnitudeText_unsigned.head_ne (congrArg List.head? heq)
    | true => exact hzero rfl (List.cons.inj heq).2
  · rw [hwritten, hliteral]
  · rw [hwritten, hz]
  · rw [replacement_finite rfl, hfloat, hwritten]

theorem written_stable_carried :
    let f : Binary64.Finite := ⟨true, 5627247734399435, -49, by decide⟩
    let x : Number := .float (.finite f)
    let text := ['-', '1', '0']
    (x.IsFinite ∧ replacement (.number x) = .ok text) ∧
      ∃ negative whole fraction, ShortDecimal whole fraction ∧
        text = signText negative ++ decimalText whole fraction ∧ text ≠ ['-', '0'] ∧
        Scan.numberAt? (decimalText whole fraction) = some (decimalText whole fraction).length ∧
        (∀ digits, NumberLiteral.form (decimalText whole fraction) ≠ .octal digits) ∧
        (∃ y, NumberLiteral.read (decimalText whole fraction) = .ok y ∧
          replacement (.number (if negative then y.neg else y)) = .ok text) ∧
        ∃ z, readFloat? text = some z ∧ replacement (.number (.float z)) = .ok text := by
  intro f x text
  have hx : x.IsFinite := ⟨f, rfl⟩
  have hwritten : f.written = text := by decide +kernel
  have h : replacement (.number x) = .ok text := by rw [replacement_finite rfl, hwritten]
  exact ⟨⟨hx, h⟩, written_stable hx h⟩

end LiveChain
