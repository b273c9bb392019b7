import LiveChain.Proofs.Number.ReadBack

/-!
# Numbers and decimals as rational numbers

What a number stands for and what a decimal says, without rounding, so that the two can be compared.
-/

set_option autoImplicit false

namespace LiveChain

open Syntax Text

/-! ## Numbers -/

def signed (negative : Bool) (v : ℚ) : ℚ := if negative then -v else v

theorem signed_not (negative : Bool) (v : ℚ) : signed (!negative) v = -signed negative v := by
  cases negative <;> simp [signed]

@[simp]
theorem signed_zero (negative : Bool) : signed negative 0 = 0 := by
  cases negative <;> simp [signed]

theorem abs_signed (negative : Bool) {v : ℚ} (h : 0 ≤ v) : |signed negative v| = v := by
  cases negative with
  | false => exact abs_of_nonneg h
  | true => exact (abs_neg v).trans (abs_of_nonneg h)

theorem signed_natAbs (n : ℤ) : signed (decide (n < 0)) n.natAbs = n := by
  rw [Nat.cast_natAbs]
  rcases lt_or_ge n 0 with hneg | hpos
  · simp [signed, hneg, abs_of_neg hneg]
  · simp [signed, not_lt.mpr hpos, abs_of_nonneg hpos]

/-- The rational number that a finite double stands for. -/
def Binary64.Finite.value (x : Finite) : ℚ := signed x.negative x.magnitude

/-- The rational number that a number stands for; infinities and not-a-number stand for none. -/
def Number.rational? : Number → Option ℚ
  | .int n => some n
  | .float (.finite x) => some x.value
  | .float _ => none

/-! ## Decimals -/

/-- The digits behind the point, which may be missing together with the point. -/
def pointDigits? : List Char → Option (List Char)
  | [] => some []
  | '.' :: digits => if digits ≠ [] ∧ digits.all Char.isDigit then some digits else none
  | _ => none

/-- The rational number that a decimal without a sign says. -/
def readMagnitude? (cs : List Char) : Option ℚ :=
  let whole := cs.takeWhile Char.isDigit
  if whole.isEmpty then none
  else (pointDigits? (cs.dropWhile Char.isDigit)).map (decimalValue whole)

/-- The rational number that a decimal says, which may have a minus sign. -/
def readRational? : List Char → Option ℚ
  | '-' :: cs => (readMagnitude? cs).map (-·)
  | cs => readMagnitude? cs

namespace ShortDecimal

variable {whole fraction : List Char}

theorem readMagnitude?_eq (h : ShortDecimal whole fraction) :
    readMagnitude? (decimalText whole fraction) = some (decimalValue whole fraction) := by
  have hne : ¬ whole.isEmpty = true := fun hnil => h.ne_nil (List.isEmpty_iff.mp hnil)
  cases fraction with
  | nil =>
    have hend : ∀ c ∈ ([] : List Char).head?, c.isDigit = false := by simp
    obtain ⟨htake, hdrop⟩ := span_run h.whole_digits hend
    rw [List.append_nil] at htake hdrop
    rw [decimalText, if_pos List.isEmpty_nil, readMagnitude?, htake, hdrop, if_neg hne]
    rfl
  | cons d fraction =>
    have hpoint : ∀ c ∈ ('.' :: d :: fraction).head?, c.isDigit = false := by
      rintro c ⟨⟩
      decide
    obtain ⟨htake, hdrop⟩ := span_run h.whole_digits hpoint
    have hall : (d :: fraction).all Char.isDigit = true := List.all_eq_true.mpr h.fraction_digits
    rw [decimalText, if_neg (by simp), readMagnitude?, htake, hdrop, if_neg hne, pointDigits?,
      if_pos ⟨List.cons_ne_nil _ _, hall⟩]
    rfl

/-- A short decimal behind a sign, or none, says its value with this sign. -/
theorem readRational?_eq (h : ShortDecimal whole fraction) (negative : Bool) :
    readRational? (signText negative ++ decimalText whole fraction) =
      some (signed negative (decimalValue whole fraction)) := by
  have hmagnitude := h.readMagnitude?_eq
  cases negative with
  | true =>
    change (readMagnitude? (decimalText whole fraction)).map (-·) = _
    rw [hmagnitude]
    rfl
  | false =>
    obtain ⟨c, more, htext, hc⟩ := h.decimalText_eq.start
    change readRational? (decimalText whole fraction) = _
    rw [readRational?.eq_def, htext]
    rw [htext] at hmagnitude
    split
    · next heq =>
      obtain ⟨rfl, -⟩ := List.cons.inj heq
      exact absurd hc (by decide)
    · exact hmagnitude

end ShortDecimal

/-! ## Written numbers -/

namespace Binary64

def Finite.shownMagnitude (x : Finite) : ℚ :=
  if x.below 1 then x.units 3 / 1000
  else if x.below 10 then x.units 2 / 100
  else x.rounded

theorem Finite.shownMagnitude_nonneg (x : Finite) : 0 ≤ x.shownMagnitude := by
  unfold Finite.shownMagnitude
  split_ifs <;> positivity

theorem magnitudeText_decimal (x : Finite) :
    ∃ whole fraction, ShortDecimal whole fraction ∧ x.magnitudeText = decimalText whole fraction ∧
      decimalValue whole fraction = x.shownMagnitude := by
  unfold Finite.magnitudeText Finite.shownMagnitude
  split_ifs
  · have h := @fixedText_decimal 3 (x.units 3) (by decide) (by decide)
    norm_num at h
    exact h
  · have h := @fixedText_decimal 2 (x.units 2) (by decide) (by decide)
    norm_num at h
    exact h
  · exact toDigits_decimal x.rounded

/-- The text of a double says the number that the text of its magnitude says, with its sign. -/
theorem readRational?_written (x : Finite) :
    readRational? x.written = some (signed x.negative x.shownMagnitude) := by
  obtain ⟨whole, fraction, hshort, htext, hvalue⟩ := magnitudeText_decimal x
  by_cases hzero : x.magnitudeText = ['0']
  · -- zero has no sign, but it says the same with one
    have hread := hshort.readMagnitude?_eq
    rw [← htext, hzero, hvalue] at hread
    have hnone : readMagnitude? ['0'] = some 0 := by
      simp [readMagnitude?, pointDigits?, decimalValue, spelledDigits, Nat.ofDigitChars]
    obtain hvalue : 0 = x.shownMagnitude := Option.some.inj (hnone.symm.trans hread)
    have hwritten : x.written = ['0'] := by simp [Finite.written, hzero]
    rw [hwritten, ← hvalue, signed_zero]
    exact hnone
  · rw [written_eq rfl rfl fun _ => hzero, htext, hshort.readRational?_eq, hvalue]

end Binary64

/-- A number that is written is written as the double nearest to it. -/
theorem Number.replacement_eq {x : Number} {a : ℚ} {text : List Char} (hx : x.rational? = some a)
    (h : replacement (.number x) = .ok text) :
    ∃ f : Binary64.Finite, x.toBinary64 = .finite f ∧ text = f.written := by
  have hfinite : x.IsFinite := by
    cases x with
    | int n => trivial
    | float y =>
      cases y with
      | finite f => exact ⟨f, rfl⟩
      | infinite negative => cases hx
      | nan => cases hx
  obtain ⟨f, hf⟩ : ∃ f, x.toBinary64 = .finite f := by
    cases x with
    | int n => exact replacement_isOk.mp ⟨text, h⟩
    | float y => exact hfinite
  rw [replacement_finite hf] at h
  exact ⟨f, hf, (Except.ok.inj h).symm⟩

end LiveChain
