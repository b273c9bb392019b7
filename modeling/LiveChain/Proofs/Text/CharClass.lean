import LiveChain.Text.CharClass

/-!
# Character classes that meet or stay apart

White space, digits and words are given by tables of code points. What scanning needs to know of
them is that blanks are apart from digits and words, and that every decimal digit is a word
character.
-/

set_option autoImplicit false

namespace LiveChain.Text

variable {c : Char}

/-- A property of the characters of a list, evaluated along the list. -/
theorem forall_mem_of_all {p : Char → Prop} [DecidablePred p] {cs : List Char}
    (h : (cs.all fun c => decide (p c)) = true) : ∀ c ∈ cs, p c :=
  fun c hc => of_decide_eq_true (List.all_eq_true.mp h c hc)

/-- A run of characters of a class before one that is not in it. -/
theorem span_run {p : Char → Bool} {run tail : List Char} (h : ∀ c ∈ run, p c = true)
    (htail : ∀ c ∈ tail.head?, p c = false) :
    (run ++ tail).takeWhile p = run ∧ (run ++ tail).dropWhile p = tail := by
  have hdrop : tail.dropWhile p = tail ∧ tail.takeWhile p = [] := by
    cases tail with
    | nil => exact ⟨rfl, rfl⟩
    | cons c tail => simp [htail c rfl]
  rw [List.takeWhile_append_of_pos h, List.dropWhile_append_of_pos h, hdrop.1, hdrop.2,
    List.append_nil]
  exact ⟨rfl, rfl⟩

/-- A text is what is left of it without the characters of a class at its ends, and these. -/
theorem trim_split (p : Char → Bool) (cs : List Char) :
    ∃ front back, (∀ c ∈ front, p c = true) ∧ (∀ c ∈ back, p c = true) ∧
      cs = front ++ ((cs.dropWhile p).reverse.dropWhile p).reverse ++ back := by
  refine ⟨cs.takeWhile p, ((cs.dropWhile p).reverse.takeWhile p).reverse, ?_, ?_, ?_⟩
  · exact List.all_eq_true.mp List.all_takeWhile
  · exact fun c hc => List.all_eq_true.mp List.all_takeWhile c (List.mem_reverse.mp hc)
  · rw [List.append_assoc, ← List.reverse_append, List.takeWhile_append_dropWhile,
      List.reverse_reverse, List.takeWhile_append_dropWhile]

/-- Between characters of a class stands what is left without them. -/
theorem trim_eq {p : Char → Bool} {front core back : List Char} (hfront : ∀ c ∈ front, p c = true)
    (hback : ∀ c ∈ back, p c = true) (hhead : ∀ c ∈ core.head?, p c = false)
    (hlast : ∀ c ∈ core.getLast?, p c = false) :
    (((front ++ core ++ back).dropWhile p).reverse.dropWhile p).reverse = core := by
  have hback' : ∀ c ∈ back.reverse, p c = true := fun c hc => hback c (List.mem_reverse.mp hc)
  cases core with
  | nil =>
    have hall : ∀ c ∈ front ++ back, p c = true := List.forall_mem_append.mpr ⟨hfront, hback⟩
    obtain ⟨-, hdrop⟩ := @span_run p (front ++ back) [] hall (by simp)
    rw [List.append_nil] at hdrop ⊢
    rw [hdrop]
    rfl
  | cons c core =>
    have hhead' : ∀ d ∈ (c :: core ++ back).head?, p d = false := hhead
    have hlast' : ∀ d ∈ (c :: core).reverse.head?, p d = false := by rwa [List.head?_reverse]
    rw [List.append_assoc, (span_run hfront hhead').2, List.reverse_append,
      (span_run hback' hlast').2, List.reverse_reverse]

/-- The letters and digits of ASCII, by their code points. -/
theorem isAlphanum_iff : c.isAlphanum = true ↔ (65 ≤ c.toNat ∧ c.toNat ≤ 90) ∨
    (97 ≤ c.toNat ∧ c.toNat ≤ 122) ∨ (48 ≤ c.toNat ∧ c.toNat ≤ 57) := by
  have hclasses : c.isAlphanum = ((decide ('A'.val ≤ c.val ∧ c.val ≤ 'Z'.val) ||
      decide ('a'.val ≤ c.val) && decide (c.val ≤ 'z'.val)) ||
      decide ('0'.val ≤ c.val) && decide (c.val ≤ '9'.val)) := rfl
  simp only [hclasses, Bool.or_eq_true, Bool.and_eq_true, decide_eq_true_eq,
    UInt32.le_iff_toNat_le]
  exact or_assoc

theorem mem_ranges {ranges : List (Nat × Nat)} {n : Nat} (h : inRanges ranges n = true) :
    ∃ r ∈ ranges, r.1 ≤ n ∧ n ≤ r.2 := by
  obtain ⟨r, hr, hin⟩ := List.any_eq_true.mp h
  exact ⟨r, hr, by simpa using hin⟩

theorem mem_digits (h : isDecimal c = true) : ∃ z ∈ digitZeros, z ≤ c.toNat ∧ c.toNat < z + 10 := by
  simp only [isDecimal, digitValue?, Option.isSome_map, List.find?_isSome] at h
  obtain ⟨z, hz, hin⟩ := h
  exact ⟨z, hz, by simpa using hin⟩

theorem wordRanges_apart_blankRanges : (wordRanges.all fun w =>
    blankRanges.all fun b => Nat.blt w.2 b.1 || Nat.blt b.2 w.1) = true := by
  decide +kernel

theorem isWord_of_isBlank (h : isBlank c = true) : isWord c = false := by
  obtain ⟨b, hb, hin⟩ := mem_ranges h
  rw [isWord]
  split
  · next hascii =>
    have hlow : ∀ b ∈ blankRanges, b.2 ≤ 32 ∨ 128 ≤ b.1 := by decide
    have hle : c.toNat ≤ 32 := by
      have := hlow b hb
      omega
    have hunderscore : c ≠ '_' := by
      rintro rfl
      revert hle
      decide
    rw [Bool.or_eq_false_iff, beq_eq_false_iff_ne, Bool.eq_false_iff, Ne, isAlphanum_iff]
    exact ⟨by omega, hunderscore⟩
  · rw [Bool.eq_false_iff]
    intro hword
    obtain ⟨w, hw, hin'⟩ := mem_ranges hword
    have hapart := List.all_eq_true.mp (List.all_eq_true.mp wordRanges_apart_blankRanges w hw) b hb
    rw [Bool.or_eq_true, Nat.blt_eq, Nat.blt_eq] at hapart
    omega

theorem isBlank_of_isDecimal (h : isDecimal c = true) : isBlank c = false := by
  have hapart : ∀ z ∈ digitZeros, ∀ b ∈ blankRanges, z + 10 ≤ b.1 ∨ b.2 < z := by decide +kernel
  obtain ⟨z, hz, hin⟩ := mem_digits h
  rw [Bool.eq_false_iff]
  intro hblank
  obtain ⟨b, hb, hin'⟩ := mem_ranges hblank
  have := hapart z hz b hb
  omega

theorem isBlank_of_isNameStart (h : isNameStart c = true) : isBlank c = false := by
  rw [Bool.eq_false_iff]
  intro hblank
  simp only [isNameStart, isWord_of_isBlank hblank, Bool.false_and, Bool.or_false, beq_iff_eq] at h
  rw [h] at hblank
  revert hblank
  decide

theorem digitZeros_in_wordRanges : (digitZeros.all fun z =>
    Nat.beq z 48 || wordRanges.any fun w => Nat.ble w.1 z && Nat.ble (z + 9) w.2) = true := by
  decide +kernel

theorem isWord_of_isDecimal (h : isDecimal c = true) : isWord c = true := by
  obtain ⟨z, hz, hin⟩ := mem_digits h
  have hword := List.all_eq_true.mp digitZeros_in_wordRanges z hz
  have hhigh : ∀ z ∈ digitZeros, z = 48 ∨ 128 ≤ z := by decide
  rw [isWord]
  split
  · next hascii =>
    have hzero : z = 48 := by
      have := hhigh z hz
      omega
    have hdigit : c.isDigit = true := by
      have hval : 48 ≤ c.val.toNat ∧ c.val.toNat ≤ 57 := by
        change 48 ≤ c.toNat ∧ c.toNat ≤ 57
        omega
      simpa [Char.isDigit, UInt32.le_iff_toNat_le] using hval
    simp [Char.isAlphanum, hdigit]
  · next hascii =>
    have hne : Nat.beq z 48 = false := by
      rw [← Bool.not_eq_true, Nat.beq_eq]
      omega
    rw [hne, Bool.false_or] at hword
    obtain ⟨w, hw, hbounds⟩ := List.any_eq_true.mp hword
    rw [Bool.and_eq_true, Nat.ble_eq, Nat.ble_eq] at hbounds
    refine List.any_eq_true.mpr ⟨w, hw, ?_⟩
    simp only [Bool.and_eq_true, decide_eq_true_eq]
    omega

theorem isNameStart_of_isDecimal (h : isDecimal c = true) : isNameStart c = false := by
  have hdollar : c ≠ '$' := by
    rintro rfl
    revert h
    decide
  simp [isNameStart, h, hdollar]

end LiveChain.Text
