import LiveChain.Proofs.Scan.Literal

/-!
# What stands behind a number

A number ends where its digits end, but a reader looks past that place: for a fraction, for an
exponent with its sign and first digit, for the letter of a base and a first digit of it. Two texts
in which a number stops alike are told apart by none of these.
-/

set_option autoImplicit false

namespace LiveChain.Scan

open Text

/-- A text that does not start with a word character, a dollar sign or a point. -/
def Clear (cs : List Char) : Prop := ∀ c ∈ cs.head?, isNamePart c = false ∧ c ≠ '.'

instance (cs : List Char) : Decidable (Clear cs) :=
  match cs with
  | [] => .isTrue nofun
  | c :: _ => decidable_of_iff (isNamePart c = false ∧ c ≠ '.') (by simp [Clear])

/-- A number that stops before one of the texts stops before the other. -/
structure StopsAlike (rest rest' : List Char) : Prop where
  head : rest.head? = rest'.head? ∨ Clear rest ∧ Clear rest'
  base : prefixedLength? ('0' :: rest) = none → prefixedLength? ('0' :: rest') = none
  exponent : exponentLength rest = 0 → exponentLength rest' = 0

theorem runLength_eq_zero {digit : Char → Bool} {cs : List Char} :
    runLength digit cs = 0 ↔ ∀ c ∈ cs.head?, (digit c || c == '_') = false := by
  cases cs with
  | nil => simp [runLength]
  | cons c cs =>
    rw [runLength, List.takeWhile_cons]
    by_cases hc : (digit c || c == '_') = true
    · rw [if_pos hc]
      simp only [List.length_cons, List.head?_cons, Option.mem_def, Option.some.injEq,
        forall_eq', hc]
      simp
    · rw [if_neg hc]
      simpa using hc

theorem suffixLength_eq_zero {cs : List Char} :
    suffixLength cs = 0 ↔ ∀ c ∈ cs.head?, (c == 'n') = false := by
  unfold suffixLength
  split
  · simp
  · next hne =>
    cases cs with
    | nil => simp
    | cons c cs =>
      have hc : c ≠ 'n' := fun hc => hne cs (by rw [hc])
      simp [hc]

theorem fractionLength_eq_zero {cs : List Char} :
    fractionLength cs = 0 ↔ ∀ c ∈ cs.head?, (c == '.') = false := by
  unfold fractionLength
  split
  · simp
  · next hne =>
    cases cs with
    | nil => simp
    | cons c cs =>
      have hc : c ≠ '.' := fun hc => hne cs (by rw [hc])
      simp [hc]

theorem digitsLength_eq_zero {cs : List Char} :
    digitsLength cs = 0 ↔ ∀ c ∈ cs.head?, isDecimal c = false := by
  cases cs with
  | nil => simp [digitsLength]
  | cons c cs =>
    rw [digitsLength]
    split <;> simp_all

theorem isNamePart_of_isDecimal {c : Char} (h : isDecimal c = true) : isNamePart c = true := by
  rw [isNamePart, isWord_of_isDecimal h, Bool.or_true]

theorem isNamePart_of_run (c : Char) (h : (isDecimal c || c == '_') = true) :
    isNamePart c = true := by
  rcases Bool.or_eq_true_iff.mp h with h | h
  · exact isNamePart_of_isDecimal h
  · rw [beq_iff_eq.mp h]
    decide

section Stable

variable {rest rest' : List Char}

/-- What a number does not run on into in one text, it does not in the other. -/
theorem StopsAlike.stop (h : StopsAlike rest rest') {p : Char → Bool}
    (hp : ∀ c, p c = true → isNamePart c = true ∨ c = '.') (hrest : ∀ c ∈ rest.head?, p c = false) :
    ∀ c ∈ rest'.head?, p c = false := by
  intro c hc
  rcases h.head with heq | ⟨-, hclear⟩
  · exact hrest c (heq ▸ hc)
  · rw [Bool.eq_false_iff]
    intro hpc
    rcases hp c hpc with hname | hpoint
    · rw [(hclear c hc).1] at hname
      cases hname
    · exact (hclear c hc).2 hpoint

theorem runLength_stable (h : StopsAlike rest rest') {digit : Char → Bool}
    (hdigit : ∀ c, (digit c || c == '_') = true → isNamePart c = true) {x : List Char}
    (hle : runLength digit (x ++ rest) ≤ x.length) :
    runLength digit (x ++ rest') = runLength digit (x ++ rest) := by
  induction x with
  | nil =>
    have hzero : runLength digit rest = 0 := Nat.le_zero.mp hle
    have hstop := h.stop (fun c hc => .inl (hdigit c hc)) (runLength_eq_zero.mp hzero)
    rw [List.nil_append, List.nil_append, hzero, runLength_eq_zero.mpr hstop]
  | cons c x ih =>
    simp only [runLength, List.cons_append, List.takeWhile_cons] at hle ⊢
    split
    · next hc =>
      simp only [hc, if_true, List.length_cons] at hle
      have := ih (Nat.le_of_succ_le_succ hle)
      simp only [runLength] at this
      rw [List.length_cons, List.length_cons, this]
    · rfl

theorem digitsLength_stable (h : StopsAlike rest rest') {x : List Char}
    (hle : digitsLength (x ++ rest) ≤ x.length) :
    digitsLength (x ++ rest') = digitsLength (x ++ rest) := by
  cases x with
  | nil =>
    have hzero : digitsLength rest = 0 := Nat.le_zero.mp hle
    have hstop := h.stop (fun c hc => .inl (isNamePart_of_isDecimal hc))
      (digitsLength_eq_zero.mp hzero)
    rw [List.nil_append, List.nil_append, hzero, digitsLength_eq_zero.mpr hstop]
  | cons c x =>
    simp only [List.cons_append, digitsLength, List.length_cons] at hle ⊢
    split
    · next hc =>
      rw [if_pos hc] at hle
      rw [runLength_stable h isNamePart_of_run (by omega)]
    · rfl

theorem fractionLength_stable (h : StopsAlike rest rest') {x : List Char}
    (hle : fractionLength (x ++ rest) ≤ x.length) :
    fractionLength (x ++ rest') = fractionLength (x ++ rest) := by
  cases x with
  | nil =>
    have hzero : fractionLength rest = 0 := Nat.le_zero.mp hle
    have hstop := h.stop (fun c hc => .inr (beq_iff_eq.mp hc)) (fractionLength_eq_zero.mp hzero)
    rw [List.nil_append, List.nil_append, hzero, fractionLength_eq_zero.mpr hstop]
  | cons c x =>
    by_cases hc : c = '.'
    · subst hc
      simp only [List.cons_append, fractionLength, List.length_cons] at hle ⊢
      rw [runLength_stable h isNamePart_of_run (by omega)]
    · have hnone : ∀ cs, fractionLength (c :: cs) = 0 := fun cs =>
        fractionLength_eq_zero.mpr (by simpa using hc)
      rw [List.cons_append, List.cons_append, hnone, hnone]

/-- A suffix that ends the number ends it in both texts. -/
theorem suffixLength_stable (h : StopsAlike rest rest') {x : List Char}
    (heq : suffixLength (x ++ rest) = x.length) : suffixLength (x ++ rest') = x.length := by
  cases x with
  | nil =>
    refine suffixLength_eq_zero.mpr (h.stop (fun c hc => .inl ?_) (suffixLength_eq_zero.mp heq))
    rw [beq_iff_eq.mp hc]
    decide
  | cons c x =>
    have hpos : suffixLength (c :: x ++ rest) ≠ 0 := by
      rw [heq]
      exact Nat.succ_ne_zero _
    have hc : c = 'n' := by
      rw [Ne, suffixLength_eq_zero] at hpos
      simpa using hpos
    subst hc
    exact heq

def signLength : List Char → Nat
  | '+' :: _ => 1
  | '-' :: _ => 1
  | _ => 0

theorem exponentLength_cons {e : Char} (he : (e == 'e' || e == 'E') = true) (cs : List Char) :
    exponentLength (e :: cs) =
      if digitsLength (cs.drop (signLength cs)) = 0 then 0
      else 1 + signLength cs + digitsLength (cs.drop (signLength cs)) := by
  exact if_pos he

theorem exponentLength_of_ne {e : Char} (he : ¬ (e == 'e' || e == 'E') = true) (cs : List Char) :
    exponentLength (e :: cs) = 0 := by
  unfold exponentLength
  exact if_neg he

theorem signLength_cons (c : Char) (cs : List Char) : signLength (c :: cs) = signLength [c] := by
  unfold signLength
  split <;> simp_all

theorem signLength_le (cs : List Char) : signLength cs ≤ cs.length := by
  unfold signLength
  split <;> simp

theorem suffixLength_of_exponent {e : Char} (he : (e == 'e' || e == 'E') = true) (cs : List Char) :
    suffixLength (e :: cs) = 0 := by
  refine suffixLength_eq_zero.mpr ?_
  rcases Bool.or_eq_true_iff.mp he with h | h <;> rw [beq_iff_eq.mp h] <;> simp

/-- The length of one part and of the other behind it. -/
def thenLength (first second : List Char → Nat) (cs : List Char) : Nat :=
  first cs + second (cs.drop (first cs))

/-- The end of a decimal: an exponent, if any, and a suffix, if any. -/
def tailLength : List Char → Nat := thenLength exponentLength suffixLength

theorem thenLength_stable {first second : List Char → Nat} {x : List Char}
    (hfirst : first (x ++ rest) ≤ x.length → first (x ++ rest') = first (x ++ rest))
    (hsecond : ∀ y, second (y ++ rest) = y.length → second (y ++ rest') = y.length)
    (heq : thenLength first second (x ++ rest) = x.length) :
    thenLength first second (x ++ rest') = x.length := by
  have hle : first (x ++ rest) ≤ x.length := by
    rw [thenLength] at heq
    omega
  have hbehind : second (x.drop (first (x ++ rest)) ++ rest) =
      (x.drop (first (x ++ rest))).length := by
    rw [thenLength, List.drop_append_of_le_length hle] at heq
    rw [List.length_drop]
    omega
  rw [thenLength, hfirst hle, List.drop_append_of_le_length hle, hsecond _ hbehind,
    List.length_drop]
  omega

/-- An exponent that ends in the number has its sign and its digits there. -/
theorem exponentLength_stable (h : StopsAlike rest rest') {x : List Char}
    (hpos : exponentLength (x ++ rest) ≠ 0) (hle : exponentLength (x ++ rest) ≤ x.length) :
    exponentLength (x ++ rest') = exponentLength (x ++ rest) := by
  match x with
  | [] => exact absurd (Nat.le_zero.mp hle) hpos
  | [e] =>
    by_cases he : (e == 'e' || e == 'E') = true
    · rw [List.singleton_append, exponentLength_cons he] at hpos hle
      split at hle
      · next hzero => simp [hzero] at hpos
      · rw [List.length_singleton] at hle
        omega
    · exact absurd (exponentLength_of_ne he _) hpos
  | e :: c :: y =>
    by_cases he : (e == 'e' || e == 'E') = true
    · have hsign : ∀ behind, signLength (c :: y ++ behind) = signLength [c] :=
        fun behind => signLength_cons c (y ++ behind)
      have hdrop : ∀ behind, (c :: y ++ behind).drop (signLength [c]) =
          (c :: y).drop (signLength [c]) ++ behind := by
        intro behind
        have := signLength_le [c]
        rw [List.length_singleton] at this
        exact List.drop_append_of_le_length (by rw [List.length_cons]; omega)
      have hexp : ∀ behind, exponentLength (e :: c :: y ++ behind) =
          if digitsLength ((c :: y).drop (signLength [c]) ++ behind) = 0 then 0
          else 1 + signLength [c] + digitsLength ((c :: y).drop (signLength [c]) ++ behind) := by
        intro behind
        rw [List.cons_append, exponentLength_cons he, hsign, hdrop]
      rw [hexp] at hpos hle
      have hdigits : digitsLength ((c :: y).drop (signLength [c]) ++ rest') =
          digitsLength ((c :: y).drop (signLength [c]) ++ rest) := by
        refine digitsLength_stable h ?_
        split at hle
        · next hzero => omega
        · rw [List.length_drop]
          simp only [List.length_cons] at hle ⊢
          omega
      rw [hexp, hexp, hdigits]
    · exact absurd (exponentLength_of_ne he _) hpos

theorem tailLength_stable (h : StopsAlike rest rest') (x : List Char)
    (heq : tailLength (x ++ rest) = x.length) : tailLength (x ++ rest') = x.length := by
  refine thenLength_stable (fun hle => ?_) (fun y => suffixLength_stable h) heq
  by_cases hzero : exponentLength (x ++ rest) = 0
  · rw [hzero]
    cases x with
    | nil => exact h.exponent hzero
    | cons c x =>
      refine exponentLength_of_ne (fun hc => ?_) _
      -- a number that goes on here would have to go on with an exponent
      rw [tailLength, thenLength, hzero, List.drop_zero, List.cons_append,
        suffixLength_of_exponent hc] at heq
      simp at heq
  · exact exponentLength_stable h hzero hle

theorem decimalLength?_digit {c : Char} (hc : isDecimal c = true) (cs : List Char) :
    decimalLength? (c :: cs) =
      some (1 + thenLength (runLength isDecimal) (thenLength fractionLength tailLength) cs) := by
  have hdrop : ∀ n, (c :: cs).drop (1 + n) = cs.drop n :=
    fun n => by rw [Nat.add_comm, List.drop_succ_cons]
  simp only [decimalLength?, if_pos hc, withTail, thenLength, tailLength, List.drop_drop,
    Nat.add_assoc, hdrop]

theorem decimalLength?_point (cs : List Char) : decimalLength? ('.' :: cs) =
    if digitsLength cs = 0 then none else some (1 + thenLength digitsLength tailLength cs) := by
  have hdrop : ∀ n, ('.' :: cs).drop (1 + n) = cs.drop n :=
    fun n => by rw [Nat.add_comm, List.drop_succ_cons]
  have hpoint : isDecimal '.' = false := by decide
  simp only [decimalLength?, hpoint, withTail, thenLength, tailLength, List.drop_drop,
    Nat.add_assoc, hdrop, beq_self_eq_true, if_true]
  rfl

theorem decimalLength?_stable (h : StopsAlike rest rest') {x : List Char}
    (heq : decimalLength? (x ++ rest) = some x.length) :
    decimalLength? (x ++ rest') = some x.length := by
  cases x with
  | nil => exact absurd (decimalLength?_extent heq).1 (Nat.lt_irrefl 0)
  | cons c x =>
    rw [List.cons_append] at heq ⊢
    by_cases hc : isDecimal c = true
    · rw [decimalLength?_digit hc, Option.some.injEq, List.length_cons] at heq ⊢
      have hwhole := thenLength_stable (runLength_stable h isNamePart_of_run)
        (fun y => thenLength_stable (fractionLength_stable h) (tailLength_stable h))
        (show thenLength _ _ (x ++ rest) = x.length by omega)
      omega
    · by_cases hpoint : c = '.'
      · subst hpoint
        rw [decimalLength?_point] at heq ⊢
        split at heq
        · cases heq
        · next hdigits =>
          rw [Option.some.injEq, List.length_cons] at heq
          have hfraction := thenLength_stable (digitsLength_stable h) (tailLength_stable h)
            (show thenLength _ _ (x ++ rest) = x.length by omega)
          have hle : digitsLength (x ++ rest) ≤ x.length := by
            rw [thenLength] at heq
            omega
          rw [digitsLength_stable h hle, if_neg hdigits, hfraction, List.length_cons, Nat.add_comm]
      · simp [decimalLength?, hc, hpoint] at heq

theorem isNamePart_of_isAlphanum {c : Char} (h : c.isAlphanum = true) : isNamePart c = true := by
  have hascii : c.toNat < 128 := by
    have := isAlphanum_iff.mp h
    omega
  rw [isNamePart, isWord, if_pos hascii, h, Bool.true_or, Bool.or_true]

theorem isAlphanum_of_isHexDigit {c : Char} (h : isHexDigit c = true) : c.isAlphanum = true := by
  have ha : 'a'.val.toNat = 97 := rfl
  have hf : 'f'.val.toNat = 102 := rfl
  have hA : 'A'.val.toNat = 65 := rfl
  have hF : 'F'.val.toNat = 70 := rfl
  simp only [isHexDigit, Bool.or_eq_true, Bool.and_eq_true, decide_eq_true_eq, Char.le_def,
    UInt32.le_iff_toNat_le] at h
  rcases h with (hdigit | hlower) | hupper
  · simp [Char.isAlphanum, hdigit]
  · apply isAlphanum_iff.mpr
    change _ ∨ (97 ≤ c.val.toNat ∧ c.val.toNat ≤ 122) ∨ _
    omega
  · apply isAlphanum_iff.mpr
    change (65 ≤ c.val.toNat ∧ c.val.toNat ≤ 90) ∨ _
    omega

theorem mem_letters {letter : Char} {digit : Char → Bool} (h : baseDigits? letter = some digit) :
    letter ∈ ['x', 'X', 'o', 'O', 'b', 'B'] := by
  unfold baseDigits? at h
  grind

/-- The digits of every base are among those of base sixteen. -/
theorem isHexDigit_of_baseDigits {letter c : Char} {digit : Char → Bool}
    (h : baseDigits? letter = some digit) (hc : digit c = true) : isHexDigit c = true := by
  have h7 : '7'.val.toNat = 55 := rfl
  have h9 : '9'.val.toNat = 57 := rfl
  unfold baseDigits? at h
  split at h
  · cases h
    exact hc
  · split at h
    · cases h
      simp only [isHexDigit, Char.isDigit, ge_iff_le, Char.le_def, Bool.or_eq_true,
        Bool.and_eq_true, decide_eq_true_eq, UInt32.le_iff_toNat_le] at hc ⊢
      omega
    · split at h
      · cases h
        rcases Bool.or_eq_true_iff.mp hc with hc | hc <;> rw [beq_iff_eq.mp hc] <;> decide
      · cases h

theorem isNamePart_of_baseDigits {letter : Char} {digit : Char → Bool}
    (h : baseDigits? letter = some digit) (c : Char) (hc : (digit c || c == '_') = true) :
    isNamePart c = true := by
  rcases Bool.or_eq_true_iff.mp hc with hc | hc
  · exact isNamePart_of_isAlphanum (isAlphanum_of_isHexDigit (isHexDigit_of_baseDigits h hc))
  · rw [beq_iff_eq.mp hc]
    decide

theorem prefixedLength?_base {letter : Char} {digit : Char → Bool}
    (h : baseDigits? letter = some digit) (cs : List Char) :
    prefixedLength? ('0' :: letter :: cs) = if runLength digit cs = 0 then none
      else some (2 + thenLength (runLength digit) suffixLength cs) := by
  simp only [prefixedLength?, h, thenLength, Nat.add_assoc]

theorem prefixedLength?_split {cs : List Char} {n : Nat} (h : prefixedLength? cs = some n) :
    ∃ letter digit more, cs = '0' :: letter :: more ∧ baseDigits? letter = some digit ∧
      runLength digit more ≠ 0 ∧ 2 + thenLength (runLength digit) suffixLength more = n := by
  unfold prefixedLength? at h
  split at h
  · next letter more =>
    split at h
    · next digit hdigit =>
      simp only at h
      split at h
      · cases h
      · next hrun =>
        refine ⟨letter, digit, more, rfl, hdigit, hrun, ?_⟩
        rw [thenLength, ← Nat.add_assoc]
        exact Option.some.inj h
    · cases h
  · cases h

theorem prefixedLength?_stable (h : StopsAlike rest rest') {x : List Char}
    (heq : prefixedLength? (x ++ rest) = some x.length) :
    prefixedLength? (x ++ rest') = some x.length := by
  obtain ⟨letter, digit, more, hsplit, hdigit, hrun, hlength⟩ := prefixedLength?_split heq
  match x, hsplit with
  | [], _ => simp at hlength
  | [c], _ =>
    rw [List.length_singleton] at hlength
    omega
  | c :: d :: y, hsplit =>
    rw [List.cons_append, List.cons_append] at hsplit
    obtain ⟨rfl, htail⟩ := List.cons.inj hsplit
    obtain ⟨rfl, rfl⟩ := List.cons.inj htail
    have hbase := thenLength_stable (runLength_stable h (isNamePart_of_baseDigits hdigit))
      (fun y => suffixLength_stable h)
      (show thenLength _ _ (y ++ rest) = y.length by
        simp only [List.length_cons] at hlength
        omega)
    have hle : runLength digit (y ++ rest) ≤ y.length := by
      rw [thenLength] at hlength
      simp only [List.length_cons] at hlength
      omega
    rw [List.cons_append, List.cons_append, prefixedLength?_base hdigit, hbase,
      runLength_stable h (isNamePart_of_baseDigits hdigit) hle, if_neg hrun]
    simp only [List.length_cons, Option.some.injEq]
    omega

/-- A letter that announces a base ends a decimal zero. -/
theorem decimalLength?_base {letter : Char} {digit : Char → Bool}
    (h : baseDigits? letter = some digit) (cs : List Char) :
    decimalLength? ('0' :: letter :: cs) = some 1 := by
  have hplain : ∀ c ∈ ['x', 'X', 'o', 'O', 'b', 'B'], (isDecimal c || c == '_') = false ∧
      c ≠ '.' ∧ c ≠ 'n' ∧ ¬ (c == 'e' || c == 'E') = true := forall_mem_of_all (by decide)
  obtain ⟨hrun, hpoint, hsuffix, hexp⟩ := hplain letter (mem_letters h)
  have hr : runLength isDecimal (letter :: cs) = 0 := runLength_eq_zero.mpr (by simpa using hrun)
  have hf : fractionLength (letter :: cs) = 0 := fractionLength_eq_zero.mpr (by simpa using hpoint)
  have hs : suffixLength (letter :: cs) = 0 := suffixLength_eq_zero.mpr (by simpa using hsuffix)
  have he : exponentLength (letter :: cs) = 0 := exponentLength_of_ne hexp cs
  rw [decimalLength?_digit (by decide)]
  simp only [thenLength, tailLength, hr, hf, he, hs, List.drop_zero]

theorem prefixedLength?_none_stable (h : StopsAlike rest rest') {x : List Char}
    (hnone : prefixedLength? (x ++ rest) = none)
    (heq : decimalLength? (x ++ rest) = some x.length) : prefixedLength? (x ++ rest') = none := by
  rw [Option.eq_none_iff_forall_ne_some]
  intro n hn
  obtain ⟨letter, digit, more, hsplit, hdigit, hrun, -⟩ := prefixedLength?_split hn
  match x, hsplit with
  | [], _ => exact absurd (decimalLength?_extent heq).1 (Nat.lt_irrefl 0)
  | [c], hsplit =>
    obtain ⟨rfl, -⟩ := List.cons.inj hsplit
    have := h.base hnone
    rw [List.singleton_append, this] at hn
    cases hn
  | c :: d :: y, hsplit =>
    rw [List.cons_append, List.cons_append] at hsplit
    obtain ⟨rfl, htail⟩ := List.cons.inj hsplit
    obtain ⟨rfl, rfl⟩ := List.cons.inj htail
    rw [List.cons_append, List.cons_append] at hnone heq
    rw [decimalLength?_base hdigit] at heq
    simp at heq

theorem isDigitLike_of_isDecimal {c : Char} (h : isDecimal c = true) : isDigitLike c = true := by
  rw [isDigitLike, h, Bool.true_or]

theorem numberAt?_eq_numberLength? (cs : List Char) : numberAt? cs = numberLength? cs := by
  have hnone : ∀ {c : Char} {cs : List Char}, isDecimal c = false → c ≠ '.' →
      numberLength? (c :: cs) = none := by
    intro c cs hc hpoint
    have hzero : c ≠ '0' := by
      rintro rfl
      revert hc
      decide
    simp [numberLength?, prefixedLength?, decimalLength?, hc, hpoint, hzero]
  unfold numberAt?
  split
  · rfl
  · next d cs =>
    split
    · rfl
    · next hd =>
      have hdecimal : isDecimal d = false := by
        rw [Bool.eq_false_iff]
        exact fun h => hd (isDigitLike_of_isDecimal h)
      have hdigits : digitsLength (d :: cs) = 0 := digitsLength_eq_zero.mpr (by simpa using hdecimal)
      rw [numberLength?, decimalLength?_point, if_pos hdigits]
      rfl
  · next c cs hpoint =>
    split
    · rfl
    · next hc =>
      have hdecimal : isDecimal c = false := by
        rw [Bool.eq_false_iff]
        exact fun h => hc (isDigitLike_of_isDecimal h)
      by_cases hdot : c = '.'
      · cases cs with
        | nil => subst hdot; rfl
        | cons d cs => exact absurd rfl (hpoint d cs hdot)
      · exact (hnone hdecimal hdot).symm

/-- A number that stops before one text stops before the other. -/
theorem numberAt?_stable (h : StopsAlike rest rest') {x : List Char}
    (heq : numberAt? (x ++ rest) = some x.length) : numberAt? (x ++ rest') = some x.length := by
  rw [numberAt?_eq_numberLength?, numberLength?] at heq ⊢
  rcases Option.or_eq_some_iff.mp heq with hbased | ⟨hnone, hdecimal⟩
  · rw [prefixedLength?_stable h hbased, Option.some_or]
  · rw [prefixedLength?_none_stable h hnone hdecimal, Option.none_or,
      decimalLength?_stable h hdecimal]

/-! ## Texts that a number cannot tell apart -/

theorem isNamePart_of_letter {letter : Char} {digit : Char → Bool}
    (h : baseDigits? letter = some digit) : isNamePart letter = true := by
  have hword : ∀ c ∈ ['x', 'X', 'o', 'O', 'b', 'B'], isNamePart c = true :=
    forall_mem_of_all (by decide)
  exact hword letter (mem_letters h)

theorem isNamePart_of_exponent {c : Char} (h : (c == 'e' || c == 'E') = true) :
    isNamePart c = true := by
  rcases Bool.or_eq_true_iff.mp h with h | h <;> rw [beq_iff_eq.mp h] <;> decide

theorem StopsAlike.of_clear (h : Clear rest) (h' : Clear rest') : StopsAlike rest rest' := by
  refine ⟨.inr ⟨h, h'⟩, fun _ => ?_, fun _ => ?_⟩
  · rw [Option.eq_none_iff_forall_ne_some]
    intro n hn
    obtain ⟨letter, digit, more, hsplit, hdigit, -, -⟩ := prefixedLength?_split hn
    obtain ⟨-, rfl⟩ := List.cons.inj hsplit
    have := (h' letter rfl).1
    rw [isNamePart_of_letter hdigit] at this
    cases this
  · cases rest' with
    | nil => rfl
    | cons c cs =>
      refine exponentLength_of_ne (fun hc => ?_) cs
      have := (h' c rfl).1
      rw [isNamePart_of_exponent hc] at this
      cases this

theorem signLength_split {cs : List Char} (h : signLength cs ≠ 0) :
    ∃ sign behind, cs = sign :: behind ∧ (sign = '+' ∨ sign = '-') ∧ signLength cs = 1 := by
  unfold signLength at h ⊢
  split
  · next behind => exact ⟨'+', behind, rfl, .inl rfl, rfl⟩
  · next behind => exact ⟨'-', behind, rfl, .inr rfl, rfl⟩
  · simp_all

theorem signLength_eq_of_head {cs cs' : List Char} (h : cs.head? = cs'.head?) :
    signLength cs = signLength cs' := by
  cases cs with
  | nil =>
    rw [List.head?_nil, eq_comm, List.head?_eq_none_iff] at h
    rw [h]
  | cons c cs =>
    rw [List.head?_cons, eq_comm, List.head?_eq_some_iff] at h
    obtain ⟨more, rfl⟩ := h
    rw [signLength_cons, signLength_cons c more]

/-- A common first character, a common second one behind a word character, and no digit that only
one of the texts has behind the sign of an exponent. -/
theorem StopsAlike.cons {c : Char} (hhead : isNamePart c = true → rest.head? = rest'.head?)
    (hexp : (c == 'e' || c == 'E') = true → ∀ sign behind behind', (sign = '+' ∨ sign = '-') →
      rest = sign :: behind → rest' = sign :: behind' → (∀ d ∈ behind.head?, isDecimal d = false) →
      ∀ d ∈ behind'.head?, isDecimal d = false) :
    StopsAlike (c :: rest) (c :: rest') := by
  refine ⟨.inl rfl, fun hnone => ?_, fun hzero => ?_⟩
  · rw [Option.eq_none_iff_forall_ne_some]
    intro n hn
    obtain ⟨letter, digit, more, hsplit, hdigit, hrun, -⟩ := prefixedLength?_split hn
    obtain ⟨rfl, rfl⟩ := List.cons.inj (List.cons.inj hsplit).2
    rw [prefixedLength?_base hdigit] at hnone
    split at hnone
    · next hstop =>
      rw [runLength_eq_zero, hhead (isNamePart_of_letter hdigit), ← runLength_eq_zero] at hstop
      exact hrun hstop
    · cases hnone
  · by_cases hc : (c == 'e' || c == 'E') = true
    · have heq := hhead (isNamePart_of_exponent hc)
      have hdigits : digitsLength (rest.drop (signLength rest)) = 0 := by
        rw [exponentLength_cons hc] at hzero
        split at hzero
        · assumption
        · omega
      have hdigits' : digitsLength (rest'.drop (signLength rest')) = 0 := by
        rw [← signLength_eq_of_head heq]
        by_cases hsign : signLength rest = 0
        · rw [hsign, List.drop_zero] at hdigits ⊢
          rwa [digitsLength_eq_zero, ← heq, ← digitsLength_eq_zero]
        · obtain ⟨sign, behind, rfl, hmark, hone⟩ := signLength_split hsign
          rw [List.head?_cons, eq_comm, List.head?_eq_some_iff] at heq
          obtain ⟨behind', rfl⟩ := heq
          rw [hone, List.drop_one, List.tail_cons] at hdigits ⊢
          rw [digitsLength_eq_zero] at hdigits ⊢
          exact hexp hc sign behind behind' hmark rfl rfl hdigits
      rw [exponentLength_cons hc, if_pos hdigits']
    · exact exponentLength_of_ne hc _

/-! ## How a number ends -/

/-- A part that, where it is not empty, ends with a word character or a point. -/
def EndsInWord (part : List Char → Nat) : Prop :=
  ∀ cs, part cs ≠ 0 → ∃ c, cs[part cs - 1]? = some c ∧ (isNamePart c = true ∨ c = '.')

theorem EndsInWord.then {first second : List Char → Nat} (h : EndsInWord first)
    (h' : EndsInWord second) : EndsInWord (thenLength first second) := by
  intro cs hpos
  rw [thenLength] at hpos ⊢
  by_cases hzero : second (cs.drop (first cs)) = 0
  · rw [hzero, Nat.add_zero] at hpos ⊢
    exact h cs hpos
  · obtain ⟨c, hc, hword⟩ := h' _ hzero
    refine ⟨c, ?_, hword⟩
    rw [List.getElem?_drop] at hc
    rw [← hc]
    congr 1
    omega

/-- A part behind a first character that is itself a word character or a point. -/
theorem EndsInWord.behind {part : List Char → Nat} (h : EndsInWord part) {c : Char}
    (hc : isNamePart c = true ∨ c = '.') (cs : List Char) :
    ∃ d, (c :: cs)[part cs]? = some d ∧ (isNamePart d = true ∨ d = '.') := by
  cases hlength : part cs with
  | zero => exact ⟨c, rfl, hc⟩
  | succ n =>
    obtain ⟨d, hd, hword⟩ := h cs (by omega)
    rw [hlength, Nat.add_sub_cancel] at hd
    exact ⟨d, by rw [List.getElem?_cons_succ, hd], hword⟩

theorem runLength_endsInWord {digit : Char → Bool}
    (hdigit : ∀ c, (digit c || c == '_') = true → isNamePart c = true) :
    EndsInWord (runLength digit) := by
  intro cs
  induction cs with
  | nil => exact fun hpos => absurd rfl hpos
  | cons c cs ih =>
    intro hpos
    by_cases hc : (digit c || c == '_') = true
    · have hlength : runLength digit (c :: cs) = runLength digit cs + 1 := by
        simp only [runLength]
        rw [List.takeWhile_cons, if_pos hc, List.length_cons]
      rw [hlength, Nat.add_sub_cancel]
      cases hrun : runLength digit cs with
      | zero => exact ⟨c, rfl, .inl (hdigit c hc)⟩
      | succ n =>
        obtain ⟨d, hd, hword⟩ := ih (by omega)
        rw [hrun, Nat.add_sub_cancel] at hd
        exact ⟨d, by rw [List.getElem?_cons_succ, hd], hword⟩
    · exact absurd (runLength_eq_zero.mpr (by simpa using hc)) hpos

theorem digitsLength_endsInWord : EndsInWord digitsLength := by
  intro cs hpos
  cases cs with
  | nil => exact absurd rfl hpos
  | cons c cs =>
    by_cases hc : isDecimal c = true
    · have := (runLength_endsInWord isNamePart_of_run).behind
        (.inl (isNamePart_of_isDecimal hc)) cs
      rwa [digitsLength, if_pos hc, Nat.add_sub_cancel_left]
    · exact absurd (digitsLength_eq_zero.mpr (by simpa using hc)) hpos

theorem fractionLength_endsInWord : EndsInWord fractionLength := by
  intro cs hpos
  unfold fractionLength at hpos ⊢
  split
  · next cs =>
    rw [Nat.add_sub_cancel_left]
    exact (runLength_endsInWord isNamePart_of_run).behind (.inr rfl) cs
  · next hne =>
    simp_all

theorem suffixLength_endsInWord : EndsInWord suffixLength := by
  intro cs hpos
  unfold suffixLength at hpos ⊢
  split
  · exact ⟨'n', rfl, .inl (by decide)⟩
  · simp_all

theorem exponentLength_endsInWord : EndsInWord exponentLength := by
  intro cs hpos
  cases cs with
  | nil => exact absurd rfl hpos
  | cons e cs =>
    by_cases he : (e == 'e' || e == 'E') = true
    · rw [exponentLength_cons he] at hpos ⊢
      split at hpos
      · exact absurd rfl hpos
      · next hdigits =>
        obtain ⟨d, hd, hword⟩ := digitsLength_endsInWord _ hdigits
        rw [List.getElem?_drop] at hd
        refine ⟨d, ?_, hword⟩
        rw [if_neg hdigits, ← hd, show 1 + signLength cs + digitsLength (cs.drop (signLength cs)) - 1 =
          signLength cs + (digitsLength (cs.drop (signLength cs)) - 1) + 1 by omega,
          List.getElem?_cons_succ]
    · exact absurd (exponentLength_of_ne he cs) hpos

theorem numberAt?_last {cs : List Char} {n : Nat} (h : numberAt? cs = some n) :
    ∃ c, cs[n - 1]? = some c ∧ (isNamePart c = true ∨ c = '.') := by
  have htail : EndsInWord tailLength := exponentLength_endsInWord.then suffixLength_endsInWord
  rw [numberAt?_eq_numberLength?, numberLength?] at h
  rcases Option.or_eq_some_iff.mp h with hbased | ⟨-, hdecimal⟩
  · obtain ⟨letter, digit, more, rfl, hdigit, -, rfl⟩ := prefixedLength?_split hbased
    have hrun : EndsInWord (thenLength (runLength digit) suffixLength) :=
      (runLength_endsInWord (isNamePart_of_baseDigits hdigit)).then suffixLength_endsInWord
    obtain ⟨d, hd, hword⟩ := hrun.behind (.inl (isNamePart_of_letter hdigit)) more
    refine ⟨d, ?_, hword⟩
    rw [show 2 + thenLength (runLength digit) suffixLength more - 1 =
      thenLength (runLength digit) suffixLength more + 1 by omega, List.getElem?_cons_succ, hd]
  · cases cs with
    | nil => cases hdecimal
    | cons c cs =>
      by_cases hc : isDecimal c = true
      · rw [decimalLength?_digit hc] at hdecimal
        cases hdecimal
        rw [Nat.add_sub_cancel_left]
        exact ((runLength_endsInWord isNamePart_of_run).then
          (fractionLength_endsInWord.then htail)).behind (.inl (isNamePart_of_isDecimal hc)) cs
      · by_cases hpoint : c = '.'
        · subst hpoint
          rw [decimalLength?_point] at hdecimal
          split at hdecimal
          · cases hdecimal
          · cases hdecimal
            rw [Nat.add_sub_cancel_left]
            exact (digitsLength_endsInWord.then htail).behind (.inr rfl) cs
        · simp [decimalLength?, hc, hpoint] at hdecimal

end Stable

end LiveChain.Scan
