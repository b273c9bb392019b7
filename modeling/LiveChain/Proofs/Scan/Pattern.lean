import LiveChain.Proofs.Scan.Numeral

/-!
# How numbers and names are written

The number reader of a scan takes its parts one after the other and as far as they go. What it takes
is spelled as numbers are: with the letter of a base, or in base ten with a fraction, an exponent
and a suffix.
-/

set_option autoImplicit false

namespace LiveChain.Scan

open Text

/-! ## Spelling -/

/-- Digits and underscores. -/
def IsRun (digit : Char → Bool) (cs : List Char) : Prop := ∀ c ∈ cs, digit c = true ∨ c = '_'

/-- A decimal digit, then decimal digits and underscores. -/
inductive IsDigits : List Char → Prop
  | cons {c : Char} {run : List Char} (hc : isDecimal c = true) (hrun : IsRun isDecimal run) :
    IsDigits (c :: run)

/-- Whole digits, perhaps with a point and a run behind them, or a point and digits. -/
inductive IsMantissa : List Char → Prop
  | whole {digits : List Char} (h : IsDigits digits) : IsMantissa digits
  | point {digits run : List Char} (h : IsDigits digits) (hrun : IsRun isDecimal run) :
    IsMantissa (digits ++ '.' :: run)
  | fraction {digits : List Char} (h : IsDigits digits) : IsMantissa ('.' :: digits)

inductive IsExponent : List Char → Prop
  | none : IsExponent []
  | mark {e : Char} {sign digits : List Char} (he : e = 'e' ∨ e = 'E')
      (hsign : sign = [] ∨ sign = ['+'] ∨ sign = ['-']) (h : IsDigits digits) :
    IsExponent (e :: (sign ++ digits))

/-- The texts that are one number. The suffix of a big integer may stand behind any of them. -/
inductive NumberPattern : List Char → Prop
  | based {letter : Char} {digit : Char → Bool} {run suffix : List Char}
      (hletter : baseDigits? letter = some digit) (hrun : IsRun digit run) (hne : run ≠ [])
      (hsuffix : suffix = [] ∨ suffix = ['n']) : NumberPattern ('0' :: letter :: (run ++ suffix))
  | decimal {mantissa exponent suffix : List Char} (hmantissa : IsMantissa mantissa)
      (hexponent : IsExponent exponent) (hsuffix : suffix = [] ∨ suffix = ['n']) :
    NumberPattern (mantissa ++ (exponent ++ suffix))

inductive NamePattern : List Char → Prop
  | cons {c : Char} {more : List Char} (hstart : isNameStart c = true)
      (hmore : ∀ d ∈ more, isNamePart d = true) : NamePattern (c :: more)

/-! ## No spelling has a line feed -/

theorem IsRun.unbroken {digit : Char → Bool} {cs : List Char} (h : IsRun digit cs)
    (hfeed : digit '\n' = false) : '\n' ∉ cs := by
  intro hmem
  rcases h _ hmem with hdigit | heq
  · rw [hfeed] at hdigit
    cases hdigit
  · exact absurd heq (by decide)

theorem IsDigits.unbroken {cs : List Char} (h : IsDigits cs) : '\n' ∉ cs := by
  cases h with
  | @cons c run hc hrun =>
    have hall : IsRun isDecimal (c :: run) := List.forall_mem_cons.mpr ⟨.inl hc, hrun⟩
    exact hall.unbroken (by decide)

theorem IsMantissa.unbroken {cs : List Char} (h : IsMantissa cs) : '\n' ∉ cs := by
  cases h with
  | whole h => exact h.unbroken
  | point h hrun => simp [h.unbroken, hrun.unbroken (by decide)]
  | fraction h => simp [h.unbroken]

theorem IsExponent.unbroken {cs : List Char} (h : IsExponent cs) : '\n' ∉ cs := by
  cases h with
  | none => simp
  | mark he hsign h =>
    rcases he with rfl | rfl <;> rcases hsign with rfl | rfl | rfl <;> simp [h.unbroken]

theorem baseDigits?_feed {letter : Char} {digit : Char → Bool}
    (h : baseDigits? letter = some digit) : letter ≠ '\n' ∧ digit '\n' = false := by
  unfold baseDigits? at h
  split at h
  · next hletter =>
    cases h
    rcases hletter with rfl | rfl <;> exact ⟨by decide, by decide⟩
  · split at h
    · next hletter =>
      cases h
      rcases hletter with rfl | rfl <;> exact ⟨by decide, by decide⟩
    · split at h
      · next hletter =>
        cases h
        rcases hletter with rfl | rfl <;> exact ⟨by decide, by decide⟩
      · cases h

namespace NumberPattern

variable {cs : List Char}

theorem unbroken (h : NumberPattern cs) : '\n' ∉ cs := by
  cases h with
  | based hletter hrun hne hsuffix =>
    obtain ⟨hfeed, hdigit⟩ := baseDigits?_feed hletter
    rcases hsuffix with rfl | rfl <;> simp [hrun.unbroken hdigit, hfeed.symm]
  | decimal hmantissa hexponent hsuffix =>
    rcases hsuffix with rfl | rfl <;> simp [hmantissa.unbroken, hexponent.unbroken]

theorem ne_nil (h : NumberPattern cs) : cs ≠ [] := by
  cases h with
  | based => exact List.cons_ne_nil _ _
  | decimal hmantissa =>
    cases hmantissa with
    | whole h | point h => cases h; exact List.cons_ne_nil _ _
    | fraction => exact List.cons_ne_nil _ _

end NumberPattern

theorem NamePattern.unbroken {cs : List Char} (h : NamePattern cs) : '\n' ∉ cs := by
  have hfeed : isNamePart '\n' = false := by decide
  cases h with
  | @cons c more hstart hmore =>
    rintro (_ | ⟨_, hmem⟩)
    · exact absurd hstart (by decide)
    · rw [hmore _ hmem] at hfeed
      cases hfeed

/-! ## What the parts of a number take -/

theorem take_thenLength (first second : List Char → Nat) (cs : List Char) :
    cs.take (thenLength first second cs) =
      cs.take (first cs) ++ (cs.drop (first cs)).take (second (cs.drop (first cs))) :=
  List.take_add

theorem take_runLength (digit : Char → Bool) (cs : List Char) :
    IsRun digit (cs.take (runLength digit cs)) := by
  have htake : cs.take (runLength digit cs) = cs.takeWhile fun c => digit c || c == '_' :=
    (List.prefix_iff_eq_take.mp (List.takeWhile_prefix _)).symm
  rw [htake]
  intro c hc
  simpa using List.mem_takeWhile_imp hc

theorem take_suffixLength (cs : List Char) :
    cs.take (suffixLength cs) = [] ∨ cs.take (suffixLength cs) = ['n'] := by
  unfold suffixLength
  split
  · exact .inr rfl
  · exact .inl rfl

theorem take_digitsLength {cs : List Char} (h : digitsLength cs ≠ 0) :
    IsDigits (cs.take (digitsLength cs)) := by
  cases cs with
  | nil => exact absurd rfl h
  | cons c cs =>
    by_cases hc : isDecimal c = true
    · rw [digitsLength, if_pos hc, Nat.add_comm, List.take_succ_cons]
      exact .cons hc (take_runLength isDecimal cs)
    · exact absurd (by rw [digitsLength, if_neg hc]) h

theorem take_fractionLength (cs : List Char) : cs.take (fractionLength cs) = [] ∨
    ∃ run, cs.take (fractionLength cs) = '.' :: run ∧ IsRun isDecimal run := by
  unfold fractionLength
  split
  · next cs =>
    rw [Nat.add_comm, List.take_succ_cons]
    exact .inr ⟨_, rfl, take_runLength isDecimal cs⟩
  · exact .inl rfl

theorem take_signLength (cs : List Char) : cs.take (signLength cs) = [] ∨
    cs.take (signLength cs) = ['+'] ∨ cs.take (signLength cs) = ['-'] := by
  unfold signLength
  split
  · exact .inr (.inl rfl)
  · exact .inr (.inr rfl)
  · exact .inl rfl

theorem take_exponentLength (cs : List Char) : IsExponent (cs.take (exponentLength cs)) := by
  cases cs with
  | nil => exact .none
  | cons e cs =>
    by_cases he : (e == 'e' || e == 'E') = true
    · rw [exponentLength_cons he]
      split
      · exact .none
      · next hdigits =>
        rw [Nat.add_assoc, Nat.add_comm 1, List.take_succ_cons, List.take_add]
        exact .mark (by simpa using he) (take_signLength cs) (take_digitsLength hdigits)
    · rw [exponentLength_of_ne he]
      exact .none

theorem take_tailLength (cs : List Char) : ∃ exponent suffix,
    cs.take (tailLength cs) = exponent ++ suffix ∧ IsExponent exponent ∧
      (suffix = [] ∨ suffix = ['n']) :=
  ⟨_, _, take_thenLength exponentLength suffixLength cs, take_exponentLength cs,
    take_suffixLength _⟩

/-! ## Numbers -/

theorem decimalLength?_pattern {cs : List Char} {n : Nat} (h : decimalLength? cs = some n) :
    NumberPattern (cs.take n) := by
  cases cs with
  | nil => cases h
  | cons c cs =>
    by_cases hc : isDecimal c = true
    · rw [decimalLength?_digit hc] at h
      cases h
      have hdigits : IsDigits (c :: cs.take (runLength isDecimal cs)) :=
        .cons hc (take_runLength isDecimal cs)
      obtain ⟨exponent, suffix, htail, hexponent, hsuffix⟩ :=
        take_tailLength ((cs.drop (runLength isDecimal cs)).drop
          (fractionLength (cs.drop (runLength isDecimal cs))))
      rw [Nat.add_comm, List.take_succ_cons, take_thenLength, take_thenLength, htail]
      -- the fraction belongs to the mantissa, if there is one
      rcases take_fractionLength (cs.drop (runLength isDecimal cs)) with hnone | ⟨run, hrun, hpart⟩
      · rw [hnone, List.nil_append]
        exact .decimal (.whole hdigits) hexponent hsuffix
      · rw [hrun, ← List.append_assoc, ← List.cons_append]
        exact .decimal (.point hdigits hpart) hexponent hsuffix
    · by_cases hpoint : c = '.'
      · subst hpoint
        rw [decimalLength?_point] at h
        split at h
        · cases h
        · next hdigits =>
          cases h
          obtain ⟨exponent, suffix, htail, hexponent, hsuffix⟩ :=
            take_tailLength (cs.drop (digitsLength cs))
          rw [Nat.add_comm, List.take_succ_cons, take_thenLength, htail, ← List.cons_append]
          exact .decimal (.fraction (take_digitsLength hdigits)) hexponent hsuffix
      · simp [decimalLength?, hc, hpoint] at h

theorem prefixedLength?_pattern {cs : List Char} {n : Nat} (h : prefixedLength? cs = some n) :
    NumberPattern (cs.take n) := by
  obtain ⟨letter, digit, more, rfl, hdigit, hrun, rfl⟩ := prefixedLength?_split h
  have hne : more.take (runLength digit more) ≠ [] := by
    intro hnil
    have hlength := congrArg List.length hnil
    rw [List.length_take, Nat.min_eq_left (runLength_le digit more)] at hlength
    exact hrun hlength
  rw [Nat.add_comm, List.take_succ_cons, List.take_succ_cons, take_thenLength]
  exact .based hdigit (take_runLength digit more) hne (take_suffixLength _)

theorem numberAt?_pattern {cs : List Char} {n : Nat} (h : numberAt? cs = some n) :
    NumberPattern (cs.take n) := by
  rw [numberAt?_eq_numberLength?, numberLength?] at h
  rcases Option.or_eq_some_iff.mp h with hbased | ⟨-, hdecimal⟩
  · exact prefixedLength?_pattern hbased
  · exact decimalLength?_pattern hdecimal

end LiveChain.Scan
