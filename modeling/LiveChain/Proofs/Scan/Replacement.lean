import LiveChain.Proofs.Edit.Soundness
import LiveChain.Proofs.Scan.Exchange

/-!
# Texts that can take the place of a value

A number that is written back is digits, perhaps with a sign and a fraction, and is read as one
number wherever no word goes on behind it. So is a name. Each can take the place of a value of its
kind.
-/

set_option autoImplicit false

namespace LiveChain

open Text Scan

/-! ## Written numbers -/

theorem isDecimal_of_isDigit {c : Char} (h : c.isDigit = true) : isDecimal c = true := by
  have h0 : '0'.val.toNat = 48 := rfl
  have h9 : '9'.val.toNat = 57 := rfl
  simp only [Char.isDigit, ge_iff_le, Bool.and_eq_true, decide_eq_true_eq,
    UInt32.le_iff_toNat_le] at h
  have hc : 48 ≤ c.toNat ∧ c.toNat < 48 + 10 := by
    change 48 ≤ c.val.toNat ∧ c.val.toNat < 58
    omega
  simp only [isDecimal, digitValue?, Option.isSome_map, List.find?_isSome]
  exact ⟨48, by decide, by simpa using hc⟩

theorem toDigits_isDecimal (n : Nat) :
    Nat.toDigits 10 n ≠ [] ∧ ∀ c ∈ Nat.toDigits 10 n, isDecimal c = true := by
  refine ⟨Nat.toDigits_ne_nil, fun c hc => isDecimal_of_isDigit ?_⟩
  exact Nat.isDigit_of_mem_toDigits (by decide) (by decide) hc

def UnsignedNumber (cs : List Char) : Prop :=
  ∃ whole point fraction : List Char, cs = whole ++ point ++ fraction ∧
    (whole ≠ [] ∧ ∀ c ∈ whole, isDecimal c = true) ∧ (point = [] ∨ point = ['.']) ∧
    ∀ c ∈ fraction, isDecimal c = true

def SignedNumber (cs : List Char) : Prop :=
  UnsignedNumber cs ∨ ∃ digits, cs = '-' :: digits ∧ UnsignedNumber digits

theorem UnsignedNumber.start {cs : List Char} (h : UnsignedNumber cs) :
    ∃ c more, cs = c :: more ∧ isDecimal c = true := by
  obtain ⟨whole, point, fraction, rfl, ⟨hne, hwhole⟩, -, -⟩ := h
  obtain ⟨c, digits, rfl⟩ := List.exists_cons_of_ne_nil hne
  exact ⟨c, digits ++ point ++ fraction, by simp, hwhole c (List.mem_cons_self ..)⟩

theorem UnsignedNumber.head_ne {cs : List Char} (h : UnsignedNumber cs) : cs.head? ≠ some '-' := by
  obtain ⟨c, more, rfl, hc⟩ := h.start
  intro hhead
  rw [Option.some.inj hhead] at hc
  revert hc
  decide

theorem UnsignedNumber.of_digits (n : Nat) : UnsignedNumber (Nat.toDigits 10 n) :=
  ⟨_, [], [], by simp, toDigits_isDecimal n, .inl rfl, by simp⟩

theorem fixedText_unsigned (places units : Nat) : UnsignedNumber (fixedText places units) := by
  unfold fixedText
  simp only
  split
  · exact .of_digits _
  · refine ⟨_, ['.'], _, List.append_cons _ _ _, toDigits_isDecimal _, .inr rfl, ?_⟩
    intro c hc
    have hmem := (List.dropWhile_sublist _).subset (List.mem_reverse.mp hc)
    rcases List.mem_append.mp (List.mem_reverse.mp hmem) with hzero | hdigit
    · rw [List.eq_of_mem_replicate hzero]
      decide
    · exact (toDigits_isDecimal _).2 c hdigit

theorem Binary64.Finite.magnitudeText_unsigned (x : Binary64.Finite) :
    UnsignedNumber x.magnitudeText := by
  unfold Binary64.Finite.magnitudeText
  split
  · exact fixedText_unsigned _ _
  · split
    · exact fixedText_unsigned _ _
    · exact .of_digits _

theorem Binary64.Finite.written_isNumber (x : Binary64.Finite) : SignedNumber x.written := by
  unfold Binary64.Finite.written
  simp only
  split
  · exact .inr ⟨_, rfl, x.magnitudeText_unsigned⟩
  · exact .inl x.magnitudeText_unsigned

end LiveChain

namespace LiveChain.Scan

open Text

theorem runLength_digits {digits rest : List Char} (h : ∀ c ∈ digits, isDecimal c = true)
    (hrest : ∀ c ∈ rest.head?, (isDecimal c || c == '_') = false) :
    runLength isDecimal (digits ++ rest) = digits.length :=
  length_takeWhile_append.mpr ⟨fun c hc => by rw [h c hc, Bool.true_or], hrest⟩

theorem tailLength_nil : tailLength [] = 0 := rfl

/-- Behind the first digit stands a digit, a point or nothing, and no letter of a base. -/
theorem prefixedLength?_of_unsigned {cs : List Char} (h : UnsignedNumber cs) :
    prefixedLength? cs = none := by
  obtain ⟨whole, point, fraction, rfl, ⟨-, hwhole⟩, hpoint, hfraction⟩ := h
  rw [Option.eq_none_iff_forall_ne_some]
  intro n hn
  obtain ⟨letter, digit, more, hsplit, hdigit, -, -⟩ := prefixedLength?_split hn
  have hmem : letter ∈ whole ++ point ++ fraction := by
    rw [hsplit]
    exact List.mem_cons_of_mem _ List.mem_cons_self
  have hletter : isDecimal letter = true ∨ letter = '.' := by
    rcases List.mem_append.mp hmem with hmem | hmem
    · rcases List.mem_append.mp hmem with hmem | hmem
      · exact .inl (hwhole letter hmem)
      · rcases hpoint with rfl | rfl
        · cases hmem
        · exact .inr (List.mem_singleton.mp hmem)
    · exact .inl (hfraction letter hmem)
  have hapart : ∀ d ∈ ['x', 'X', 'o', 'O', 'b', 'B'], isDecimal d = false ∧ d ≠ '.' :=
    forall_mem_of_all (by decide)
  obtain ⟨hplain, hdot⟩ := hapart letter (mem_letters hdigit)
  rcases hletter with hletter | hletter
  · rw [hplain] at hletter
    cases hletter
  · exact hdot hletter

theorem runLength_all {digits : List Char} (h : ∀ c ∈ digits, isDecimal c = true) :
    runLength isDecimal digits = digits.length := by
  have hrun : runLength isDecimal (digits ++ []) = digits.length := runLength_digits h (by simp)
  rwa [List.append_nil] at hrun

theorem decimalLength?_of_unsigned {cs : List Char} (h : UnsignedNumber cs) :
    decimalLength? cs = some cs.length := by
  obtain ⟨whole, point, fraction, rfl, ⟨hne, hwhole⟩, hpoint, hfraction⟩ := h
  obtain ⟨c, digits, rfl⟩ := List.exists_cons_of_ne_nil hne
  have hdigits : ∀ d ∈ digits, isDecimal d = true :=
    fun d hd => hwhole d (List.mem_cons_of_mem _ hd)
  rw [List.cons_append, List.cons_append, decimalLength?_digit (hwhole c List.mem_cons_self),
    List.length_cons, Option.some.injEq, Nat.add_comm 1, Nat.add_right_cancel_iff]
  rcases hpoint with rfl | rfl
  · have hall : ∀ d ∈ digits ++ [] ++ fraction, isDecimal d = true := by
      rw [List.append_nil]
      exact List.forall_mem_append.mpr ⟨hdigits, hfraction⟩
    rw [thenLength, runLength_all hall, List.drop_length]
    rfl
  · have hrun : runLength isDecimal (digits ++ ['.'] ++ fraction) = digits.length := by
      rw [List.append_assoc]
      exact runLength_digits hdigits fun d hd => by rw [← Option.some.inj hd]; decide
    have hfrac : fractionLength ('.' :: fraction) = ('.' :: fraction).length := by
      rw [fractionLength, runLength_all hfraction, List.length_cons, Nat.add_comm]
    rw [thenLength, hrun, List.append_assoc, List.singleton_append, List.drop_left, thenLength,
      hfrac, List.drop_length, tailLength_nil, List.length_append, Nat.add_zero]

theorem numberAt?_of_unsigned {cs : List Char} (h : UnsignedNumber cs) :
    numberAt? cs = some cs.length := by
  rw [numberAt?_eq_numberLength?, numberLength?, prefixedLength?_of_unsigned h, Option.none_or,
    decimalLength?_of_unsigned h]

/-! ## The characters of a number -/

/-- A part made of characters that a regular expression passes over. -/
def PlainPart (part : List Char → Nat) : Prop :=
  ∀ cs : List Char, ∀ c ∈ cs.take (part cs), isPlain c = true

theorem PlainPart.then {first second : List Char → Nat} (h : PlainPart first)
    (h' : PlainPart second) : PlainPart (thenLength first second) := by
  intro cs c hc
  rw [thenLength, List.take_add] at hc
  exact (List.mem_append.mp hc).elim (h cs c) (h' _ c)

theorem runLength_plain {digit : Char → Bool}
    (hdigit : ∀ c, (digit c || c == '_') = true → isNamePart c = true) :
    PlainPart (runLength digit) := by
  intro cs c hc
  have htake : cs.take (runLength digit cs) = cs.takeWhile fun c => digit c || c == '_' :=
    (List.prefix_iff_eq_take.mp (List.takeWhile_prefix _)).symm
  rw [htake] at hc
  have hword := List.mem_takeWhile_imp hc
  exact isPlain_of_isNamePart (hdigit c hword)

theorem digitsLength_plain : PlainPart digitsLength := by
  intro cs c hc
  cases cs with
  | nil => simp at hc
  | cons d ds =>
    rw [digitsLength] at hc
    split at hc
    · next hd =>
      rw [Nat.add_comm, List.take_succ_cons] at hc
      rcases List.mem_cons.mp hc with rfl | hc
      · exact isPlain_of_isNamePart (isNamePart_of_isDecimal hd)
      · exact runLength_plain isNamePart_of_run ds c hc
    · simp at hc

theorem fractionLength_plain : PlainPart fractionLength := by
  intro cs c hc
  unfold fractionLength at hc
  split at hc
  · next ds =>
    rw [Nat.add_comm, List.take_succ_cons] at hc
    rcases List.mem_cons.mp hc with rfl | hc
    · decide
    · exact runLength_plain isNamePart_of_run ds c hc
  · simp at hc

theorem suffixLength_plain : PlainPart suffixLength := by
  intro cs c hc
  unfold suffixLength at hc
  split at hc
  · rw [List.take_succ_cons] at hc
    obtain rfl : c = 'n' := by simpa using hc
    decide
  · simp at hc

theorem exponentLength_plain : PlainPart exponentLength := by
  intro cs c hc
  cases cs with
  | nil => simp at hc
  | cons e ds =>
    by_cases he : (e == 'e' || e == 'E') = true
    · rw [exponentLength_cons he] at hc
      split at hc
      · simp at hc
      · rw [Nat.add_assoc, Nat.add_comm 1, List.take_succ_cons, List.take_add] at hc
        rcases List.mem_cons.mp hc with rfl | hc
        · exact isPlain_of_isNamePart (isNamePart_of_exponent he)
        · rcases List.mem_append.mp hc with hc | hc
          · by_cases hsign : signLength ds = 0
            · rw [hsign] at hc
              simp at hc
            · obtain ⟨sign, behind, rfl, hmark, hone⟩ := signLength_split hsign
              rw [hone] at hc
              obtain rfl : c = sign := by simpa using hc
              rcases hmark with rfl | rfl <;> decide
          · exact digitsLength_plain _ c hc
    · rw [exponentLength_of_ne he] at hc
      simp at hc

theorem numberAt?_plain {cs : List Char} {n : Nat} (h : numberAt? cs = some n) :
    ∀ c ∈ cs.take n, isPlain c = true := by
  have htail : PlainPart tailLength := exponentLength_plain.then suffixLength_plain
  rw [numberAt?_eq_numberLength?, numberLength?] at h
  rcases Option.or_eq_some_iff.mp h with hbased | ⟨-, hdecimal⟩
  · obtain ⟨letter, digit, more, rfl, hdigit, -, rfl⟩ := prefixedLength?_split hbased
    have hrun := (runLength_plain (isNamePart_of_baseDigits hdigit)).then suffixLength_plain
    intro c hc
    rw [Nat.add_comm, List.take_succ_cons, List.take_succ_cons] at hc
    rcases List.mem_cons.mp hc with rfl | hc
    · decide
    · rcases List.mem_cons.mp hc with rfl | hc
      · exact isPlain_of_isNamePart (isNamePart_of_letter hdigit)
      · exact hrun more c hc
  · cases cs with
    | nil => cases hdecimal
    | cons d ds =>
      by_cases hd : isDecimal d = true
      · rw [decimalLength?_digit hd] at hdecimal
        cases hdecimal
        intro c hc
        rw [Nat.add_comm, List.take_succ_cons] at hc
        rcases List.mem_cons.mp hc with rfl | hc
        · exact isPlain_of_isNamePart (isNamePart_of_isDecimal hd)
        · exact (runLength_plain isNamePart_of_run).then (fractionLength_plain.then htail) ds c hc
      · by_cases hpoint : d = '.'
        · subst hpoint
          rw [decimalLength?_point] at hdecimal
          split at hdecimal
          · cases hdecimal
          · cases hdecimal
            intro c hc
            rw [Nat.add_comm, List.take_succ_cons] at hc
            rcases List.mem_cons.mp hc with rfl | hc
            · decide
            · exact digitsLength_plain.then htail ds c hc
        · simp [decimalLength?, hd, hpoint] at hdecimal

/-! ## Values read anew -/

section Anew

variable {names : SlotNames} {mode next : Mode} {numbers : Nat → Prop}
  {before front new rest rest' : List Char}

theorem numberAt?_before_clear {cs : List Char} (h : UnsignedNumber cs) (hrest : Clear rest) :
    numberAt? (cs ++ rest) = some cs.length := by
  have hclosed := numberAt?_of_unsigned h
  rw [← List.append_nil cs] at hclosed
  have hnil : Clear [] := by simp [Clear]
  have := numberAt?_stable (StopsAlike.of_clear hnil hrest) (x := cs)
  rw [hclosed, List.append_nil] at this
  exact this rfl

/-- A number read anew with another text of the same sign. -/
theorem Reads.renumber (h : Reads names mode front rest (some .number) next)
    (hnew : SignedNumber new) (hsign : new.head? = some '-' ↔ front.head? = some '-')
    (hrest : Clear rest') : Reads names mode new rest' (some .number) next := by
  generalize hkind : some ValueKind.number = kind at h
  cases h with
  | @number front _ h =>
    -- an unsigned number stays one
    have hplain : front.head? ≠ some '-' := by
      intro hhead
      obtain ⟨more, rfl⟩ := List.head?_eq_some_iff.mp hhead
      rcases numberAt?_start h with hc | hc <;> revert hc <;> decide
    rcases hnew with hnew | ⟨digits, rfl, -⟩
    · exact .number (numberAt?_before_clear hnew hrest)
    · exact absurd (hsign.mp rfl) hplain
  | signed hmode =>
    rcases hnew with hnew | ⟨digits, rfl, hdigits⟩
    · exact absurd (hsign.mpr rfl) hnew.head_ne
    · exact .signed hmode .nil (numberAt?_before_clear hdigits hrest)
  | name =>
    split at hkind
    · cases hkind
    · exact absurd hkind.symm (kindOf?_ne_number _ _)
  | _ => cases hkind

structure PlainName (cs : List Char) : Prop where
  nonempty : cs ≠ []
  name : nameLength cs = cs.length
  keyword : expressionKeywords.contains (String.ofList cs) = false

theorem PlainName.parts {cs : List Char} (h : PlainName cs) :
    ∃ c more, cs = c :: more ∧ isNameStart c = true ∧ ∀ d ∈ more, isNamePart d = true := by
  obtain ⟨c, more, rfl⟩ := List.exists_cons_of_ne_nil h.nonempty
  have hclosed := h.name
  rw [← List.append_nil (c :: more)] at hclosed
  obtain ⟨hstart, hparts, -⟩ := nameLength_cons.mp (hclosed.trans (by rw [List.append_nil]))
  exact ⟨c, more, rfl, hstart, hparts⟩

/-- A reference read anew with another name of the same kind. -/
theorem Reads.rename {kind : ValueKind} (h : Reads names mode front rest (some kind) next)
    (hkind : kind ≠ .number) (hold : expressionKeywords.contains (String.ofList front) = false)
    (hnew : PlainName new) (hslot : names.kindOf? (String.ofList new) = some kind)
    (hrest : Clear rest') : Reads names mode new rest' (some kind) next := by
  generalize hsome : some kind = kind' at h
  cases h with
  | name hne h =>
    split at hsome
    · cases hsome
    · next hdot =>
      have hname : nameLength (new ++ rest') = new.length := by
        obtain ⟨c, cs, rfl, hstart, hparts⟩ := hnew.parts
        exact nameLength_cons.mpr ⟨hstart, hparts, fun d hd => (hrest d hd).1⟩
      have hread : Reads names mode new rest' _ _ := .name hnew.nonempty hname
      rw [if_neg hdot, hslot, hnew.keyword] at hread
      rw [if_neg hdot, ← hsome, hold]
      exact hread
  | number => exact absurd (Option.some.inj hsome) hkind
  | signed => exact absurd (Option.some.inj hsome) hkind
  | _ => cases hsome

theorem Reads.signed_split {more : List Char}
    (h : Reads names mode ('-' :: more) rest (some .number) next) : ∃ gap digits,
      more = gap ++ digits ∧ Gap gap ∧ numberAt? (digits ++ rest) = some digits.length := by
  generalize hkind : some ValueKind.number = kind, hfront : '-' :: more = front at h
  cases h with
  | signed hmode hgap h => exact ⟨_, _, (List.cons.inj hfront).2, hgap, h⟩
  | number h =>
    subst hfront
    rcases numberAt?_start h with hc | hc <;> exact absurd hc (by decide)
  | name =>
    split at hkind
    · cases hkind
    · exact absurd hkind.symm (kindOf?_ne_number _ _)
  | _ => cases hkind

/-! ## Exchanges -/

theorem number_plain (h : numberAt? (front ++ rest) = some front.length) :
    ∀ c ∈ front, isPlain c = true := by
  have := numberAt?_plain h
  rwa [List.take_left] at this

theorem signedNumber_plain {cs : List Char} (h : SignedNumber cs) :
    ∀ c ∈ cs, isPlain c = true := by
  have hunsigned : ∀ {digits}, UnsignedNumber digits → ∀ c ∈ digits, isPlain c = true := by
    intro digits hdigits
    have hclosed := numberAt?_of_unsigned hdigits
    rw [← List.append_nil digits] at hclosed
    exact number_plain (hclosed.trans (by rw [List.append_nil]))
  rcases h with h | ⟨digits, rfl, hdigits⟩
  · exact hunsigned h
  · intro c hc
    rcases List.mem_cons.mp hc with rfl | hc
    · decide
    · exact hunsigned hdigits c hc

/-- A number between clear texts can be exchanged for one of the same sign, unless it would
complete an exponent. -/
theorem Exchange.of_number (h : Reads names mode front rest (some .number) next)
    (hnew : SignedNumber new) (hsign : new.head? = some '-' ↔ front.head? = some '-')
    (hline : '\n' ∉ front) (hbefore : Clear before) (hbehind : Clear rest)
    (hexp : front.head? = some '.' → ¬ OpenExponent numbers before) :
    Exchange numbers before front new rest := by
  by_cases hminus : front.head? = some '-'
  · obtain ⟨more, rfl⟩ := List.head?_eq_some_iff.mp hminus
    obtain ⟨digits, rfl⟩ := List.head?_eq_some_iff.mp (hsign.mpr rfl)
    refine ⟨hbefore, hbehind, ⟨'-', more, '-', digits, rfl, rfl, .sign⟩, ?_,
      signedNumber_plain hnew, hexp⟩
    obtain ⟨gap, digits, rfl, hgap, hdigits⟩ := h.signed_split
    have hinert := hgap.inert fun hmem => hline (by simp [hmem])
    exact hinert.append (.of_plain (number_plain hdigits))
  · have hnumber := h.numberAt?_of_kind rfl hminus
    have hunsigned : UnsignedNumber new := by
      refine hnew.resolve_right ?_
      rintro ⟨digits, rfl, -⟩
      exact hminus (hsign.mp rfl)
    obtain ⟨o, olds, rfl⟩ := List.exists_cons_of_ne_nil h.ne_nil
    obtain ⟨n, news, rfl, hn⟩ := hunsigned.start
    refine ⟨hbefore, hbehind, ⟨o, olds, n, news, rfl, rfl, .digit (numberAt?_start hnumber) hn⟩, ?_,
      signedNumber_plain hnew, hexp⟩
    exact .of_plain fun c hc => number_plain hnumber c (List.mem_cons_of_mem _ hc)

theorem Exchange.of_name {kind : ValueKind} (h : Reads names mode front rest (some kind) next)
    (hkind : kind ≠ .number) (hnew : PlainName new) (hbefore : Clear before)
    (hbehind : Clear rest) : Exchange numbers before front new rest := by
  obtain ⟨n, news, rfl, hn, hnews⟩ := hnew.parts
  generalize hsome : some kind = kind' at h
  cases h with
  | name hne h =>
    obtain ⟨o, olds, rfl⟩ := List.exists_cons_of_ne_nil hne
    obtain ⟨ho, holds, -⟩ := nameLength_cons.mp h
    refine ⟨hbefore, hbehind, ⟨o, olds, n, news, rfl, rfl, .name ho hn⟩, ?_, ?_, fun hhead => ?_⟩
    · exact .of_plain fun c hc => isPlain_of_isNamePart (holds c hc)
    · intro c hc
      rcases List.mem_cons.mp hc with rfl | hc
      · exact isPlain_of_isNamePart (isNamePart_of_isNameStart hn)
      · exact isPlain_of_isNamePart (hnews c hc)
    · rw [Option.some.inj hhead] at ho
      exact absurd ho (by decide)
  | number => exact absurd (Option.some.inj hsome) hkind
  | signed => exact absurd (Option.some.inj hsome) hkind
  | _ => cases hsome

end Anew

end LiveChain.Scan
