import LiveChain.Proofs.Scan.Replacement
import LiveChain.Syntax.Token

/-!
# Numeric literals

The grammar and the scan have their own readers of numbers. A text that is one numeric literal of
the grammar is one number for the scan too, whatever stands behind it that neither runs on into.
-/

set_option autoImplicit false

namespace LiveChain.Syntax

open Text

/-! ## How numeric literals are written -/

/-- Digits, perhaps with underscores behind the first. -/
structure Digits (digit : Char → Bool) (cs : List Char) : Prop where
  first : ∀ c ∈ cs.head?, digit c = true
  all : ∀ c ∈ cs, digit c = true ∨ c = '_'

theorem Digits.nil (digit : Char → Bool) : Digits digit [] := ⟨by simp, by simp⟩

/-- A point and digits, or nothing. -/
inductive Fraction : List Char → Prop
  | none : Fraction []
  | point {digits : List Char} (h : Digits Char.isDigit digits) : Fraction ('.' :: digits)

/-- A mark, perhaps a sign, and digits; or nothing. -/
inductive Exponent : List Char → Prop
  | none : Exponent []
  | mark {e : Char} {sign digits : List Char} (he : e = 'e' ∨ e = 'E')
      (hsign : sign = [] ∨ sign = ['+'] ∨ sign = ['-']) (h : Digits Char.isDigit digits)
      (hne : digits ≠ []) : Exponent (e :: (sign ++ digits))

/-- A numeric literal: with the letter of a base, with the mark of a big integer, or in base ten
with a fraction and an exponent. -/
inductive Numeral : List Char → Prop
  | based {letter : Char} {digit : Char → Bool} {digits mark : List Char}
      (hletter : digitsOfBase? letter = some digit) (h : Digits digit digits) (hne : digits ≠ [])
      (hmark : mark = [] ∨ mark = ['n']) : Numeral ('0' :: letter :: (digits ++ mark))
  | big {whole : List Char} (h : Digits Char.isDigit whole) (hne : whole ≠ []) :
    Numeral (whole ++ ['n'])
  | plain {whole fraction exponent : List Char} (h : Digits Char.isDigit whole)
      (hfraction : Fraction fraction) (hexponent : Exponent exponent)
      (hne : whole ≠ [] ∨ 2 ≤ fraction.length) : Numeral (whole ++ (fraction ++ exponent))

theorem moreDigits_digit {digit : Char → Bool} {c : Char} (hc : digit c = true) (cs : List Char) :
    moreDigits digit (c :: cs) = 1 + moreDigits digit cs := by
  conv => lhs; unfold moreDigits
  rw [if_pos hc]

theorem moreDigits_separator {digit : Char → Bool} (h : ¬ digit '_' = true) {d : Char}
    (hd : digit d = true) (cs : List Char) :
    moreDigits digit ('_' :: d :: cs) = 2 + moreDigits digit cs := by
  conv => lhs; unfold moreDigits
  rw [if_neg h]
  simp only [if_pos hd]

theorem moreDigits_stop {digit : Char → Bool} {c : Char} {cs : List Char} (hc : ¬ digit c = true)
    (hcs : c = '_' → ∀ d ∈ cs.head?, digit d = false) : moreDigits digit (c :: cs) = 0 := by
  unfold moreDigits
  rw [if_neg hc]
  split
  · next d more => rw [if_neg (by simp [hcs rfl d rfl])]
  · rfl

theorem moreDigits_split (digit : Char → Bool) (cs : List Char) :
    ∃ run rest, cs = run ++ rest ∧ run.length = moreDigits digit cs ∧
      ∀ c ∈ run, digit c = true ∨ c = '_' := by
  fun_induction moreDigits digit cs with
  | case1 => exact ⟨[], [], rfl, rfl, nofun⟩
  | case2 c cs hc ih =>
    obtain ⟨run, rest, rfl, hlength, hrun⟩ := ih
    refine ⟨c :: run, rest, rfl, by rw [List.length_cons, hlength, Nat.add_comm], ?_⟩
    exact List.forall_mem_cons.mpr ⟨.inl hc, hrun⟩
  | case3 d rest hd _ ih =>
    obtain ⟨run, rest, rfl, hlength, hrun⟩ := ih
    refine ⟨'_' :: d :: run, rest, rfl, ?_, ?_⟩
    · rw [List.length_cons, List.length_cons, hlength]
      omega
    · exact List.forall_mem_cons.mpr ⟨.inr rfl, List.forall_mem_cons.mpr ⟨.inl hd, hrun⟩⟩
  | case4 => exact ⟨[], _, rfl, rfl, nofun⟩
  | case5 => exact ⟨[], _, rfl, rfl, nofun⟩

theorem digitRun_split (digit : Char → Bool) (cs : List Char) :
    ∃ run rest, cs = run ++ rest ∧ run.length = digitRun digit cs ∧ Digits digit run := by
  cases cs with
  | nil => exact ⟨[], [], rfl, rfl, .nil digit⟩
  | cons c cs =>
    rw [digitRun]
    split
    · next hc =>
      obtain ⟨run, rest, rfl, hlength, hrun⟩ := moreDigits_split digit cs
      refine ⟨c :: run, rest, rfl, by rw [List.length_cons, hlength, Nat.add_comm], ?_, ?_⟩
      · simpa using hc
      · exact List.forall_mem_cons.mpr ⟨.inl hc, hrun⟩
    · exact ⟨[], c :: cs, rfl, rfl, .nil digit⟩

theorem signLength_split (cs : List Char) : ∃ sign rest, cs = sign ++ rest ∧
    Scan.signLength cs = sign.length ∧ (sign = [] ∨ sign = ['+'] ∨ sign = ['-']) := by
  unfold Scan.signLength
  split
  · exact ⟨['+'], _, rfl, rfl, .inr (.inl rfl)⟩
  · exact ⟨['-'], _, rfl, rfl, .inr (.inr rfl)⟩
  · exact ⟨[], cs, rfl, rfl, .inl rfl⟩

theorem exponentPart_cons {e : Char} (he : (e == 'e' || e == 'E') = true) (cs : List Char) :
    exponentPart (e :: cs) =
      if digitRun Char.isDigit (cs.drop (Scan.signLength cs)) = 0 then 0
      else 1 + Scan.signLength cs + digitRun Char.isDigit (cs.drop (Scan.signLength cs)) := by
  exact if_pos he

theorem exponentPart_of_ne {e : Char} (he : ¬ (e == 'e' || e == 'E') = true) (cs : List Char) :
    exponentPart (e :: cs) = 0 := by
  unfold exponentPart
  exact if_neg he

theorem exponentPart_split (cs : List Char) : ∃ exponent rest, cs = exponent ++ rest ∧
    exponent.length = exponentPart cs ∧ Exponent exponent := by
  cases cs with
  | nil => exact ⟨[], [], rfl, rfl, .none⟩
  | cons e cs =>
    by_cases he : (e == 'e' || e == 'E') = true
    · obtain ⟨sign, more, rfl, hlength, hsign⟩ := signLength_split cs
      obtain ⟨digits, rest, rfl, hrun, hdigits⟩ := digitRun_split Char.isDigit more
      rw [exponentPart_cons he, hlength, List.drop_left, ← hrun]
      split
      · exact ⟨[], _, rfl, rfl, .none⟩
      · next hne =>
        refine ⟨e :: (sign ++ digits), rest, by simp, ?_, ?_⟩
        · rw [List.length_cons, List.length_append]
          omega
        · exact .mark (by simpa using he) hsign hdigits fun hnil => hne (by rw [hnil]; rfl)
    · exact ⟨[], e :: cs, rfl, (exponentPart_of_ne he cs).symm, .none⟩

theorem bigMark_cases (cs : List Char) : bigMark cs = 0 ∨ bigMark cs = 1 ∧ cs.head? = some 'n' := by
  unfold bigMark
  split
  · exact .inr ⟨rfl, rfl⟩
  · exact .inl rfl

theorem bigMark_split (cs : List Char) : ∃ mark rest, cs = mark ++ rest ∧
    mark.length = bigMark cs ∧ (mark = [] ∨ mark = ['n']) := by
  rcases bigMark_cases cs with hmark | ⟨hmark, hhead⟩
  · exact ⟨[], cs, rfl, hmark.symm, .inl rfl⟩
  · obtain ⟨rest, rfl⟩ := List.head?_eq_some_iff.mp hhead
    exact ⟨['n'], rest, rfl, hmark.symm, .inr rfl⟩

def DigitsOnly (cs : List Char) : Prop := ∀ c ∈ cs, c.isDigit = true ∨ c = '_'

/-- A point behind digits belongs to their literal unless they take no fraction. -/
def PointTaken (raw rest : List Char) : Prop :=
  rest.head? = some '.' → DigitsOnly raw → takesFraction raw = false

theorem PointTaken.of_mem {raw rest : List Char} {c : Char} (hc : c ∈ raw)
    (h : c.isDigit = false ∧ c ≠ '_') : PointTaken raw rest := by
  intro _ honly
  rcases honly c hc with hdigit | hsep
  · rw [h.1] at hdigit
    cases hdigit
  · exact absurd hsep h.2

/-- A text starts with a numeral of a certain length, and a point behind it is no part of it. -/
def StartsNumeral (cs : List Char) (n : Nat) : Prop :=
  ∃ raw rest, cs = raw ++ rest ∧ raw.length = n ∧ Numeral raw ∧ PointTaken raw rest

theorem basedNumber?_split {cs : List Char} {n : Nat} (h : basedNumber? cs = some n) :
    StartsNumeral cs n := by
  unfold basedNumber? at h
  split at h
  · next letter cs =>
    split at h
    · next digit hdigit =>
      obtain ⟨digits, more, rfl, hlength, hdigits⟩ := digitRun_split digit cs
      obtain ⟨mark, rest, rfl, hmark, hcases⟩ := bigMark_split more
      simp only [← hlength, List.drop_left, ← hmark] at h
      split at h
      · cases h
      · next hne =>
        have hapart : ∀ c ∈ ['x', 'X', 'o', 'O', 'b', 'B'], c.isDigit = false ∧ c ≠ '_' :=
          forall_mem_of_all (by decide)
        refine ⟨'0' :: letter :: (digits ++ mark), rest, by simp, ?_, ?_, ?_⟩
        · simp only [Option.some.injEq, List.length_cons, List.length_append] at h ⊢
          omega
        · exact .based hdigit hdigits (fun hnil => hne (by rw [hnil]; rfl)) hcases
        · exact .of_mem (List.mem_cons_of_mem _ List.mem_cons_self)
            (hapart letter (Scan.mem_letters hdigit))
    · cases h
  · cases h

theorem startsNumeral_big {whole tail : List Char} (hwhole : Digits Char.isDigit whole)
    (hne : whole ≠ []) (h : bigMark tail = 1) : StartsNumeral (whole ++ tail) (whole.length + 1) := by
  rcases bigMark_cases tail with hzero | ⟨-, hhead⟩
  · omega
  · obtain ⟨rest, rfl⟩ := List.head?_eq_some_iff.mp hhead
    exact ⟨whole ++ ['n'], rest, by simp, by simp, .big hwhole hne,
      .of_mem (List.mem_append_right _ List.mem_cons_self) (by decide)⟩

theorem startsNumeral_fraction {whole : List Char} (hwhole : Digits Char.isDigit whole)
    (more : List Char) (hne : whole ≠ [] ∨ digitRun Char.isDigit more ≠ 0) :
    StartsNumeral (whole ++ '.' :: more) (whole.length + 1 + digitRun Char.isDigit more +
      exponentPart (more.drop (digitRun Char.isDigit more))) := by
  obtain ⟨digits, behind, rfl, hlength, hdigits⟩ := digitRun_split Char.isDigit more
  obtain ⟨exponent, rest, rfl, hexp, hexponent⟩ := exponentPart_split behind
  rw [← hlength] at hne ⊢
  rw [List.drop_left, ← hexp]
  refine ⟨whole ++ ('.' :: digits ++ exponent), rest, by simp, ?_, ?_, ?_⟩
  · simp only [List.length_append, List.length_cons]
    omega
  · refine .plain hwhole (.point hdigits) hexponent (hne.imp_right fun h => ?_)
    rw [List.length_cons]
    omega
  · exact .of_mem (List.mem_append_right _ List.mem_cons_self) (by decide)

theorem startsNumeral_exponent {whole tail : List Char} (hwhole : Digits Char.isDigit whole)
    (hne : whole ≠ []) (hpoint : ∀ more, tail ≠ '.' :: more) :
    StartsNumeral (whole ++ tail) (whole.length + exponentPart tail) := by
  obtain ⟨exponent, rest, rfl, hexp, hexponent⟩ := exponentPart_split tail
  rw [← hexp]
  refine ⟨whole ++ exponent, rest, by simp, by simp, ?_, ?_⟩
  · exact .plain hwhole Fraction.none hexponent (.inl hne)
  · cases hexponent with
    | none =>
      intro hhead
      obtain ⟨more, rfl⟩ := List.head?_eq_some_iff.mp hhead
      exact absurd rfl (hpoint more)
    | mark he =>
      refine .of_mem (List.mem_append_right _ List.mem_cons_self) ?_
      rcases he with rfl | rfl <;> decide

theorem startsNumeral_whole {whole : List Char} (hwhole : Digits Char.isDigit whole)
    (hne : whole ≠ []) (htakes : takesFraction whole = false) (tail : List Char) :
    StartsNumeral (whole ++ tail) whole.length := by
  have hplain := Numeral.plain hwhole Fraction.none Exponent.none (.inl hne)
  rw [List.append_nil, List.append_nil] at hplain
  exact ⟨whole, tail, rfl, rfl, hplain, fun _ _ => htakes⟩

theorem plainNumber?_split {cs : List Char} {n : Nat} (h : plainNumber? cs = some n) :
    StartsNumeral cs n := by
  obtain ⟨whole, tail, rfl, hlength, hwhole⟩ := digitRun_split Char.isDigit cs
  simp only [plainNumber?, ← hlength, List.drop_left, List.take_left] at h
  split at h
  · next hzero =>
    obtain rfl := List.length_eq_zero_iff.mp hzero
    rw [List.nil_append] at h
    split at h
    · next more =>
      split at h
      · cases h
      · next hrun =>
        have hstarts := startsNumeral_fraction hwhole more (.inr hrun)
        rwa [List.length_nil, Nat.zero_add, Option.some.inj h] at hstarts
    · cases h
  · next hpos =>
    have hne : whole ≠ [] := fun hnil => hpos (by rw [hnil]; rfl)
    split at h
    · next hmark =>
      cases h
      exact startsNumeral_big hwhole hne hmark
    · split at h
      · split at h
        · next more _ =>
          cases h
          exact startsNumeral_fraction hwhole more (.inl hne)
        · next hpoint =>
          cases h
          exact startsNumeral_exponent hwhole hne fun more => hpoint more
      · next htakes =>
        cases h
        exact startsNumeral_whole hwhole hne (by simpa using htakes) tail

/-- What the grammar reads as a numeric literal is written like one. -/
theorem numberToken?_split {cs : List Char} {n : Nat} (h : numberToken? cs = some n) :
    StartsNumeral cs n := by
  rcases Option.or_eq_some_iff.mp h with h | ⟨-, h⟩
  · exact basedNumber?_split h
  · exact plainNumber?_split h

/-- A text that the grammar reads as one numeric literal is written like one. -/
theorem numeral_of_token {cs : List Char} (h : numberToken? cs = some cs.length) : Numeral cs := by
  obtain ⟨raw, rest, rfl, hlength, hnumeral, -⟩ := numberToken?_split h
  rw [List.length_append, Nat.left_eq_add] at hlength
  rwa [List.length_eq_zero_iff.mp hlength, List.append_nil]

/-- A numeral starts with a digit, or with a point and a digit. -/
theorem Numeral.start {cs : List Char} (h : Numeral cs) :
    ∃ c more, cs = c :: more ∧ (c.isDigit = true ∨
      c = '.' ∧ ∃ d ds, more = d :: ds ∧ d.isDigit = true) := by
  cases h with
  | based => exact ⟨'0', _, rfl, .inl rfl⟩
  | big h hne =>
    obtain ⟨c, more, rfl⟩ := List.exists_cons_of_ne_nil hne
    exact ⟨c, _, rfl, .inl (h.first c rfl)⟩
  | @plain whole fraction exponent h hfraction hexponent hne =>
    cases whole with
    | cons c more => exact ⟨c, _, rfl, .inl (h.first c rfl)⟩
    | nil =>
      cases hfraction with
      | none => simp at hne
      | @point digits hdigits =>
        have hne : digits ≠ [] := by
          rintro rfl
          simp at hne
        obtain ⟨d, ds, rfl⟩ := List.exists_cons_of_ne_nil hne
        exact ⟨'.', _, rfl, .inr ⟨rfl, d, _, rfl, hdigits.first d rfl⟩⟩

/-! ## What stands behind a numeral -/

/-- A text that does not start with a word character, a dollar sign, a point or a sign. -/
def Stops (cs : List Char) : Prop :=
  ∀ c ∈ cs.head?, isNamePart c = false ∧ c ≠ '.' ∧ c ≠ '+' ∧ c ≠ '-'

section Append

variable {rest : List Char}

theorem Stops.clear (h : Stops rest) : Scan.Clear rest := fun c hc => ⟨(h c hc).1, (h c hc).2.1⟩

theorem Stops.not_digit (h : Stops rest) {digit : Char → Bool}
    (hdigit : ∀ c, digit c = true → isNamePart c = true) :
    ∀ c ∈ rest.head?, digit c = false ∧ c ≠ '_' := by
  intro c hc
  have hpart := (h c hc).1
  refine ⟨Bool.eq_false_iff.mpr fun hd => ?_, ?_⟩
  · rw [hdigit c hd] at hpart
    cases hpart
  · rintro rfl
    revert hpart
    decide

theorem moreDigits_append (h : Stops rest) {digit : Char → Bool}
    (hdigit : ∀ c, digit c = true → isNamePart c = true) (cs : List Char) :
    moreDigits digit (cs ++ rest) = moreDigits digit cs := by
  have hstop := h.not_digit hdigit
  fun_induction moreDigits digit cs with
  | case1 =>
    cases rest with
    | nil => rfl
    | cons c rest =>
      obtain ⟨hc, hne⟩ := hstop c rfl
      exact moreDigits_stop (by simp [hc]) fun heq => absurd heq hne
  | case2 c cs hc ih => rw [List.cons_append, moreDigits_digit hc, ih]
  | case3 d more hd hc ih => rw [List.cons_append, List.cons_append, moreDigits_separator hc hd, ih]
  | case4 d more hd hc =>
    refine moreDigits_stop hc fun _ d' hd' => ?_
    obtain rfl : d = d' := by simpa using hd'
    simpa using hd
  | case5 c cs hc hne =>
    refine moreDigits_stop hc ?_
    rintro rfl d hd
    cases cs with
    | nil => exact (hstop d hd).1
    | cons d' ds => exact absurd rfl (hne d' ds rfl)

theorem digitRun_append (h : Stops rest) {digit : Char → Bool}
    (hdigit : ∀ c, digit c = true → isNamePart c = true) (cs : List Char) :
    digitRun digit (cs ++ rest) = digitRun digit cs := by
  cases cs with
  | nil =>
    cases rest with
    | nil => rfl
    | cons c rest => simp [digitRun, (h.not_digit hdigit c rfl).1]
  | cons c cs => rw [List.cons_append, digitRun, digitRun, moreDigits_append h hdigit]

theorem bigMark_append (h : Stops rest) (cs : List Char) : bigMark (cs ++ rest) = bigMark cs := by
  cases cs with
  | nil =>
    rcases bigMark_cases rest with hzero | ⟨-, hhead⟩
    · exact hzero
    · exact absurd (h 'n' hhead).1 (by decide)
  | cons c cs =>
    unfold bigMark
    split <;> simp_all

theorem isNamePart_of_isDigit (c : Char) (h : c.isDigit = true) : isNamePart c = true :=
  Scan.isNamePart_of_isDecimal (isDecimal_of_isDigit h)

theorem signLength_append (h : Stops rest) (cs : List Char) :
    Scan.signLength (cs ++ rest) = Scan.signLength cs := by
  cases cs with
  | nil =>
    cases rest with
    | nil => rfl
    | cons c rest =>
      obtain ⟨-, -, hplus, hminus⟩ := h c rfl
      simp [Scan.signLength, hplus, hminus]
  | cons c cs => rw [List.cons_append, Scan.signLength_cons, ← Scan.signLength_cons c cs]

theorem exponentPart_append (h : Stops rest) (cs : List Char) :
    exponentPart (cs ++ rest) = exponentPart cs := by
  cases cs with
  | nil =>
    cases rest with
    | nil => rfl
    | cons c rest =>
      refine exponentPart_of_ne (fun hc => ?_) _
      have hpart := (h c rfl).1
      rcases Bool.or_eq_true_iff.mp hc with hc | hc <;> rw [beq_iff_eq.mp hc] at hpart <;>
        exact absurd hpart (by decide)
  | cons e cs =>
    by_cases he : (e == 'e' || e == 'E') = true
    · rw [List.cons_append, exponentPart_cons he, exponentPart_cons he, signLength_append h,
        List.drop_append_of_le_length (Scan.signLength_le cs),
        digitRun_append h isNamePart_of_isDigit]
    · rw [List.cons_append, exponentPart_of_ne he, exponentPart_of_ne he]

theorem digitRun_le (digit : Char → Bool) (cs : List Char) : digitRun digit cs ≤ cs.length := by
  obtain ⟨run, rest, rfl, hlength, -⟩ := digitRun_split digit cs
  rw [← hlength, List.length_append]
  exact Nat.le_add_right _ _

theorem isNamePart_of_base {letter : Char} {digit : Char → Bool}
    (h : digitsOfBase? letter = some digit) (c : Char) (hc : digit c = true) :
    isNamePart c = true :=
  Scan.isNamePart_of_baseDigits h c (by rw [hc, Bool.true_or])

theorem basedNumber?_of_letter {letter : Char} (h : digitsOfBase? letter = none) (c : Char)
    (cs : List Char) : basedNumber? (c :: letter :: cs) = none := by
  unfold basedNumber?
  split
  · next heq =>
    rw [← (List.cons.inj (List.cons.inj heq).2).1, h]
  · rfl

theorem basedNumber?_append (h : Stops rest) (cs : List Char) :
    basedNumber? (cs ++ rest) = basedNumber? cs := by
  -- behind a zero, the letter of a base would be a word character
  have hletter : ∀ c ∈ rest.head?, digitsOfBase? c = none := by
    intro c hc
    rw [Option.eq_none_iff_forall_ne_some]
    intro digit hdigit
    exact absurd (Scan.isNamePart_of_letter hdigit) (by simp [(h c hc).1])
  match cs, rest with
  | [], [] => rfl
  | [], [c] => simp [basedNumber?]
  | [], c :: d :: more =>
    have hzero : c ≠ '0' := by
      rintro rfl
      exact absurd (h '0' rfl).1 (by decide)
    simp [basedNumber?, hzero]
  | [c], [] => rfl
  | [c], d :: more =>
    rw [List.singleton_append, basedNumber?_of_letter (hletter d rfl)]
    simp [basedNumber?]
  | c :: letter :: more, rest =>
    cases hdigit : digitsOfBase? letter with
    | none =>
      rw [List.cons_append, List.cons_append, basedNumber?_of_letter hdigit,
        basedNumber?_of_letter hdigit]
    | some digit =>
      by_cases hc : c = '0'
      · subst hc
        simp only [List.cons_append, basedNumber?, hdigit,
          digitRun_append h (isNamePart_of_base hdigit),
          List.drop_append_of_le_length (digitRun_le digit more), bigMark_append h]
      · simp [basedNumber?, hc]

theorem plainNumber?_append (h : Stops rest) (cs : List Char) :
    plainNumber? (cs ++ rest) = plainNumber? cs := by
  have hrun := digitRun_append h isNamePart_of_isDigit
  have hle := digitRun_le Char.isDigit
  -- a point that a fraction starts with stands in the text itself
  have hpoint : ∀ more, rest ≠ '.' :: more := by
    rintro more rfl
    exact (h '.' rfl).2.1 rfl
  simp only [plainNumber?, hrun, List.drop_append_of_le_length (hle cs),
    List.take_append_of_le_length (hle cs), bigMark_append h]
  by_cases hzero : digitRun Char.isDigit cs = 0
  · simp only [if_pos hzero]
    match cs with
    | [] => cases rest <;> simp_all
    | c :: more =>
      by_cases hc : c = '.'
      · subst hc
        simp only [List.cons_append, hrun, List.drop_append_of_le_length (hle more),
          exponentPart_append h]
      · simp [hc]
  · simp only [if_neg hzero]
    generalize cs.drop (digitRun Char.isDigit cs) = tail
    congr 1
    congr 1
    match tail with
    | [] =>
      have := exponentPart_append h []
      cases rest <;> simp_all
    | c :: more =>
      by_cases hc : c = '.'
      · subst hc
        simp only [List.cons_append, hrun, List.drop_append_of_le_length (hle more),
          exponentPart_append h]
      · have := exponentPart_append h (c :: more)
        rw [List.cons_append] at this
        simp [hc, this]

/-- What stands behind a number does not change it, unless it could go on with it. -/
theorem numberToken?_append (h : Stops rest) (cs : List Char) :
    numberToken? (cs ++ rest) = numberToken? cs := by
  rw [numberToken?, basedNumber?_append h, plainNumber?_append h, ← numberToken?]

end Append

/-! ## Numerals in the scan -/

/-- A text that no number runs on into, unless it starts with a point: it starts with no digit of any
script or base, no separator and no mark, and with no letter of a base with a digit behind it. -/
structure Bounds (rest : List Char) : Prop where
  head : ∀ c ∈ rest.head?, isDecimal c = false ∧ Scan.isHexDigit c = false ∧ c ≠ '_' ∧ c ≠ 'n'
  base : Scan.prefixedLength? ('0' :: rest) = none

namespace Bounds

variable {rest : List Char}

theorem nil : Bounds [] := ⟨by simp, rfl⟩

theorem of_clear (h : Scan.Clear rest) : Bounds rest := by
  have hempty : Scan.Clear [] := by decide
  refine ⟨fun c hc => ?_, (Scan.StopsAlike.of_clear hempty h).base rfl⟩
  have hpart := (h c hc).1
  have hnot : ∀ {d : Char}, isNamePart d = true → c ≠ d := by
    rintro d hd rfl
    rw [hd] at hpart
    cases hpart
  refine ⟨?_, ?_, hnot (by decide), hnot (by decide)⟩
  · rw [Bool.eq_false_iff]
    exact fun hd => absurd (Scan.isNamePart_of_isDecimal hd) (by simp [hpart])
  · rw [Bool.eq_false_iff]
    exact fun hd => absurd
      (Scan.isNamePart_of_isAlphanum (Scan.isAlphanum_of_isHexDigit hd)) (by simp [hpart])

variable (h : Bounds rest)

include h

theorem run : ∀ c ∈ rest.head?, (isDecimal c || c == '_') = false := by
  intro c hc
  obtain ⟨hdecimal, -, hsep, -⟩ := h.head c hc
  rw [hdecimal, Bool.false_or, beq_eq_false_iff_ne]
  exact hsep

theorem suffixLength_eq : Scan.suffixLength rest = 0 :=
  Scan.suffixLength_eq_zero.mpr fun c hc => beq_eq_false_iff_ne.mpr (h.head c hc).2.2.2

theorem exponentLength_eq : Scan.exponentLength rest = 0 := by
  cases rest with
  | nil => rfl
  | cons c cs =>
    refine Scan.exponentLength_of_ne (fun he => ?_) cs
    have hhex := (h.head c rfl).2.1
    rcases Bool.or_eq_true_iff.mp he with he | he <;> rw [beq_iff_eq.mp he] at hhex <;>
      exact absurd hhex (by decide)

theorem base_run {letter : Char} {digit : Char → Bool}
    (hletter : Scan.baseDigits? letter = some digit) :
    ∀ c ∈ rest.head?, (digit c || c == '_') = false := by
  intro c hc
  obtain ⟨-, hhex, hsep, -⟩ := h.head c hc
  rw [Bool.or_eq_false_iff, Bool.eq_false_iff, beq_eq_false_iff_ne]
  refine ⟨fun hd => ?_, hsep⟩
  rw [Scan.isHexDigit_of_baseDigits hletter hd] at hhex
  cases hhex

end Bounds

theorem runLength_digits {run rest : List Char} (h : ∀ c ∈ run, c.isDigit = true ∨ c = '_')
    (hrest : ∀ c ∈ rest.head?, (isDecimal c || c == '_') = false) :
    Scan.runLength isDecimal (run ++ rest) = run.length := by
  refine Scan.length_takeWhile_append.mpr ⟨fun c hc => ?_, hrest⟩
  rcases h c hc with hc | rfl
  · rw [isDecimal_of_isDigit hc, Bool.true_or]
  · decide

theorem digitsLength_digits {run rest : List Char} (h : Digits Char.isDigit run) (hne : run ≠ [])
    (hrest : ∀ c ∈ rest.head?, (isDecimal c || c == '_') = false) :
    Scan.digitsLength (run ++ rest) = run.length := by
  obtain ⟨c, more, rfl⟩ := List.exists_cons_of_ne_nil hne
  have hmore := runLength_digits (fun d hd => h.all d (List.mem_cons_of_mem _ hd)) hrest
  rw [List.cons_append, Scan.digitsLength, if_pos (isDecimal_of_isDigit (h.first c rfl)), hmore,
    List.length_cons, Nat.add_comm]

section Bounded

variable {rest fraction exponent : List Char} (hrest : Bounds rest)

include hrest

theorem Exponent.stops (h : Exponent exponent) :
    ∀ c ∈ (exponent ++ rest).head?, (isDecimal c || c == '_') = false := by
  cases h with
  | none => exact hrest.run
  | mark he =>
    intro c hc
    obtain rfl := Option.some.inj hc
    rcases he with rfl | rfl <;> decide

theorem Exponent.length_eq (h : Exponent exponent) :
    Scan.tailLength (exponent ++ rest) = exponent.length := by
  cases h with
  | none =>
    rw [List.nil_append, Scan.tailLength, Scan.thenLength, hrest.exponentLength_eq, List.drop_zero,
      hrest.suffixLength_eq]
    rfl
  | @mark e sign digits he hsign h hne =>
    have hmark : (e == 'e' || e == 'E') = true := by simpa using he
    have hlength : Scan.signLength (sign ++ (digits ++ rest)) = sign.length := by
      obtain ⟨d, ds, rfl⟩ := List.exists_cons_of_ne_nil hne
      have hd := h.first d rfl
      have hplus : d ≠ '+' := by
        rintro rfl
        revert hd
        decide
      have hminus : d ≠ '-' := by
        rintro rfl
        revert hd
        decide
      rcases hsign with rfl | rfl | rfl <;> simp [Scan.signLength, hplus, hminus]
    have hdigits := digitsLength_digits h hne hrest.run
    have hpos : digits.length ≠ 0 := fun hzero => hne (List.length_eq_zero_iff.mp hzero)
    have hexponent : Scan.exponentLength (e :: (sign ++ digits) ++ rest) =
        (e :: (sign ++ digits)).length := by
      rw [List.cons_append, List.append_assoc, Scan.exponentLength_cons hmark, hlength,
        List.drop_left, hdigits, if_neg hpos, List.length_cons, List.length_append]
      omega
    rw [Scan.tailLength, Scan.thenLength, hexponent, List.drop_left, hrest.suffixLength_eq]
    rfl

theorem Fraction.length_eq (h : Fraction fraction) (hexponent : Exponent exponent)
    (hpoint : fraction ++ exponent = [] → rest.head? ≠ some '.') :
    Scan.fractionLength (fraction ++ (exponent ++ rest)) = fraction.length := by
  cases h with
  | none =>
    refine Scan.fractionLength_eq_zero.mpr fun c hc => ?_
    cases hexponent with
    | none =>
      rw [beq_eq_false_iff_ne]
      rintro rfl
      exact hpoint rfl hc
    | mark he =>
      obtain rfl := Option.some.inj hc
      rcases he with rfl | rfl <;> decide
  | point h =>
    rw [List.cons_append, Scan.fractionLength, runLength_digits h.all (hexponent.stops hrest),
      List.length_cons, Nat.add_comm]

theorem Fraction.stops (h : Fraction fraction) (hexponent : Exponent exponent) :
    ∀ c ∈ (fraction ++ (exponent ++ rest)).head?, (isDecimal c || c == '_') = false := by
  cases h with
  | none =>
    rw [List.nil_append]
    exact hexponent.stops hrest
  | point =>
    intro c hc
    obtain rfl := Option.some.inj hc
    decide

end Bounded

def IsNumeralChar (c : Char) : Prop := c.isDigit = true ∨ c ∈ ['_', '.', 'e', 'E', '+', '-']

theorem IsNumeralChar.ne {c d : Char} (h : IsNumeralChar c) (hdigit : d.isDigit = false)
    (hmark : d ∉ ['_', '.', 'e', 'E', '+', '-']) : c ≠ d := by
  rintro rfl
  rcases h with h | h
  · rw [hdigit] at h
    cases h
  · exact hmark h

theorem prefixedLength?_of_chars {cs rest : List Char} (h : ∀ c ∈ cs, IsNumeralChar c ∨ c = 'n')
    (hne : cs ≠ []) (hrest : Scan.prefixedLength? ('0' :: rest) = none) :
    Scan.prefixedLength? (cs ++ rest) = none := by
  rw [Option.eq_none_iff_forall_ne_some]
  intro n hn
  obtain ⟨letter, digit, more, hsplit, hdigit, -, -⟩ := Scan.prefixedLength?_split hn
  have hapart : ∀ c ∈ ['x', 'X', 'o', 'O', 'b', 'B'], c.isDigit = false ∧
      c ∉ ['_', '.', 'e', 'E', '+', '-'] ∧ c ≠ 'n' := forall_mem_of_all (by decide)
  obtain ⟨hdigit', hmark, hbig⟩ := hapart letter (Scan.mem_letters hdigit)
  match cs, hne with
  | [c], _ =>
    obtain ⟨rfl, -⟩ := List.cons.inj hsplit
    rw [List.singleton_append, hrest] at hn
    cases hn
  | c :: d :: cs, _ =>
    obtain ⟨rfl, -⟩ := List.cons.inj (List.cons.inj hsplit).2
    rcases h d (by simp) with hc | hc
    · exact hc.ne hdigit' hmark rfl
    · exact hbig hc

theorem Digits.chars {run : List Char} (h : Digits Char.isDigit run) :
    ∀ c ∈ run, IsNumeralChar c := by
  intro c hc
  rcases h.all c hc with hc | rfl
  · exact .inl hc
  · exact .inr (by decide)

theorem Fraction.chars {fraction : List Char} (h : Fraction fraction) :
    ∀ c ∈ fraction, IsNumeralChar c := by
  cases h with
  | none => nofun
  | point h => exact List.forall_mem_cons.mpr ⟨.inr (by decide), h.chars⟩

theorem Exponent.chars {exponent : List Char} (h : Exponent exponent) :
    ∀ c ∈ exponent, IsNumeralChar c := by
  cases h with
  | none => nofun
  | mark he hsign h =>
    refine List.forall_mem_cons.mpr ⟨.inr ?_, List.forall_mem_append.mpr ⟨?_, h.chars⟩⟩
    · rcases he with rfl | rfl <;> decide
    · rcases hsign with rfl | rfl | rfl
      · nofun
      · exact List.forall_mem_singleton.mpr (.inr (by decide))
      · exact List.forall_mem_singleton.mpr (.inr (by decide))

/-- Digits are a decimal for the scan, with what follows them. -/
theorem numberAt?_digits {whole tail : List Char} (h : Digits Char.isDigit whole) (hne : whole ≠ [])
    (htail : ∀ c ∈ tail.head?, (isDecimal c || c == '_') = false)
    (hbase : Scan.prefixedLength? (whole ++ tail) = none) :
    Scan.numberAt? (whole ++ tail) =
      some (whole.length + Scan.thenLength Scan.fractionLength Scan.tailLength tail) := by
  obtain ⟨c, more, rfl⟩ := List.exists_cons_of_ne_nil hne
  have hc : isDecimal c = true := isDecimal_of_isDigit (h.first c rfl)
  have hmore := runLength_digits (fun d hd => h.all d (List.mem_cons_of_mem _ hd)) htail
  rw [Scan.numberAt?_eq_numberLength?, Scan.numberLength?, hbase, Option.none_or, List.cons_append,
    Scan.decimalLength?_digit hc, Scan.thenLength, hmore, List.drop_left, List.length_cons]
  congr 1
  omega

/-- A literal with the letter of a base is a number for the scan. -/
theorem numberAt?_based {letter : Char} {digit : Char → Bool} {digits mark rest : List Char}
    (hletter : digitsOfBase? letter = some digit) (h : Digits digit digits) (hne : digits ≠ [])
    (hmark : mark = [] ∨ mark = ['n']) (hrest : Bounds rest) :
    Scan.numberAt? ('0' :: letter :: (digits ++ mark) ++ rest) =
      some ('0' :: letter :: (digits ++ mark)).length := by
  have hrun : Scan.runLength digit (digits ++ (mark ++ rest)) = digits.length := by
    refine Scan.length_takeWhile_append.mpr ⟨fun c hc => ?_, ?_⟩
    · rcases h.all c hc with hc | rfl
      · rw [hc, Bool.true_or]
      · rw [beq_self_eq_true, Bool.or_true]
    · rcases hmark with rfl | rfl
      · exact hrest.base_run hletter
      · intro c hc
        obtain rfl := Option.some.inj hc
        rw [Bool.eq_false_iff]
        intro hn
        have hn : digit 'n' = true := by simpa using hn
        exact absurd (Scan.isHexDigit_of_baseDigits hletter hn) (by decide)
  have hsuffix : Scan.suffixLength (mark ++ rest) = mark.length := by
    rcases hmark with rfl | rfl
    · exact hrest.suffixLength_eq
    · rfl
  have hpos : digits.length ≠ 0 := fun hzero => hne (List.length_eq_zero_iff.mp hzero)
  rw [Scan.numberAt?_eq_numberLength?, Scan.numberLength?, List.cons_append, List.cons_append,
    List.append_assoc, Scan.prefixedLength?_base hletter, hrun, if_neg hpos, Option.some_or,
    Scan.thenLength, hrun, List.drop_left, hsuffix]
  simp only [List.length_cons, List.length_append, Option.some.injEq]
  omega

/-- Digits behind a point are a number for the scan, with an exponent. -/
theorem numberAt?_point {digits exponent rest : List Char} (h : Digits Char.isDigit digits)
    (hne : digits ≠ []) (hexponent : Exponent exponent) (hrest : Bounds rest)
    (hbase : Scan.prefixedLength? ('.' :: (digits ++ (exponent ++ rest))) = none) :
    Scan.numberAt? ('.' :: (digits ++ (exponent ++ rest))) =
      some ('.' :: (digits ++ exponent)).length := by
  have hpos : digits.length ≠ 0 := fun hzero => hne (List.length_eq_zero_iff.mp hzero)
  have hlength := digitsLength_digits h hne (hexponent.stops hrest)
  rw [Scan.numberAt?_eq_numberLength?, Scan.numberLength?, hbase, Option.none_or,
    Scan.decimalLength?_point, hlength, if_neg hpos, Scan.thenLength, hlength, List.drop_left,
    hexponent.length_eq hrest, List.length_cons, List.length_append, Nat.add_comm 1]

/-- The scan reads a numeral as one number before a text that no number runs on into. A point behind
it may only stand where it is no further part of the numeral. -/
theorem Numeral.numberAt?_before {cs rest : List Char} (h : Numeral cs) (hrest : Bounds rest)
    (hpoint : rest.head? = some '.' → ¬ DigitsOnly cs) :
    Scan.numberAt? (cs ++ rest) = some cs.length := by
  cases h with
  | based hletter h hne hmark => exact numberAt?_based hletter h hne hmark hrest
  | @big whole h hne =>
    have hchars : ∀ c ∈ whole ++ ['n'], IsNumeralChar c ∨ c = 'n' :=
      List.forall_mem_append.mpr
        ⟨fun c hc => .inl (h.chars c hc), List.forall_mem_singleton.mpr (.inr rfl)⟩
    have hbase := prefixedLength?_of_chars hchars (by simp) hrest.base
    rw [List.append_assoc] at hbase ⊢
    rw [numberAt?_digits h hne (fun c hc => by rw [← Option.some.inj hc]; decide) hbase]
    simp [Scan.thenLength, Scan.fractionLength, Scan.tailLength, Scan.exponentLength,
      Scan.suffixLength]
  | @plain whole fraction exponent h hfraction hexponent hne =>
    have hchars := List.forall_mem_append.mpr
      ⟨h.chars, List.forall_mem_append.mpr ⟨hfraction.chars, hexponent.chars⟩⟩
    have hnonempty : whole ++ (fraction ++ exponent) ≠ [] := by
      intro hnil
      simp only [List.append_eq_nil_iff] at hnil
      simp [hnil] at hne
    have hbase := prefixedLength?_of_chars (fun c hc => .inl (hchars c hc)) hnonempty hrest.base
    rw [List.append_assoc, List.append_assoc] at hbase ⊢
    cases whole with
    | nil =>
      cases hfraction with
      | none => simp at hne
      | @point digits hdigits =>
        have hne : digits ≠ [] := by
          rintro rfl
          simp at hne
        exact numberAt?_point hdigits hne hexponent hrest hbase
    | cons c more =>
      have hplain : fraction ++ exponent = [] → rest.head? ≠ some '.' := by
        intro hnil hhead
        refine hpoint hhead ?_
        rw [hnil, List.append_nil]
        exact h.all
      rw [numberAt?_digits h (List.cons_ne_nil c more) (hfraction.stops hrest hexponent) hbase,
        Scan.thenLength, hfraction.length_eq hrest hexponent hplain, List.drop_left,
        hexponent.length_eq hrest, List.length_append, List.length_append]

/-- The scan reads a numeral as one number, whatever clear text follows. -/
theorem Numeral.numberAt?_append {cs rest : List Char} (h : Numeral cs) (hrest : Scan.Clear rest) :
    Scan.numberAt? (cs ++ rest) = some cs.length :=
  h.numberAt?_before (.of_clear hrest) fun hhead => absurd rfl (hrest '.' hhead).2

/-! ## Plain decimals -/

theorem moreDigits_all {run rest : List Char} (h : ∀ c ∈ run, c.isDigit = true)
    (hrest : ∀ c ∈ rest.head?, c.isDigit = false ∧ c ≠ '_') :
    moreDigits Char.isDigit (run ++ rest) = run.length := by
  induction run with
  | nil =>
    cases rest with
    | nil => rfl
    | cons c rest =>
      obtain ⟨hc, hne⟩ := hrest c rfl
      exact moreDigits_stop (by simp [hc]) fun heq => absurd heq hne
  | cons c run ih =>
    rw [List.cons_append, moreDigits_digit (h c List.mem_cons_self),
      ih fun d hd => h d (List.mem_cons_of_mem _ hd), List.length_cons, Nat.add_comm]

theorem digitRun_all {run rest : List Char} (h : ∀ c ∈ run, c.isDigit = true)
    (hrest : ∀ c ∈ rest.head?, c.isDigit = false ∧ c ≠ '_') :
    digitRun Char.isDigit (run ++ rest) = run.length := by
  cases run with
  | nil =>
    cases rest with
    | nil => rfl
    | cons c rest => simp [digitRun, (hrest c rfl).1]
  | cons c run =>
    rw [List.cons_append, digitRun, if_pos (h c List.mem_cons_self),
      moreDigits_all (fun d hd => h d (List.mem_cons_of_mem _ hd)) hrest, List.length_cons,
      Nat.add_comm]

/-- Digits and perhaps a fraction, without separators and without further zeros in front. -/
structure PlainDecimal (whole fraction : List Char) : Prop where
  ne_nil : whole ≠ []
  digits : ∀ c ∈ whole, c.isDigit = true
  takes : takesFraction whole = true
  point : fraction = [] ∨ ∃ behind, fraction = '.' :: behind ∧ ∀ c ∈ behind, c.isDigit = true

theorem PlainDecimal.chars {whole fraction : List Char} (h : PlainDecimal whole fraction) :
    ∀ c ∈ whole ++ fraction, c.isDigit = true ∨ c = '.' := by
  intro c hc
  rcases List.mem_append.mp hc with hc | hc
  · exact .inl (h.digits c hc)
  · rcases h.point with rfl | ⟨digits, rfl, hdigits⟩
    · cases hc
    · rcases List.mem_cons.mp hc with rfl | hc
      · exact .inr rfl
      · exact .inl (hdigits c hc)

theorem basedNumber?_of_chars {cs : List Char} (h : ∀ c ∈ cs, c.isDigit = true ∨ c = '.') :
    basedNumber? cs = none := by
  match cs with
  | [] => rfl
  | [c] => simp [basedNumber?]
  | c :: letter :: more =>
    refine basedNumber?_of_letter ?_ c more
    rw [Option.eq_none_iff_forall_ne_some]
    intro digit hdigit
    have hapart : ∀ d ∈ ['x', 'X', 'o', 'O', 'b', 'B'], d.isDigit = false ∧ d ≠ '.' :=
      forall_mem_of_all (by decide)
    obtain ⟨hplain, hdot⟩ := hapart letter (Scan.mem_letters hdigit)
    rcases h letter (by simp) with hletter | hletter
    · rw [hplain] at hletter
      cases hletter
    · exact hdot hletter

theorem PlainDecimal.numberToken?_eq {whole fraction : List Char} (h : PlainDecimal whole fraction) :
    numberToken? (whole ++ fraction) = some (whole ++ fraction).length := by
  have hstop : ∀ c ∈ fraction.head?, c.isDigit = false ∧ c ≠ '_' := by
    rcases h.point with rfl | ⟨digits, rfl, -⟩
    · simp
    · intro c hc
      obtain rfl := Option.some.inj hc
      decide
  have hpos : whole.length ≠ 0 := fun hzero => h.ne_nil (List.length_eq_zero_iff.mp hzero)
  rw [numberToken?, basedNumber?_of_chars h.chars, Option.none_or]
  simp only [plainNumber?, digitRun_all h.digits hstop, if_neg hpos, List.drop_left, List.take_left,
    h.takes, if_true]
  rcases h.point with rfl | ⟨digits, rfl, hdigits⟩
  · simp [bigMark, exponentPart]
  · have hrun : digitRun Char.isDigit digits = digits.length := by
      have hnil : ∀ c ∈ ([] : List Char).head?, c.isDigit = false ∧ c ≠ '_' := by simp
      have := digitRun_all hdigits hnil
      rwa [List.append_nil] at this
    simp [bigMark, hrun, exponentPart]
    omega

end LiveChain.Syntax
