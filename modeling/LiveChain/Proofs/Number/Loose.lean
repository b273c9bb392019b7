import LiveChain.Proofs.Number.Integers

/-!
# What is read as a number

More is read as a number than there are literals: signs, padding, digits of any script, any number
of separators anywhere. What is read is said here by the form of the text that is left without its
separators and its mark.
-/

set_option autoImplicit false

namespace LiveChain

open Syntax Text NumberLiteral

/-! ## Loose numbers -/

/-- A decimal as it is read: padding around it, a sign, and digits of any script. An integer has no more
digits than are read. -/
inductive LooseDecimal : List Char → Prop
  | mk {front sign body back : List Char} {m : ℕ} {x : ℤ}
      (hfront : ∀ c ∈ front, isPadding c = true) (hback : ∀ c ∈ back, isPadding c = true)
      (hsign : sign = [] ∨ sign = ['+'] ∨ sign = ['-']) (h : DecimalText (asciiDigits body) m x)
      (hfew : (∀ c ∈ body, isDecimal c = true) → body.length ≤ 4300) :
      LooseDecimal (front ++ (sign ++ body) ++ back)

/-- A text without separators and mark that is read as a number: digits of any script behind the letter
of a base and perhaps padding behind them, a zero and more octal digits, or a decimal. -/
inductive Loose : List Char → Prop
  | based {letter : Char} {base : ℕ} {digits back : List Char}
      (hbase : baseOf? letter = some base) (h : ∀ c ∈ digits, (digitIn? base c).isSome = true)
      (hne : digits ≠ []) (hback : ∀ c ∈ back, isPadding c = true) :
      Loose ('0' :: letter :: (digits ++ back))
  | octal {digits : List Char} (h : ∀ c ∈ digits, isOctalDigit c = true) (hne : digits ≠ []) :
      Loose ('0' :: digits)
  | decimal {text : List Char} (h : LooseDecimal text) : Loose text

/-! ## Digits of any script -/

/-- A character, or the form in ASCII of a digit of another script. -/
def asciiDigit (c : Char) : Char :=
  match digitValue? c with
  | some d => Char.ofNat (48 + d)
  | none => c

theorem asciiDigits_eq (cs : List Char) : asciiDigits cs = cs.map asciiDigit := rfl

theorem asciiDigit_of_isDecimal {c : Char} (h : isDecimal c = true) :
    (asciiDigit c).isDigit = true := by
  have hdigits : ∀ d < 10, (Char.ofNat (48 + d)).isDigit = true := by decide
  obtain ⟨d, hd⟩ := Option.isSome_iff_exists.mp h
  rw [asciiDigit, hd]
  exact hdigits d (digitValue?_lt hd)

theorem asciiDigit_of_not {c : Char} (h : isDecimal c = false) : asciiDigit c = c := by
  have hnone : digitValue? c = none := by simpa [isDecimal] using h
  rw [asciiDigit, hnone]

theorem isDigit_asciiDigit {c : Char} : (asciiDigit c).isDigit = isDecimal c := by
  cases hdecimal : isDecimal c with
  | true => exact asciiDigit_of_isDecimal hdecimal
  | false =>
    rw [asciiDigit_of_not hdecimal, Bool.eq_false_iff]
    intro hdigit
    rw [isDecimal_of_isDigit hdigit] at hdecimal
    cases hdecimal

/-- Marks stay what they are and come from nothing else. -/
theorem asciiDigit_eq_iff {c mark : Char} (hmark : mark.isDigit = false)
    (hplain : isDecimal mark = false) : asciiDigit c = mark ↔ c = mark := by
  constructor
  · rintro rfl
    rw [isDigit_asciiDigit] at hmark
    exact (asciiDigit_of_not hmark).symm
  · rintro rfl
    exact asciiDigit_of_not hplain

theorem splitSign_asciiDigits (cs : List Char) :
    splitSign (asciiDigits cs) = ((splitSign cs).1, asciiDigits (splitSign cs).2) := by
  have hsign : ∀ mark ∈ ['-', '+'], mark.isDigit = false ∧ isDecimal mark = false :=
    forall_mem_of_all (by decide)
  by_cases hhead : ∃ c ∈ cs.head?, c = '-' ∨ c = '+'
  · obtain ⟨c, hc, rfl | rfl⟩ := hhead
    all_goals
      obtain ⟨cs, rfl⟩ := List.head?_eq_some_iff.mp hc
      rfl
  · have hclear : ∀ c ∈ cs.head?, c ≠ '-' ∧ c ≠ '+' := fun c hc =>
      ⟨fun heq => hhead ⟨c, hc, .inl heq⟩, fun heq => hhead ⟨c, hc, .inr heq⟩⟩
    rw [splitSign_of_head hclear]
    refine splitSign_of_head fun d hd => ?_
    rw [asciiDigits_eq, List.head?_map] at hd
    obtain ⟨c, hc, rfl⟩ := Option.mem_map.mp hd
    have hapart := fun mark hmark =>
      mt (asciiDigit_eq_iff (c := c) (hsign mark hmark).1 (hsign mark hmark).2).mp
    exact ⟨hapart '-' (by simp) (hclear c hc).1, hapart '+' (by simp) (hclear c hc).2⟩

/-- What becomes a character of numerals is one, or a digit. -/
theorem isDecimal_or_char {c : Char} (h : IsNumeralChar (asciiDigit c)) :
    isDecimal c = true ∨ IsNumeralChar c := by
  cases hdecimal : isDecimal c with
  | true => exact .inl rfl
  | false => exact .inr (asciiDigit_of_not hdecimal ▸ h)

theorem isPadding_of_ascii {c : Char} (h : IsNumeralChar (asciiDigit c)) : isPadding c = false := by
  rcases isDecimal_or_char h with hdecimal | hchar
  · rw [isPadding, isBlank_of_isDecimal hdecimal, Bool.false_and]
  · exact isPadding_of_char hchar

/-! ## Decimals -/

section Decimals

variable {text sign body : List Char} {m : ℕ} {x : ℤ}

/-- A text is a sign, or none, and more, between padding. -/
theorem exists_parts (text : List Char) : ∃ front sign back,
    (∀ c ∈ front, isPadding c = true) ∧ (∀ c ∈ back, isPadding c = true) ∧
      (sign = [] ∨ sign = ['+'] ∨ sign = ['-']) ∧
      text = front ++ (sign ++ (splitSign (stripPadding text)).2) ++ back := by
  obtain ⟨front, back, hfront, hback, htext⟩ := trim_split isPadding text
  obtain ⟨sign, hsplit, -, hsign⟩ := splitSign_split (stripPadding text)
  refine ⟨front, sign, back, hfront, hback, hsign, ?_⟩
  rw [← hsplit]
  exact htext

theorem ascii_chars (h : DecimalText (asciiDigits body) m x) :
    ∀ c ∈ body, IsNumeralChar (asciiDigit c) :=
  fun _ hc => (h.chars _ (List.mem_map_of_mem hc)).1

/-- A decimal of any script has neither padding nor a sign. -/
theorem splitSign_stripPadding {front back : List Char} (hfront : ∀ c ∈ front, isPadding c = true)
    (hback : ∀ c ∈ back, isPadding c = true) (hsign : sign = [] ∨ sign = ['+'] ∨ sign = ['-'])
    (h : DecimalText (asciiDigits body) m x) :
    (splitSign (stripPadding (front ++ (sign ++ body) ++ back))).2 = body := by
  have hclear : ∀ c ∈ sign ++ body, isPadding c = false :=
    List.forall_mem_append.mpr ⟨fun c hc => isPadding_of_char (sign_chars hsign c hc).1,
      fun c hc => isPadding_of_ascii (ascii_chars h c hc)⟩
  have hstrip : stripPadding (front ++ (sign ++ body) ++ back) = sign ++ body :=
    trim_eq hfront hback (fun c hc => hclear c (List.mem_of_mem_head? hc))
      (fun c hc => hclear c (List.mem_of_getLast? hc))
  have hhead : ∀ c ∈ body.head?, c ≠ '-' ∧ c ≠ '+' := by
    intro c hc
    obtain ⟨more, rfl⟩ := List.head?_eq_some_iff.mp hc
    obtain ⟨d, rest, htext, hd⟩ := h.start
    obtain ⟨rfl, -⟩ := List.cons.inj htext
    constructor <;> rintro rfl <;> exact absurd hd (by decide)
  rw [hstrip, splitSign_append hsign hhead]

/-- Loose decimals, by what is left without padding and sign. -/
theorem looseDecimal_iff : LooseDecimal text ↔
    (∃ m x, DecimalText (asciiDigits (splitSign (stripPadding text)).2) m x) ∧
      ((∀ c ∈ (splitSign (stripPadding text)).2, isDecimal c = true) →
        (splitSign (stripPadding text)).2.length ≤ 4300) := by
  constructor
  · rintro ⟨hfront, hback, hsign, h, hfew⟩
    rw [splitSign_stripPadding hfront hback hsign h]
    exact ⟨⟨_, _, h⟩, hfew⟩
  · rintro ⟨⟨m, x, h⟩, hfew⟩
    obtain ⟨front, sign, back, hfront, hback, hsign, htext⟩ := exists_parts text
    rw [htext]
    exact .mk hfront hback hsign h hfew

/-- What is neither padding nor a sign stays when both are taken off. -/
theorem mem_splitSign {c : Char} (hc : c ∈ text) (hpad : isPadding c = false)
    (hsign : c ≠ '+' ∧ c ≠ '-') : c ∈ (splitSign (stripPadding text)).2 := by
  obtain ⟨front, sign, back, hfront, hback, hkind, htext⟩ := exists_parts text
  rw [htext] at hc
  rcases List.mem_append.mp hc with hc | hc
  · rcases List.mem_append.mp hc with hc | hc
    · rw [hfront c hc] at hpad
      cases hpad
    · refine (List.mem_append.mp hc).resolve_left fun hc => ?_
      rcases hkind with rfl | rfl | rfl
      · cases hc
      · exact hsign.1 (List.mem_singleton.mp hc)
      · exact hsign.2 (List.mem_singleton.mp hc)
  · rw [hback c hc] at hpad
    cases hpad

theorem mem_of_stripPadding {c : Char} (hc : c ∈ stripPadding text) : c ∈ text := by
  obtain ⟨front, back, -, -, htext⟩ := trim_split isPadding text
  rw [htext]
  exact List.mem_append_left _ (List.mem_append_right _ hc)

/-- Nothing is added when padding and sign are taken off. -/
theorem mem_of_splitSign {c : Char} (hc : c ∈ (splitSign (stripPadding text)).2) : c ∈ text := by
  obtain ⟨sign, hsplit, -, -⟩ := splitSign_split (stripPadding text)
  refine mem_of_stripPadding ?_
  rw [hsplit]
  exact List.mem_append_right _ hc

end Decimals

/-! ## Reading decimals -/

theorem digitIn?_ten {c : Char} : (digitIn? 10 c).isSome = isDecimal c := by
  rw [isDecimal, digitIn?]
  cases hvalue : digitValue? c with
  | some d => simp [digitValue?_lt hvalue]
  | none =>
    -- letters have values from ten on
    simp only [Option.isSome_none, Option.isSome_eq_false_iff, Option.isNone_iff_eq_none]
    split_ifs <;> simp

theorem positionalFrom?_isSome_iff {base : ℕ} {cs : List Char} (acc : ℕ) :
    (positionalFrom? base acc cs).isSome = true ↔ ∀ c ∈ cs, (digitIn? base c).isSome = true := by
  refine ⟨fun h => ?_, fun h => positionalFrom?_isSome h acc⟩
  induction cs generalizing acc with
  | nil => simp
  | cons c cs ih =>
    rw [positionalFrom?] at h
    cases hdigit : digitIn? base c with
    | none => simp [hdigit] at h
    | some d =>
      rw [hdigit] at h
      exact List.forall_mem_cons.mpr ⟨by rw [hdigit]; rfl, ih _ h⟩

theorem positional?_isSome_iff {base : ℕ} {cs : List Char} :
    (positional? base cs).isSome = true ↔ cs ≠ [] ∧ ∀ c ∈ cs, (digitIn? base c).isSome = true := by
  by_cases hne : cs = []
  · simp [hne, positional?]
  · rw [positional?, if_neg (by simpa using hne), positionalFrom?_isSome_iff]
    exact ⟨fun h => ⟨hne, h⟩, fun h => h.2⟩

def IsMark (c : Char) : Prop := c = '.' ∨ c = 'e' ∨ c = 'E'

theorem IsMark.apart {c : Char} (h : IsMark c) : isPadding c = false ∧ (c ≠ '+' ∧ c ≠ '-') ∧
    isDecimal c = false ∧ IsNumeralChar c := by
  rcases h with rfl | rfl | rfl <;> exact ⟨by decide, by decide, by decide, .inr (by decide)⟩

theorem IsMark.of_ascii {c : Char} (h : IsMark (asciiDigit c)) : IsMark c := by
  have hmarks : ∀ mark ∈ ['.', 'e', 'E'], mark.isDigit = false ∧ isDecimal mark = false :=
    forall_mem_of_all (by decide)
  have hback : ∀ mark ∈ ['.', 'e', 'E'], asciiDigit c = mark → c = mark := fun mark hmark =>
    (asciiDigit_eq_iff (hmarks mark hmark).1 (hmarks mark hmark).2).mp
  exact h.imp (hback '.' (by decide)) (.imp (hback 'e' (by decide)) (hback 'E' (by decide)))

section Plain

variable {text body : List Char}

theorem decimalText_all_isDigit {cs : List Char} {m : ℕ} {x : ℤ} (h : DecimalText cs m x)
    (hmark : ∀ c ∈ cs, ¬ IsMark c) : ∀ c ∈ cs, c.isDigit = true := by
  obtain ⟨hwhole, hfraction, hexponent, -⟩ := h
  refine List.forall_mem_append.mpr ⟨hwhole, ?_⟩
  cases hfraction with
  | point => exact absurd (.inl rfl) (hmark '.' (by simp))
  | none =>
    cases hexponent with
    | none => simp
    | mark he => exact absurd (.inr he) (hmark _ (by simp))

theorem decimalText_digits (hmark : ∀ c ∈ body, ¬ IsMark c) :
    (∃ m x, DecimalText (asciiDigits body) m x) ↔ body ≠ [] ∧ ∀ c ∈ body, isDecimal c = true := by
  constructor
  · rintro ⟨m, x, h⟩
    have hmark' : ∀ c ∈ asciiDigits body, ¬ IsMark c := by
      intro d hd hmark'
      obtain ⟨c, hc, rfl⟩ := List.mem_map.mp hd
      exact hmark c hc hmark'.of_ascii
    have hdigits := decimalText_all_isDigit h hmark'
    refine ⟨?_, fun c hc => ?_⟩
    · rintro rfl
      obtain ⟨c, more, htext, -⟩ := h.start
      cases htext
    · rw [← isDigit_asciiDigit]
      exact hdigits _ (List.mem_map_of_mem hc)
  · rintro ⟨hne, h⟩
    have hdigits : ∀ c ∈ asciiDigits body, c.isDigit = true := by
      intro d hd
      obtain ⟨c, hc, rfl⟩ := List.mem_map.mp hd
      exact asciiDigit_of_isDecimal (h c hc)
    have htext := DecimalText.mk hdigits .none .none
      (by simpa [asciiDigits] using hne)
    rw [List.append_nil, List.append_nil] at htext
    exact ⟨_, _, htext⟩

theorem decimalValue?_isSome_iff : (decimalValue? text).isSome = true ↔
    (splitSign (stripPadding text)).2 ≠ [] ∧
      ∀ c ∈ (splitSign (stripPadding text)).2, isDecimal c = true := by
  have hvalue : (decimalValue? text).isSome =
      (positional? 10 (splitSign (stripPadding text)).2).isSome := by
    rw [decimalValue?, Option.isSome_map]
    cases positional? 10 (splitSign (stripPadding text)).2 <;> rfl
  rw [hvalue, positional?_isSome_iff]
  simp only [digitIn?_ten]

/-- A text with a mark is read as a double if it is a decimal without padding and sign. -/
theorem readFloat?_isSome_iff (hplain : '_' ∉ text) (hmark : ∃ c ∈ text, IsMark c) :
    (readFloat? text).isSome = true ↔
      ∃ m x, DecimalText (asciiDigits (splitSign (stripPadding text)).2) m x := by
  have hplain' : '_' ∉ asciiDigits (stripPadding text) := by
    intro hmem
    obtain ⟨c, hc, heq⟩ := List.mem_map.mp hmem
    rw [(asciiDigit_eq_iff (c := c) (by decide) (by decide)).mp heq] at hc
    exact hplain (mem_of_stripPadding hc)
  have hkeep : (asciiDigits (stripPadding text)).filter (· ≠ '_') = asciiDigits (stripPadding text) :=
    List.filter_eq_self.mpr fun c hc => decide_eq_true fun heq => hplain' (heq ▸ hc)
  obtain ⟨c, hc, hmark⟩ := hmark
  obtain ⟨hpad, hsign, hdecimal, hchar⟩ := hmark.apart
  have hmem : c ∈ asciiDigits (splitSign (stripPadding text)).2 :=
    List.mem_map.mpr ⟨c, mem_splitSign hc hpad hsign, asciiDigit_of_not hdecimal⟩
  rw [readFloat?]
  simp only [digitsAroundSeparators_of_none hplain', if_true, hkeep]
  rw [readSigned?, splitSign_asciiDigits]
  simp only [readSpecial?_of_char hmem hchar, Option.none_or]
  constructor
  · intro h
    obtain ⟨y, hy⟩ := Option.isSome_iff_exists.mp h
    obtain ⟨m, x, htext, -⟩ := decimalText_of_readDecimal? hy
    exact ⟨m, x, htext⟩
  · rintro ⟨m, x, htext⟩
    rw [htext.readDecimal?_eq]
    rfl

end Plain

/-! ## Notations -/

section Notations

variable {raw text : List Char}

theorem exists_isMark_iff : (text.any fun c => c == '.' || c == 'e' || c == 'E') = true ↔
    ∃ c ∈ text, IsMark c := by
  simp [IsMark, or_assoc]

theorem not_isMark_of_isDigitLike {c : Char} (h : isDigitLike c = true) : ¬ IsMark c := by
  rintro (rfl | rfl | rfl) <;> exact absurd h (by decide)

theorem isDigit_of_isOctalDigit {c : Char} (h : isOctalDigit c = true) :
    c.isDigit = true ∧ (digitIn? 8 c).isSome = true := by
  have hrange : 48 ≤ c.toNat ∧ c.toNat ≤ 55 := by
    simpa [isOctalDigit, Char.le_def, UInt32.le_iff_toNat_le] using h
  have hdigit := isDigit_of_toNat (c := c) (by omega)
  exact ⟨hdigit, digitIn?_of_isDigit hdigit (by omega)⟩

theorem isDigitLike_of_isOctalDigit {c : Char} (h : isOctalDigit c = true) :
    isDigitLike c = true :=
  Scan.isDigitLike_of_isDecimal (isDecimal_of_isDigit (isDigit_of_isOctalDigit h).1)

/-- A text has the letter of a base, or is octal, or is in base ten. -/
theorem formOfBare_cases (text : List Char) :
    (∃ letter base rest, text = '0' :: letter :: rest ∧ baseOf? letter = some base ∧
      formOfBare text = .prefixed base rest) ∨
    (∃ digits, text = '0' :: digits ∧ digits ≠ [] ∧ (∀ c ∈ digits, isOctalDigit c = true) ∧
      formOfBare text = .octal text) ∨
    formOfBare text = plainForm text ∧
      (∀ letter rest, text = '0' :: letter :: rest → baseOf? letter = none) ∧
      ∀ digits, text = '0' :: digits → digits ≠ [] → ¬ ∀ c ∈ digits, isOctalDigit c = true := by
  rw [formOfBare.eq_def]
  split
  · next letter rest =>
    cases hbase : baseOf? letter with
    | some base => exact .inl ⟨letter, base, rest, rfl, hbase, rfl⟩
    | none =>
      have hletter : ∀ letter' rest', '0' :: letter :: rest = '0' :: letter' :: rest' →
          baseOf? letter' = none := by
        rintro letter' rest' ⟨⟩
        exact hbase
      by_cases hoctal : ∀ c ∈ letter :: rest, isOctalDigit c = true
      · have hall : ('0' :: letter :: rest).all isOctalDigit = true :=
          List.all_eq_true.mpr (List.forall_mem_cons.mpr ⟨by decide, hoctal⟩)
        have hlike : ('0' :: letter :: rest).all isDigitLike = true :=
          List.all_eq_true.mpr fun c hc => isDigitLike_of_isOctalDigit (List.all_eq_true.mp hall c hc)
        refine .inr (.inl ⟨letter :: rest, rfl, List.cons_ne_nil _ _, hoctal, ?_⟩)
        simp only [hlike, hall, if_true]
      · have hall : ¬ ('0' :: letter :: rest).all isOctalDigit = true := fun hall =>
          hoctal (List.forall_mem_cons.mp (List.all_eq_true.mp hall)).2
        have hother : ∀ digits, '0' :: letter :: rest = '0' :: digits → digits ≠ [] →
            ¬ ∀ c ∈ digits, isOctalDigit c = true := by
          rintro digits ⟨⟩ -
          exact hoctal
        refine .inr (.inr ⟨?_, hletter, hother⟩)
        simp only [hall, Bool.false_eq_true, if_false]
        split
        · next hlike =>
          -- digits of any kind have no mark
          have hmark : ¬ ∃ c ∈ '0' :: letter :: rest, IsMark c := by
            rintro ⟨c, hc, hmark⟩
            exact not_isMark_of_isDigitLike (List.all_eq_true.mp hlike c hc) hmark
          exact (if_neg (mt exists_isMark_iff.mp hmark)).symm
        · rfl
  · next hshort =>
    refine .inr (.inr ⟨rfl, ?_, ?_⟩)
    · rintro letter rest rfl
      exact absurd rfl (hshort letter rest)
    · rintro digits rfl hne -
      obtain ⟨c, rest, rfl⟩ := List.exists_cons_of_ne_nil hne
      exact hshort c rest rfl

theorem read_isOk : (∃ n, read raw = .ok n) ↔ (value? raw).isSome = true ∧ excess? raw = none := by
  rw [NumberLiteral.read]
  cases value? raw with
  | none => simp
  | some n =>
    cases excess? raw with
    | none => simp
    | some count => simp

theorem excess?_of_decimal (hform : form raw = .decimal text) :
    excess? raw = none ↔ (splitSign (stripPadding text)).2.length ≤ 4300 := by
  rw [excess?, hform]
  change (if digitLimit < (splitSign (stripPadding text)).2.length then some _ else none) = none ↔ _
  by_cases hlong : digitLimit < (splitSign (stripPadding text)).2.length
  · rw [if_pos hlong]
    exact iff_of_false (Option.some_ne_none _) (Nat.not_le_of_lt hlong)
  · exact iff_of_true (if_neg hlong) (Nat.le_of_not_lt hlong)

/-- In base ten a number is read if the text is a decimal. -/
theorem read_isOk_plain (hplain : '_' ∉ text) (hform : form raw = plainForm text) :
    (∃ n, read raw = .ok n) ↔ LooseDecimal text := by
  rw [read_isOk, value?, looseDecimal_iff]
  by_cases hmark : ∃ c ∈ text, IsMark c
  · have hfloat : form raw = .float text := by
      rw [hform, plainForm, if_pos (exists_isMark_iff.mpr hmark)]
    have hexcess : excess? raw = none := by rw [excess?, hfloat]
    rw [hfloat, Form.value?, Option.isSome_map, readFloat?_isSome_iff hplain hmark]
    obtain ⟨c, hc, hmark⟩ := hmark
    obtain ⟨hpad, hsign, hdecimal, -⟩ := hmark.apart
    have hmem := mem_splitSign hc hpad hsign
    exact and_congr_right fun _ => ⟨fun _ hall => absurd (hall c hmem) (by simp [hdecimal]),
      fun _ => hexcess⟩
  · have hdecimal : form raw = .decimal text := by
      rw [hform, plainForm, if_neg (mt exists_isMark_iff.mp hmark)]
    have hnone : ∀ c ∈ (splitSign (stripPadding text)).2, ¬ IsMark c := fun c hc hc' =>
      hmark ⟨c, mem_of_splitSign hc, hc'⟩
    rw [excess?_of_decimal hdecimal, hdecimal, Form.value?, Option.isSome_map,
      decimalValue?_isSome_iff, decimalText_digits hnone]
    exact and_congr_right fun hdigits => ⟨fun hfew _ => hfew, fun hfew => hfew hdigits.2⟩

theorem isPadding_of_digitIn {base : ℕ} {c : Char} (h : (digitIn? base c).isSome = true) :
    isPadding c = false := by
  rw [digitIn?] at h
  cases hdecimal : isDecimal c with
  | true => rw [isPadding, isBlank_of_isDecimal hdecimal, Bool.false_and]
  | false =>
    have hnone : digitValue? c = none := by simpa [isDecimal] using hdecimal
    have hletter : ('a' ≤ c ∧ c ≤ 'f') ∨ ('A' ≤ c ∧ c ≤ 'F') := by
      by_contra hneither
      obtain ⟨hlower, hupper⟩ := not_or.mp hneither
      simp [hnone, hlower, hupper] at h
    refine isPadding_of_isNamePart (Scan.isNamePart_of_isAlphanum (isAlphanum_iff.mpr ?_))
    have hcodes : (97 ≤ c.toNat ∧ c.toNat ≤ 102) ∨ 65 ≤ c.toNat ∧ c.toNat ≤ 70 := hletter
    omega

/-- Behind the letter of a base a number is read if digits stand there, and padding behind them. -/
theorem read_isOk_prefixed {base : ℕ} {rest : List Char} (hform : form raw = .prefixed base rest) :
    (∃ n, read raw = .ok n) ↔ ∃ digits back, rest = digits ++ back ∧ digits ≠ [] ∧
      (∀ c ∈ digits, (digitIn? base c).isSome = true) ∧ ∀ c ∈ back, isPadding c = true := by
  rw [read_isOk, value?, excess?, hform]
  have hcast : ∀ o : Option ℕ, (do let n ← o; pure (n : ℤ)).isSome = o.isSome := by
    rintro (_ | n) <;> rfl
  rw [Form.value?, Option.isSome_map, hcast, positional?_isSome_iff]
  constructor
  · rintro ⟨⟨hne, hdigits⟩, -⟩
    exact ⟨_, _, List.rdropWhile_append_rtakeWhile.symm, hne, hdigits,
      fun c hc => List.mem_rtakeWhile_imp hc⟩
  · rintro ⟨digits, back, rfl, hne, hdigits, hback⟩
    have htrim : ((digits ++ back).reverse.dropWhile isPadding).reverse = digits := by
      have hback' : ∀ c ∈ back.reverse, isPadding c = true := fun c hc =>
        hback c (List.mem_reverse.mp hc)
      have hdigits' : ∀ c ∈ digits.reverse.head?, isPadding c = false := fun c hc =>
        isPadding_of_digitIn (hdigits c (List.mem_reverse.mp (List.mem_of_mem_head? hc)))
      rw [List.reverse_append, (span_run hback' hdigits').2, List.reverse_reverse]
    rw [htrim]
    exact ⟨⟨hne, hdigits⟩, rfl⟩

theorem read_isOk_octal {digits : List Char} (hform : form raw = .octal ('0' :: digits))
    (h : ∀ c ∈ digits, isOctalDigit c = true) : ∃ n, read raw = .ok n := by
  have hdigits : ∀ c ∈ '0' :: digits, (digitIn? 8 c).isSome = true :=
    List.forall_mem_cons.mpr ⟨by decide, fun c hc => (isDigit_of_isOctalDigit (h c hc)).2⟩
  rw [read_isOk, value?, excess?, hform, Form.value?, Option.isSome_map]
  exact ⟨isSome_cast (positional?_isSome (List.cons_ne_nil _ _) hdigits), rfl⟩

theorem LooseDecimal.chars (h : LooseDecimal text) :
    ∀ c ∈ text, isPadding c = true ∨ IsNumeralChar (asciiDigit c) := by
  obtain @⟨front, sign, body, back, m, x, hfront, hback, hsign, h, -⟩ := h
  have hmarks : ∀ c ∈ sign, asciiDigit c = c := by
    rcases hsign with rfl | rfl | rfl
    · simp
    · exact List.forall_mem_singleton.mpr rfl
    · exact List.forall_mem_singleton.mpr rfl
  refine List.forall_mem_append.mpr ⟨List.forall_mem_append.mpr ⟨fun c hc => .inl (hfront c hc),
    List.forall_mem_append.mpr ⟨fun c hc => .inr ?_, fun c hc => .inr (ascii_chars h c hc)⟩⟩,
    fun c hc => .inl (hback c hc)⟩
  rw [hmarks c hc]
  exact (sign_chars hsign c hc).1

/-- The letter of a base is no character of decimals. -/
theorem base_letter {letter : Char} {base : ℕ} (h : baseOf? letter = some base) :
    isOctalDigit letter = false ∧ isPadding letter = false ∧
      ¬ IsNumeralChar (asciiDigit letter) := by
  have hletters : ∀ c ∈ ['x', 'X', 'o', 'O', 'b', 'B'],
      isOctalDigit c = false ∧ isPadding c = false ∧ isDecimal c = false :=
    forall_mem_of_all (by decide)
  have hmem : letter ∈ ['x', 'X', 'o', 'O', 'b', 'B'] := by
    by_contra hmem
    simp only [List.mem_cons, List.not_mem_nil, or_false, not_or] at hmem
    simp [baseOf?, hmem] at h
  obtain ⟨hdigit, hpad, hdecimal⟩ := hletters letter hmem
  refine ⟨hdigit, hpad, fun hchar => ?_⟩
  rw [asciiDigit_of_not hdecimal] at hchar
  rw [baseOf?_of_char hchar] at h
  cases h

theorem not_mem_bare : '_' ∉ bare raw := by
  have hfilter : '_' ∉ raw.filter (· ≠ '_') := by simp
  rw [bare]
  split_ifs
  · exact fun hmem => hfilter (List.mem_of_mem_dropLast hmem)
  · exact hfilter

theorem read_isOk_iff : (∃ n, read raw = .ok n) ↔ Loose (bare raw) := by
  rcases formOfBare_cases (bare raw) with ⟨letter, base, rest, htext, hbase, hform⟩ |
    ⟨digits, htext, hne, hoctal, hform⟩ | ⟨hform, hbased, hoctal⟩
  · obtain ⟨hdigit, hpad, hchar⟩ := base_letter hbase
    rw [read_isOk_prefixed hform, htext]
    constructor
    · rintro ⟨digits, back, rfl, hne, hdigits, hback⟩
      exact .based hbase hdigits hne hback
    · intro h
      generalize heq : '0' :: letter :: rest = text at h
      cases h with
      | @based letter' base' digits back hbase' hdigits hne hback =>
        obtain ⟨-, heq⟩ := List.cons.inj heq
        obtain ⟨rfl, rfl⟩ := List.cons.inj heq
        obtain rfl := Option.some.inj (hbase.symm.trans hbase')
        exact ⟨digits, back, rfl, hne, hdigits, hback⟩
      | octal h =>
        obtain ⟨-, rfl⟩ := List.cons.inj heq
        exact absurd (h letter List.mem_cons_self) (by simp [hdigit])
      | decimal h =>
        have hmem : letter ∈ text := heq ▸ List.mem_cons_of_mem _ List.mem_cons_self
        rcases h.chars letter hmem with hpadding | hnumeral
        · rw [hpad] at hpadding
          cases hpadding
        · exact absurd hnumeral hchar
  · have hread : form raw = .octal ('0' :: digits) := htext ▸ hform
    rw [htext]
    exact iff_of_true (read_isOk_octal hread hoctal) (.octal hoctal hne)
  · rw [read_isOk_plain not_mem_bare hform]
    refine ⟨.decimal, fun h => ?_⟩
    generalize bare raw = text at h hbased hoctal
    cases h with
    | based hbase' => exact absurd (hbased _ _ rfl) (by simp [hbase'])
    | octal h hne => exact absurd h (hoctal _ rfl hne)
    | decimal h => exact h

end Notations

end LiveChain
