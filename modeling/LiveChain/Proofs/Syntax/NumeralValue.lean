import LiveChain.Number.Literal
import LiveChain.Proofs.Syntax.Numeral

/-!
# What numeric literals denote

Every numeric literal of the grammar denotes a number: without its separators and its mark it is in
one of the notations that are read.
-/

set_option autoImplicit false

namespace LiveChain.Syntax

open Text

/-! ## Numerals without separators -/

theorem Digits.filter {digit : Char → Bool} {run : List Char} (h : Digits digit run)
    (hdigit : digit '_' = false) :
    Digits digit (run.filter (· ≠ '_')) ∧ (run ≠ [] → run.filter (· ≠ '_') ≠ []) := by
  have hall : ∀ c ∈ run.filter (· ≠ '_'), digit c = true := by
    intro c hc
    obtain ⟨hmem, hne⟩ := List.mem_filter.mp hc
    exact (h.all c hmem).resolve_right (by simpa using hne)
  refine ⟨⟨fun c hc => hall c (List.mem_of_mem_head? hc), fun c hc => .inl (hall c hc)⟩, ?_⟩
  intro hne hnil
  obtain ⟨c, more, rfl⟩ := List.exists_cons_of_ne_nil hne
  have hc := h.first c rfl
  have hmem : c ∈ (c :: more).filter (· ≠ '_') := by
    refine List.mem_filter.mpr ⟨List.mem_cons_self, ?_⟩
    rw [decide_eq_true_eq]
    rintro rfl
    rw [hdigit] at hc
    cases hc
  rw [hnil] at hmem
  cases hmem

theorem Fraction.filter {fraction : List Char} (h : Fraction fraction) :
    Fraction (fraction.filter (· ≠ '_')) ∧
      (2 ≤ fraction.length → 2 ≤ (fraction.filter (· ≠ '_')).length) := by
  cases h with
  | none => exact ⟨.none, fun h => h⟩
  | @point digits h =>
    obtain ⟨hdigits, hne⟩ := h.filter (by decide)
    rw [List.filter_cons_of_pos (by decide)]
    refine ⟨.point hdigits, fun hlength => ?_⟩
    have hpos : digits.filter (· ≠ '_') ≠ [] := hne (by rintro rfl; simp at hlength)
    have := List.length_pos_iff.mpr hpos
    rw [List.length_cons]
    omega

theorem Exponent.filter {exponent : List Char} (h : Exponent exponent) :
    Exponent (exponent.filter (· ≠ '_')) := by
  cases h with
  | none => exact .none
  | @mark e sign digits he hsign h hne =>
    obtain ⟨hdigits, hne'⟩ := h.filter (by decide)
    have hkeep : sign.filter (· ≠ '_') = sign := by
      rcases hsign with rfl | rfl | rfl <;> rfl
    rw [List.filter_cons_of_pos (by rcases he with rfl | rfl <;> decide), List.filter_append, hkeep]
    exact .mark he hsign hdigits (hne' hne)

/-! ## Numerals denote numbers -/

theorem toNat_of_isDigit {c : Char} (h : c.isDigit = true) : 48 ≤ c.toNat ∧ c.toNat ≤ 57 := by
  simpa [Char.isDigit, UInt32.le_iff_toNat_le] using h

theorem digitValue?_of_isDigit {c : Char} (h : c.isDigit = true) :
    digitValue? c = some (c.toNat - 48) := by
  have hc := toNat_of_isDigit h
  have hin : (decide (48 ≤ c.toNat) && decide (c.toNat < 48 + 10)) = true := by
    simp only [Bool.and_eq_true, decide_eq_true_eq]
    omega
  rw [digitValue?, show digitZeros = 48 :: digitZeros.tail from rfl, List.find?_cons]
  simp only [hin, Option.map_some]

theorem digitIn?_of_isDigit {base : Nat} {c : Char} (h : c.isDigit = true)
    (hbase : c.toNat - 48 < base) : (digitIn? base c).isSome = true := by
  simp [digitIn?, digitValue?_of_isDigit h, hbase]

theorem digitValue?_lt {c : Char} {d : Nat} (h : digitValue? c = some d) : d < 10 := by
  obtain ⟨z, hz, rfl⟩ := Option.map_eq_some_iff.mp h
  have hin := List.find?_some hz
  simp only [Bool.and_eq_true, decide_eq_true_eq] at hin
  omega

theorem digitIn?_of_letter {c : Char} (h : ('a' ≤ c ∧ c ≤ 'f') ∨ 'A' ≤ c ∧ c ≤ 'F') :
    (digitIn? 16 c).isSome = true := by
  have ha : 'a'.toNat = 97 := rfl
  have hA : 'A'.toNat = 65 := rfl
  have hlower : 'a' ≤ c ∧ c ≤ 'f' → c.toNat ≤ 102 := fun h => by
    simpa [Char.le_def, UInt32.le_iff_toNat_le] using h.2
  have hupper : 'A' ≤ c ∧ c ≤ 'F' → c.toNat ≤ 70 := fun h => by
    simpa [Char.le_def, UInt32.le_iff_toNat_le] using h.2
  cases hvalue : digitValue? c with
  | some d =>
    have := digitValue?_lt hvalue
    simp only [digitIn?, hvalue]
    rw [Option.filter_some, if_pos (by simpa using Nat.lt_trans this (by decide))]
    rfl
  | none =>
    simp only [digitIn?, hvalue]
    split
    · next hl =>
      have := hlower hl
      rw [Option.filter_some, if_pos (by rw [decide_eq_true_eq]; omega)]
      rfl
    · next hl =>
      have hu := h.resolve_left hl
      have := hupper hu
      rw [if_pos hu, Option.filter_some, if_pos (by rw [decide_eq_true_eq]; omega)]
      rfl

/-- A count that is taken as an integer is there when the count is. -/
theorem isSome_cast {o : Option Nat} (h : o.isSome = true) :
    (do let n ← o; pure (n : Int)).isSome = true := by
  cases o with
  | none => cases h
  | some n => rfl

theorem positionalFrom?_isSome {base : Nat} {cs : List Char}
    (h : ∀ c ∈ cs, (digitIn? base c).isSome = true) (acc : Nat) :
    (positionalFrom? base acc cs).isSome = true := by
  induction cs generalizing acc with
  | nil => rfl
  | cons c cs ih =>
    obtain ⟨d, hd⟩ := Option.isSome_iff_exists.mp (h c List.mem_cons_self)
    rw [positionalFrom?, hd]
    exact ih (fun c hc => h c (List.mem_cons_of_mem _ hc)) _

theorem positional?_isSome {base : Nat} {cs : List Char} (hne : cs ≠ [])
    (h : ∀ c ∈ cs, (digitIn? base c).isSome = true) : (positional? base cs).isSome = true := by
  rw [positional?, if_neg (by simpa using hne)]
  exact positionalFrom?_isSome h 0

theorem positionalFrom?_spelled {cs : List Char} (h : ∀ c ∈ cs, c.isDigit = true) (acc : Nat) :
    positionalFrom? 10 acc cs = some (Nat.ofDigitChars 10 cs acc) := by
  induction cs generalizing acc with
  | nil => rfl
  | cons c cs ih =>
    have hvalue : digitIn? 10 c = some (c.toNat - 48) := by
      have hc := toNat_of_isDigit (h c List.mem_cons_self)
      rw [digitIn?, digitValue?_of_isDigit (h c List.mem_cons_self), Option.filter_some,
        if_pos (by rw [decide_eq_true_eq]; omega)]
    rw [positionalFrom?, hvalue, Nat.ofDigitChars_cons, Nat.mul_comm 10 acc]
    exact ih (fun c hc => h c (List.mem_cons_of_mem _ hc)) _

theorem positional?_spelled {cs : List Char} (hne : cs ≠ []) (h : ∀ c ∈ cs, c.isDigit = true) :
    positional? 10 cs = some (Nat.ofDigitChars 10 cs 0) := by
  rw [positional?, if_neg (by simpa using hne)]
  exact positionalFrom?_spelled h 0

theorem positional?_digits {cs : List Char} (hne : cs ≠ []) (h : ∀ c ∈ cs, c.isDigit = true) :
    (positional? 10 cs).isSome = true := by
  rw [positional?_spelled hne h]
  rfl

theorem isBlank_of_isNamePart {c : Char} (h : isNamePart c = true) : isBlank c = false := by
  rw [Bool.eq_false_iff]
  intro hblank
  simp only [isNamePart, isWord_of_isBlank hblank, Bool.or_false, beq_iff_eq] at h
  rw [h] at hblank
  exact absurd hblank (by decide)

theorem isPadding_of_isNamePart {c : Char} (h : isNamePart c = true) : isPadding c = false := by
  have hblank := isBlank_of_isNamePart h
  rw [isPadding, hblank, Bool.false_and]

theorem dropWhile_of_all {p : Char → Bool} {cs : List Char} (h : ∀ c ∈ cs, p c = false) :
    cs.dropWhile p = cs := by
  cases cs with
  | nil => rfl
  | cons c cs => rw [List.dropWhile_cons_of_neg (by simp [h c List.mem_cons_self])]

theorem trimEnd_of_all {cs : List Char} (h : ∀ c ∈ cs, isPadding c = false) :
    (cs.reverse.dropWhile isPadding).reverse = cs := by
  rw [dropWhile_of_all fun c hc => h c (List.mem_reverse.mp hc), List.reverse_reverse]

theorem stripPadding_of_all {cs : List Char} (h : ∀ c ∈ cs, isPadding c = false) :
    stripPadding cs = cs := by
  rw [stripPadding, dropWhile_of_all h, trimEnd_of_all h]

theorem isDigit_of_toNat {c : Char} (h : 48 ≤ c.toNat ∧ c.toNat ≤ 57) : c.isDigit = true := by
  simpa [Char.isDigit, UInt32.le_iff_toNat_le] using h

theorem digitIn?_of_base {letter : Char} {digit : Char → Bool}
    (h : digitsOfBase? letter = some digit) :
    ∃ base, NumberLiteral.baseOf? letter = some base ∧
      ∀ c, digit c = true → (digitIn? base c).isSome = true := by
  unfold digitsOfBase? at h
  unfold NumberLiteral.baseOf?
  split at h
  · next hx =>
    cases h
    refine ⟨16, if_pos hx, fun c hc => ?_⟩
    simp only [isHex, Bool.or_eq_true, Bool.and_eq_true, decide_eq_true_eq] at hc
    by_cases hdigit : c.isDigit = true
    · have := toNat_of_isDigit hdigit
      exact digitIn?_of_isDigit hdigit (by omega)
    · have hletter : ('a' ≤ c ∧ c ≤ 'f') ∨ 'A' ≤ c ∧ c ≤ 'F' := by
        rcases hc with (hc | hc) | hc
        · exact absurd hc hdigit
        · exact .inl hc
        · exact .inr hc
      exact digitIn?_of_letter hletter
  · next hx =>
    split at h
    · next ho =>
      cases h
      refine ⟨8, by rw [if_neg hx, if_pos ho], fun c hc => ?_⟩
      have hdigit : 48 ≤ c.toNat ∧ c.toNat ≤ 55 := by
        simpa [Char.le_def, UInt32.le_iff_toNat_le] using hc
      exact digitIn?_of_isDigit (isDigit_of_toNat (by omega)) (by omega)
    · next ho =>
      split at h
      · next hb =>
        cases h
        refine ⟨2, by rw [if_neg hx, if_neg ho, if_pos hb], fun c hc => ?_⟩
        rcases Bool.or_eq_true_iff.mp hc with hc | hc <;> rw [beq_iff_eq.mp hc] <;> decide
      · cases h

theorem splitSign_of_head {cs : List Char} (h : ∀ c ∈ cs.head?, c ≠ '-' ∧ c ≠ '+') :
    splitSign cs = (false, cs) := by
  unfold splitSign
  split
  · exact absurd rfl (h '-' rfl).1
  · exact absurd rfl (h '+' rfl).2
  · rfl

theorem ne_of_isDigit {c d : Char} (h : c.isDigit = true) (hd : d.isDigit = false) : c ≠ d := by
  rintro rfl
  rw [hd] at h
  cases h

theorem baseOf?_of_char {c : Char} (h : IsNumeralChar c) : NumberLiteral.baseOf? c = none := by
  have hapart : ∀ d ∈ ['x', 'X', 'o', 'O', 'b', 'B'],
      d.isDigit = false ∧ d ∉ ['_', '.', 'e', 'E', '+', '-'] := forall_mem_of_all (by decide)
  have hne : ∀ d ∈ ['x', 'X', 'o', 'O', 'b', 'B'], c ≠ d :=
    fun d hd => h.ne (hapart d hd).1 (hapart d hd).2
  simp only [List.forall_mem_cons] at hne
  simp [NumberLiteral.baseOf?, hne]

theorem splitSign_digits {text : List Char} (h : ∀ c ∈ text, c.isDigit = true) :
    splitSign (stripPadding text) = (false, text) := by
  have hpad : stripPadding text = text :=
    stripPadding_of_all fun c hc => isPadding_of_isNamePart (isNamePart_of_isDigit c (h c hc))
  rw [hpad]
  refine splitSign_of_head fun c hc => ?_
  have hdigit := h c (List.mem_of_mem_head? hc)
  exact ⟨ne_of_isDigit hdigit (by decide), ne_of_isDigit hdigit (by decide)⟩

theorem plainForm_digits {text : List Char} (h : ∀ c ∈ text, c.isDigit = true) :
    NumberLiteral.plainForm text = .decimal text := by
  refine if_neg fun hany => ?_
  obtain ⟨c, hc, hmark⟩ := List.any_eq_true.mp hany
  have hdigit := h c hc
  simp [ne_of_isDigit hdigit (show Char.isDigit '.' = false by decide),
    ne_of_isDigit hdigit (show Char.isDigit 'e' = false by decide),
    ne_of_isDigit hdigit (show Char.isDigit 'E' = false by decide)] at hmark

/-- Digits alone are of base eight if a zero stands before others and all are below eight, and of base
ten otherwise. -/
theorem formOfBare_digits {text : List Char} (h : ∀ c ∈ text, c.isDigit = true) :
    NumberLiteral.formOfBare text =
      if 2 ≤ text.length ∧ text.head? = some '0' ∧ text.all NumberLiteral.isOctalDigit = true then
        .octal text
      else .decimal text := by
  have hlike : text.all isDigitLike = true := List.all_eq_true.mpr fun c hc =>
    Scan.isDigitLike_of_isDecimal (isDecimal_of_isDigit (h c hc))
  have hplain := plainForm_digits h
  rw [NumberLiteral.formOfBare.eq_def]
  split
  · next c rest =>
    have hletter : NumberLiteral.baseOf? c = none := baseOf?_of_char (.inl (h c (by simp)))
    simp [hletter, hlike]
  · next hshort =>
    rw [hplain, if_neg]
    rintro ⟨hlength, hhead, -⟩
    obtain ⟨rest, rfl⟩ := List.head?_eq_some_iff.mp hhead
    rw [List.length_cons] at hlength
    obtain ⟨c, more, rfl⟩ := List.exists_cons_of_length_pos (show 0 < rest.length by omega)
    exact hshort c more rfl

theorem value?_digits {text : List Char} (hne : text ≠ []) (h : ∀ c ∈ text, c.isDigit = true) :
    (NumberLiteral.formOfBare text).value?.isSome = true := by
  rw [formOfBare_digits h]
  split
  · next hoctal =>
    refine (Option.isSome_map ..).trans (isSome_cast (positional?_isSome hne fun d hd => ?_))
    have hin := List.all_eq_true.mp hoctal.2.2 d hd
    have hdigit : 48 ≤ d.toNat ∧ d.toNat ≤ 55 := by
      simpa [NumberLiteral.isOctalDigit, Char.le_def, UInt32.le_iff_toNat_le] using hin
    exact digitIn?_of_isDigit (h d hd) (by omega)
  · rw [NumberLiteral.Form.value?, Option.isSome_map, NumberLiteral.decimalValue?,
      splitSign_digits h]
    exact (Option.isSome_map ..).trans (isSome_cast (positional?_digits hne h))

theorem Digits.all_isDigit {run : List Char} (h : Digits Char.isDigit run) (hplain : '_' ∉ run) :
    ∀ c ∈ run, c.isDigit = true := by
  intro c hc
  exact (h.all c hc).resolve_right fun heq => hplain (heq ▸ hc)

/-! ## Decimals with exponents -/

inductive FractionDigits : List Char → List Char → Prop
  | none : FractionDigits [] []
  | point {digits : List Char} (h : ∀ c ∈ digits, c.isDigit = true) :
      FractionDigits ('.' :: digits) digits

inductive ExponentValue : List Char → Int → Prop
  | none : ExponentValue [] 0
  | mark {e : Char} {sign digits : List Char} (he : e = 'e' ∨ e = 'E')
      (hsign : sign = [] ∨ sign = ['+'] ∨ sign = ['-']) (h : ∀ c ∈ digits, c.isDigit = true)
      (hne : digits ≠ []) : ExponentValue (e :: (sign ++ digits))
        (if sign = ['-'] then -(Nat.ofDigitChars 10 digits 0 : Int)
          else Nat.ofDigitChars 10 digits 0)

/-- A decimal without separators that says `mantissa · 10 ^ exponent`. -/
inductive DecimalText : List Char → Nat → Int → Prop
  | mk {whole fraction digits exponent : List Char} {x : Int}
      (hwhole : ∀ c ∈ whole, c.isDigit = true) (hfraction : FractionDigits fraction digits)
      (hexponent : ExponentValue exponent x) (hne : whole ++ digits ≠ []) :
      DecimalText (whole ++ (fraction ++ exponent)) (Nat.ofDigitChars 10 (whole ++ digits) 0)
        (x - digits.length)

theorem splitSign_append {sign cs : List Char} (hsign : sign = [] ∨ sign = ['+'] ∨ sign = ['-'])
    (h : ∀ c ∈ cs.head?, c ≠ '-' ∧ c ≠ '+') :
    splitSign (sign ++ cs) = (decide (sign = ['-']), cs) := by
  rcases hsign with rfl | rfl | rfl
  · exact splitSign_of_head h
  · rfl
  · rfl

theorem splitSign_split (cs : List Char) : ∃ sign, cs = sign ++ (splitSign cs).2 ∧
    (splitSign cs).1 = decide (sign = ['-']) ∧ (sign = [] ∨ sign = ['+'] ∨ sign = ['-']) := by
  unfold splitSign
  split
  · exact ⟨['-'], rfl, rfl, .inr (.inr rfl)⟩
  · exact ⟨['+'], rfl, rfl, .inr (.inl rfl)⟩
  · exact ⟨[], rfl, rfl, .inl rfl⟩

theorem positional?_digits_iff {cs : List Char} (h : ∀ c ∈ cs, c.isDigit = true) {n : Nat} :
    positional? 10 cs = some n ↔ cs ≠ [] ∧ n = Nat.ofDigitChars 10 cs 0 := by
  by_cases hne : cs = []
  · simp [hne, positional?]
  · rw [positional?_spelled hne h, Option.some.injEq]
    exact ⟨fun heq => ⟨hne, heq.symm⟩, fun heq => heq.2.symm⟩

theorem cast_eq_some_iff {o : Option Nat} {n : Int} :
    (do let a ← o; pure (a : Int)) = some n ↔ ∃ k, o = some k ∧ (k : Int) = n := by
  cases o with
  | none => simp
  | some k => simp

theorem readExponent?_iff {e : Char} {cs : List Char} {x : Int} :
    (e = 'e' ∨ e = 'E') ∧ readExponent? cs = some x ↔ ExponentValue (e :: cs) x := by
  constructor
  · rintro ⟨he, hread⟩
    obtain ⟨sign, hsplit, hnegative, hsign⟩ := splitSign_split cs
    unfold readExponent? at hread
    simp only at hread
    split at hread
    · next hall =>
      have hdigits := List.all_eq_true.mp hall
      obtain ⟨n, hn, rfl⟩ := Option.map_eq_some_iff.mp hread
      obtain ⟨k, hk, rfl⟩ := cast_eq_some_iff.mp hn
      obtain ⟨hne, rfl⟩ := (positional?_digits_iff hdigits).mp hk
      have hvalue := ExponentValue.mark he hsign hdigits hne
      rw [← hsplit] at hvalue
      simpa only [hnegative, decide_eq_true_eq] using hvalue
    · cases hread
  · intro h
    cases h with
    | @mark _ sign digits he hsign h hne =>
      have hhead : ∀ c ∈ digits.head?, c ≠ '-' ∧ c ≠ '+' := fun c hc =>
        have hdigit := h c (List.mem_of_mem_head? hc)
        ⟨ne_of_isDigit hdigit (by decide), ne_of_isDigit hdigit (by decide)⟩
      refine ⟨he, ?_⟩
      rw [readExponent?, splitSign_append hsign hhead]
      simp only [if_pos (List.all_eq_true.mpr h), positional?_spelled hne h, decide_eq_true_eq]
      rfl

theorem ExponentValue.head {exponent : List Char} {x : Int} (h : ExponentValue exponent x) :
    ∀ c ∈ exponent.head?, c.isDigit = false := by
  cases h with
  | none => simp
  | mark he =>
    rintro c ⟨⟩
    rcases he with rfl | rfl <;> decide

theorem FractionDigits.all_isDigit {fraction digits : List Char} (h : FractionDigits fraction digits) :
    ∀ c ∈ digits, c.isDigit = true := by
  cases h with
  | none => simp
  | point h => exact h

/-- Behind the digits an exponent is read, or nothing is left. -/
theorem tail_eq_some_iff {negative : Bool} {mantissa places : Nat} {tail : List Char} {y : Binary64} :
    (match tail with
      | [] => some (.ofDecimal negative mantissa (-(places : Int)))
      | e :: more =>
        if e == 'e' || e == 'E' then
          (readExponent? more).map fun x => .ofDecimal negative mantissa (x - places)
        else none) = some y ↔
    ∃ x, ExponentValue tail x ∧ y = .ofDecimal negative mantissa (x - places) := by
  constructor
  · intro h
    split at h
    · cases h
      exact ⟨0, .none, by rw [Int.zero_sub]⟩
    · next e more =>
      split at h
      · next he =>
        obtain ⟨x, hx, rfl⟩ := Option.map_eq_some_iff.mp h
        exact ⟨x, readExponent?_iff.mp ⟨by simpa using he, hx⟩, rfl⟩
      · cases h
  · rintro ⟨x, hexponent, rfl⟩
    cases tail with
    | nil =>
      cases hexponent
      simp only [Int.zero_sub]
    | cons e more =>
      obtain ⟨he, hread⟩ := readExponent?_iff.mpr hexponent
      simp [he, hread]

/-- What is read as an unsigned decimal is a decimal. -/
theorem decimalText_of_readDecimal? {negative : Bool} {cs : List Char} {y : Binary64}
    (h : readDecimal? negative cs = some y) :
    ∃ m x, DecimalText cs m x ∧ y = .ofDecimal negative m x := by
  have hwhole : ∀ c ∈ cs.takeWhile Char.isDigit, c.isDigit = true :=
    fun c hc => List.mem_takeWhile_imp hc
  have hread : ∀ {fraction digits tail : List Char} {mantissa : Nat} {x : Int},
      cs.dropWhile Char.isDigit = fraction ++ tail → FractionDigits fraction digits →
      positional? 10 (cs.takeWhile Char.isDigit ++ digits) = some mantissa → ExponentValue tail x →
      DecimalText cs mantissa (x - digits.length) := by
    intro fraction digits tail mantissa x hsplit hfraction hmantissa hexponent
    obtain ⟨hne, rfl⟩ := (positional?_digits_iff
      (List.forall_mem_append.mpr ⟨hwhole, hfraction.all_isDigit⟩)).mp hmantissa
    have htext := DecimalText.mk hwhole hfraction hexponent hne
    rwa [← hsplit, List.takeWhile_append_dropWhile] at htext
  unfold readDecimal? at h
  simp only at h
  split at h
  · cases h
  · next mantissa hmantissa =>
    split at hmantissa
    · next more hmore =>
      simp only [hmore] at h
      obtain ⟨x, hexponent, rfl⟩ := tail_eq_some_iff.mp h
      refine ⟨_, _, hread ?_ (.point fun c hc => List.mem_takeWhile_imp hc) hmantissa hexponent, rfl⟩
      rw [hmore, List.cons_append, List.takeWhile_append_dropWhile]
    · simp only at h
      obtain ⟨x, hexponent, rfl⟩ := tail_eq_some_iff.mp h
      exact ⟨_, _, hread rfl .none hmantissa hexponent, rfl⟩

/-- A decimal is read as the double nearest to what it says. -/
theorem DecimalText.readDecimal?_eq {cs : List Char} {m : Nat} {x : Int} (h : DecimalText cs m x)
    (negative : Bool) : readDecimal? negative cs = some (.ofDecimal negative m x) := by
  obtain @⟨whole, fraction, digits, exponent, x, hwhole, hfraction, hexponent, hne⟩ := h
  have hvalue := positional?_spelled hne
    (List.forall_mem_append.mpr ⟨hwhole, hfraction.all_isDigit⟩)
  have hend := hexponent.head
  have htail := fun mantissa places =>
    (@tail_eq_some_iff negative mantissa places exponent _).mpr ⟨x, hexponent, rfl⟩
  cases hfraction with
  | none =>
    obtain ⟨htake, hdrop⟩ := span_run hwhole hend
    rw [List.nil_append, readDecimal?, htake, hdrop]
    cases hexponent with
    | none =>
      simp only [hvalue]
      exact htail _ 0
    | mark he =>
      -- the mark of an exponent is no point
      rw [List.append_nil] at hvalue
      rcases he with rfl | rfl <;> simpa [hvalue] using htail (Nat.ofDigitChars 10 whole 0) 0
  | point h =>
    have hpoint : ∀ c ∈ ('.' :: (digits ++ exponent)).head?, c.isDigit = false := by
      rintro c ⟨⟩
      decide
    obtain ⟨htake, hdrop⟩ := span_run hwhole hpoint
    obtain ⟨htake', hdrop'⟩ := span_run h hend
    rw [List.cons_append, readDecimal?, htake, hdrop]
    simp only [htake', hdrop', hvalue]
    exact htail _ digits.length

/-- The parts of a numeral in base ten, which have no separators, are a decimal. -/
theorem exists_decimalText {whole fraction exponent : List Char}
    (hwhole : ∀ c ∈ whole, c.isDigit = true) (hfraction : Fraction fraction)
    (hexponent : Exponent exponent) (hplain : '_' ∉ fraction ++ exponent)
    (hne : whole ≠ [] ∨ 2 ≤ fraction.length) :
    ∃ m x, DecimalText (whole ++ (fraction ++ exponent)) m x := by
  have hvalue : ∃ x, ExponentValue exponent x := by
    cases hexponent with
    | none => exact ⟨0, .none⟩
    | mark he hsign h hne' =>
      exact ⟨_, .mark he hsign (h.all_isDigit fun hmem => hplain (by simp [hmem])) hne'⟩
  obtain ⟨x, hx⟩ := hvalue
  cases hfraction with
  | none => exact ⟨_, _, .mk hwhole .none hx (by simpa using hne)⟩
  | @point digits h =>
    have hall := h.all_isDigit fun hmem => hplain (by simp [hmem])
    refine ⟨_, _, .mk hwhole (.point hall) hx fun hnil => ?_⟩
    obtain ⟨rfl, rfl⟩ := List.append_eq_nil_iff.mp hnil
    simp at hne

/-! ## Floating-point numbers -/

theorem digitsAroundSeparators_of_none {cs : List Char} (h : '_' ∉ cs) (afterDigit : Bool) :
    digitsAroundSeparators afterDigit cs = true := by
  induction cs generalizing afterDigit with
  | nil => rfl
  | cons c cs ih =>
    obtain ⟨hc, hcs⟩ : '_' ≠ c ∧ '_' ∉ cs := by simpa using h
    rw [digitsAroundSeparators]
    · exact ih hcs _
    · exact fun heq => hc heq.symm

theorem asciiDigits_of_chars {cs : List Char}
    (h : ∀ c ∈ cs, IsNumeralChar c) : asciiDigits cs = cs := by
  have hmark : ∀ c ∈ ['_', '.', 'e', 'E', '+', '-'], digitValue? c = none :=
    forall_mem_of_all (by decide)
  rw [asciiDigits]
  conv => rhs; rw [← List.map_id cs]
  refine List.map_congr_left fun c hc => ?_
  rcases h c hc with hdigit | hc
  · have hval := toNat_of_isDigit hdigit
    rw [digitValue?_of_isDigit hdigit]
    simp only [id]
    rw [Nat.add_sub_cancel' hval.1, Char.ofNat_toNat]
  · rw [hmark c hc]
    rfl

theorem isPadding_of_char {c : Char} (h : IsNumeralChar c) : isPadding c = false := by
  have hmark : ∀ c ∈ ['_', '.', 'e', 'E', '+', '-'], isPadding c = false :=
    forall_mem_of_all (by decide)
  rcases h with h | h
  · exact isPadding_of_isNamePart (isNamePart_of_isDigit c h)
  · exact hmark c h

/-- A text of numeral characters without separators is read as it stands. -/
theorem readFloat?_of_chars {cs : List Char} (h : ∀ c ∈ cs, IsNumeralChar c) (hplain : '_' ∉ cs) :
    readFloat? cs = readSigned? cs := by
  have hkeep : cs.filter (· ≠ '_') = cs :=
    List.filter_eq_self.mpr fun c hc => decide_eq_true fun heq => hplain (heq ▸ hc)
  rw [readFloat?, stripPadding_of_all fun c hc => isPadding_of_char (h c hc),
    asciiDigits_of_chars h]
  simp only [digitsAroundSeparators_of_none hplain, if_true, hkeep]

theorem toLower_of_isDigit {c : Char} (h : c.isDigit = true) : c.toLower = c := by
  have hc : c.val.toNat ≤ 57 := (toNat_of_isDigit h).2
  refine dif_neg fun hupper => ?_
  have hlow : 65 ≤ c.val.toNat := hupper.1
  omega

/-- No text with a character of numerals spells an infinity or not-a-number. -/
theorem readSpecial?_of_char {c : Char} {cs : List Char} (hc : c ∈ cs) (h : IsNumeralChar c)
    (negative : Bool) : readSpecial? negative cs = none := by
  have hletters : ∀ d ∈ "infinity".toList ++ "nan".toList, d.isDigit = false ∧
      d ∉ ['_', '.', 'e', '+', '-'] := forall_mem_of_all (by decide)
  have hlower : c.toLower ∉ "infinity".toList ++ "nan".toList := by
    have hmarks : ∀ c ∈ ['_', '.', 'e', 'E', '+', '-'], c.toLower ∈ ['_', '.', 'e', '+', '-'] :=
      forall_mem_of_all (by decide)
    intro hmem
    rcases h with h | h
    · rw [toLower_of_isDigit h] at hmem
      exact ne_of_isDigit h (hletters c hmem).1 rfl
    · exact (hletters _ hmem).2 (hmarks c h)
  have hapart : ∀ word : String, word.toList ⊆ "infinity".toList ++ "nan".toList →
      (String.ofList (cs.map Char.toLower) == word) = false := by
    intro word hword
    rw [beq_eq_false_iff_ne]
    rintro rfl
    rw [String.toList_ofList] at hword
    exact hlower (hword (List.mem_map_of_mem hc))
  have hinf := hapart "inf" (by decide)
  have hinfinity := hapart "infinity" (by decide)
  have hnan := hapart "nan" (by decide)
  simp only [readSpecial?, hinf, hinfinity, hnan, Bool.or_self, Bool.false_eq_true, if_false]

theorem sign_chars {sign : List Char} (h : sign = [] ∨ sign = ['+'] ∨ sign = ['-']) :
    ∀ c ∈ sign, IsNumeralChar c ∧ c ≠ '_' := by
  rcases h with rfl | rfl | rfl
  · simp
  · exact List.forall_mem_singleton.mpr ⟨.inr (by decide), by decide⟩
  · exact List.forall_mem_singleton.mpr ⟨.inr (by decide), by decide⟩

namespace DecimalText

variable {cs : List Char} {m : Nat} {x : Int}

theorem chars (h : DecimalText cs m x) : ∀ c ∈ cs, IsNumeralChar c ∧ c ≠ '_' := by
  have hdigits : ∀ {run : List Char}, (∀ c ∈ run, c.isDigit = true) →
      ∀ c ∈ run, IsNumeralChar c ∧ c ≠ '_' := fun hall c hc =>
    ⟨.inl (hall c hc), ne_of_isDigit (hall c hc) (by decide)⟩
  obtain ⟨hwhole, hfraction, hexponent, -⟩ := h
  refine List.forall_mem_append.mpr ⟨hdigits hwhole, List.forall_mem_append.mpr ⟨?_, ?_⟩⟩
  · cases hfraction with
    | none => simp
    | point h => exact List.forall_mem_cons.mpr ⟨⟨.inr (by decide), by decide⟩, hdigits h⟩
  · cases hexponent with
    | none => simp
    | mark he hsign h =>
      refine List.forall_mem_cons.mpr
        ⟨?_, List.forall_mem_append.mpr ⟨sign_chars hsign, hdigits h⟩⟩
      rcases he with rfl | rfl <;> exact ⟨.inr (by decide), by decide⟩

theorem start (h : DecimalText cs m x) : ∃ c more, cs = c :: more ∧ (c.isDigit = true ∨ c = '.') := by
  obtain @⟨whole, fraction, digits, exponent, x, hwhole, hfraction, -, hne⟩ := h
  cases whole with
  | cons c whole => exact ⟨c, _, rfl, .inl (hwhole c List.mem_cons_self)⟩
  | nil =>
    cases hfraction with
    | none => exact absurd rfl hne
    | point h => exact ⟨'.', _, rfl, .inr rfl⟩

theorem splitSign_eq (h : DecimalText cs m x) {sign : List Char}
    (hsign : sign = [] ∨ sign = ['+'] ∨ sign = ['-']) :
    splitSign (sign ++ cs) = (decide (sign = ['-']), cs) := by
  obtain ⟨c, more, rfl, hc⟩ := h.start
  refine splitSign_append hsign fun d hd => ?_
  obtain rfl := Option.some.inj hd
  rcases hc with hc | rfl
  · exact ⟨ne_of_isDigit hc (by decide), ne_of_isDigit hc (by decide)⟩
  · decide

/-- A decimal that may have a sign is read as the double nearest to what it says. -/
theorem readSigned?_eq (h : DecimalText cs m x) {sign : List Char}
    (hsign : sign = [] ∨ sign = ['+'] ∨ sign = ['-']) :
    readSigned? (sign ++ cs) = some (.ofDecimal (decide (sign = ['-'])) m x) := by
  obtain ⟨c, more, htext, -⟩ := h.start
  have hc : c ∈ cs := htext ▸ List.mem_cons_self
  have hspecial := readSpecial?_of_char hc (h.chars c hc).1 (decide (sign = ['-']))
  rw [readSigned?, h.splitSign_eq hsign]
  simp only [hspecial, Option.none_or, h.readDecimal?_eq]

theorem readFloat?_eq (h : DecimalText cs m x) {sign : List Char}
    (hsign : sign = [] ∨ sign = ['+'] ∨ sign = ['-']) :
    readFloat? (sign ++ cs) = some (.ofDecimal (decide (sign = ['-'])) m x) := by
  have hchars := List.forall_mem_append.mpr ⟨sign_chars hsign, h.chars⟩
  rw [readFloat?_of_chars (fun c hc => (hchars c hc).1) fun hmem => (hchars _ hmem).2 rfl,
    h.readSigned?_eq hsign]

end DecimalText

theorem bare_of_mark {raw text : List Char} (h : raw.filter (· ≠ '_') = text ++ ['n']) :
    NumberLiteral.bare raw = text := by
  rw [NumberLiteral.bare, h]
  simp only [List.getLast?_concat, if_true, List.dropLast_concat]

theorem bare_of_plain {raw : List Char} (h : 'n' ∉ raw) :
    NumberLiteral.bare raw = raw.filter (· ≠ '_') := by
  refine if_neg fun hlast => ?_
  exact h (List.mem_filter.mp (List.mem_of_getLast? hlast)).1

theorem not_mem_n {cs : List Char} (h : ∀ c ∈ cs, IsNumeralChar c) : 'n' ∉ cs :=
  fun hmem => (h 'n' hmem).ne (by decide) (by decide) rfl

/-- Numeral characters without separators are a bare literal. -/
theorem bare_of_chars {cs : List Char} (h : ∀ c ∈ cs, IsNumeralChar c) (hplain : '_' ∉ cs) :
    NumberLiteral.bare cs = cs := by
  rw [bare_of_plain (not_mem_n h)]
  exact List.filter_eq_self.mpr fun c hc => decide_eq_true fun heq => hplain (heq ▸ hc)

/-- A point or the mark of an exponent makes a literal a floating-point number. -/
theorem formOfBare_float {text : List Char} (h : ∀ c ∈ text, IsNumeralChar c)
    (hmark : ∃ c ∈ text, c = '.' ∨ c = 'e' ∨ c = 'E') :
    NumberLiteral.formOfBare text = .float text := by
  obtain ⟨d, hd, hmark⟩ := hmark
  have hplain : NumberLiteral.plainForm text = .float text := by
    refine if_pos (List.any_eq_true.mpr ⟨d, hd, ?_⟩)
    rcases hmark with rfl | rfl | rfl <;> decide
  have hall : text.all isDigitLike = false := by
    rw [Bool.eq_false_iff]
    intro hall
    have hlike := List.all_eq_true.mp hall d hd
    rcases hmark with rfl | rfl | rfl <;> exact absurd hlike (by decide)
  unfold NumberLiteral.formOfBare
  split
  · next c rest =>
    simp only [baseOf?_of_char (h c (by simp)), hall]
    exact hplain
  · exact hplain

/-- A decimal with a point or an exponent, as a literal, is a floating-point number. -/
theorem DecimalText.formOfBare_eq {cs : List Char} {m : Nat} {x : Int} (h : DecimalText cs m x)
    (hmark : ∃ c ∈ cs, c = '.' ∨ c = 'e' ∨ c = 'E') :
    NumberLiteral.formOfBare cs = .float cs ∧
      (NumberLiteral.Form.float cs).value? = some (.float (.ofDecimal false m x)) := by
  have hread := h.readFloat?_eq (.inl rfl)
  rw [List.nil_append] at hread
  refine ⟨formOfBare_float (fun c hc => (h.chars c hc).1) hmark, ?_⟩
  rw [NumberLiteral.Form.value?, hread]
  rfl

/-- What is left of a literal in base ten with a fraction or an exponent. -/
theorem decimalText_filter {whole fraction exponent : List Char} (h : Digits Char.isDigit whole)
    (hfraction : Fraction fraction) (hexponent : Exponent exponent)
    (hne : whole ≠ [] ∨ 2 ≤ fraction.length) (htail : fraction ++ exponent ≠ []) :
    ∃ m x, DecimalText ((whole ++ (fraction ++ exponent)).filter (· ≠ '_')) m x ∧
      ∃ c ∈ (whole ++ (fraction ++ exponent)).filter (· ≠ '_'), c = '.' ∨ c = 'e' ∨ c = 'E' := by
  obtain ⟨hdigits, hne'⟩ := h.filter (by decide)
  obtain ⟨hfraction', hlength⟩ := hfraction.filter
  have hwhole := hdigits.all_isDigit (by simp)
  obtain ⟨m, x, hdecimal⟩ := exists_decimalText hwhole hfraction' hexponent.filter (by simp)
    (hne.imp hne' hlength)
  refine ⟨m, x, ?_, ?_⟩
  · rwa [List.filter_append, List.filter_append]
  · -- a fraction starts with a point and an exponent with its mark
    cases hfraction with
    | point => exact ⟨'.', by simp, .inl rfl⟩
    | none =>
      cases hexponent with
      | none => exact absurd rfl htail
      | @mark e sign digits he =>
        exact ⟨e, by rcases he with rfl | rfl <;> simp, .inr he⟩

/-- What is left of a literal with the letter of a base. -/
theorem bare_of_base {letter : Char} {digit : Char → Bool} {digits mark : List Char}
    (hletter : digitsOfBase? letter = some digit) (h : Digits digit digits) (hne : digits ≠ [])
    (hmark : mark = [] ∨ mark = ['n']) :
    NumberLiteral.bare ('0' :: letter :: (digits ++ mark)) =
        '0' :: letter :: digits.filter (· ≠ '_') ∧
      digits.filter (· ≠ '_') ≠ [] ∧ ∀ c ∈ digits.filter (· ≠ '_'), digit c = true := by
  have hapart : ∀ c ∈ ['x', 'X', 'o', 'O', 'b', 'B'], c ≠ '_' ∧ c ≠ 'n' :=
    forall_mem_of_all (by decide)
  obtain ⟨hsep, hn⟩ := hapart letter (Scan.mem_letters hletter)
  have hnot : ∀ c, isHex c = false → digit c = false := fun c hc =>
    Bool.eq_false_iff.mpr fun hd => by
      have := Scan.isHexDigit_of_baseDigits hletter hd
      exact absurd (this.symm.trans hc) (by decide)
  obtain ⟨hdigits, hne'⟩ := h.filter (hnot '_' (by decide))
  have hall : ∀ c ∈ digits.filter (· ≠ '_'), digit c = true := by
    intro c hc
    exact (hdigits.all c hc).resolve_right (by simpa using (List.mem_filter.mp hc).2)
  refine ⟨?_, hne' hne, hall⟩
  have hfront : ('0' :: letter :: digits).filter (· ≠ '_') =
      '0' :: letter :: digits.filter (· ≠ '_') := by
    rw [List.filter_cons_of_pos (by decide), List.filter_cons_of_pos (by simpa using hsep)]
  rcases hmark with rfl | rfl
  · rw [List.append_nil, bare_of_plain, hfront]
    intro hmem
    rcases List.mem_cons.mp hmem with hc | hmem
    · exact absurd hc (by decide)
    · rcases List.mem_cons.mp hmem with hc | hmem
      · exact hn hc.symm
      · have hdigit := (h.all 'n' hmem).resolve_right (by decide)
        rw [hnot 'n' (by decide)] at hdigit
        cases hdigit
  · refine bare_of_mark ?_
    rw [← List.cons_append, ← List.cons_append, List.filter_append, hfront]
    rfl

theorem Numeral.value_isSome {cs : List Char} (h : Numeral cs) :
    (NumberLiteral.value? cs).isSome = true := by
  rw [NumberLiteral.value?, NumberLiteral.form]
  cases h with
  | @based letter digit digits mark hletter h hne hmark =>
    obtain ⟨hbare, hne', hall⟩ := bare_of_base hletter h hne hmark
    obtain ⟨base, hbase, hvalue⟩ := digitIn?_of_base hletter
    have hpad : ∀ c ∈ digits.filter (· ≠ '_'), isPadding c = false := fun c hc =>
      isPadding_of_isNamePart (isNamePart_of_base hletter c (hall c hc))
    rw [hbare, NumberLiteral.formOfBare, hbase]
    simp only [NumberLiteral.Form.value?, trimEnd_of_all hpad]
    exact (Option.isSome_map ..).trans
      (isSome_cast (positional?_isSome hne' fun c hc => hvalue c (hall c hc)))
  | @big whole h hne =>
    obtain ⟨hdigits, hne'⟩ := h.filter (by decide)
    have hfilter : (whole ++ ['n']).filter (· ≠ '_') = whole.filter (· ≠ '_') ++ ['n'] := by
      rw [List.filter_append]
      rfl
    rw [bare_of_mark hfilter]
    exact value?_digits (hne' hne) (hdigits.all_isDigit (by simp))
  | @plain whole fraction exponent h hfraction hexponent hne =>
    have hchars := List.forall_mem_append.mpr
      ⟨h.chars, List.forall_mem_append.mpr ⟨hfraction.chars, hexponent.chars⟩⟩
    rw [bare_of_plain (not_mem_n hchars)]
    by_cases htail : fraction ++ exponent = []
    · obtain ⟨hdigits, hne'⟩ := h.filter (by decide)
      obtain ⟨rfl, rfl⟩ := List.append_eq_nil_iff.mp htail
      rw [List.append_nil, List.append_nil]
      exact value?_digits (hne' (by simpa using hne)) (hdigits.all_isDigit (by simp))
    · obtain ⟨m, x, hdecimal, hmark⟩ := decimalText_filter h hfraction hexponent hne htail
      obtain ⟨hform, hvalue⟩ := hdecimal.formOfBare_eq hmark
      rw [hform, hvalue]
      rfl

end LiveChain.Syntax
