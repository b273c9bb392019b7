import LiveChain.Proofs.Number.Decimal

/-!
# Integer literals

What is read from the digits of a base, whatever their number, with separators between them and with
or without the mark of a big integer.
-/

set_option autoImplicit false

namespace LiveChain

open Syntax Text

/-! ## Integers as text -/

/-- The spellings of a digit: a letter, for digits from ten on, is small or large. -/
def Spells (c : Char) (d : ℕ) : Prop := d < 16 ∧ (c = d.digitChar ∨ c = d.digitChar.toUpper)

instance (c : Char) (d : ℕ) : Decidable (Spells c d) := inferInstanceAs (Decidable (_ ∧ _))

/-- A run is digits with any number of separators between two of them. -/
inductive Separated : List Char → List Char → Prop
  | last (c : Char) : Separated [c] [c]
  | next {digits run : List Char} (c : Char) (k : ℕ) (h : Separated digits run) :
      Separated (c :: digits) (c :: (List.replicate k '_' ++ run))

/-- Digits of a base, the first one leading, with separators between them and perhaps the mark of a
big integer behind them. -/
inductive IntegerText (base : ℕ) (ds : List ℕ) : List Char → Prop
  | mk {digits run mark : List Char} (hspelled : digits.Forall₂ Spells ds)
      (hbelow : ∀ d ∈ ds, d < base) (hrun : Separated digits run)
      (hmark : mark = [] ∨ mark = ['n']) : IntegerText base ds (run ++ mark)

/-- The value of the digits of a base, the first one leading. -/
def spelledValue (base : ℕ) (ds : List ℕ) : ℕ := Nat.ofDigits base ds.reverse

/-- A zero before other digits, all below eight, makes an integer without a prefix octal. -/
def Legacy (ds : List ℕ) : Prop := 2 ≤ ds.length ∧ ds.head? = some 0 ∧ ∀ d ∈ ds, d < 8

instance (ds : List ℕ) : Decidable (Legacy ds) := inferInstanceAs (Decidable (_ ∧ _ ∧ _))

/-! ## Digits -/

section Digits

variable {c : Char} {d base : ℕ} {digits run : List Char} {ds : List ℕ}

namespace Spells

/-- What holds of the digits of base sixteen in both spellings holds of every spelling. -/
theorem forall_spells {p : Char → ℕ → Prop} (hsmall : ∀ d < 16, p d.digitChar d)
    (hlarge : ∀ d < 16, p d.digitChar.toUpper d) (h : Spells c d) : p c d := by
  obtain ⟨hd, rfl | rfl⟩ := h
  · exact hsmall d hd
  · exact hlarge d hd

theorem digitIn?_hex (h : Spells c d) : digitIn? 16 c = some d :=
  forall_spells (p := fun c d => digitIn? 16 c = some d) (by decide) (by decide) h

theorem digitIn?_eq (h : Spells c d) (hd : d < base) : digitIn? base c = some d := by
  have hhex := h.digitIn?_hex
  rw [digitIn?, Option.filter_eq_some_iff] at hhex ⊢
  exact ⟨hhex.1, decide_eq_true hd⟩

theorem isDigit_iff (h : Spells c d) : c.isDigit = true ↔ d < 10 :=
  forall_spells (p := fun c d => c.isDigit = true ↔ d < 10) (by decide) (by decide) h

theorem isOctalDigit_iff (h : Spells c d) : NumberLiteral.isOctalDigit c = true ↔ d < 8 :=
  forall_spells (p := fun c d => NumberLiteral.isOctalDigit c = true ↔ d < 8) (by decide)
    (by decide) h

theorem eq_zero_iff (h : Spells c d) : c = '0' ↔ d = 0 :=
  forall_spells (p := fun c d => c = '0' ↔ d = 0) (by decide) (by decide) h

/-- Digits are neither separators nor marks nor white space. -/
theorem apart (h : Spells c d) : c ≠ '_' ∧ c ≠ 'n' ∧ isPadding c = false :=
  forall_spells (p := fun c _ => c ≠ '_' ∧ c ≠ 'n' ∧ isPadding c = false) (by decide) (by decide) h

end Spells

theorem exists_spells (h : digits.Forall₂ Spells ds) (hc : c ∈ digits) : ∃ d ∈ ds, Spells c d := by
  induction h with
  | nil => cases hc
  | cons hspells _ ih =>
    rcases List.mem_cons.mp hc with rfl | hc
    · exact ⟨_, List.mem_cons_self, hspells⟩
    · obtain ⟨d, hd, hspells⟩ := ih hc
      exact ⟨d, List.mem_cons_of_mem _ hd, hspells⟩

theorem head_spells (h : digits.Forall₂ Spells ds) :
    digits.head? = some '0' ↔ ds.head? = some 0 := by
  cases h with
  | nil => simp
  | cons hspells _ => simpa using hspells.eq_zero_iff

theorem all_spells (h : digits.Forall₂ Spells ds) :
    digits.all NumberLiteral.isOctalDigit = true ↔ ∀ d ∈ ds, d < 8 := by
  induction h with
  | nil => simp
  | cons hspells _ ih =>
    rw [List.all_cons, Bool.and_eq_true, hspells.isOctalDigit_iff, ih, List.forall_mem_cons]

/-- Digits are read as the number that their values make, behind others. -/
theorem positionalFrom?_values (h : digits.Forall₂ (fun c d => digitIn? base c = some d) ds)
    (acc : ℕ) : positionalFrom? base acc digits =
      some (acc * base ^ ds.length + spelledValue base ds) := by
  induction h generalizing acc with
  | nil => simp [positionalFrom?, spelledValue]
  | @cons c d digits ds hdigit _ ih =>
    rw [positionalFrom?, hdigit]
    simp only [ih]
    rw [spelledValue, spelledValue, List.reverse_cons, Nat.ofDigits_append, Nat.ofDigits_singleton,
      List.length_reverse, List.length_cons]
    congr 1
    ring

theorem positional?_values (h : digits.Forall₂ (fun c d => digitIn? base c = some d) ds)
    (hne : digits ≠ []) : positional? base digits = some (spelledValue base ds) := by
  rw [positional?, if_neg (by simpa using hne), positionalFrom?_values h, zero_mul, zero_add]

theorem values_of_spells (h : digits.Forall₂ Spells ds) (hbelow : ∀ d ∈ ds, d < base) :
    digits.Forall₂ (fun c d => digitIn? base c = some d) ds := by
  induction h with
  | nil => exact .nil
  | cons hspells _ ih =>
    obtain ⟨hd, hbelow⟩ := List.forall_mem_cons.mp hbelow
    exact .cons (hspells.digitIn?_eq hd) (ih hbelow)

theorem positional?_spells (h : digits.Forall₂ Spells ds) (hne : digits ≠ [])
    (hbelow : ∀ d ∈ ds, d < base) :
    positional? base digits = some (spelledValue base ds) :=
  positional?_values (values_of_spells h hbelow) hne

namespace Separated

theorem ne_nil (h : Separated digits run) : digits ≠ [] := by
  cases h <;> exact List.cons_ne_nil _ _

theorem filter (h : Separated digits run) (hplain : ∀ c ∈ digits, c ≠ '_') :
    run.filter (· ≠ '_') = digits := by
  induction h with
  | last c => exact List.filter_cons_of_pos (by simpa using hplain)
  | next c k _ ih =>
    obtain ⟨hc, hplain⟩ := List.forall_mem_cons.mp hplain
    have hnone : (List.replicate k '_').filter (· ≠ '_') = [] := by simp
    rw [List.filter_cons_of_pos (by simpa using hc), List.filter_append, hnone, List.nil_append,
      ih hplain]

end Separated

end Digits

/-! ## Literals -/

namespace IntegerText

variable {base : ℕ} {ds : List ℕ} {text : List Char}

/-- Behind a front, which has no separators, what is left without separators and mark are the
digits. -/
theorem bare_eq (h : IntegerText base ds text) {front : List Char} (hfront : '_' ∉ front) :
    ∃ digits, digits.Forall₂ Spells ds ∧ digits ≠ [] ∧ (∀ d ∈ ds, d < base) ∧
      NumberLiteral.bare (front ++ text) = front ++ digits := by
  obtain @⟨digits, run, mark, hspelled, hbelow, hrun, hmark⟩ := h
  have hplain : ∀ c ∈ digits, c ≠ '_' ∧ c ≠ 'n' := fun c hc => by
    obtain ⟨d, -, hspells⟩ := exists_spells hspelled hc
    exact ⟨hspells.apart.1, hspells.apart.2.1⟩
  refine ⟨digits, hspelled, hrun.ne_nil, hbelow, ?_⟩
  have hkept : front.filter (· ≠ '_') = front :=
    List.filter_eq_self.mpr fun c hc => decide_eq_true fun heq => hfront (heq ▸ hc)
  have hdigits := hrun.filter fun c hc => (hplain c hc).1
  rcases hmark with rfl | rfl
  · have hlast : (front ++ digits).getLast? ≠ some 'n' := by
      rw [List.getLast?_append_of_ne_nil _ hrun.ne_nil]
      exact fun hlast => (hplain 'n' (List.mem_of_getLast? hlast)).2 rfl
    rw [List.append_nil, NumberLiteral.bare, List.filter_append, hkept, hdigits]
    exact if_neg hlast
  · refine bare_of_mark ?_
    rw [List.filter_append, List.filter_append, hkept, hdigits, List.append_assoc]
    rfl

end IntegerText

section Read

open NumberLiteral

variable {raw text : List Char} {n : ℕ}

theorem read_prefixed {base : ℕ} (hform : form raw = .prefixed base text)
    (hpad : ∀ c ∈ text, isPadding c = false) (hvalue : positional? base text = some n) :
    read raw = .ok (.int n) := by
  rw [NumberLiteral.read, value?, excess?, hform, Form.value?, trimEnd_of_all hpad, hvalue]
  rfl

theorem read_octal (hform : form raw = .octal text) (hvalue : positional? 8 text = some n) :
    read raw = .ok (.int n) := by
  rw [NumberLiteral.read, value?, excess?, hform, Form.value?, hvalue]
  rfl

/-- A decimal integer is read unless it has too many digits. -/
theorem read_decimal (hform : form raw = .decimal text) (hdigits : ∀ c ∈ text, c.isDigit = true)
    (hvalue : positional? 10 text = some n) :
    read raw = if text.length ≤ 4300 then .ok (.int n) else .error (.tooLong text.length) := by
  rw [NumberLiteral.read, value?, excess?, hform, Form.value?, NumberLiteral.decimalValue?]
  simp only [splitSign_digits hdigits, hvalue]
  change _ = if text.length ≤ digitLimit then _ else _
  by_cases hlong : digitLimit < text.length
  · rw [if_pos hlong, if_neg (Nat.not_le_of_lt hlong)]
    rfl
  · rw [if_neg hlong, if_pos (Nat.le_of_not_lt hlong)]
    rfl

theorem baseOf?_of_mem {letter : Char} {base : ℕ}
    (h : (letter, base) ∈ [('x', 16), ('X', 16), ('o', 8), ('O', 8), ('b', 2), ('B', 2)]) :
    letter ≠ '_' ∧ baseOf? letter = some base := by
  have hall : ∀ p ∈ [('x', 16), ('X', 16), ('o', 8), ('O', 8), ('b', 2), ('B', 2)],
      p.1 ≠ '_' ∧ baseOf? p.1 = some p.2 := by decide
  exact hall _ h

/-- What is left of a literal are the digits of a base behind its prefix. -/
theorem read_based_digits {letter : Char} {base : ℕ} {digits : List Char} {ds : List ℕ}
    (hbare : bare raw = '0' :: letter :: digits) (hbase : baseOf? letter = some base)
    (hspelled : digits.Forall₂ Spells ds) (hne : digits ≠ []) (hbelow : ∀ d ∈ ds, d < base) :
    read raw = .ok (.int (spelledValue base ds)) := by
  have hform : form raw = .prefixed base digits := by
    rw [form, hbare]
    simp [formOfBare, hbase]
  refine read_prefixed hform (fun c hc => ?_) (positional?_spells hspelled hne hbelow)
  obtain ⟨d, -, hspells⟩ := exists_spells hspelled hc
  exact hspells.apart.2.2

theorem read_digits {digits : List Char} {ds : List ℕ} (hbare : bare raw = digits)
    (hspelled : digits.Forall₂ Spells ds) (hne : digits ≠ []) (hbelow : ∀ d ∈ ds, d < 10) :
    read raw = if Legacy ds then .ok (.int (spelledValue 8 ds))
      else if ds.length ≤ 4300 then .ok (.int (spelledValue 10 ds))
      else .error (.tooLong ds.length) := by
  have hdigits : ∀ c ∈ digits, c.isDigit = true := by
    intro c hc
    obtain ⟨d, hd, hspells⟩ := exists_spells hspelled hc
    exact hspells.isDigit_iff.mpr (hbelow d hd)
  have hform : form raw = formOfBare digits := congrArg formOfBare hbare
  rw [formOfBare_digits hdigits] at hform
  have hoctal : (2 ≤ digits.length ∧ digits.head? = some '0' ∧
      digits.all isOctalDigit = true) ↔ Legacy ds := by
    rw [Legacy, hspelled.length_eq, head_spells hspelled, all_spells hspelled]
  by_cases hcase : Legacy ds
  · rw [if_pos (hoctal.mpr hcase)] at hform
    rw [if_pos hcase]
    exact read_octal hform (positional?_spells hspelled hne hcase.2.2)
  · rw [if_neg (mt hoctal.mp hcase)] at hform
    rw [if_neg hcase, read_decimal hform hdigits (positional?_spells hspelled hne hbelow),
      hspelled.length_eq]

theorem read_based {letter : Char} {base : ℕ} {ds : List ℕ} (hletter : letter ≠ '_')
    (hbase : baseOf? letter = some base) (h : IntegerText base ds text) :
    read ('0' :: letter :: text) = .ok (.int (spelledValue base ds)) := by
  have hfront : '_' ∉ ['0', letter] := by simpa using hletter.symm
  obtain ⟨digits, hspelled, hne, hbelow, hbare⟩ := h.bare_eq hfront
  exact read_based_digits hbare hbase hspelled hne hbelow

theorem read_unprefixed {ds : List ℕ} (h : IntegerText 10 ds text) :
    read text = if Legacy ds then .ok (.int (spelledValue 8 ds))
      else if ds.length ≤ 4300 then .ok (.int (spelledValue 10 ds))
      else .error (.tooLong ds.length) := by
  have hfront : '_' ∉ ([] : List Char) := List.not_mem_nil
  obtain ⟨digits, hspelled, hne, hbelow, hbare⟩ := h.bare_eq hfront
  exact read_digits hbare hspelled hne hbelow

/-- The digits of a natural number are read as this number. -/
theorem read_toDigits (h : (Nat.toDigits 10 n).length ≤ 4300) :
    read (Nat.toDigits 10 n) = .ok (.int n) := by
  have hshort : ShortDecimal (Nat.toDigits 10 n) [] := shortDecimal_toDigits nofun (by simp) (by simp)
  have hform : form (Nat.toDigits 10 n) = .decimal (Nat.toDigits 10 n) := hshort.form_eq
  have hvalue := positional?_spelled hshort.ne_nil hshort.whole_digits
  rw [Nat.ofDigitChars_ten_toDigits] at hvalue
  rw [read_decimal hform hshort.whole_digits hvalue, if_pos h]

end Read

/-- Integer literals are read as the numbers that their digits spell. Behind a prefix these are digits
of its base, letters among them, in any number. Without a prefix they are of base eight if a zero stands
before others and all are below eight, and of base ten otherwise, in which case there may not be too
many. Separators and the mark of a big integer do not matter. -/
theorem read_integers :
    (∀ letter base, (letter, base) ∈ [('x', 16), ('X', 16), ('o', 8), ('O', 8), ('b', 2), ('B', 2)] →
      ∀ ds text, IntegerText base ds text →
        NumberLiteral.read ('0' :: letter :: text) = .ok (.int (spelledValue base ds))) ∧
    (∀ ds text, IntegerText 10 ds text → NumberLiteral.read text =
      if 2 ≤ ds.length ∧ ds.head? = some 0 ∧ ∀ d ∈ ds, d < 8 then
        .ok (.int (spelledValue 8 ds))
      else if ds.length ≤ 4300 then .ok (.int (spelledValue 10 ds))
      else .error (.tooLong ds.length)) ∧
    ∀ n : ℕ, (Nat.toDigits 10 n).length ≤ 4300 →
      NumberLiteral.read (Nat.toDigits 10 n) = .ok (.int n) := by
  refine ⟨fun letter base hletter ds text h => ?_, fun ds text h => read_unprefixed h,
    fun n h => read_toDigits h⟩
  obtain ⟨hsep, hbase⟩ := baseOf?_of_mem hletter
  exact read_based hsep hbase h

/-- A hexadecimal big integer with the letter of an exponent, and an octal integer. -/
theorem read_integers_separated :
    (IntegerText 16 [11, 14, 5] ['B', '_', 'e', '_', '_', '5', 'n'] ∧
      NumberLiteral.read ['0', 'x', 'B', '_', 'e', '_', '_', '5', 'n'] = .ok (.int 3045)) ∧
    IntegerText 10 [0, 1, 7] ['0', '1', '_', '7'] ∧
      NumberLiteral.read ['0', '1', '_', '7'] = .ok (.int 15) := by
  have hhex : IntegerText 16 [11, 14, 5] ['B', '_', 'e', '_', '_', '5', 'n'] :=
    @IntegerText.mk 16 _ ['B', 'e', '5'] ['B', '_', 'e', '_', '_', '5'] ['n']
      (by decide) (by decide) (.next 'B' 1 (.next 'e' 2 (.last '5'))) (.inr rfl)
  have hoctal : IntegerText 10 [0, 1, 7] ['0', '1', '_', '7'] :=
    @IntegerText.mk 10 _ ['0', '1', '7'] ['0', '1', '_', '7'] []
      (by decide) (by decide) (.next '0' 0 (.next '1' 1 (.last '7'))) (.inl rfl)
  exact ⟨⟨hhex, read_integers.1 'x' 16 (by decide) _ _ hhex⟩, hoctal, read_integers.2.1 _ _ hoctal⟩

end LiveChain
