import LiveChain.Proofs.Number.Integers

/-!
# The number that a literal denotes

What a numeric literal without its separators denotes, said without reading it, and that this is the
number that is read unless the literal is too long.
-/

set_option autoImplicit false

namespace LiveChain

open Syntax Text

/-! ## Denotations -/

/-- The number that a literal without separators denotes: what its digits spell in their base, or the
double nearest to a decimal with a fraction or an exponent. -/
inductive Denotes : List Char → Number → Prop
  | based {letter : Char} {base : ℕ} {digits mark : List Char} {ds : List ℕ}
      (hletter : (letter, base) ∈ [('x', 16), ('X', 16), ('o', 8), ('O', 8), ('b', 2), ('B', 2)])
      (hspelled : digits.Forall₂ Spells ds) (hne : digits ≠ []) (hbelow : ∀ d ∈ ds, d < base)
      (hmark : mark = [] ∨ mark = ['n']) :
      Denotes ('0' :: letter :: (digits ++ mark)) (.int (spelledValue base ds))
  | integer {digits mark : List Char} {ds : List ℕ} (hspelled : digits.Forall₂ Spells ds)
      (hne : digits ≠ []) (hbelow : ∀ d ∈ ds, d < 10) (hmark : mark = [] ∨ mark = ['n']) :
      Denotes (digits ++ mark) (.int (spelledValue (if Legacy ds then 8 else 10) ds))
  | float {cs : List Char} {m : ℕ} {x : ℤ} (h : DecimalText cs m x)
      (hmark : ∃ c ∈ cs, c = '.' ∨ c = 'e' ∨ c = 'E') :
      Denotes cs (.float (.ofDecimal false m x))

/-- A decimal integer without separators that has more digits than are read. -/
inductive LongDecimal : List Char → Prop
  | mk {digits mark : List Char} {ds : List ℕ} (hspelled : digits.Forall₂ Spells ds)
      (hbelow : ∀ d ∈ ds, d < 10) (hlegacy : ¬ Legacy ds) (hlong : 4300 < ds.length)
      (hmark : mark = [] ∨ mark = ['n']) : LongDecimal (digits ++ mark)

/-! ## Spellings -/

theorem spells_of_isDigit {c : Char} (h : c.isDigit = true) :
    Spells c (c.toNat - 48) ∧ c.toNat - 48 < 10 := by
  have hdigits : ∀ d < 10, Spells (Char.ofNat (48 + d)) d := by decide
  obtain ⟨hlow, hhigh⟩ := toNat_of_isDigit h
  have hspells := hdigits (c.toNat - 48) (by omega)
  rw [Nat.add_sub_cancel' hlow, Char.ofNat_toNat] at hspells
  exact ⟨hspells, by omega⟩

theorem exists_spells_hex {c : Char} (h : isHex c = true) : ∃ d < 16, Spells c d := by
  have hsmall : ∀ i < 6, Spells (Char.ofNat (97 + i)) (10 + i) := by decide
  have hlarge : ∀ i < 6, Spells (Char.ofNat (65 + i)) (10 + i) := by decide
  have hletter : ∀ start, (∀ i < 6, Spells (Char.ofNat (start + i)) (10 + i)) →
      start ≤ c.toNat → c.toNat < start + 6 → ∃ d < 16, Spells c d := by
    intro start hspells hlow hhigh
    have hc := hspells (c.toNat - start) (by omega)
    rw [Nat.add_sub_cancel' hlow, Char.ofNat_toNat] at hc
    exact ⟨_, by omega, hc⟩
  simp only [isHex, Bool.or_eq_true, Bool.and_eq_true, decide_eq_true_eq, Char.le_def,
    UInt32.le_iff_toNat_le] at h
  rcases h with (hdigit | ⟨hlow, hhigh⟩) | ⟨hlow, hhigh⟩
  · obtain ⟨hspells, hlt⟩ := spells_of_isDigit hdigit
    exact ⟨_, by omega, hspells⟩
  · exact hletter 97 hsmall hlow (Nat.lt_succ_of_le hhigh)
  · exact hletter 65 hlarge hlow (Nat.lt_succ_of_le hhigh)

/-- The digits behind the letter of a base spell digits of this base. -/
theorem exists_spells_base {letter : Char} {digit : Char → Bool}
    (h : digitsOfBase? letter = some digit) :
    ∃ base, (letter, base) ∈ [('x', 16), ('X', 16), ('o', 8), ('O', 8), ('b', 2), ('B', 2)] ∧
      ∀ c, digit c = true → ∃ d < base, Spells c d := by
  unfold digitsOfBase? at h
  split at h
  · next hx =>
    cases h
    exact ⟨16, by rcases hx with rfl | rfl <;> decide, fun c hc => exists_spells_hex hc⟩
  · split at h
    · next ho =>
      cases h
      refine ⟨8, by rcases ho with rfl | rfl <;> decide, fun c hc => ?_⟩
      have hrange : 48 ≤ c.toNat ∧ c.toNat ≤ 55 := by
        simpa [Char.le_def, UInt32.le_iff_toNat_le] using hc
      exact ⟨_, by omega, (spells_of_isDigit (isDigit_of_toNat (by omega))).1⟩
    · split at h
      · next hb =>
        cases h
        refine ⟨2, by rcases hb with rfl | rfl <;> decide, fun c hc => ?_⟩
        rcases Bool.or_eq_true_iff.mp hc with hc | hc
        · exact ⟨0, by decide, by rw [beq_iff_eq.mp hc]; decide⟩
        · exact ⟨1, by decide, by rw [beq_iff_eq.mp hc]; decide⟩
      · cases h

/-- Characters that each spell a digit spell digits together. -/
theorem exists_spelling {base : ℕ} {digits : List Char}
    (h : ∀ c ∈ digits, ∃ d < base, Spells c d) :
    ∃ ds, digits.Forall₂ Spells ds ∧ ∀ d ∈ ds, d < base := by
  induction digits with
  | nil => exact ⟨[], .nil, by simp⟩
  | cons c digits ih =>
    obtain ⟨⟨d, hd, hspells⟩, h⟩ := List.forall_mem_cons.mp h
    obtain ⟨ds, hspelled, hbelow⟩ := ih h
    exact ⟨d :: ds, .cons hspells hspelled, List.forall_mem_cons.mpr ⟨hd, hbelow⟩⟩

theorem exists_spelling_decimal {digits : List Char} (h : ∀ c ∈ digits, c.isDigit = true) :
    ∃ ds, digits.Forall₂ Spells ds ∧ ∀ d ∈ ds, d < 10 :=
  exists_spelling fun c hc =>
    have hspells := spells_of_isDigit (h c hc)
    ⟨_, hspells.2, hspells.1⟩

/-! ## Literals -/

theorem bare_of_filter {raw digits mark : List Char} {ds : List ℕ}
    (h : raw.filter (· ≠ '_') = digits ++ mark) (hspelled : digits.Forall₂ Spells ds)
    (hmark : mark = [] ∨ mark = ['n']) : NumberLiteral.bare raw = digits := by
  rcases hmark with rfl | rfl
  · rw [List.append_nil] at h
    rw [NumberLiteral.bare, h]
    refine if_neg fun hlast => ?_
    obtain ⟨d, -, hspells⟩ := exists_spells hspelled (List.mem_of_getLast? hlast)
    exact hspells.apart.2.1 rfl
  · exact bare_of_mark h

theorem LongDecimal.length {cs : List Char} (h : LongDecimal cs) : 4300 < cs.length := by
  obtain ⟨hspelled, -, -, hlong, -⟩ := h
  rw [List.length_append, hspelled.length_eq]
  omega

theorem LongDecimal.read_eq {raw : List Char} (h : LongDecimal (raw.filter (· ≠ '_'))) :
    ∃ count, NumberLiteral.read raw = .error (.tooLong count) := by
  generalize htext : raw.filter (· ≠ '_') = text at h
  obtain @⟨digits, mark, ds, hspelled, hbelow, hlegacy, hlong, hmark⟩ := h
  have hne : digits ≠ [] := by
    rintro rfl
    rw [← hspelled.length_eq] at hlong
    exact absurd hlong (by simp)
  have hread := read_digits (bare_of_filter htext hspelled hmark) hspelled hne hbelow
  rw [if_neg hlegacy, if_neg (Nat.not_le_of_lt hlong)] at hread
  exact ⟨_, hread⟩

/-- Decimal digits and perhaps a mark denote an integer, which is read unless there are too many
digits. -/
theorem denotes_digits {raw digits mark : List Char} (h : raw.filter (· ≠ '_') = digits ++ mark)
    (hdigits : ∀ c ∈ digits, c.isDigit = true) (hne : digits ≠ [])
    (hmark : mark = [] ∨ mark = ['n']) :
    ∃ m, Denotes (digits ++ mark) m ∧
      (NumberLiteral.read raw = .ok m ∨ LongDecimal (digits ++ mark)) := by
  obtain ⟨ds, hspelled, hbelow⟩ := exists_spelling_decimal hdigits
  have hread := read_digits (bare_of_filter h hspelled hmark) hspelled hne hbelow
  refine ⟨_, .integer hspelled hne hbelow hmark, ?_⟩
  by_cases hlegacy : Legacy ds
  · rw [if_pos hlegacy] at hread ⊢
    exact .inl hread
  · rw [if_neg hlegacy] at hread ⊢
    by_cases hlong : ds.length ≤ 4300
    · rw [if_pos hlong] at hread
      exact .inl hread
    · exact .inr (.mk hspelled hbelow hlegacy (Nat.lt_of_not_le hlong) hmark)

/-- A literal denotes a number, and this number is read unless the literal is a decimal integer of too
many digits. -/
theorem denotes_of_numeral {raw : List Char} (h : Numeral raw) :
    ∃ m, Denotes (raw.filter (· ≠ '_')) m ∧
      (NumberLiteral.read raw = .ok m ∨ LongDecimal (raw.filter (· ≠ '_'))) := by
  cases h with
  | @based letter digit digits mark hletter h hne hmark =>
    obtain ⟨hbare, hne', hall⟩ := bare_of_base hletter h hne hmark
    obtain ⟨base, hbase, hspells⟩ := exists_spells_base hletter
    obtain ⟨ds, hspelled, hbelow⟩ := exists_spelling fun c hc => hspells c (hall c hc)
    obtain ⟨hsep, hvalue⟩ := baseOf?_of_mem hbase
    have hkept : mark.filter (· ≠ '_') = mark := by rcases hmark with rfl | rfl <;> rfl
    have hfilter : ('0' :: letter :: (digits ++ mark)).filter (· ≠ '_') =
        '0' :: letter :: (digits.filter (· ≠ '_') ++ mark) := by
      rw [List.filter_cons_of_pos (by decide), List.filter_cons_of_pos (by simpa using hsep),
        List.filter_append, hkept]
    rw [hfilter]
    exact ⟨_, .based hbase hspelled hne' hbelow hmark,
      .inl (read_based_digits hbare hvalue hspelled hne' hbelow)⟩
  | @big whole h hne =>
    obtain ⟨hdigits, hne'⟩ := h.filter (by decide)
    have hfilter : (whole ++ ['n']).filter (· ≠ '_') = whole.filter (· ≠ '_') ++ ['n'] := by
      rw [List.filter_append]
      rfl
    rw [hfilter]
    exact denotes_digits hfilter (hdigits.all_isDigit (by simp)) (hne' hne) (.inr rfl)
  | @plain whole fraction exponent h hfraction hexponent hne =>
    by_cases htail : fraction ++ exponent = []
    · obtain ⟨hdigits, hne'⟩ := h.filter (by decide)
      obtain ⟨rfl, rfl⟩ := List.append_eq_nil_iff.mp htail
      simp only [List.append_nil]
      have hdenotes := denotes_digits (List.append_nil _).symm (hdigits.all_isDigit (by simp))
        (hne' (by simpa using hne)) (.inl rfl)
      rwa [List.append_nil] at hdenotes
    · obtain ⟨m, x, hdecimal, hmark⟩ := decimalText_filter h hfraction hexponent hne htail
      have hchars := List.forall_mem_append.mpr
        ⟨h.chars, List.forall_mem_append.mpr ⟨hfraction.chars, hexponent.chars⟩⟩
      obtain ⟨hform, hvalue⟩ := hdecimal.formOfBare_eq hmark
      refine ⟨_, .float hdecimal hmark, .inl ?_⟩
      rw [NumberLiteral.read, NumberLiteral.value?, NumberLiteral.excess?, NumberLiteral.form,
        bare_of_plain (not_mem_n hchars), hform, hvalue]

end LiveChain
