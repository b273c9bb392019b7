import LiveChain.Scan.Spans

/-!
# Where the values of a text stand

A lexeme that is a value takes at least one character and none past the end of its text. So the
values that a scan finds are non-empty stretches of the text, each ending before the next starts.
-/

set_option autoImplicit false

namespace LiveChain.Scan

open Text

/-! ## Numbers -/

theorem runLength_le (digit : Char → Bool) (cs : List Char) : runLength digit cs ≤ cs.length :=
  (List.takeWhile_sublist _).length_le

theorem suffixLength_le (cs : List Char) : suffixLength cs ≤ cs.length := by
  unfold suffixLength
  split <;> simp

theorem digitsLength_le (cs : List Char) : digitsLength cs ≤ cs.length := by
  cases cs with
  | nil => simp [digitsLength]
  | cons c cs =>
    have h := runLength_le isDecimal cs
    simp only [digitsLength, List.length_cons]
    split <;> omega

theorem exponentLength_le (cs : List Char) : exponentLength cs ≤ cs.length := by
  unfold exponentLength
  split
  · next e cs =>
    have h := digitsLength_le (cs.drop 1)
    have h' := digitsLength_le (cs.drop 0)
    rw [List.length_drop] at h h'
    rw [List.length_cons]
    split
    · -- a sign is counted only when it stands there, so dropping it leaves the digits room
      split <;> simp only [List.length_cons] at h h' ⊢ <;> split <;> omega
    · exact Nat.zero_le _
  · exact Nat.zero_le _

theorem fractionLength_le (cs : List Char) : fractionLength cs ≤ cs.length := by
  unfold fractionLength
  split
  · next cs =>
    have h := runLength_le isDecimal cs
    simp only [List.length_cons]
    omega
  · exact Nat.zero_le _

theorem withTail_extent (cs : List Char) {n : Nat} (hn : n ≤ cs.length) :
    n ≤ withTail cs n ∧ withTail cs n ≤ cs.length := by
  have he := exponentLength_le (cs.drop n)
  have hs := suffixLength_le (cs.drop (n + exponentLength (cs.drop n)))
  rw [List.length_drop] at he hs
  simp only [withTail]
  constructor <;> omega

theorem decimalLength?_extent {cs : List Char} {n : Nat} (h : decimalLength? cs = some n) :
    0 < n ∧ n ≤ cs.length := by
  cases cs with
  | nil => simp [decimalLength?] at h
  | cons c cs =>
    rw [decimalLength?] at h
    split at h
    · have hr := runLength_le isDecimal cs
      have hf := fractionLength_le ((c :: cs).drop (1 + runLength isDecimal cs))
      rw [List.length_drop, List.length_cons] at hf
      have hn : 1 + runLength isDecimal cs +
          fractionLength ((c :: cs).drop (1 + runLength isDecimal cs)) ≤ (c :: cs).length := by
        rw [List.length_cons]
        omega
      have ht := withTail_extent (c :: cs) hn
      simp only [Option.some.injEq] at h
      omega
    · split at h
      · have hd := digitsLength_le cs
        simp only at h
        split at h
        · cases h
        · have hn : 1 + digitsLength cs ≤ (c :: cs).length := by
            rw [List.length_cons]
            omega
          have ht := withTail_extent (c :: cs) hn
          simp only [Option.some.injEq] at h
          omega
      · cases h

theorem prefixedLength?_extent {cs : List Char} {n : Nat} (h : prefixedLength? cs = some n) :
    0 < n ∧ n ≤ cs.length := by
  unfold prefixedLength? at h
  split at h
  · next c cs =>
    split at h
    · next digit _ =>
      have hr := runLength_le digit cs
      have hs := suffixLength_le (cs.drop (runLength digit cs))
      rw [List.length_drop] at hs
      simp only at h
      split at h
      · cases h
      · simp only [Option.some.injEq] at h
        simp only [List.length_cons]
        omega
    · cases h
  · cases h

theorem numberLength?_extent {cs : List Char} {n : Nat} (h : numberLength? cs = some n) :
    0 < n ∧ n ≤ cs.length := by
  unfold numberLength? at h
  rcases Option.or_eq_some_iff.mp h with h | ⟨_, h⟩
  · exact prefixedLength?_extent h
  · exact decimalLength?_extent h

theorem numberAt?_extent {cs : List Char} {n : Nat} (h : numberAt? cs = some n) :
    0 < n ∧ n ≤ cs.length := by
  unfold numberAt? at h
  split at h
  · cases h
  · split at h
    · exact numberLength?_extent h
    · cases h
  · split at h
    · exact numberLength?_extent h
    · cases h

/-! ## Signs and names -/

/-- A gap that goes on behind one character stays in the text. -/
theorem gap_behind_le {skip n : Nat} {c : Char} {cs : List Char}
    (ih : ∀ {m : Nat}, gapFrom? skip cs = some m → m ≤ cs.length)
    (h : (gapFrom? skip cs).map (· + 1) = some n) : n ≤ (c :: cs).length := by
  obtain ⟨m, hm, rfl⟩ := Option.map_eq_some_iff.mp h
  have := ih hm
  rw [List.length_cons]
  omega

theorem gapFrom?_le {skip : Nat} {cs : List Char} {n : Nat} (h : gapFrom? skip cs = some n) :
    n ≤ cs.length := by
  induction cs generalizing skip n with
  | nil =>
    simp only [gapFrom?, Option.some.injEq] at h
    omega
  | cons c cs ih =>
    cases skip with
    | succ skip => exact gap_behind_le ih h
    | zero =>
      unfold gapFrom? at h
      split at h
      · exact gap_behind_le ih h
      · split at h
        · split at h
          · split at h
            · exact gap_behind_le ih h
            · cases h
          · split at h
            · exact gap_behind_le ih h
            · cases h
          · cases h
            exact Nat.zero_le _
        · cases h
          exact Nat.zero_le _

theorem signedNumber?_extent {cs : List Char} {n : Nat} (h : signedNumber? cs = some n) :
    0 < n ∧ n ≤ cs.length + 1 := by
  unfold signedNumber? at h
  split at h
  · next gap hgap =>
    obtain ⟨m, hm, rfl⟩ := Option.map_eq_some_iff.mp h
    have hg := gapFrom?_le hgap
    have hn := numberAt?_extent hm
    rw [List.length_drop] at hn
    omega
  · cases h

theorem nameLength_le (cs : List Char) : nameLength cs ≤ cs.length := by
  cases cs with
  | nil => simp [nameLength]
  | cons c cs =>
    have h : (cs.takeWhile isNamePart).length ≤ cs.length :=
      (List.takeWhile_sublist _).length_le
    simp only [nameLength, List.length_cons]
    split <;> omega

/-! ## Lexemes -/

/-- A lexeme that is no value, or one of at least one and at most `n` characters. -/
def Lexeme.Fits (l : Lexeme) (n : Nat) : Prop := l.kind ≠ none → 0 < l.length ∧ l.length ≤ n

theorem Lexeme.Fits.of_kind {l : Lexeme} {n : Nat} (h : l.kind = none) : l.Fits n :=
  fun hne => absurd h hne

theorem templateLexeme_kind (mode : Mode) (before : Nat) (cs : List Char) :
    (templateLexeme mode before cs).kind = none := by
  unfold templateLexeme
  split
  split <;> rfl

theorem punctuation_kind (mode : Mode) (c : Char) (cs : List Char) :
    (punctuation mode c cs).kind = none := by
  unfold punctuation
  repeat' split
  all_goals first | rfl | exact templateLexeme_kind _ _ _

theorem wordLexeme_fits (names : SlotNames) (mode : Mode) (c : Char) (cs : List Char) :
    (wordLexeme names mode c cs).Fits (cs.length + 1) := by
  have hle := nameLength_le (c :: cs)
  rw [List.length_cons] at hle
  simp only [wordLexeme]
  split
  · next hn =>
    intro _
    exact ⟨Nat.pos_of_ne_zero hn, hle⟩
  · split
    · exact .of_kind rfl
    · exact .of_kind (punctuation_kind _ _ _)

theorem signLexeme_fits (names : SlotNames) (mode : Mode) (c : Char) (cs : List Char) :
    (signLexeme names mode c cs).Fits (cs.length + 1) := by
  unfold signLexeme
  split
  · exact .of_kind rfl
  · exact .of_kind rfl
  · split
    · next hn => exact fun _ => signedNumber?_extent hn
    · exact wordLexeme_fits _ _ _ _
  · exact wordLexeme_fits _ _ _ _

theorem solidLexeme_fits (names : SlotNames) (mode : Mode) (c : Char) (cs : List Char) :
    (solidLexeme names mode c cs).Fits (cs.length + 1) := by
  unfold solidLexeme
  split
  · exact .of_kind rfl
  · split
    · exact .of_kind (templateLexeme_kind _ _ _)
    · split
      · exact .of_kind rfl
      · split
        · next hn => exact fun _ => numberAt?_extent hn
        · exact signLexeme_fits _ _ _ _

/-- A lexeme that is a value is not empty and ends in its text. -/
theorem lexeme_fits (names : SlotNames) (mode : Mode) (c : Char) (cs : List Char) :
    (lexeme names mode c cs).Fits (cs.length + 1) := by
  unfold lexeme
  split
  · exact .of_kind rfl
  · split
    · exact .of_kind rfl
    · exact .of_kind rfl
    · exact solidLexeme_fits _ _ _ _

theorem lexeme_extent {names : SlotNames} {mode : Mode} {c : Char} {cs : List Char}
    {kind : ValueKind} (h : (lexeme names mode c cs).kind = some kind) :
    0 < (lexeme names mode c cs).length ∧ (lexeme names mode c cs).length ≤ cs.length + 1 :=
  lexeme_fits names mode c cs (by rw [h]; exact Option.some_ne_none kind)

/-! ## The values of a text -/

theorem foundFrom_extent {names : SlotNames} {mode : Mode} {skip offset : Nat} {cs : List Char}
    {f : Found} (h : f ∈ foundFrom names mode skip offset cs) :
    offset + skip ≤ f.start ∧ f.start < f.stop ∧ f.stop ≤ offset + cs.length := by
  induction cs generalizing mode skip offset with
  | nil => simp [foundFrom] at h
  | cons c cs ih =>
    rw [List.length_cons]
    cases skip with
    | succ skip =>
      have hlater : f ∈ foundFrom names mode skip (offset + 1) cs := h
      have := ih hlater
      omega
    | zero =>
      simp only [foundFrom] at h
      split at h
      · next kind hkind =>
        have hl := lexeme_extent hkind
        rcases List.mem_cons.mp h with rfl | h
        · simp only
          omega
        · have := ih h
          omega
      · have := ih h
        omega

theorem foundFrom_apart (names : SlotNames) (mode : Mode) (skip offset : Nat) (cs : List Char) :
    (foundFrom names mode skip offset cs).Pairwise fun f g => f.stop ≤ g.start := by
  induction cs generalizing mode skip offset with
  | nil => simp [foundFrom]
  | cons c cs ih =>
    cases skip with
    | succ skip => exact ih mode skip (offset + 1)
    | zero =>
      simp only [foundFrom]
      split
      · next kind hkind =>
        have hl := lexeme_extent hkind
        refine List.pairwise_cons.mpr ⟨?_, ih _ _ _⟩
        intro g hg
        have := foundFrom_extent hg
        simp only
        omega
      · exact ih _ _ _

theorem found_extent {names : SlotNames} {text : List Char} {f : Found}
    (h : f ∈ found names text) : f.start < f.stop ∧ f.stop ≤ text.length := by
  have := foundFrom_extent h
  omega

end LiveChain.Scan

namespace LiveChain

/-! ## Spans -/

/-- Spans that stand in a text of a given length one after the other, each with at least one
character. -/
structure Laid (length : Nat) (spans : List ValueSpan) : Prop where
  inside : ∀ span ∈ spans, 0 ≤ span.start ∧ span.start < span.stop ∧ span.stop ≤ length
  apart : spans.Pairwise fun a b => a.stop ≤ b.start

theorem Laid.tail {length : Nat} {span : ValueSpan} {rest : List ValueSpan}
    (h : Laid length (span :: rest)) : Laid length rest :=
  ⟨fun s hs => h.inside s (List.mem_cons_of_mem _ hs), (List.pairwise_cons.mp h.apart).2⟩

theorem valueSpans_getElem? (names : SlotNames) (keywords : List String) (text : List Char)
    (i : Nat) : (valueSpans names keywords text)[i]? =
      (((Scan.found names text).filter fun f => !onDirective keywords text f.start)[i]?).map
        fun f => f.numbered text i := by
  rw [valueSpans, List.getElem?_mapIdx]

theorem mem_valueSpans {names : SlotNames} {keywords : List String} {text : List Char}
    {span : ValueSpan} (h : span ∈ valueSpans names keywords text) :
    ∃ f ∈ Scan.found names text, ∃ i : Nat, span = f.numbered text i := by
  obtain ⟨i, hi⟩ := List.mem_iff_getElem?.mp h
  rw [valueSpans_getElem?] at hi
  obtain ⟨f, hf, rfl⟩ := Option.map_eq_some_iff.mp hi
  exact ⟨f, (List.mem_filter.mp (List.mem_of_getElem? hf)).1, i, rfl⟩

/-- The spans of a text stand in it one after the other. -/
theorem valueSpans_laid (names : SlotNames) (keywords : List String) (text : List Char) :
    Laid text.length (valueSpans names keywords text) := by
  refine ⟨?_, ?_⟩
  · intro span hspan
    obtain ⟨f, hf, i, rfl⟩ := mem_valueSpans hspan
    have := Scan.found_extent hf
    simp only [Scan.Found.numbered]
    omega
  · have hf : ((Scan.found names text).filter fun f => !onDirective keywords text f.start).Pairwise
        fun f g => f.stop ≤ g.start :=
      (Scan.foundFrom_apart names Scan.Mode.initial 0 0 text).filter _
    rw [List.pairwise_iff_getElem] at hf ⊢
    intro i j hi hj hij
    simp only [valueSpans, List.length_mapIdx] at hi hj
    simp only [valueSpans, List.getElem_mapIdx, Scan.Found.numbered]
    exact_mod_cast hf i j hi hj hij

/-- The span at a place in the list carries the number of that place. -/
theorem valueSpans_index {names : SlotNames} {keywords : List String} {text : List Char}
    {i : Nat} {span : ValueSpan} (h : (valueSpans names keywords text)[i]? = some span) :
    span.index = i := by
  rw [valueSpans_getElem?] at h
  obtain ⟨f, _, rfl⟩ := Option.map_eq_some_iff.mp h
  rfl

end LiveChain
