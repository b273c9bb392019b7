import LiveChain.Proofs.Scan.Pattern
import LiveChain.Proofs.Scan.Rescan
import LiveChain.Proofs.Text.Lines
import Mathlib.Logic.Function.Iterate

/-!
# What a scan finds in any text

The text may be malformed, with literals and comments that are not closed. Every lexeme takes at
least one character, so a scan goes through to the end; and whatever it takes for a value is spelled
like one and stands outside the directive lines.
-/

set_option autoImplicit false

namespace LiveChain.Scan

open Text

/-! ## Progress -/

/-- What is remembered and what is left of a text behind its first lexeme. -/
def pass (names : SlotNames) : Mode × List Char → Mode × List Char
  | (mode, []) => (mode, [])
  | (mode, c :: cs) =>
    ((lexeme names mode c cs).next, (c :: cs).drop (lexeme names mode c cs).length)

section Progress

variable (names : SlotNames) (mode : Mode)

theorem lexeme_advances (c : Char) (cs : List Char) :
    0 < (lexeme names mode c cs).length ∧
      (lexeme names mode c cs).length ≤ (c :: cs).length := by
  obtain ⟨front, rest, hsplit, hlength, hread⟩ := lexeme_isRead names mode c cs
  have hpos := List.length_pos_iff.mpr hread.ne_nil
  rw [hsplit, List.length_append]
  omega

theorem foundFrom_pass (offset : Nat) (c : Char) (cs : List Char) :
    foundFrom names mode 0 offset (c :: cs) =
      ((lexeme names mode c cs).kind.map fun kind =>
        ⟨offset, offset + (lexeme names mode c cs).length, kind⟩).toList ++
      foundFrom names (pass names (mode, c :: cs)).1 0 (offset + (lexeme names mode c cs).length)
        (pass names (mode, c :: cs)).2 := by
  obtain ⟨front, rest, hsplit, hlength, hread⟩ := lexeme_isRead names mode c cs
  have hpass : pass names (mode, c :: cs) = ((lexeme names mode c cs).next, rest) := by
    simp only [pass]
    rw [← hlength, hsplit, List.drop_left]
  rw [hpass, ← hlength, hsplit]
  exact foundFrom_reads hread offset

/-- As many lexemes as a text has characters leave nothing of it. -/
theorem pass_ends (n : Nat) (rest : List Char) (h : rest.length ≤ n) :
    ((pass names)^[n] (mode, rest)).2 = [] := by
  induction n generalizing mode rest with
  | zero => exact List.length_eq_zero_iff.mp (Nat.le_zero.mp h)
  | succ n ih =>
    rw [Function.iterate_succ_apply]
    apply ih
    cases rest with
    | nil => exact Nat.zero_le n
    | cons c cs =>
      have := lexeme_advances names mode c cs
      show ((c :: cs).drop _).length ≤ n
      rw [List.length_drop]
      omega

end Progress

/-! ## Spelling of values -/

/-- How the values of a kind are written: a number perhaps behind a minus sign with white space and
closed comments, a reference as a name of a slot of that kind. -/
structure Spelled (names : SlotNames) (kind : ValueKind) (text : List Char) : Prop where
  number : kind = .number → ∃ sign digits, text = sign ++ digits ∧
    (sign = [] ∨ ∃ gap, Gap gap ∧ sign = '-' :: gap) ∧ NumberPattern digits
  reference : kind ≠ .number →
    NamePattern text ∧ names.kindOf? (String.ofList text) = some kind

section Spelled

variable {names : SlotNames} {front rest : List Char} {kind : ValueKind}

theorem pattern_of_numberAt? (h : numberAt? (front ++ rest) = some front.length) :
    NumberPattern front := by
  have hpattern := numberAt?_pattern h
  rwa [List.take_left] at hpattern

theorem pattern_of_nameLength (hne : front ≠ [])
    (h : nameLength (front ++ rest) = front.length) : NamePattern front := by
  obtain ⟨c, cs, rfl⟩ := List.exists_cons_of_ne_nil hne
  obtain ⟨hstart, hparts, -⟩ := nameLength_cons.mp h
  exact .cons hstart hparts

theorem Reads.spelled {mode next : Mode} (h : Reads names mode front rest (some kind) next) :
    Spelled names kind front := by
  generalize hsome : some kind = value at h
  cases h with
  | number h =>
    cases hsome
    refine ⟨fun _ => ?_, fun hne => absurd rfl hne⟩
    exact ⟨[], front, rfl, .inl rfl, pattern_of_numberAt? h⟩
  | @signed gap digits _ hmode hgap h =>
    cases hsome
    refine ⟨fun _ => ?_, fun hne => absurd rfl hne⟩
    exact ⟨'-' :: gap, digits, rfl, .inr ⟨gap, hgap, rfl⟩, pattern_of_numberAt? h⟩
  | name hne h =>
    split at hsome
    · cases hsome
    · refine ⟨fun hnumber => ?_, fun _ => ⟨pattern_of_nameLength hne h, hsome.symm⟩⟩
      rw [hnumber] at hsome
      exact absurd hsome.symm (kindOf?_ne_number _ _)
  | _ => cases hsome

theorem foundFrom_spelled {mode : Mode} (before : List Char) {cs : List Char} {f : Found}
    (h : f ∈ foundFrom names mode 0 before.length cs) :
    Spelled names f.kind (slice (before ++ cs) f.start f.stop) := by
  match cs with
  | [] => cases h
  | c :: cs =>
    obtain ⟨front, rest, hsplit, -, hread⟩ := lexeme_isRead names mode c cs
    have hshorter : rest.length < (c :: cs).length := by
      have := List.length_pos_iff.mpr hread.ne_nil
      rw [hsplit, List.length_append]
      omega
    rw [hsplit, foundFrom_reads hread] at h
    rw [hsplit]
    rcases List.mem_append.mp h with hfirst | hlater
    · cases hkind : (lexeme names mode c cs).kind with
      | none => simp [hkind] at hfirst
      | some kind =>
        rw [hkind] at hfirst hread
        obtain rfl : f = ⟨before.length, before.length + front.length, kind⟩ := by
          simpa using hfirst
        simp only [slice_middle]
        exact hread.spelled
    · rw [← List.length_append] at hlater
      rw [← List.append_assoc]
      exact foundFrom_spelled (before ++ front) hlater
termination_by cs.length
decreasing_by exact hshorter

theorem found_spelled {text : List Char} {f : Found} (h : f ∈ found names text) :
    Spelled names f.kind (slice text f.start f.stop) :=
  foundFrom_spelled [] h

end Spelled

end LiveChain.Scan

namespace LiveChain

open Text Scan

/-! ## Spans -/

/-- What is true of the span with number `i` that a scan finds in a text. -/
structure WellFormed (names : SlotNames) (keywords : List String) (text : List Char) (i : Nat)
    (span : ValueSpan) : Prop where
  index : span.index = i
  inside : 0 ≤ span.start ∧ span.start < span.stop ∧ span.stop ≤ text.length
  content : span.text.toList = slice text span.start.toNat span.stop.toNat
  undirected : ∀ before line after, IsLine text before line after →
    before.length ≤ span.start → span.start ≤ before.length + line.length →
      ∀ keyword ∈ keywords, ¬ keyword.toList <:+: line
  spelled : Spelled names span.kind span.text.toList

section WellFormed

variable {names : SlotNames} {keywords : List String} {text : List Char} {span : ValueSpan}

theorem onDirective_of_mem (h : span ∈ valueSpans names keywords text) :
    onDirective keywords text span.start.toNat = false := by
  obtain ⟨i, hi⟩ := List.mem_iff_getElem?.mp h
  rw [valueSpans_getElem?] at hi
  obtain ⟨f, hf, rfl⟩ := Option.map_eq_some_iff.mp hi
  have hkept := (List.mem_filter.mp (List.mem_of_getElem? hf)).2
  simpa [Found.numbered] using hkept

theorem spelled_of_mem (h : span ∈ valueSpans names keywords text) :
    Spelled names span.kind span.text.toList := by
  obtain ⟨f, hf, i, rfl⟩ := mem_valueSpans h
  rw [numbered_text h]
  exact found_spelled hf

/-- No span starts on a line with a directive keyword. -/
theorem not_directive_of_mem (h : span ∈ valueSpans names keywords text)
    {before line after : List Char} (hline : IsLine text before line after)
    (hstart : before.length ≤ span.start) (hstop : span.start ≤ before.length + line.length) :
    isDirective keywords line = false := by
  rw [← hline.onDirective_eq keywords (show before.length ≤ span.start.toNat by omega) (by omega)]
  exact onDirective_of_mem h

theorem wellFormed_of_getElem? {i : Nat}
    (h : (valueSpans names keywords text)[i]? = some span) :
    WellFormed names keywords text i span := by
  have hmem := List.mem_of_getElem? h
  refine ⟨valueSpans_index h, (valueSpans_laid names keywords text).inside span hmem,
    numbered_text hmem, ?_, spelled_of_mem hmem⟩
  intro before line after hline hstart hstop keyword hkeyword hinfix
  have hnone := not_directive_of_mem hmem hline hstart hstop
  rw [isDirective_iff.mpr ⟨keyword, hkeyword, hinfix⟩] at hnone
  cases hnone

end WellFormed

/-- A scan of any text passes at least one character with every lexeme and none beyond the end, its
values are those of the lexemes passed one after the other, and it ends. The spans that it numbers are
well formed, and each ends before the next starts. -/
theorem valueSpans_wellFormed (names : SlotNames) (keywords : List String) (text : List Char) :
    (∀ mode c cs, 0 < (lexeme names mode c cs).length ∧
      (lexeme names mode c cs).length ≤ (c :: cs).length) ∧
    (∀ mode offset c cs, foundFrom names mode 0 offset (c :: cs) =
      ((lexeme names mode c cs).kind.map fun kind =>
        ⟨offset, offset + (lexeme names mode c cs).length, kind⟩).toList ++
      foundFrom names (pass names (mode, c :: cs)).1 0 (offset + (lexeme names mode c cs).length)
        (pass names (mode, c :: cs)).2) ∧
    ((pass names)^[text.length] (Mode.initial, text)).2 = [] ∧
    (∀ i span, (valueSpans names keywords text)[i]? = some span →
      WellFormed names keywords text i span) ∧
    (valueSpans names keywords text).Pairwise fun a b => a.stop ≤ b.start :=
  ⟨lexeme_advances names, foundFrom_pass names, pass_ends names _ _ text (Nat.le_refl _),
    fun _ _ h => wellFormed_of_getElem? h, (valueSpans_laid names keywords text).apart⟩

end LiveChain
