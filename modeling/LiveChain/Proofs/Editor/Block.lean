import LiveChain.Editor.Range
import Mathlib.Data.List.TakeWhile
import Mathlib.Tactic.ByContra

/-!
# Blocks of lines

The block around a cursor is the longest run of lines that are not blank, whatever the line of the
cursor itself is, and every line of the block that is not blank leads to the same block.
-/

set_option autoImplicit false

namespace LiveChain.Editor

open Text

variable {textLines : List (List Char)}

/-! ## Blank lines -/

/-- There is a line with an index, and it holds nothing but white space. -/
def BlankAt (textLines : List (List Char)) (i : Nat) : Prop :=
  ∃ line, textLines[i]? = some line ∧ ∀ c ∈ line, isBlank c = true

theorem isBlankLine_iff (line : List Char) :
    isBlankLine line = true ↔ ∀ c ∈ line, isBlank c = true := by
  have hstrip : isBlankLine line = true ↔ ∀ c ∈ line.dropWhile isBlank, isBlank c = true := by
    rw [isBlankLine, strip, List.isEmpty_iff, List.reverse_eq_nil_iff, List.dropWhile_eq_nil_iff]
    simp only [List.mem_reverse]
  constructor
  · intro h c hc
    rw [← List.takeWhile_append_dropWhile (p := isBlank) (l := line)] at hc
    rcases List.mem_append.mp hc with hfront | hback
    · exact List.mem_takeWhile_imp hfront
    · exact hstrip.mp h c hback
  · intro h
    exact hstrip.mpr fun c hc => h c ((List.dropWhile_sublist isBlank).mem hc)

theorem blankAt_iff {i : Nat} {line : List Char} (hline : textLines[i]? = some line) :
    BlankAt textLines i ↔ isBlankLine line = true := by
  rw [isBlankLine_iff]
  constructor
  · rintro ⟨other, hother, hblank⟩
    rw [hline, Option.some.injEq] at hother
    exact hother ▸ hblank
  · exact fun h => ⟨line, hline, h⟩

/-! ## The two searches -/

/-- Upwards, lines are taken until one is blank or there is none left. -/
theorem blockStart?_spec {n : Nat} (hn : n ≤ textLines.length) :
    ∃ first, blockStart? textLines n = some first ∧ first ≤ n ∧
      (∀ i, first ≤ i → i < n → ¬ BlankAt textLines i) ∧
      (first = 0 ∨ BlankAt textLines (first - 1)) := by
  induction n with
  | zero => exact ⟨0, rfl, Nat.le_refl 0, fun i _ hi => absurd hi (Nat.not_lt_zero i), .inl rfl⟩
  | succ n ih =>
    have hline : textLines[n]? = some textLines[n] := List.getElem?_eq_getElem hn
    rw [blockStart?, hline]
    by_cases hblank : isBlankLine textLines[n] = true
    · refine ⟨n + 1, if_pos hblank, Nat.le_refl _, fun i hfirst hi => by omega, .inr ?_⟩
      exact (blankAt_iff hline).mpr hblank
    · obtain ⟨first, hstart, hle, htaken, hstop⟩ := ih (Nat.le_of_lt hn)
      refine ⟨first, (if_neg hblank).trans hstart, Nat.le_succ_of_le hle, fun i hfirst hi => ?_, hstop⟩
      rcases Nat.lt_succ_iff_lt_or_eq.mp hi with hlt | rfl
      · exact htaken i hfirst hlt
      · exact fun h => hblank ((blankAt_iff hline).mp h)

/-- Downwards, lines are taken until one is blank or there is none left. -/
theorem blockEnd?_spec {fuel n : Nat} (hn : n + fuel + 1 = textLines.length) :
    ∃ last : Nat, blockEnd? textLines fuel n = some (last : Int) ∧ n ≤ last ∧
      last < textLines.length ∧ (∀ i, n < i → i ≤ last → ¬ BlankAt textLines i) ∧
      (last + 1 = textLines.length ∨ BlankAt textLines (last + 1)) := by
  induction fuel generalizing n with
  | zero => exact ⟨n, rfl, Nat.le_refl n, by omega, fun i hi hle => by omega, .inl hn⟩
  | succ fuel ih =>
    have hnext : n + 1 < textLines.length := by omega
    have hline : textLines[n + 1]? = some textLines[n + 1] := List.getElem?_eq_getElem hnext
    have hentry : entry? textLines ((n : Int) + 1) = some textLines[n + 1] :=
      (entry?_of_nonneg (Int.natCast_nonneg (n + 1))).trans hline
    rw [blockEnd?, hentry]
    by_cases hblank : isBlankLine textLines[n + 1] = true
    · refine ⟨n, if_pos hblank, Nat.le_refl n, by omega, fun i hi hle => by omega, .inr ?_⟩
      exact (blankAt_iff hline).mpr hblank
    · obtain ⟨last, hend, hle, hlt, htaken, hstop⟩ := @ih (n + 1) (by omega)
      refine ⟨last, (if_neg hblank).trans hend, Nat.le_of_succ_le hle, hlt, fun i hi hlast => ?_, hstop⟩
      rcases Nat.eq_or_lt_of_le (Nat.succ_le_of_lt hi) with rfl | hbelow
      · exact fun h => hblank ((blankAt_iff hline).mp h)
      · exact htaken i hbelow hlast

/-! ## Blocks -/

/-- The lines from `first` up to `stop` are around the cursor, none of them is blank but perhaps the
one of the cursor, and the run of lines ends on both sides at a blank line or at the edge. -/
structure BlockAround (textLines : List (List Char)) (cursor first stop : Nat) : Prop where
  first_le : first ≤ cursor
  lt_stop : cursor < stop
  stop_le : stop ≤ textLines.length
  not_blank : ∀ i, first ≤ i → i < stop → i ≠ cursor → ¬ BlankAt textLines i
  above : first = 0 ∨ BlankAt textLines (first - 1)
  below : stop = textLines.length ∨ BlankAt textLines stop

namespace BlockAround

variable {cursor other first first' stop stop' p : Nat}

/-- A run of lines that are not blank does not reach up beyond a block: it would hold the blank line
above it. -/
theorem first_le_of_run (h : BlockAround textLines cursor first stop) (hp : first ≤ p) {n : Nat}
    (hrun : ∀ i, n ≤ i → i < p → ¬ BlankAt textLines i) : first ≤ n := by
  by_contra hlt
  rcases h.above with hzero | hblank
  · omega
  · exact hrun (first - 1) (by omega) (by omega) hblank

theorem le_stop_of_run (h : BlockAround textLines cursor first stop) (hp : p < stop) {n : Nat}
    (hn : n ≤ textLines.length) (hrun : ∀ i, p < i → i < n → ¬ BlankAt textLines i) : n ≤ stop := by
  by_contra hlt
  rcases h.below with hedge | hblank
  · omega
  · exact hrun stop hp (by omega) hblank

/-- The blocks around two lines are the same if one of them has the other line, and its own line is
not blank. -/
theorem unique (h : BlockAround textLines cursor first stop)
    (h' : BlockAround textLines other first' stop') (hcursor : ¬ BlankAt textLines cursor)
    (hfirst : first ≤ other) (hstop : other < stop) : first' = first ∧ stop' = stop := by
  have hrun : ∀ i, first ≤ i → i < stop → ¬ BlankAt textLines i := by
    intro i hi hlt
    rcases eq_or_ne i cursor with rfl | hne
    · exact hcursor
    · exact h.not_blank i hi hlt hne
  have hrun' : ∀ i, first' ≤ i → i < stop' → i ≠ other → ¬ BlankAt textLines i := h'.not_blank
  have hup := h'.first_le_of_run h'.first_le fun i hi hlt => hrun i hi (by omega)
  have hup' := h.first_le_of_run hfirst fun i hi hlt =>
    hrun' i hi (lt_trans hlt h'.lt_stop) (Nat.ne_of_lt hlt)
  have hdown := h'.le_stop_of_run h'.lt_stop h.stop_le fun i hlt hi => hrun i (by omega) hi
  have hdown' := h.le_stop_of_run hstop h'.stop_le fun i hlt hi =>
    hrun' i (by have := h'.first_le; omega) hi (Nat.ne_of_gt hlt)
  exact ⟨Nat.le_antisymm hup hup', Nat.le_antisymm hdown' hdown⟩

end BlockAround

theorem blockRange?_block {cursor : Nat} (h : cursor < textLines.length) :
    ∃ first stop : Nat, blockRange? textLines cursor = some ⟨⟨first, 0⟩, ⟨stop, 0⟩⟩ ∧
      BlockAround textLines cursor first stop := by
  obtain ⟨first, hstart, hfirst, htaken, habove⟩ := blockStart?_spec (Nat.le_of_lt h)
  obtain ⟨last, hend, hlast, hlt, htaken', hbelow⟩ :=
    @blockEnd?_spec textLines (textLines.length - 1 - cursor) cursor (by omega)
  refine ⟨first, last + 1, ?_, hfirst, by omega, hlt, fun i hi hstop hne => ?_, habove, hbelow⟩
  · have hfuel : ((textLines.length : Int) - 1 - cursor).toNat = textLines.length - 1 - cursor := by
      omega
    rw [blockRange?, hfuel, hend, Int.toNat_natCast, hstart]
    split
    · next hzero =>
      obtain rfl : first = cursor := by omega
      rfl
    · rfl
  · rcases Nat.lt_or_gt_of_ne hne with hbefore | hbehind
    · exact htaken i hi hbefore
    · exact htaken' i hbehind (by omega)

/-- The range around a cursor on a line goes from the start of a line to the start of a line. It is
around the cursor and inside the document, no line of it is blank but perhaps the one of the cursor,
and it ends on both sides at a blank line or at the edge of the document. If the line of the cursor is
not blank, the range is the same for every line in it. -/
theorem blockRange?_maximal {cursor : Nat} (h : cursor < textLines.length) :
    ∃ first stop : Nat, blockRange? textLines cursor = some ⟨⟨first, 0⟩, ⟨stop, 0⟩⟩ ∧
      BlockAround textLines cursor first stop ∧
      (¬ BlankAt textLines cursor → ∀ other : Nat, first ≤ other → other < stop →
        blockRange? textLines other = blockRange? textLines cursor) := by
  obtain ⟨first, stop, hrange, hblock⟩ := blockRange?_block h
  refine ⟨first, stop, hrange, hblock, fun hcursor other hfirst hstop => ?_⟩
  obtain ⟨first', stop', hrange', hblock'⟩ :=
    blockRange?_block (Nat.lt_of_lt_of_le hstop hblock.stop_le)
  obtain ⟨rfl, rfl⟩ := hblock.unique hblock' hcursor hfirst hstop
  rw [hrange', hrange]

theorem blockRange?_maximal_between :
    let textLines := [['a'], [' '], ['b'], [' ', 'c'], ['\t']]
    (2 < textLines.length ∧ ¬ BlankAt textLines 2) ∧
      blockRange? textLines 2 = some ⟨⟨2, 0⟩, ⟨4, 0⟩⟩ ∧ BlockAround textLines 2 2 4 ∧
      blockRange? textLines 3 = blockRange? textLines 2 := by
  intro textLines
  have hinside : 2 < textLines.length := by decide
  have hcursor : ¬ BlankAt textLines 2 := fun h => absurd ((blankAt_iff rfl).mp h) (by decide)
  have hrange : blockRange? textLines 2 = some ⟨⟨2, 0⟩, ⟨4, 0⟩⟩ := by decide
  obtain ⟨first, stop, hfound, hblock, hsame⟩ := blockRange?_maximal hinside
  have hends := hrange.symm.trans hfound
  simp only [Option.some.injEq, Range.mk.injEq, Position.mk.injEq] at hends
  obtain rfl : first = 2 := by omega
  obtain rfl : stop = 4 := by omega
  exact ⟨⟨hinside, hcursor⟩, hrange, hblock, hsame hcursor 3 (by decide) (by decide)⟩

end LiveChain.Editor
