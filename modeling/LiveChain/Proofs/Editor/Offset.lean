import LiveChain.Proofs.Editor.Place
import LiveChain.Proofs.Syntax.Place
import Mathlib.Algebra.GroupWithZero.Nat

/-!
# Positions and offsets

Texts that are inserted one after the other move a position as both together do. In a document this
is counting: its first characters lead to the line and the column of their number, and no other
position of the document has that offset.
-/

set_option autoImplicit false

namespace LiveChain.Editor

open Text

/-! ## The position behind the lines of a text -/

namespace Position

/-- The position behind a text by its lines: a single line goes on in the line of the start, and
several end in a line of their own, as long as the last of them. -/
def behind (p : Position) (cs : List Char) : Position :=
  if (lines cs).length = 1 then ⟨p.line, p.column + cs.length⟩
  else ⟨p.line + (lines cs).length - 1, ((lines cs).getLast (lines_ne_nil cs)).length⟩

theorem behind_of_single {cs : List Char} (h : (lines cs).length = 1) (p : Position) :
    p.behind cs = ⟨p.line, p.column + cs.length⟩ := if_pos h

theorem behind_of_several {cs : List Char} (h : (lines cs).length ≠ 1) (p : Position) :
    p.behind cs = ⟨p.line + (lines cs).length - 1, ((lines cs).getLast (lines_ne_nil cs)).length⟩ :=
  if_neg h

theorem behind_append (p : Position) (cs ds : List Char) :
    p.behind (cs ++ ds) = (p.behind cs).behind ds := by
  have hlength := length_lines_append cs ds
  have hlast := getLast_lines_append cs ds
  by_cases hcs : (lines cs).length = 1
  · by_cases hds : (lines ds).length = 1
    · rw [behind_of_single hcs, behind_of_single hds, behind_of_single (by omega), List.length_append,
        Int.natCast_add, Int.add_assoc]
    · have hlines : (lines (cs ++ ds)).length = (lines ds).length := by omega
      rw [behind_of_single hcs, behind_of_several hds, behind_of_several (by omega), hlast,
        if_neg hds, hlines]
  · have hpos := List.length_pos_iff.mpr (lines_ne_nil cs)
    have hpos' := List.length_pos_iff.mpr (lines_ne_nil ds)
    rw [behind_of_several hcs, behind_of_several (by omega), hlast]
    by_cases hds : (lines ds).length = 1
    · -- the last line of the first text goes on with the second
      have hlines : (lines (cs ++ ds)).length = (lines cs).length := by omega
      rw [behind_of_single hds, if_pos hds, hlines, List.length_append, Int.natCast_add]
    · have hline : p.line + (lines (cs ++ ds)).length - 1 =
          p.line + (lines cs).length - 1 + (lines ds).length - 1 := by omega
      rw [behind_of_several hds, if_neg hds, hline]

theorem behind_singleton (p : Position) (c : Char) : p.behind [c] = p.next c := by
  by_cases h : c = '\n'
  · subst h
    rw [behind_of_several (by decide), next, if_pos rfl, Position.mk.injEq]
    exact ⟨Int.add_sub_assoc .., rfl⟩
  · rw [behind_of_single (by simp [lines, h]), next, if_neg h]
    rfl

/-- Counting line feeds character by character leads where the lines of the text lead. -/
theorem after_eq_behind (p : Position) (cs : List Char) : p.after cs = p.behind cs := by
  induction cs generalizing p with
  | nil =>
    rw [behind_of_single rfl]
    exact congrArg (mk p.line) (Int.add_zero _).symm
  | cons c cs ih =>
    rw [after_cons, ih, ← behind_singleton, ← behind_append]
    rfl

theorem column_origin_after (cs : List Char) :
    (origin.after cs).column = ((lines cs).getLast (lines_ne_nil cs)).length := by
  rw [after_eq_behind]
  by_cases h : (lines cs).length = 1
  · rw [behind_of_single h]
    simp [lines_of_single h, origin]
  · rw [behind_of_several h]

/-- Positions of an editor and places of a snippet count lines and columns alike. -/
theorem after_place (q : Place) (cs : List Char) :
    (mk q.line q.column).after cs = ⟨(q.after cs).line, (q.after cs).column⟩ := by
  induction cs generalizing q with
  | nil => rfl
  | cons c cs ih =>
    have hnext : (mk q.line q.column).next c = ⟨(q.next c).line, (q.next c).column⟩ := by
      rw [next, Place.next]
      split <;> rfl
    rw [after_cons, hnext, ih]
    rfl

end Position

/-! ## Line and column of an offset -/

variable {document : List Char}

theorem lineStart_eq_sum (document : List Char) (n : Nat) :
    lineStart document n = (((lines document).take n).map fun line => line.length + 1).sum := by
  rw [← length_lines_before, List.length_flatMap]
  simp only [List.length_append, List.length_singleton]

/-- The first characters of a document lead to the line and the column of their number. -/
theorem origin_after_take {k : Nat} (h : k ≤ document.length) :
    Position.origin.after (document.take k) = ⟨lineNumber document k, columnNumber document k⟩ := by
  have hplace := Position.after_place Place.origin (document.take k)
  rw [← placeAt, placeAt_eq h] at hplace
  exact hplace

theorem lineStart_add_columnNumber {k : Nat} (h : k ≤ document.length) :
    lineStart document (lineNumber document k) + columnNumber document k = k := by
  have hsum := lineStart_add_column (document.take k) (document.drop k)
  rw [List.take_append_drop, origin_after_take h, List.length_take, Nat.min_eq_left h] at hsum
  exact Int.ofNat_inj.mp hsum

/-- Behind a first part of a document stands its last line, which goes on with what follows. -/
theorem hasPosition_after (before after : List Char) :
    HasPosition (before ++ after) (Position.origin.after before) := by
  have hline := Position.line_origin_after before
  have hcolumn := Position.column_origin_after before
  have hget : (lines (before ++ after))[before.count '\n']? =
      some ((lines before).getLast (lines_ne_nil before) ++
        (lines after).head (lines_ne_nil after)) := by
    have hearlier : (lines before).dropLast.length = before.count '\n' := by
      rw [List.length_dropLast, length_lines, Nat.add_sub_cancel]
    rw [lines_append, List.getElem?_append_right (Nat.le_of_eq hearlier), hearlier, Nat.sub_self]
    rfl
  rw [← Int.toNat_natCast (before.count '\n'), ← hline] at hget
  refine ⟨by omega, by omega, _, hget, ?_⟩
  rw [hcolumn, List.length_append]
  omega

/-- The first characters of a document lead to the only position that has their number as offset. -/
theorem eq_origin_after_iff {k : Nat} (h : k ≤ document.length) {p : Position} :
    p = Position.origin.after (document.take k) ↔
      HasPosition document p ∧ offsetOf document p = k := by
  constructor
  · rintro rfl
    have hhas := hasPosition_after (document.take k) (document.drop k)
    have hoffset := offsetOf_after (document.take k) (document.drop k)
    rw [List.take_append_drop] at hhas hoffset
    rw [List.length_take, Nat.min_eq_left h] at hoffset
    exact ⟨hhas, hoffset⟩
  · rintro ⟨hhas, hoffset⟩
    obtain ⟨before, after, rfl, rfl⟩ := hhas.placed
    rw [offsetOf_after] at hoffset
    rw [← Int.ofNat_inj.mp hoffset, List.take_left]

/-! ## Positions follow texts -/

/-- Two texts that are inserted one after the other lead where both together lead, and no text leads
nowhere; where a text leads is decided by its lines. The first characters of a document lead to the
line and the column of their number: the earlier lines, with a line feed each, and the column add up to
it, and it is the offset of no other position that the document has. -/
theorem positions_follow_texts :
    (∀ (p : Position) (cs ds : List Char), p.after (cs ++ ds) = (p.after cs).after ds) ∧
      (∀ p : Position, p.after [] = p) ∧
      (∀ (p : Position) (cs : List Char), p.after cs = p.behind cs) ∧
      ∀ (document : List Char) (k : Nat), k ≤ document.length →
        Position.origin.after (document.take k) =
            ⟨lineNumber document k, columnNumber document k⟩ ∧
          (((lines document).take (lineNumber document k)).map fun line => line.length + 1).sum +
            columnNumber document k = k ∧
          ∀ p, p = Position.origin.after (document.take k) ↔
            HasPosition document p ∧ offsetOf document p = k := by
  refine ⟨Position.after_append, fun p => rfl, Position.after_eq_behind, fun document k hk => ?_⟩
  refine ⟨origin_after_take hk, ?_, fun p => eq_origin_after_iff hk⟩
  rw [← lineStart_eq_sum]
  exact lineStart_add_columnNumber hk

/-- An offset in the last line, behind an empty one. -/
theorem positions_follow_texts_last_line :
    let document := ['a', 'b', '\n', '\n', 'c', 'd']
    5 ≤ document.length ∧ Position.origin.after (document.take 5) = ⟨2, 1⟩ ∧
      (((lines document).take 2).map fun line => line.length + 1).sum + 1 = 5 ∧
      HasPosition document ⟨2, 1⟩ ∧ offsetOf document ⟨2, 1⟩ = 5 := by
  intro document
  have hinside : 5 ≤ document.length := by decide
  obtain ⟨hplace, hsum, hoffset⟩ := positions_follow_texts.2.2.2 document 5 hinside
  have hline : lineNumber document 5 = 2 := by decide
  have hcolumn : columnNumber document 5 = 1 := by decide
  rw [hline, hcolumn] at hplace hsum
  exact ⟨hinside, hplace, hsum, (hoffset ⟨2, 1⟩).mp hplace.symm⟩

end LiveChain.Editor
