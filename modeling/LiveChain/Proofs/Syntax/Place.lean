import LiveChain.Proofs.Edit.Weave
import LiveChain.Syntax.Cursor
import Mathlib.Data.List.Induction

/-!
# Places of a text

The place that an offset of a text has, and the span between two offsets. A column counts the
characters since the last line feed, so line and column tell the offset.
-/

set_option autoImplicit false

namespace LiveChain

/-! ## Places behind a text -/

theorem Place.after_append (q : Place) (a b : List Char) :
    q.after (a ++ b) = (q.after a).after b :=
  List.foldl_append ..

theorem Place.offset_after (q : Place) (cs : List Char) :
    (q.after cs).offset = q.offset + cs.length := by
  induction cs generalizing q with
  | nil => rfl
  | cons c cs ih =>
    have hnext : (q.next c).offset = q.offset + 1 := by
      unfold Place.next
      split <;> rfl
    change ((q.next c).after cs).offset = _
    rw [ih, hnext, List.length_cons, Nat.add_assoc, Nat.add_comm 1]

theorem Place.line_after (q : Place) (cs : List Char) :
    (q.after cs).line = q.line + cs.count '\n' := by
  induction cs generalizing q with
  | nil => rfl
  | cons c cs ih =>
    change ((q.next c).after cs).line = _
    rw [ih, List.count_cons, Place.next]
    by_cases hc : c = '\n'
    · simp only [if_pos hc, if_pos (beq_iff_eq.mpr hc)]
      omega
    · simp only [if_neg hc, if_neg fun h => hc (beq_iff_eq.mp h)]
      omega

/-- The column behind a text is the distance from its last line feed, or its length. -/
theorem Place.column_after (cs : List Char) :
    (Place.origin.after cs).column = (cs.reverse.takeWhile (· ≠ '\n')).length := by
  induction cs using List.reverseRecOn with
  | nil => rfl
  | append_singleton cs c ih =>
    have hnext : Place.origin.after (cs ++ [c]) = (Place.origin.after cs).next c :=
      Place.after_append ..
    rw [hnext, List.reverse_append, List.reverse_singleton, List.singleton_append,
      List.takeWhile_cons, Place.next]
    by_cases hc : c = '\n'
    · simp [hc]
    · simp [hc, ih]

/-- The number of characters between the last line feed before an offset, or the start of the text,
and the offset. -/
def columnNumber (text : List Char) (offset : Nat) : Nat :=
  ((text.take offset).reverse.takeWhile (· ≠ '\n')).length

/-- Offsets of a text with the same line and column are the same. -/
theorem offset_unique {text : List Char} {a b : Nat} (ha : a ≤ text.length) (hb : b ≤ text.length)
    (hline : lineNumber text a = lineNumber text b)
    (hcolumn : columnNumber text a = columnNumber text b) : a = b := by
  wlog hab : a ≤ b generalizing a b with hwlog
  · exact (hwlog hb ha hline.symm hcolumn.symm (Nat.le_of_not_le hab)).symm
  -- no line feed stands between them, so the columns differ by what does
  have hsplit : text.take b = text.take a ++ (text.drop a).take (b - a) := by
    rw [← List.take_add, Nat.add_sub_cancel' hab]
  have hnone : ∀ c ∈ ((text.drop a).take (b - a)).reverse, decide (c ≠ '\n') = true := by
    intro c hc
    rw [decide_eq_true_eq]
    rintro rfl
    rw [lineNumber, lineNumber, hsplit, List.count_append, Nat.left_eq_add] at hline
    exact List.count_eq_zero.mp hline (List.mem_reverse.mp hc)
  rw [columnNumber, columnNumber, hsplit, List.reverse_append,
    List.takeWhile_append_of_pos hnone, List.length_append, List.length_reverse, List.length_take,
    List.length_drop] at hcolumn
  omega

/-! ## Offsets -/

def placeAt (text : List Char) (offset : Nat) : Place := Place.origin.after (text.take offset)

def cursorAt (text : List Char) (offset : Nat) : Cursor :=
  ⟨placeAt text offset, text.drop offset⟩

def spanOf (text : List Char) (start stop : Nat) : Span :=
  Span.between (placeAt text start) (placeAt text stop)

/-- An offset of a text stands behind so many line feeds, and so far from the last one. -/
theorem placeAt_eq {text : List Char} {offset : Nat} (h : offset ≤ text.length) :
    placeAt text offset = ⟨lineNumber text offset, columnNumber text offset, offset⟩ := by
  have hline : (placeAt text offset).line = lineNumber text offset := by
    rw [placeAt, Place.line_after, lineNumber]
    exact Nat.zero_add _
  have hcolumn : (placeAt text offset).column = columnNumber text offset := Place.column_after _
  have hoffset : (placeAt text offset).offset = offset := by
    rw [placeAt, Place.offset_after, List.length_take, Nat.min_eq_left h]
    exact Nat.zero_add _
  rw [← hline, ← hcolumn]
  exact congrArg (Place.mk _ _) hoffset

/-- Passing characters leads to the offset behind them, or to the end. -/
theorem cursorAt_skip (text : List Char) (i n : Nat) :
    (cursorAt text i).skip n = cursorAt text (min (i + n) text.length) := by
  have htake : text.take i ++ (text.drop i).take n = text.take (min (i + n) text.length) := by
    rw [← List.take_add, List.take_eq_take_min]
  have hdrop : (text.drop i).drop n = text.drop (min (i + n) text.length) := by
    rw [List.drop_drop]
    rcases Nat.le_total (i + n) text.length with h | h
    · rw [Nat.min_eq_left h]
    · rw [Nat.min_eq_right h, List.drop_length, List.drop_eq_nil_of_le h]
  rw [Cursor.skip, cursorAt, cursorAt, placeAt, placeAt, ← Place.after_append, htake, hdrop]

/-- The characters that are passed are those between the offsets. -/
theorem slice_pass (text : List Char) (i n : Nat) :
    slice text i (min (i + n) text.length) = (text.drop i).take n := by
  rw [slice, ← List.take_eq_take_min, List.drop_take, Nat.add_sub_cancel_left]

end LiveChain
