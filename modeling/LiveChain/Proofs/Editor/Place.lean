import LiveChain.Editor.Document
import LiveChain.Proofs.Text.Lines

/-!
# Positions of a document

A position is a place of a document when it stands behind some first part of it. What is written
there is read back between that place and the position behind the new text.
-/

set_option autoImplicit false

namespace LiveChain.Editor

open Text

/-! ## Positions behind a text -/

theorem Position.after_append (p : Position) (cs ds : List Char) :
    p.after (cs ++ ds) = (p.after cs).after ds := List.foldl_append

theorem Position.after_cons (p : Position) (c : Char) (cs : List Char) :
    p.after (c :: cs) = (p.next c).after cs := rfl

theorem Position.line_after (p : Position) (cs : List Char) :
    (p.after cs).line = p.line + cs.count '\n' := by
  induction cs generalizing p with
  | nil => simp [Position.after]
  | cons c cs ih =>
    rw [after_cons, ih, List.count_cons, Position.next]
    by_cases h : c = '\n'
    · simp [h]
      omega
    · simp [h]

theorem Position.column_after_line {cs : List Char} (h : '\n' ∉ cs) (p : Position) :
    (p.after cs).column = p.column + cs.length := by
  induction cs generalizing p with
  | nil => simp [Position.after]
  | cons c cs ih =>
    rw [List.mem_cons, not_or] at h
    rw [after_cons, ih h.2, Position.next, if_neg (Ne.symm h.1), List.length_cons]
    simp only
    omega

/-- Behind a line feed the column does not depend on where the text starts. -/
theorem Position.column_after_feed {cs : List Char} (h : '\n' ∈ cs) (p q : Position) :
    (p.after cs).column = (q.after cs).column := by
  induction cs generalizing p q with
  | nil => cases h
  | cons c cs ih =>
    rw [after_cons, after_cons]
    by_cases hmem : '\n' ∈ cs
    · exact ih hmem _ _
    · rw [column_after_line hmem, column_after_line hmem]
      have hc : c = '\n' := ((List.mem_cons.mp h).resolve_right hmem).symm
      simp [Position.next, hc]

theorem Position.column_after_congr {p q : Position} (h : p.column = q.column) (cs : List Char) :
    (p.after cs).column = (q.after cs).column := by
  by_cases hmem : '\n' ∈ cs
  · exact column_after_feed hmem p q
  · rw [column_after_line hmem, column_after_line hmem, h]

theorem Position.after_eq_iff {p q : Position} {cs : List Char} :
    p.after cs = q ↔ p.line + cs.count '\n' = q.line ∧ (p.after cs).column = q.column := by
  rw [← line_after]
  constructor
  · rintro rfl
    exact ⟨rfl, rfl⟩
  · rintro ⟨hline, hcolumn⟩
    cases q
    simp only at hline hcolumn
    rw [← hline, ← hcolumn]

/-! ## Offsets -/

/-- The number of characters before a line. -/
def lineStart : List Char → Nat → Nat
  | _, 0 => 0
  | [], _ + 1 => 1
  | c :: cs, line + 1 => 1 + if c = '\n' then lineStart cs line else lineStart cs (line + 1)

theorem length_lines_before (cs : List Char) (line : Nat) :
    (((lines cs).take line).flatMap fun l => l ++ ['\n']).length = lineStart cs line := by
  induction cs generalizing line with
  | nil => cases line <;> simp [lines, lineStart]
  | cons c cs ih =>
    cases line with
    | zero => simp [lineStart]
    | succ line =>
      rw [lines, lineStart]
      by_cases h : c = '\n'
      · simp [h, ← ih line]
        omega
      · have ih' := ih (line + 1)
        obtain ⟨first, rest, hlines⟩ := List.exists_cons_of_ne_nil (lines_ne_nil cs)
        rw [hlines] at ih' ⊢
        simp only [if_neg h, ← ih', List.take_succ_cons, List.flatMap_cons, List.length_append,
          List.length_cons]
        omega

theorem lineStart_past {cs : List Char} {line : Nat} (h : (lines cs).length ≤ line) :
    lineStart cs line = cs.length + 1 := by
  induction cs generalizing line with
  | nil =>
    cases line with
    | zero => simp [lines] at h
    | succ line => rfl
  | cons c cs ih =>
    cases line with
    | zero => exact absurd (List.length_eq_zero_iff.mp (Nat.le_zero.mp h)) (lines_ne_nil _)
    | succ line =>
      rw [lines] at h
      rw [lineStart, List.length_cons]
      by_cases hc : c = '\n'
      · rw [if_pos hc, List.length_cons] at h
        rw [if_pos hc, ih (by omega)]
        omega
      · obtain ⟨first, rest, hlines⟩ := List.exists_cons_of_ne_nil (lines_ne_nil cs)
        rw [if_neg hc, hlines] at h
        rw [if_neg hc, ih (by rw [hlines]; exact h)]
        omega

theorem offsetOf_eq (document : List Char) {p : Position} (h : 0 ≤ p.line) :
    offsetOf document p =
      min (lineStart document p.line.toNat + p.column : Int) document.length := by
  rw [offsetOf, cut_of_nonneg h, ← List.take_eq_take_min, length_lines_before]

def Position.origin : Position := ⟨0, 0⟩

theorem Position.line_origin_after (cs : List Char) :
    (Position.origin.after cs).line = cs.count '\n' := by
  rw [line_after]
  exact Int.zero_add _

theorem lineStart_add_column (before after : List Char) :
    (lineStart (before ++ after) (before.count '\n') : Int) +
      (Position.origin.after before).column = before.length := by
  induction before with
  | nil => simp [lineStart, Position.after, Position.origin]
  | cons c before ih =>
    rw [Position.after_cons, List.cons_append, List.count_cons]
    by_cases h : c = '\n'
    · subst h
      -- the rest starts in the first column again, one line further down
      have hcolumn : ((Position.origin.next '\n').after before).column =
          (Position.origin.after before).column :=
        Position.column_after_congr (by simp [Position.next, Position.origin]) before
      simp only [hcolumn, beq_self_eq_true, if_true, lineStart, List.length_cons]
      omega
    · simp only [beq_iff_eq, h, if_false, Nat.add_zero, List.length_cons]
      by_cases hmem : '\n' ∈ before
      · -- the character belongs to an earlier line than the position
        obtain ⟨k, hk⟩ := Nat.exists_eq_add_one_of_ne_zero
          (Nat.pos_iff_ne_zero.mp (List.count_pos_iff.mpr hmem))
        rw [Position.column_after_feed hmem _ Position.origin]
        rw [hk] at ih ⊢
        simp only [lineStart, if_neg h]
        omega
      · rw [Position.column_after_line hmem, List.count_eq_zero.mpr hmem]
        simp only [lineStart, Position.next, if_neg h, Position.origin]
        omega

/-- The offset of the position behind a first part of a document is the length of that part. -/
theorem offsetOf_after (before after : List Char) :
    offsetOf (before ++ after) (Position.origin.after before) = before.length := by
  have hline := Position.line_origin_after before
  have hsum := lineStart_add_column before after
  rw [offsetOf_eq _ (by omega), hline, Int.toNat_natCast, hsum, List.length_append]
  omega

/-! ## Places -/

/-- A position that stands behind some first part of a document. -/
def Placed (document : List Char) (p : Position) : Prop :=
  ∃ before after, document = before ++ after ∧ Position.origin.after before = p

/-- A position beyond the last line of a document. -/
def Past (document : List Char) (p : Position) : Prop :=
  (lines document).length ≤ p.line ∧ 0 ≤ p.column

/-! ## Positions that a document has -/

/-- A line that a document has, and a column within that line or right behind it. -/
def HasPosition (document : List Char) (p : Position) : Prop :=
  0 ≤ p.line ∧ 0 ≤ p.column ∧
    ∃ line, (lines document)[p.line.toNat]? = some line ∧ p.column ≤ line.length

theorem placed_in_first_line {first : List Char} (h : '\n' ∉ first) {k : Nat}
    (hk : k ≤ first.length) (rest : List Char) : Placed (first ++ rest) ⟨0, k⟩ := by
  have htake : '\n' ∉ first.take k := fun hmem => h (List.mem_of_mem_take hmem)
  refine ⟨first.take k, first.drop k ++ rest, ?_, Position.after_eq_iff.mpr ⟨?_, ?_⟩⟩
  · rw [← List.append_assoc, List.take_append_drop]
  · rw [List.count_eq_zero.mpr htake]
    rfl
  · rw [Position.column_after_line htake, List.length_take, Nat.min_eq_left hk]
    exact Int.zero_add _

theorem placed_of_column {document line : List Char} {n k : Nat}
    (hline : (lines document)[n]? = some line) (hk : k ≤ line.length) :
    Placed document ⟨n, k⟩ := by
  induction n generalizing document with
  | zero =>
    rcases lines_cases document with ⟨hunbroken, hlines⟩ | ⟨first, rest, rfl, hunbroken, hlines⟩
    · obtain rfl : document = line := by simpa [hlines] using hline
      simpa using placed_in_first_line hunbroken hk []
    · obtain rfl : first = line := by simpa [hlines] using hline
      exact placed_in_first_line hunbroken hk _
  | succ n ih =>
    rcases lines_cases document with ⟨-, hlines⟩ | ⟨first, rest, rfl, hunbroken, hlines⟩
    · simp [hlines] at hline
    · -- one line further down than in the rest, in the same column
      obtain ⟨before, after, rfl, hplace⟩ := ih (by simpa [hlines] using hline)
      obtain ⟨hcount, hcolumn⟩ := Position.after_eq_iff.mp hplace
      refine ⟨first ++ '\n' :: before, after, ?_, Position.after_eq_iff.mpr ⟨?_, ?_⟩⟩
      · rw [List.append_assoc, List.cons_append]
      · rw [List.count_append, List.count_cons_self, List.count_eq_zero.mpr hunbroken]
        simp only [Position.origin] at hcount ⊢
        omega
      · rw [Position.after_append, Position.after_cons, ← hcolumn]
        exact Position.column_after_congr (by simp [Position.next, Position.origin]) before

theorem HasPosition.placed {document : List Char} {p : Position} (h : HasPosition document p) :
    Placed document p := by
  obtain ⟨hline, hcolumn, line, hget, hle⟩ := h
  have hplaced : Placed document ⟨p.line.toNat, p.column.toNat⟩ :=
    placed_of_column hget (by omega)
  have hp : (⟨p.line.toNat, p.column.toNat⟩ : Position) = p := by
    obtain ⟨n, k⟩ := p
    simp only at hline hcolumn
    rw [Int.toNat_of_nonneg hline, Int.toNat_of_nonneg hcolumn]
  rwa [hp] at hplaced

/-- The start of a line is a place of the document, unless the document has no such line. -/
theorem placed_or_past_of_lineStart (document : List Char) (line : Nat) :
    Placed document ⟨line, 0⟩ ∨ Past document ⟨line, 0⟩ := by
  by_cases h : line < (lines document).length
  · exact .inl (placed_of_column (List.getElem?_eq_getElem h) (Nat.zero_le _))
  · refine .inr ⟨?_, Int.le_refl 0⟩
    simp only
    omega

/-! ## Reading and writing at places -/

/-- Between two places stands what leads from the one to the other. -/
theorem read_between (before text after : List Char) :
    read (before ++ text ++ after)
      ⟨Position.origin.after before, Position.origin.after (before ++ text)⟩ = text := by
  have hstart : offsetOf (before ++ text ++ after) (Position.origin.after before) =
      before.length := by rw [List.append_assoc, offsetOf_after]
  have hfirst : cut (before ++ text ++ after).length before.length = before.length := by
    rw [cut_of_nonneg (by omega), Int.toNat_natCast]
    exact Nat.min_eq_left (by simp only [List.length_append]; omega)
  have hlast : cut (before ++ text ++ after).length (before ++ text).length =
      (before ++ text).length := by
    rw [cut_of_nonneg (by omega), Int.toNat_natCast]
    exact Nat.min_eq_left (by simp only [List.length_append]; omega)
  rw [read]
  simp only [hstart, offsetOf_after]
  rw [hfirst, hlast, List.take_left, List.drop_left]

/-- What is written at a place is read back from there to the position behind it. -/
theorem read_write {document : List Char} {r : Range} (h : Placed document r.start)
    (new : List Char) :
    Placed (write document r new) r.start ∧
      read (write document r new) ⟨r.start, r.start.after new⟩ = new := by
  obtain ⟨before, after, rfl, hplace⟩ := h
  have hwrite : write (before ++ after) r new =
      before ++ new ++ fromOn (before ++ after) (offsetOf (before ++ after) r.stop) := by
    rw [write, ← hplace, offsetOf_after, upTo_of_nonneg (by omega), Int.toNat_natCast,
      List.take_left]
  rw [hwrite]
  refine ⟨⟨before, _, List.append_assoc _ _ _, hplace⟩, ?_⟩
  rw [← hplace, ← Position.after_append]
  exact read_between before new _

theorem read_past {document : List Char} {r : Range} (h : Past document r.start) :
    read document r = [] := by
  obtain ⟨hline, hcolumn⟩ := h
  have hoffset : offsetOf document r.start = document.length := by
    rw [offsetOf_eq document (by omega), lineStart_past (by omega)]
    omega
  have hfirst : cut document.length document.length = document.length := by
    rw [cut_of_nonneg (by omega), Int.toNat_natCast, Nat.min_self]
  rw [read]
  simp only [hoffset, hfirst]
  apply List.drop_eq_nil_of_le
  rw [List.length_take]
  exact Nat.min_le_right _ _

end LiveChain.Editor
