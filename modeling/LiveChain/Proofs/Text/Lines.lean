import LiveChain.Scan.Directive

/-!
# Whole lines of a text

A line is a stretch without line feeds that starts at the start of the text or behind a line feed,
and ends at its end or before one.
-/

set_option autoImplicit false

namespace LiveChain

open Text

/-! ## Lines by line feeds -/

theorem Text.lines_of_not_mem {cs : List Char} (h : '\n' ∉ cs) : lines cs = [cs] := by
  induction cs with
  | nil => rfl
  | cons c cs ih =>
    rw [List.mem_cons, not_or] at h
    rw [lines, if_neg (Ne.symm h.1), ih h.2]

theorem Text.lines_feed (before after : List Char) :
    lines (before ++ '\n' :: after) = lines before ++ lines after := by
  induction before with
  | nil => simp [lines]
  | cons c before ih =>
    rw [List.cons_append, lines, lines, ih]
    split
    · rfl
    · obtain ⟨first, rest, hlines⟩ := List.exists_cons_of_ne_nil (lines_ne_nil before)
      rw [hlines]
      rfl

/-- A text is a single line, or a first line, a line feed and a rest with the other lines. -/
theorem Text.lines_cases (cs : List Char) :
    ('\n' ∉ cs ∧ lines cs = [cs]) ∨
      ∃ first rest, cs = first ++ '\n' :: rest ∧ '\n' ∉ first ∧ lines cs = first :: lines rest := by
  by_cases h : '\n' ∈ cs
  · obtain ⟨first, rest, rfl, hfirst⟩ := List.eq_append_cons_of_mem h
    exact .inr ⟨first, rest, rfl, hfirst, by rw [lines_feed, lines_of_not_mem hfirst]; rfl⟩
  · exact .inl ⟨h, lines_of_not_mem h⟩

theorem Text.length_lines (cs : List Char) : (lines cs).length = cs.count '\n' + 1 := by
  induction cs with
  | nil => rfl
  | cons c cs ih =>
    rw [lines]
    split
    · next hc => rw [hc, List.length_cons, ih, List.count_cons_self]
    · next hc =>
      rw [List.count_cons_of_ne hc, ← ih]
      obtain ⟨first, rest, hlines⟩ := List.exists_cons_of_ne_nil (lines_ne_nil cs)
      rw [hlines]
      rfl

theorem Text.lines_of_single {cs : List Char} (h : (lines cs).length = 1) : lines cs = [cs] := by
  rw [length_lines] at h
  exact lines_of_not_mem (List.count_eq_zero.mp (by omega))

/-- Every offset of a text lies on one of its lines. -/
theorem lineNumber_lt (text : List Char) (offset : Nat) :
    lineNumber text offset < (lines text).length := by
  have hcount := (List.take_sublist offset text).count_le '\n'
  rw [length_lines, lineNumber]
  omega

/-! ## Two texts behind each other -/

/-- Where two texts meet, the last line of the first and the first line of the second are one. -/
theorem Text.lines_append (before after : List Char) :
    lines (before ++ after) = (lines before).dropLast ++
      ((lines before).getLast (lines_ne_nil before) ++ (lines after).head (lines_ne_nil after)) ::
        (lines after).tail := by
  induction before with
  | nil => exact (List.cons_head_tail (lines_ne_nil after)).symm
  | cons c before ih =>
    by_cases hc : c = '\n'
    · simp only [List.cons_append, lines, if_pos hc, ih,
        List.dropLast_cons_of_ne_nil (lines_ne_nil before), List.getLast_cons (lines_ne_nil before)]
    · obtain ⟨first, rest, hlines⟩ := List.exists_cons_of_ne_nil (lines_ne_nil before)
      simp only [List.cons_append, lines, if_neg hc, ih, hlines]
      cases rest <;> simp

theorem Text.length_lines_append (before after : List Char) :
    (lines (before ++ after)).length + 1 = (lines before).length + (lines after).length := by
  rw [length_lines, length_lines, length_lines, List.count_append]
  omega

theorem Text.getLast_lines_append (before after : List Char) :
    (lines (before ++ after)).getLast (lines_ne_nil _) =
      if (lines after).length = 1 then (lines before).getLast (lines_ne_nil before) ++ after
      else (lines after).getLast (lines_ne_nil after) := by
  simp only [lines_append before after]
  obtain ⟨first, rest, hlines⟩ := List.exists_cons_of_ne_nil (lines_ne_nil after)
  cases rest with
  | nil =>
    have hsingle : lines after = [after] := lines_of_single (by rw [hlines]; rfl)
    simp [hsingle]
  | cons second rest => simp [hlines]

/-! ## A line and what stands around it -/

/-- In a text, `line` is a whole line between `before` and `after`. -/
structure IsLine (text before line after : List Char) : Prop where
  text_eq : text = before ++ (line ++ after)
  unbroken : '\n' ∉ line
  first : ∀ c ∈ before.getLast?, c = '\n'
  last : ∀ c ∈ after.head?, c = '\n'

instance (text before line after : List Char) : Decidable (IsLine text before line after) :=
  decidable_of_iff (text = before ++ (line ++ after) ∧ '\n' ∉ line ∧
      before.getLast?.toList.all (· == '\n') = true ∧ after.head?.toList.all (· == '\n') = true)
    ⟨fun h => ⟨h.1, h.2.1, by simpa using h.2.2.1, by simpa using h.2.2.2⟩,
      fun h => ⟨h.text_eq, h.unbroken, by simpa using h.first, by simpa using h.last⟩⟩

namespace IsLine

variable {text before line after : List Char}

theorem before_eq (h : IsLine text before line after) :
    before = [] ∨ ∃ earlier, before = earlier ++ ['\n'] := by
  cases hlast : before.getLast? with
  | none => exact .inl (List.getLast?_eq_none_iff.mp hlast)
  | some c =>
    obtain rfl : c = '\n' := h.first c hlast
    exact .inr (List.getLast?_eq_some_iff.mp hlast)

theorem after_eq (h : IsLine text before line after) :
    after = [] ∨ ∃ later, after = '\n' :: later := by
  cases after with
  | nil => exact .inl rfl
  | cons c later =>
    obtain rfl : c = '\n' := h.last c rfl
    exact .inr ⟨later, rfl⟩

theorem lines_behind (h : IsLine text before line after) :
    ∃ more, lines (line ++ after) = line :: more := by
  rcases h.after_eq with rfl | ⟨later, rfl⟩
  · exact ⟨[], by rw [List.append_nil, lines_of_not_mem h.unbroken]⟩
  · exact ⟨lines later, by rw [lines_feed, lines_of_not_mem h.unbroken]; rfl⟩

theorem getElem?_lines (h : IsLine text before line after) :
    (lines text)[before.count '\n']? = some line := by
  obtain ⟨more, hmore⟩ := h.lines_behind
  rw [h.text_eq]
  rcases h.before_eq with rfl | ⟨earlier, rfl⟩
  · rw [List.nil_append, hmore]
    rfl
  · -- behind the lines of `earlier`, of which there is one more than line feeds
    have hcount : (earlier ++ ['\n']).count '\n' = (lines earlier).length := by
      rw [length_lines, List.count_append]
      rfl
    rw [List.append_assoc, List.singleton_append, lines_feed, hcount, hmore,
      List.getElem?_append_right (Nat.le_refl _), Nat.sub_self]
    rfl

theorem mem_lines (h : IsLine text before line after) : line ∈ lines text :=
  List.mem_of_getElem? h.getElem?_lines

theorem lineNumber_eq (h : IsLine text before line after) {offset : Nat}
    (hstart : before.length ≤ offset) (hstop : offset ≤ before.length + line.length) :
    lineNumber text offset = before.count '\n' := by
  have htake : text.take offset = before ++ line.take (offset - before.length) := by
    rw [h.text_eq, List.take_append, List.take_of_length_le hstart,
      List.take_append_of_le_length (by omega)]
  have hnone : (line.take (offset - before.length)).count '\n' = 0 := by
    rw [List.count_eq_zero]
    exact fun hmem => h.unbroken (List.mem_of_mem_take hmem)
  rw [lineNumber, htake, List.count_append, hnone, Nat.add_zero]

end IsLine

/-! ## Directive lines -/

theorem Text.occursIn_iff {needle cs : List Char} : occursIn needle cs = true ↔ needle <:+: cs := by
  induction cs with
  | nil => simp [occursIn]
  | cons c cs ih =>
    rw [occursIn, Bool.or_eq_true, List.isPrefixOf_iff_prefix, ih, List.infix_cons_iff]

theorem isDirective_iff {keywords : List String} {line : List Char} :
    isDirective keywords line = true ↔ ∃ keyword ∈ keywords, keyword.toList <:+: line := by
  simp only [isDirective, List.any_eq_true, occursIn_iff]

theorem IsLine.onDirective_eq {text before line after : List Char} (keywords : List String)
    (h : IsLine text before line after) {offset : Nat} (hstart : before.length ≤ offset)
    (hstop : offset ≤ before.length + line.length) :
    onDirective keywords text offset = isDirective keywords line := by
  rw [onDirective, h.lineNumber_eq hstart hstop, h.getElem?_lines]

end LiveChain
