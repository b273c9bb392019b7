import LiveChain.Proofs.Edit.Soundness
import LiveChain.Proofs.Except
import LiveChain.Proofs.Scan.WellFormed
import LiveChain.Syntax.Parse

/-!
# Edits and directive lines

A value belongs to the line that it starts on. None starts on a directive line, but a minus sign on
an earlier line may have its number there. Every other directive line comes through edits as it is,
with the edited text before it and behind it.
-/

set_option autoImplicit false

namespace LiveChain

open Text Scan

/-! ## What retouching keeps -/

/-- Some edit is for a value that the tree has from `start` up to `stop`. -/
def EditedPlace (located : List (Int × Int)) (edits : Edits) (start stop : Int) : Prop :=
  ∃ n, (edits.get? (.ordinal n)).isSome = true ∧ atOrdinal? located n = some (start, stop)

namespace Retouched

variable {located : List (Int × Int)} {edits : Edits} {offset : Nat}
  {front back kept new : List Char}

theorem append {old old' new' : List Char} (h : Retouched located edits offset old new)
    (h' : Retouched located edits (offset + old.length) old' new') :
    Retouched located edits offset (old ++ old') (new ++ new') := by
  induction h with
  | done offset => exact h'
  | @keep offset c old new _ ih =>
    apply keep
    apply ih
    rw [List.length_cons] at h'
    rwa [Nat.add_assoc, Nat.add_comm 1]
  | @replace offset n value stretch written old new hget hwritten hne hplace _ ih =>
    rw [List.append_assoc, List.append_assoc]
    apply replace hget hwritten hne hplace
    apply ih
    rw [List.length_append] at h'
    rwa [Nat.add_assoc]

/-- At an offset that no edited place is around, a retouched text falls into two. -/
theorem split {old : List Char} (h : Retouched located edits offset old new)
    (hold : old = front ++ back) (hclear : ∀ start stop, EditedPlace located edits start stop →
      stop ≤ (offset + front.length : Nat) ∨ (offset + front.length : Nat) ≤ start) :
    ∃ front' back', new = front' ++ back' ∧ Retouched located edits offset front front' ∧
      Retouched located edits (offset + front.length) back back' := by
  induction h generalizing front with
  | done offset =>
    obtain ⟨rfl, rfl⟩ := List.append_eq_nil_iff.mp hold.symm
    exact ⟨[], [], rfl, .done _, .done _⟩
  | @keep offset c old new hrest ih =>
    cases front with
    | nil =>
      obtain rfl : c :: old = back := hold
      exact ⟨[], c :: new, rfl, .done _, .keep hrest⟩
    | cons d front =>
      obtain ⟨rfl, htail⟩ := List.cons.inj hold
      have hlength : offset + (c :: front).length = offset + 1 + front.length := by
        rw [List.length_cons]
        omega
      rw [hlength] at hclear ⊢
      obtain ⟨front', back', rfl, hfront, hback⟩ := ih htail hclear
      exact ⟨c :: front', back', rfl, .keep hfront, hback⟩
  | @replace offset n value stretch written old new hget hwritten hne hplace hrest ih =>
    have hpos := List.length_pos_iff.mpr hne
    rcases hclear _ _ ⟨n, by rw [hget]; rfl, hplace⟩ with hinside | houtside
    · -- the place is in front of the cut as a whole
      have hle : stretch.length ≤ front.length := by omega
      have hprefix : stretch <+: front :=
        List.prefix_of_prefix_length_le ⟨old, rfl⟩ ⟨back, hold.symm⟩ hle
      obtain ⟨more, rfl⟩ := hprefix
      rw [List.append_assoc] at hold
      have htail := List.append_cancel_left hold
      have hlength : offset + (stretch ++ more).length = offset + stretch.length + more.length := by
        rw [List.length_append]
        omega
      rw [hlength] at hclear ⊢
      obtain ⟨front', back', rfl, hfront, hback⟩ := ih htail hclear
      exact ⟨written ++ front', back', (List.append_assoc ..).symm,
        .replace hget hwritten hne hplace hfront, hback⟩
    · have hnil : front = [] := List.length_eq_zero_iff.mp (by omega)
      subst hnil
      obtain rfl : stretch ++ old = back := hold
      exact ⟨[], written ++ new, rfl, .done _, .replace hget hwritten hne hplace hrest⟩

theorem eq_of_clear {old : List Char} (h : Retouched located edits offset old new)
    (hclear : ∀ start stop, EditedPlace located edits start stop →
      stop ≤ offset ∨ (offset + old.length : Nat) ≤ start) : new = old := by
  induction h with
  | done offset => rfl
  | @keep offset c old new _ ih =>
    rw [ih]
    intro start stop hplace
    have := hclear start stop hplace
    rw [List.length_cons] at this
    omega
  | @replace offset n value stretch written old new hget hwritten hne hplace _ ih =>
    have hpos := List.length_pos_iff.mpr hne
    have := hclear _ _ ⟨n, by rw [hget]; rfl, hplace⟩
    rw [List.length_append] at this
    omega

/-- A stretch that no edited place touches is kept between what comes of its two sides. -/
theorem keeps {old : List Char} (h : Retouched located edits offset old new)
    (hold : old = front ++ (kept ++ back))
    (hclear : ∀ start stop, EditedPlace located edits start stop →
      stop ≤ (offset + front.length : Nat) ∨
        (offset + front.length + kept.length : Nat) ≤ start) :
    ∃ front' back', new = front' ++ (kept ++ back') ∧
      Retouched located edits offset front front' ∧
      Retouched located edits (offset + front.length + kept.length) back back' := by
  obtain ⟨front', rest, rfl, hfront, hrest⟩ := h.split hold fun start stop hplace => by
    have := hclear start stop hplace
    omega
  obtain ⟨kept', back', rfl, hkept, hback⟩ := hrest.split rfl fun start stop hplace => by
    have := hclear start stop hplace
    omega
  rw [hkept.eq_of_clear hclear]
  exact ⟨front', back', rfl, hfront, hback⟩

theorem eq_nil (h : Retouched located edits offset [] new) : new = [] := by
  generalize hold : ([] : List Char) = old at h
  cases h with
  | done => rfl
  | keep => cases hold
  | replace hget hwritten hne hplace hrest =>
    exact absurd (List.append_eq_nil_iff.mp hold.symm).1 hne

end Retouched

/-! ## Values with line feeds -/

/-- A minus sign, white space and comments with a line feed, and a number. -/
def IsParted (text : List Char) : Prop :=
  ∃ gap digits, text = '-' :: (gap ++ digits) ∧ Gap gap ∧ '\n' ∈ gap ∧ NumberPattern digits

theorem Scan.Spelled.parted {names : SlotNames} {kind : ValueKind} {text : List Char}
    (h : Spelled names kind text) (hfeed : '\n' ∈ text) : kind = .number ∧ IsParted text := by
  have hkind : kind = .number := by
    by_contra hne
    exact (h.reference hne).1.unbroken hfeed
  obtain ⟨sign, digits, rfl, hsign, hdigits⟩ := h.number hkind
  have hmem : '\n' ∈ sign :=
    (List.mem_append.mp hfeed).resolve_right hdigits.unbroken
  rcases hsign with rfl | ⟨gap, hgap, rfl⟩
  · cases hmem
  · have hgapFeed : '\n' ∈ gap := (List.mem_cons.mp hmem).resolve_left (by decide)
    exact ⟨hkind, gap, digits, rfl, hgap, hgapFeed, hdigits⟩

theorem Scan.Spelled.getLast?_ne {names : SlotNames} {kind : ValueKind} {text : List Char}
    (h : Spelled names kind text) : text.getLast? ≠ some '\n' := by
  intro hlast
  have hfeed : '\n' ∈ text := List.mem_of_getLast? hlast
  obtain ⟨-, gap, digits, rfl, -, -, hdigits⟩ := h.parted hfeed
  rw [← List.cons_append, List.getLast?_append, List.getLast?_eq_some_getLast hdigits.ne_nil,
    Option.some_or] at hlast
  apply hdigits.unbroken
  rw [← Option.some.inj hlast]
  exact List.getLast_mem hdigits.ne_nil

/-! ## Spans around an offset -/

/-- The span starts before an offset and ends behind it. -/
def ValueSpan.Straddles (span : ValueSpan) (offset : Nat) : Prop :=
  span.start < offset ∧ offset < span.stop

instance (span : ValueSpan) (offset : Nat) : Decidable (span.Straddles offset) :=
  inferInstanceAs (Decidable (_ ∧ _))

theorem getElem?_slice (text : List Char) {start stop i : Nat} (h : start + i < stop) :
    (slice text start stop)[i]? = text[start + i]? := by
  rw [slice, List.getElem?_drop, List.getElem?_take_of_lt h]

section Spans

variable {names : SlotNames} {keywords : List String} {text before line after : List Char}
  {span : ValueSpan}

theorem start_off_line (hline : IsLine text before line after)
    (hdirective : isDirective keywords line = true) (h : span ∈ valueSpans names keywords text) :
    span.start < before.length ∨ (before.length + line.length : Nat) < span.start := by
  by_contra hon
  have hplain := not_directive_of_mem h hline (by omega) (by omega)
  rw [hdirective] at hplain
  cases hplain

/-- A value has a character of a directive line exactly if it straddles the start of the line. -/
theorem straddles_iff (hline : IsLine text before line after)
    (hdirective : isDirective keywords line = true) (h : span ∈ valueSpans names keywords text) :
    (∃ offset : Nat, before.length ≤ offset ∧ offset < before.length + line.length ∧
      span.start ≤ offset ∧ offset < span.stop) ↔ line ≠ [] ∧ span.Straddles before.length := by
  constructor
  · rintro ⟨offset, hfrom, hto, hstart, hstop⟩
    have hoff := start_off_line hline hdirective h
    exact ⟨List.length_pos_iff.mp (by omega), by omega, by omega⟩
  · rintro ⟨hne, hstart, hstop⟩
    have hpos := List.length_pos_iff.mpr hne
    exact ⟨before.length, Nat.le_refl _, by omega, by omega, hstop⟩

theorem parted_of_straddles (hline : IsLine text before line after)
    (h : span ∈ valueSpans names keywords text) (hstraddles : span.Straddles before.length) :
    span.kind = .number ∧ IsParted span.text.toList := by
  obtain ⟨h0, -, -⟩ := (valueSpans_laid names keywords text).inside span h
  obtain ⟨hstart, hstop⟩ := hstraddles
  apply (spelled_of_mem h).parted
  rw [numbered_text h]
  have hne : before ≠ [] := List.length_pos_iff.mp (by omega)
  -- the line feed before the line is a character of the value
  obtain ⟨earlier, rfl⟩ := hline.before_eq.resolve_left hne
  rw [List.length_append, List.length_singleton] at hstart hstop
  have hchar : text[span.start.toNat + (earlier.length - span.start.toNat)]? = some '\n' := by
    rw [hline.text_eq, show span.start.toNat + (earlier.length - span.start.toNat) =
      earlier.length by omega]
    simp
  rw [← getElem?_slice text (show _ < span.stop.toNat by omega)] at hchar
  exact List.mem_of_getElem? hchar

theorem clear_of_not_straddles {front lead : List Char}
    (hline : IsLine text (front ++ lead) line after) (hdirective : isDirective keywords line = true)
    (hlead : lead = [] ∨ lead = ['\n']) (h : span ∈ valueSpans names keywords text)
    (hnot : ¬ span.Straddles (front ++ lead).length) :
    span.stop ≤ front.length ∨ ((front ++ lead).length + line.length : Nat) < span.start := by
  obtain ⟨h0, hss, hinside⟩ := (valueSpans_laid names keywords text).inside span h
  apply (start_off_line hline hdirective h).imp_left
  intro hbefore
  have hstop : span.stop ≤ (front ++ lead).length := by
    by_contra hbehind
    exact hnot ⟨hbefore, by omega⟩
  rcases hlead with rfl | rfl
  · rwa [List.append_nil] at hstop
  · rw [List.length_append, List.length_singleton] at hstop hbefore
    by_contra hfeed
    -- the span would end with the line feed
    apply (spelled_of_mem h).getLast?_ne
    rw [numbered_text h, List.getLast?_eq_getElem?, slice_length _ (by omega),
      getElem?_slice _ (by omega), hline.text_eq, show span.start.toNat +
        (span.stop.toNat - span.start.toNat - 1) = front.length by omega]
    simp

end Spans

/-! ## Directive lines -/

section Edited

variable {names : SlotNames} {keywords : List String} {p : Program}
  {text before line after : List Char} {edits : Edits}

theorem Applicable.exists_span (h : Applicable names keywords p text edits) {start stop : Int}
    (hplace : EditedPlace (valueOffsets names keywords (some p) text).result edits start stop) :
    ∃ span ∈ valueSpans names keywords text,
      (edits.get? (.ordinal span.index)).isSome = true ∧ span.start = start ∧ span.stop = stop := by
  obtain ⟨n, hedit, hat⟩ := hplace
  obtain ⟨value, hvalue⟩ := Option.isSome_iff_exists.mp hedit
  obtain ⟨m, hm, hsame⟩ := h.aligned _ (Edits.mem_of_get? hvalue)
  cases hm
  rw [hat] at hsame
  obtain ⟨span, hspan, heq⟩ := Option.map_eq_some_iff.mp hsame
  obtain ⟨rfl, rfl⟩ := Prod.mk.inj heq
  unfold atOrdinal? at hspan
  split at hspan
  · cases hspan
  · next hn =>
    have hindex := valueSpans_index hspan
    rw [Int.toNat_of_nonneg (by omega)] at hindex
    exact ⟨span, List.mem_of_getElem? hspan, by rw [hindex]; exact hedit, rfl, rfl⟩

/-- Edits that can be made keep a directive line that no edited value straddles the start of. -/
theorem Applicable.keeps_line (h : Applicable names keywords p text edits)
    (hline : IsLine text before line after) (hdirective : isDirective keywords line = true)
    (hnot : ∀ span ∈ valueSpans names keywords text,
      (edits.get? (.ordinal span.index)).isSome = true → ¬ span.Straddles before.length) :
    ∃ before' after', IsLine (substituted names keywords text edits) before' line after' ∧
      Retouched (valueOffsets names keywords (some p) text).result edits 0 before before' ∧
      Retouched (valueOffsets names keywords (some p) text).result edits
        (before.length + line.length) after after' := by
  -- the line is kept together with the line feeds next to it
  obtain ⟨front, lead, rfl, hlead, hfront⟩ : ∃ front lead, before = front ++ lead ∧
      (lead = [] ∨ lead = ['\n']) ∧ (lead = [] → front = []) := by
    rcases hline.before_eq with rfl | ⟨earlier, rfl⟩
    · exact ⟨[], [], rfl, .inl rfl, fun _ => rfl⟩
    · exact ⟨earlier, ['\n'], rfl, .inr rfl, nofun⟩
  obtain ⟨trail, back, rfl, htrail, hback⟩ : ∃ trail back, after = trail ++ back ∧
      (trail = [] ∨ trail = ['\n']) ∧ (trail = [] → back = []) := by
    rcases hline.after_eq with rfl | ⟨later, rfl⟩
    · exact ⟨[], [], rfl, .inl rfl, fun _ => rfl⟩
    · exact ⟨['\n'], later, rfl, .inr rfl, nofun⟩
  have htext : text = front ++ ((lead ++ (line ++ trail)) ++ back) := by
    simp [hline.text_eq, List.append_assoc]
  have hclear : ∀ start stop,
      EditedPlace (valueOffsets names keywords (some p) text).result edits start stop →
      stop ≤ (0 + front.length : Nat) ∨
        (0 + front.length + (lead ++ (line ++ trail)).length : Nat) ≤ start := by
    intro start stop hplace
    obtain ⟨span, hspan, hedit, rfl, rfl⟩ := h.exists_span hplace
    have hoff := clear_of_not_straddles hline hdirective hlead hspan (hnot span hspan hedit)
    have hshort : trail.length ≤ 1 := by rcases htrail with rfl | rfl <;> simp
    simp only [List.length_append] at hoff ⊢
    omega
  obtain ⟨front', back', hresult, hfront', hback'⟩ := h.retouched.keeps htext hclear
  refine ⟨front' ++ lead, trail ++ back', ⟨?_, hline.unbroken, ?_, ?_⟩,
    hfront'.append (.refl _ _ _ _), ?_⟩
  · simp [hresult, List.append_assoc]
  · rcases hlead with rfl | rfl
    · rw [hfront rfl] at hfront'
      simp [hfront'.eq_nil]
    · simp
  · rcases htrail with rfl | rfl
    · rw [hback rfl] at hback'
      simp [hback'.eq_nil]
    · simp
  · apply Retouched.append (.refl _ _ _ _)
    rw [show (front ++ lead).length + line.length + trail.length =
      0 + front.length + (lead ++ (line ++ trail)).length by simp only [List.length_append]; omega]
    exact hback'

end Edited

/-- A value has characters of a directive line only if it straddles the start of the line, and then it
is a minus sign with its number on another line. All directive lines that no edited value reaches into
so are lines of the outcome, between the edited text before and the edited text behind. -/
theorem applyEdits_directiveLine (names : SlotNames) (keywords : List String)
    (program : Option Program) (text : List Char) (edits : Edits) {before line after : List Char}
    (hline : IsLine text before line after) (hdirective : isDirective keywords line = true) :
    (∀ span ∈ valueSpans names keywords text,
      ((∃ offset : Nat, before.length ≤ offset ∧ offset < before.length + line.length ∧
        span.start ≤ offset ∧ offset < span.stop) ↔ line ≠ [] ∧ span.Straddles before.length) ∧
      (span.Straddles before.length → span.kind = .number ∧ IsParted span.text.toList)) ∧
    ((∀ span ∈ valueSpans names keywords text,
        (edits.get? (.ordinal span.index)).isSome = true → ¬ span.Straddles before.length) →
      let located := (valueOffsets names keywords program text).result
      ∃ before' after', IsLine (applyEdits names keywords program text edits).result
          before' line after' ∧
        Retouched located edits 0 before before' ∧
        Retouched located edits (before.length + line.length) after after') := by
  refine ⟨fun span hspan =>
    ⟨straddles_iff hline hdirective hspan, parted_of_straddles hline hspan⟩, ?_⟩
  intro hnot located
  by_cases h : ∃ p, program = some p ∧ Applicable names keywords p text edits
  · obtain ⟨p, rfl, h⟩ := h
    rw [applyEdits_of_applicable h]
    exact h.keeps_line hline hdirective hnot
  · have hsame : (applyEdits names keywords program text edits).result = text := by
      cases program with
      | none => rfl
      | some p => exact applyEdits_of_not_applicable fun happ => h ⟨p, rfl, happ⟩
    rw [hsame]
    exact ⟨before, after, hline, .refl _ _ _ _, .refl _ _ _ _⟩

/-- A directive line between two edited values, of which the second goes over two lines. -/
theorem applyEdits_directiveLine_between :
    let text := "osc(10)\nloadScript(5)\nosc(-\n20)".toList
    let line := "loadScript(5)".toList
    let edits : Edits := [(.ordinal 0, .number (.int 7)), (.ordinal 1, .number (.int 3))]
    IsLine text "osc(10)\n".toList line "\nosc(-\n20)".toList ∧
    isDirective standardKeywords line = true ∧
    (∀ span ∈ valueSpans .standard standardKeywords text,
      (edits.get? (.ordinal span.index)).isSome = true → ¬ span.Straddles 8) ∧
    ∃ p, parseProgram text = .ok p ∧
      let result := (applyEdits .standard standardKeywords (some p) text edits).result
      line ∈ lines result ∧ result = "osc(7)\nloadScript(5)\nosc(3)".toList := by
  intro text line edits
  have hline : IsLine text "osc(10)\n".toList line "\nosc(-\n20)".toList := by
    decide +kernel
  have hdirective : isDirective standardKeywords line = true := by decide +kernel
  have hnot : ∀ span ∈ valueSpans .standard standardKeywords text,
      (edits.get? (.ordinal span.index)).isSome = true → ¬ span.Straddles 8 := by decide +kernel
  have hedited : (parseProgram text).toOption.map
      (fun p => (applyEdits .standard standardKeywords (some p) text edits).result) =
        some "osc(7)\nloadScript(5)\nosc(3)".toList := by decide +kernel
  obtain ⟨p, hparse, hresult⟩ := exists_of_toOption_map hedited
  obtain ⟨before', after', hkept, -, -⟩ := (applyEdits_directiveLine .standard standardKeywords
    (some p) text edits hline hdirective).2 hnot
  exact ⟨hline, hdirective, hnot, p, hparse, hkept.mem_lines, hresult⟩

/-- The number of a minus sign on a directive line is replaced with it, and the line is gone. -/
theorem directiveLine_edited :
    let text := "x = -\n5; loadScript('a.js')".toList
    let line := "5; loadScript('a.js')".toList
    let edits : Edits := [(.ordinal 0, .number (.int 7))]
    IsLine text "x = -\n".toList line [] ∧ isDirective standardKeywords line = true ∧
    (∃ span ∈ valueSpans .standard standardKeywords text,
      (edits.get? (.ordinal span.index)).isSome = true ∧ span.start ≤ 6 ∧ 6 < span.stop) ∧
    ∃ p, parseProgram text = .ok p ∧
      let result := (applyEdits .standard standardKeywords (some p) text edits).result
      result = "x = 7; loadScript('a.js')".toList ∧ line ∉ lines result := by
  intro text line edits
  have hedited : (parseProgram text).toOption.map
      (fun p => (applyEdits .standard standardKeywords (some p) text edits).result) =
        some "x = 7; loadScript('a.js')".toList := by decide +kernel
  obtain ⟨p, hparse, hresult⟩ := exists_of_toOption_map hedited
  refine ⟨by decide +kernel, by decide +kernel, by decide +kernel, p, hparse, hresult, ?_⟩
  rw [hresult]
  decide

end LiveChain
