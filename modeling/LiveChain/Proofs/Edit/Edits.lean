import LiveChain.Edit.Edits

/-!
# Looking up and setting edits

What is looked up after an edit was set: its value for its own target, and what was there before for
every other. Setting a target twice keeps the later value, and a target that is there already can be
set earlier or later.
-/

set_option autoImplicit false

namespace LiveChain.Edits

variable {edits : Edits} {target other : EditTarget} {value new : Datum}

theorem mem_of_get? (h : edits.get? target = some value) : (target, value) ∈ edits := by
  obtain ⟨e, he, rfl⟩ := Option.map_eq_some_iff.mp h
  have hkey : e.1 = target := by simpa using List.find?_some he
  rw [← hkey]
  exact List.mem_of_find?_eq_some he

theorem get?_cons (t : EditTarget) (v : Datum) (rest : Edits) (target : EditTarget) :
    Edits.get? ((t, v) :: rest) target = if t = target then some v else Edits.get? rest target := by
  by_cases ht : t = target
  · rw [if_pos ht]
    simp [get?, ht]
  · rw [if_neg ht]
    simp [get?, ht]

@[simp] theorem get?_insert_self (edits : Edits) (target : EditTarget) (value : Datum) :
    (edits.insert target value).get? target = some value := by
  induction edits with
  | nil => simp [insert, get?_cons]
  | cons e rest ih =>
    obtain ⟨t, v⟩ := e
    by_cases h : t = target
    · simp [insert, get?_cons, h]
    · simp [insert, get?_cons, h, ih]

theorem get?_insert_of_ne (h : other ≠ target) :
    (edits.insert target value).get? other = edits.get? other := by
  induction edits with
  | nil => simp [insert, get?_cons, h.symm]
  | cons e rest ih =>
    obtain ⟨t, v⟩ := e
    by_cases ht : t = target
    · simp [insert, get?_cons, ht, h.symm]
    · simp [insert, get?_cons, ht, ih]

theorem insert_ne_nil (edits : Edits) (target : EditTarget) (value : Datum) :
    edits.insert target value ≠ [] := by
  cases edits with
  | nil => exact List.cons_ne_nil _ _
  | cons e rest =>
    unfold insert
    split <;> exact List.cons_ne_nil _ _

theorem mem_insert {e : EditTarget × Datum} (h : e ∈ edits.insert target value) :
    e = (target, value) ∨ e ∈ edits := by
  induction edits with
  | nil => exact .inl (List.mem_singleton.mp h)
  | cons first rest ih =>
    obtain ⟨t, v⟩ := first
    unfold insert at h
    split at h
    · next ht =>
      rw [ht] at h
      rcases List.mem_cons.mp h with rfl | hrest
      · exact .inl rfl
      · exact .inr (List.mem_cons_of_mem _ hrest)
    · rcases List.mem_cons.mp h with rfl | hrest
      · exact .inr (List.mem_cons_self ..)
      · rcases ih hrest with heq | hmem
        · exact .inl heq
        · exact .inr (List.mem_cons_of_mem _ hmem)

theorem insert_insert_self (edits : Edits) (target : EditTarget) (value new : Datum) :
    (edits.insert target value).insert target new = edits.insert target new := by
  induction edits with
  | nil => simp [insert]
  | cons e rest ih =>
    obtain ⟨t, v⟩ := e
    by_cases h : t = target
    · simp [insert, h]
    · simp [insert, h, ih]

theorem isSome_get?_insert (h : (edits.get? target).isSome = true) (other : EditTarget)
    (new : Datum) : ((edits.insert other new).get? target).isSome = true := by
  by_cases heq : target = other
  · rw [heq, get?_insert_self]
    rfl
  · rw [get?_insert_of_ne heq]
    exact h

/-- A target that is there keeps its place, so the order of settings does not show. -/
theorem insert_comm (h : (edits.get? target).isSome = true) (hne : other ≠ target)
    (value new : Datum) :
    (edits.insert target value).insert other new = (edits.insert other new).insert target value := by
  induction edits with
  | nil => cases h
  | cons e rest ih =>
    obtain ⟨t, v⟩ := e
    by_cases ht : t = target
    · subst ht
      simp [insert, hne.symm]
    · rw [get?_cons, if_neg ht] at h
      by_cases ho : t = other
      · subst ho
        simp [insert, hne]
      · simp [insert, ht, ho, ih h]

end LiveChain.Edits
