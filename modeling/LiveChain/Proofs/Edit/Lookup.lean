import LiveChain.Proofs.Edit.Soundness

/-!
# Edits count by what is looked up in them

The order in which edits were given does not show in the edited text: two lists of edits with the
same value for every target make the same text, also where they cannot be made.
-/

set_option autoImplicit false

namespace LiveChain

open Text

namespace Edits

variable {edits edits' : Edits}

theorem get?_ne_none_of_mem {e : EditTarget × Datum} (h : e ∈ edits) : edits.get? e.1 ≠ none := by
  rw [get?, Ne, Option.map_eq_none_iff, List.find?_eq_none]
  intro hnone
  exact hnone e h (by simp)

theorem get?_erase (edits : Edits) (target other : EditTarget) :
    (edits.erase target).get? other = if other = target then none else edits.get? other := by
  induction edits with
  | nil => simp [erase, get?]
  | cons e rest ih =>
    obtain ⟨t, v⟩ := e
    by_cases ht : t = target
    · have hdrop : erase target ((t, v) :: rest) = erase target rest := by simp [erase, ht]
      rw [hdrop, ih, get?_cons]
      by_cases ho : other = target
      · simp [ho]
      · simp [ho, ht, Ne.symm ho]
    · have hkeep : erase target ((t, v) :: rest) = (t, v) :: erase target rest := by
        simp [erase, ht]
      rw [hkeep, get?_cons, get?_cons, ih]
      by_cases ho : t = other
      · simp [← ho, ht]
      · simp [ho]

theorem erase_of_not_contains {target : EditTarget} (h : edits.contains target = false) :
    edits.erase target = edits := by
  rw [erase, List.filter_eq_self]
  intro e he
  have hne := List.any_eq_false.mp h e he
  simpa using hne

theorem eq_nil_of_get? (h : ∀ target, edits.get? target = edits'.get? target) (hnil : edits = []) :
    edits' = [] := by
  cases edits' with
  | nil => rfl
  | cons e rest =>
    have hsome := get?_ne_none_of_mem (List.mem_cons_self (a := e) (l := rest))
    rw [← h, hnil] at hsome
    exact absurd rfl hsome

end Edits

section Congr

variable {names : SlotNames} {keywords : List String} {p : Program} {text : List Char}
  {edits edits' : Edits} (h : ∀ target, edits.get? target = edits'.get? target)
include h

theorem substituted_congr :
    substituted names keywords text edits = substituted names keywords text edits' := by
  have hpiece : pieceAt text edits = pieceAt text edits' := by
    funext span
    rw [pieceAt, pieceAt, h]
  rw [substituted, substituted, hpiece]

theorem Applicable.congr (happly : Applicable names keywords p text edits) :
    Applicable names keywords p text edits' where
  aligned := by
    intro e he
    obtain ⟨value, hvalue⟩ := Option.ne_none_iff_exists'.mp (Edits.get?_ne_none_of_mem he)
    rw [← h] at hvalue
    exact happly.aligned (e.1, value) (Edits.mem_of_get? hvalue)
  writable := by
    intro span hspan value hvalue
    rw [← h] at hvalue
    exact happly.writable span hspan value hvalue
  code := by
    rw [← substituted_congr h]
    exact happly.code

/-- Edits with the same value for every target make the same text. -/
theorem applyEdits_congr (program : Option Program) :
    (applyEdits names keywords program text edits).result =
      (applyEdits names keywords program text edits').result := by
  cases program with
  | none => rfl
  | some p =>
    by_cases happly : Applicable names keywords p text edits
    · rw [applyEdits_of_applicable happly, applyEdits_of_applicable (happly.congr h),
        substituted_congr h]
    · have hnot : ¬ Applicable names keywords p text edits' := fun happly' =>
        happly (happly'.congr fun target => (h target).symm)
      rw [applyEdits_of_not_applicable happly, applyEdits_of_not_applicable hnot]

end Congr

end LiveChain
