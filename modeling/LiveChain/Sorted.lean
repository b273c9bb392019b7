/-!
# Stable sorting

Sorting by insertion, by recursion on the list. Entries that are equal in the order keep their
places, and a list that is sorted already is gone through once.
-/

set_option autoImplicit false

namespace LiveChain

variable {α : Type}

/-- Puts an entry before the first one that it may stand before. -/
def insertBy (le : α → α → Bool) (a : α) : List α → List α
  | [] => [a]
  | b :: rest => if le a b then a :: b :: rest else b :: insertBy le a rest

/-- Sorts a list; entries that are equal in the order keep their places. -/
def sortBy (le : α → α → Bool) : List α → List α
  | [] => []
  | a :: rest => insertBy le a (sortBy le rest)

theorem mem_insertBy {le : α → α → Bool} {a x : α} {xs : List α} :
    x ∈ insertBy le a xs ↔ x = a ∨ x ∈ xs := by
  induction xs with
  | nil => simp [insertBy]
  | cons b rest ih =>
    unfold insertBy
    split
    · exact List.mem_cons
    · rw [List.mem_cons, ih, List.mem_cons]
      exact or_left_comm

theorem mem_sortBy {le : α → α → Bool} {x : α} {xs : List α} : x ∈ sortBy le xs ↔ x ∈ xs := by
  induction xs with
  | nil => exact Iff.rfl
  | cons a rest ih => rw [sortBy, mem_insertBy, ih, List.mem_cons]

/-- A sorted list stays as it is. -/
theorem sortBy_of_pairwise {le : α → α → Bool} {xs : List α}
    (h : xs.Pairwise fun a b => le a b = true) : sortBy le xs = xs := by
  induction xs with
  | nil => rfl
  | cons a rest ih =>
    obtain ⟨hfirst, hrest⟩ := List.pairwise_cons.mp h
    rw [sortBy, ih hrest]
    cases rest with
    | nil => rfl
    | cons b rest => rw [insertBy, if_pos (hfirst b (List.mem_cons_self ..))]

end LiveChain
