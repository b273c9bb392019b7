import LiveChain.Sorted
import Mathlib.Data.List.Sort

/-!
# What sorting does

Sorting is the insertion sort of the library, so it gives a permutation that is sorted. Entries with
the same key keep their old order, which decides what comes first where several values start at one
place.
-/

set_option autoImplicit false

namespace LiveChain

section Sorting

variable {α : Type} (r : α → α → Prop) [DecidableRel r]

theorem insertBy_eq_orderedInsert (a : α) (xs : List α) :
    insertBy (fun a b => decide (r a b)) a xs = xs.orderedInsert r a := by
  induction xs with
  | nil => rfl
  | cons b xs ih => simp [insertBy, List.orderedInsert_cons, ih]

theorem sortBy_eq_insertionSort (xs : List α) :
    sortBy (fun a b => decide (r a b)) xs = xs.insertionSort r := by
  induction xs with
  | nil => rfl
  | cons a xs ih => rw [sortBy, ih, insertBy_eq_orderedInsert, List.insertionSort_cons]

end Sorting

theorem insertBy_map {α β : Type} (le : β → β → Bool) (f : α → β) (x : α) (xs : List α) :
    insertBy le (f x) (xs.map f) = (insertBy (fun a b => le (f a) (f b)) x xs).map f := by
  induction xs with
  | nil => rfl
  | cons y xs ih =>
    rw [List.map_cons, insertBy, insertBy, ih]
    split <;> rfl

theorem sortBy_map {α β : Type} (le : β → β → Bool) (f : α → β) (xs : List α) :
    sortBy le (xs.map f) = (sortBy (fun a b => le (f a) (f b)) xs).map f := by
  induction xs with
  | nil => rfl
  | cons x xs ih => rw [List.map_cons, sortBy, ih, insertBy_map, sortBy]

/-- Numbers without repetition are sorted in strictly ascending order. -/
theorem sortBy_ascending {ordinals : List Int} (h : ordinals.Nodup) :
    (sortBy (fun a b => decide (a ≤ b)) ordinals).Pairwise (· < ·) := by
  rw [sortBy_eq_insertionSort]
  have hle := List.pairwise_insertionSort (α := Int) (· ≤ ·) ordinals
  have hne := (List.perm_insertionSort (α := Int) (· ≤ ·) ordinals).nodup_iff.mpr h
  apply (hle.and hne).imp
  intro a b hab
  omega

/-! ## Sorting by a key -/

section Key

variable {α : Type} {key : α → Int}

/-- `sorted` has the entries of `xs` by ascending key, and those with the same key in the order that
they have in `xs`. -/
structure SortedFrom (key : α → Int) (xs sorted : List α) : Prop where
  perm : sorted.Perm xs
  ascending : sorted.Pairwise fun a b => key a ≤ key b
  stable : ∀ k, (sorted.filter fun a => key a = k) = xs.filter fun a => key a = k

theorem filter_insertBy (k : Int) (a : α) (xs : List α) :
    ((insertBy (fun a b => decide (key a ≤ key b)) a xs).filter fun a => key a = k) =
      (a :: xs).filter fun a => key a = k := by
  induction xs with
  | nil => rfl
  | cons b xs ih =>
    rw [insertBy]
    split
    · rfl
    · next hlt =>
      -- `a` goes past entries with smaller keys only
      rw [decide_eq_true_eq] at hlt
      rw [List.filter_cons, ih]
      grind

theorem sortBy_sortedFrom (xs : List α) :
    SortedFrom key xs (sortBy (fun a b => decide (key a ≤ key b)) xs) := by
  have : IsTrans α fun a b => key a ≤ key b := ⟨fun _ _ _ => Int.le_trans⟩
  have : Std.Total fun a b => key a ≤ key b := ⟨fun a b => Int.le_total (key a) (key b)⟩
  have heq := sortBy_eq_insertionSort (fun a b => key a ≤ key b) xs
  refine ⟨?_, ?_, fun k => ?_⟩
  · rw [heq]
    exact List.perm_insertionSort _ xs
  · rw [heq]
    exact List.pairwise_insertionSort _ xs
  · clear heq
    induction xs with
    | nil => rfl
    | cons a xs ih => rw [sortBy, filter_insertBy, List.filter_cons, List.filter_cons, ih]

end Key

end LiveChain
