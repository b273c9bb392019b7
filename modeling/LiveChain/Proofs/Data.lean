import LiveChain.Datum
import Mathlib.Data.List.Basic

/-!
# Integers inside data

Some texts of data do not exist because of an integer somewhere inside them.
-/

set_option autoImplicit false

namespace LiveChain

/-- Data that hold an integer of some kind, in themselves or in a part. -/
inductive Datum.Holds (p : Int → Prop) : Datum → Prop
  | int {n : Int} (h : p n) : Holds p (.number (.int n))
  | item {items : List Datum} {d : Datum} (hd : d ∈ items) (h : Holds p d) : Holds p (.list items)
  | field {fields : List (String × Datum)} {name : String} {d : Datum} (hd : (name, d) ∈ fields)
      (h : Holds p d) : Holds p (.table fields)

namespace Datum

variable {p : Int → Prop}

theorem holds_int {n : Int} : (Datum.number (.int n)).Holds p ↔ p n := ⟨fun | .int h => h, .int⟩

theorem holds_list {items : List Datum} : (Datum.list items).Holds p ↔ ∃ d ∈ items, d.Holds p :=
  ⟨fun | .item hd h => ⟨_, hd, h⟩, fun ⟨_, hd, h⟩ => .item hd h⟩

theorem holds_table {fields : List (String × Datum)} :
    (Datum.table fields).Holds p ↔ ∃ f ∈ fields, f.2.Holds p :=
  ⟨fun | .field hd h => ⟨_, hd, h⟩, fun ⟨_, hd, h⟩ => .field hd h⟩

end Datum

/-- What is made of a first part and the others fails when one of them does. -/
theorem bind_eq_none_iff {α β γ : Type} {first : Option α} {others : Option β} {f : α → β → γ} :
    (do let a ← first; let b ← others; pure (f a b)) = none ↔ first = none ∨ others = none := by
  cases first with
  | none => simp
  | some a =>
    cases others with
    | none => simp
    | some b => simp

end LiveChain
