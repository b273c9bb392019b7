import LiveChain.Cli.Run
import LiveChain.Proofs.Data

/-!
# What cannot be listed

The listing has no form for integers of more than 64 bits. A value with such an integer in it ends
the listing.
-/

set_option autoImplicit false

namespace LiveChain

/-! ## Wide data -/

/-- An integer that does not fit into 64 bits, be it with a sign or without. -/
def WideInt (n : Int) : Prop := n < -0x8000000000000000 ∨ 0x10000000000000000 ≤ n

def Datum.Wide (d : Datum) : Prop := d.Holds WideInt

/-- A value that holds an integer of more than 64 bits, in itself, in its default or in its place. -/
inductive WideValue (v : EditableValue) : Prop
  | value (h : v.value.Wide)
  | default (h : v.parameterDefault.Wide)
  | place {n : Int} (hn : n ∈ [v.line, v.column, v.length, (v.ordinal : Int), v.callAnchorColumn,
      (v.parameterIndex : Int)]) (h : WideInt n)

namespace Cli

/-! ## Listed data -/

theorem listedInt?_eq_none_iff {n : Int} : listedInt? n = none ↔ WideInt n := by
  rw [listedInt?, WideInt]
  simp only [Bool.and_eq_true, decide_eq_true_eq, ite_eq_right_iff, reduceCtorEq, imp_false]
  omega

theorem listedNumber?_float (x : Binary64) : listedNumber? (.float x) ≠ none := by
  cases x <;> exact Option.some_ne_none _

theorem wide_int {n : Int} : (Datum.number (.int n)).Wide ↔ WideInt n := Datum.holds_int

theorem wide_list {items : List Datum} : (Datum.list items).Wide ↔ ∃ d ∈ items, d.Wide :=
  Datum.holds_list

theorem wide_table {fields : List (String × Datum)} :
    (Datum.table fields).Wide ↔ ∃ f ∈ fields, f.2.Wide :=
  Datum.holds_table

mutual

/-- Exactly the data with an integer of more than 64 bits have no JSON text. -/
theorem listed?_eq_none_iff : ∀ d : Datum, listed? d = none ↔ d.Wide
  | .null => iff_of_false (Option.some_ne_none _) nofun
  | .bool true => iff_of_false (Option.some_ne_none _) nofun
  | .bool false => iff_of_false (Option.some_ne_none _) nofun
  | .number (.int n) => by
    rw [listed?, listedNumber?, listedInt?_eq_none_iff, wide_int]
  | .number (.float x) => by
    rw [listed?]
    exact iff_of_false (listedNumber?_float x) nofun
  | .text s => iff_of_false (Option.some_ne_none _) nofun
  | .moment iso => iff_of_false (Option.some_ne_none _) nofun
  | .list items => by
    rw [listed?, Option.map_eq_none_iff, listedItems?_eq_none_iff items, wide_list]
  | .table fields => by
    rw [listed?, Option.map_eq_none_iff, listedFields?_eq_none_iff fields, wide_table]

theorem listedItems?_eq_none_iff : ∀ items : List Datum,
    listedItems? items = none ↔ ∃ d ∈ items, d.Wide
  | [] => by simp [listedItems?]
  | item :: rest => by
    rw [listedItems?, bind_eq_none_iff, listed?_eq_none_iff item, listedItems?_eq_none_iff rest,
      List.exists_mem_cons_iff]

theorem listedFields?_eq_none_iff : ∀ fields : List (String × Datum),
    listedFields? fields = none ↔ ∃ f ∈ fields, f.2.Wide
  | [] => by simp [listedFields?]
  | (name, d) :: rest => by
    rw [listedFields?, bind_eq_none_iff, listed?_eq_none_iff d, listedFields?_eq_none_iff rest,
      List.exists_mem_cons_iff]

end

/-! ## Listed values -/

theorem wideValue_iff {v : EditableValue} : WideValue v ↔ v.value.Wide ∨ v.parameterDefault.Wide ∨
    ∃ n ∈ [v.line, v.column, v.length, (v.ordinal : Int), v.callAnchorColumn,
      (v.parameterIndex : Int)], WideInt n := by
  constructor
  · rintro (h | h | ⟨hn, h⟩)
    · exact .inl h
    · exact .inr (.inl h)
    · exact .inr (.inr ⟨_, hn, h⟩)
  · rintro (h | h | ⟨n, hn, h⟩)
    · exact .value h
    · exact .default h
    · exact .place hn h

/-- Exactly the values with an integer of more than 64 bits have no line. -/
theorem listing?_eq_none_iff {v : EditableValue} : listing? v = none ↔ WideValue v := by
  have htext : ∀ s : String, ¬ (Datum.text s).Wide := fun s h => nomatch h
  have hoptions : ¬ (Datum.list (v.options.map .text)).Wide := by
    rw [wide_list]
    rintro ⟨d, hd, hwide⟩
    obtain ⟨s, -, rfl⟩ := List.mem_map.mp hd
    exact htext s hwide
  have hposition : (Datum.table [("line", .number (.int v.line)), ("column", .number (.int v.column)),
      ("length", .number (.int v.length))]).Wide ↔
      WideInt v.line ∨ WideInt v.column ∨ WideInt v.length := by
    simp [wide_table, wide_int]
  rw [listing?, listed?_eq_none_iff, wide_table]
  simp only [List.exists_mem_cons_iff, wide_int, htext, hoptions, hposition, false_or, or_false,
    List.not_mem_nil, false_and, exists_false]
  rw [wideValue_iff]
  simp only [List.exists_mem_cons_iff, List.not_mem_nil, false_and, exists_false, or_false]
  tauto

/-- A listing ends with success, or with a crash at the first value that has no line. -/
theorem printValues_ending (values : List EditableValue) :
    ((∃ v ∈ values, WideValue v) ∧ (printValues values).ending = .crash .integerTooWide) ∨
      (¬ ∃ v ∈ values, WideValue v) ∧ (printValues values).ending = .exit 0 := by
  induction values with
  | nil => exact .inr ⟨by simp, rfl⟩
  | cons v rest ih =>
    rw [List.exists_mem_cons_iff, ← listing?_eq_none_iff, printValues]
    cases hline : listing? v with
    | none => exact .inl ⟨.inl rfl, rfl⟩
    | some line =>
      rcases ih with ⟨hwide, hending⟩ | ⟨hwide, hending⟩
      · exact .inl ⟨.inr hwide, hending⟩
      · exact .inr ⟨by simpa using hwide, hending⟩

end Cli

end LiveChain
