import LiveChain.Datum

/-!
# Slots and their names

A snippet can refer to four sources and four outputs by name. Each slot has a default name that a
label may replace.
-/

set_option autoImplicit false

namespace LiveChain

/-- What an editable value is: a number, or a reference to a source or an output. -/
inductive ValueKind where
  | number
  | source
  | output
deriving DecidableEq, Repr

def ValueKind.name : ValueKind → String
  | .number => "number"
  | .source => "source"
  | .output => "output"

/-- The number of source slots, and of output slots. -/
def slotCount : Nat := 4

/-- The name of each slot: its label, or the stem and the slot's number. -/
def slotNames (stem : String) (labels : List (Option String)) : List String :=
  (List.range slotCount).map fun slot =>
    match labels[slot]? with
    | some (some label) => if label.isEmpty then stem ++ toString slot else label
    | _ => stem ++ toString slot

structure SlotNames where
  sources : List String
  outputs : List String
deriving DecidableEq, Repr

namespace SlotNames

def ofLabels (sources outputs : List (Option String)) : SlotNames :=
  ⟨slotNames "s" sources, slotNames "o" outputs⟩

/-- The names of unlabelled slots. -/
def standard : SlotNames := ofLabels [] []

instance : Inhabited SlotNames := ⟨standard⟩

/-- All names, outputs first. -/
def all (names : SlotNames) : List String := names.outputs ++ names.sources

/-- What a name refers to. Outputs win when a label gives one name to a source and an output. -/
def kindOf? (names : SlotNames) (name : String) : Option ValueKind :=
  if names.outputs.contains name then some .output
  else if names.sources.contains name then some .source
  else none

/-- The names that a value of a kind can be changed to. -/
def optionsFor (names : SlotNames) : ValueKind → List String
  | .number => []
  | .source => names.sources
  | .output => names.outputs

end SlotNames

end LiveChain
