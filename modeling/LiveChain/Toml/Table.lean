import LiveChain.Datum
import LiveChain.Toml.Reader

/-!
# Tables of a TOML document

A key is a path of names. Tables on the way to a key come into being when they are needed.
-/

set_option autoImplicit false

namespace LiveChain.Toml

abbrev Key := List String

/-- The fields of a table, in the order in which they came up. -/
abbrev Fields := List (String × Datum)

/-- Changes the field with a name; a new field comes last. -/
def alterField (name : String) (f : Option Datum → Option Datum) : Fields → Option Fields
  | [] => (f none).map fun d => [(name, d)]
  | (n, d) :: rest =>
    if n == name then (f (some d)).map fun d => (n, d) :: rest
    else (alterField name f rest).map fun rest => (n, d) :: rest

/-- Changes the table that a key leads to, if the key leads to a table. With `throughLists`, a
list on the way stands for its last item. -/
def alterAt (throughLists : Bool) (f : Fields → Option Fields) : Key → Fields → Option Fields
  | [], fields => f fields
  | name :: path, fields =>
    alterField name (fun
      | none => (alterAt throughLists f path []).map .table
      | some (.table inner) => (alterAt throughLists f path inner).map .table
      | some (.list items) =>
        match throughLists, items.getLast? with
        | true, some (.table inner) =>
          (alterAt throughLists f path inner).map fun t => .list (items.dropLast ++ [.table t])
        | _, _ => none
      | some _ => none) fields

def addValue (throughLists : Bool) (key : Key) (value : Datum) (fields : Fields) :
    Option Fields :=
  match key.getLast? with
  | none => none
  | some name =>
    alterAt throughLists (fun inner =>
      alterField name (fun
        | none => some value
        | some _ => none) inner) key.dropLast fields

def openTable (key : Key) (fields : Fields) : Option Fields := alterAt true some key fields

/-- Adds an empty table to the list that a key leads to. -/
def appendTable (key : Key) (fields : Fields) : Option Fields :=
  match key.getLast? with
  | none => none
  | some name =>
    alterAt true (fun inner =>
      alterField name (fun
        | none => some (.list [.table []])
        | some (.list items) => some (.list (items ++ [.table []]))
        | some _ => none) inner) key.dropLast fields

end LiveChain.Toml
