import LiveChain.Datum

/-!
# Checked data

Data from outside are checked before they are used. A check reports everything that is wrong, in
order, and where it is.
-/

set_option autoImplicit false

namespace LiveChain

/-- A step into a datum: to a field of a table or to an item of a list. -/
inductive Step where
  | field (name : String)
  | item (index : Nat)
deriving DecidableEq, Repr

inductive Fault where
  | notText
  | notList
  | notTable
  | notRecord
  | missing
  | unknownField
  | notNumber
  | unreadableNumber
  | notPositive
  | unacceptable
deriving DecidableEq, Repr

def Fault.code : Fault → String
  | .notText => "string_type"
  | .notList => "list_type"
  | .notTable => "dict_type"
  | .notRecord => "model_type"
  | .missing => "missing"
  | .unknownField => "extra_forbidden"
  | .notNumber => "float_type"
  | .unreadableNumber => "float_parsing"
  | .notPositive => "greater_than"
  | .unacceptable => "value_error"

/-- A fault and the way to it, from the outside in. -/
structure Issue where
  path : List Step
  fault : Fault
deriving DecidableEq, Repr

/-- A value that passed its checks, or the issues that were found. -/
inductive Checked (α : Type) where
  | valid (value : α)
  | invalid (issues : List Issue)

namespace Checked

variable {α β : Type}

def issues : Checked α → List Issue
  | valid _ => []
  | invalid found => found

/-- Changes the result of a check and keeps its issues. -/
def map (f : α → β) : Checked α → Checked β
  | valid a => valid (f a)
  | invalid found => invalid found

/-- One check after another: the result is valid when both are, and the issues of both are
kept. -/
def seq (f : Checked (α → β)) (a : Checked α) : Checked β :=
  match f, a with
  | valid f, valid a => valid (f a)
  | valid _, invalid found => invalid found
  | invalid found, valid _ => invalid found
  | invalid first, invalid second => invalid (first ++ second)

/-- A check of which only the issues matter. -/
def also (a : Checked α) (b : Checked Unit) : Checked α := (a.map fun x _ => x).seq b

def bind (a : Checked α) (f : α → Checked β) : Checked β :=
  match a with
  | valid a => f a
  | invalid found => invalid found

def fail (fault : Fault) : Checked α := invalid [⟨[], fault⟩]

def within (step : Step) : Checked α → Checked α
  | valid a => valid a
  | invalid found => invalid (found.map fun issue => { issue with path := step :: issue.path })

/-- The values of all checks, or all issues. -/
def all : List (Checked α) → Checked (List α)
  | [] => valid []
  | a :: rest => (a.map List.cons).seq (all rest)

end Checked

/-! ## Checks of plain data -/

def checkText : Datum → Checked String
  | .text s => .valid s
  | _ => .fail .notText

def checkOptionalText : Datum → Checked (Option String)
  | .null => .valid none
  | .text s => .valid (some s)
  | _ => .fail .notText

def checkList {α : Type} (check : Datum → Checked α) : Datum → Checked (List α)
  | .list items => .all (items.zipIdx.map fun (item, index) => (check item).within (.item index))
  | _ => .fail .notList

/-- A field that has a value when it is left out. -/
def checkField {α : Type} (fields : List (String × Datum)) (name : String) (absent : α)
    (check : Datum → Checked α) : Checked α :=
  match Datum.field? fields name with
  | none => .valid absent
  | some d => (check d).within (.field name)

def checkRequired {α : Type} (fields : List (String × Datum)) (name : String)
    (check : Datum → Checked α) : Checked α :=
  match Datum.field? fields name with
  | none => (Checked.fail .missing).within (.field name)
  | some d => (check d).within (.field name)

def checkKnown (known : List String) (fields : List (String × Datum)) : Checked Unit :=
  match fields.filter fun f => !known.contains f.1 with
  | [] => .valid ()
  | unknown => .invalid (unknown.map fun f => ⟨[.field f.1], .unknownField⟩)

end LiveChain
