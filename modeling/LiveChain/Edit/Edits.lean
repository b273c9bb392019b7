import LiveChain.Datum

/-!
# Pending edits

New values for some of a snippet's editable values, in the order in which they were first given.
-/

set_option autoImplicit false

namespace LiveChain

/-- What an edit is for: the value with an ordinal, or a word, which stands for no value. -/
inductive EditTarget where
  | ordinal (n : Int)
  | word (s : String)
deriving DecidableEq, Repr

/-- Edits in the order in which their targets were first given; each target occurs once. -/
abbrev Edits := List (EditTarget × Datum)

namespace Edits

/-- Sets the value for a target. A target that is there keeps its place. -/
def insert (target : EditTarget) (value : Datum) : Edits → Edits
  | [] => [(target, value)]
  | (t, v) :: rest => if t = target then (t, value) :: rest else (t, v) :: insert target value rest

def erase (target : EditTarget) (edits : Edits) : Edits := edits.filter fun e => e.1 ≠ target

def get? (edits : Edits) (target : EditTarget) : Option Datum :=
  (edits.find? fun e => e.1 = target).map (·.2)

def contains (edits : Edits) (target : EditTarget) : Bool := edits.any fun e => e.1 = target

def ofList (pairs : List (EditTarget × Datum)) : Edits :=
  pairs.foldl (fun edits pair => edits.insert pair.1 pair.2) []

end Edits

end LiveChain
