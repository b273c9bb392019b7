import LiveChain.Number.Basic
import LiveChain.Number.Reading
import LiveChain.Number.Shortest
import LiveChain.Text.Quoted

/-!
# Plain data

The values that configuration files, parameter defaults and edits are made of.
-/

set_option autoImplicit false

namespace LiveChain

/-- Plain data. A `moment` is a date, a time or both, in its standard text form. -/
inductive Datum where
  | null
  | bool (b : Bool)
  | number (n : Number)
  | text (s : String)
  | list (items : List Datum)
  | table (fields : List (String × Datum))
  | moment (iso : String)
deriving Inhabited

namespace Datum

/-- The field of a table with a given name. -/
def field? (fields : List (String × Datum)) (name : String) : Option Datum :=
  (fields.find? fun f => f.1 == name).map (·.2)

/-- Missing, empty and zero data count as no label. -/
def isBlankLabel : Datum → Bool
  | .null => true
  | .bool b => !b
  | .number (.int n) => n == 0
  | .number (.float x) => x.isZero
  | .text s => s.isEmpty
  | .list items => items.isEmpty
  | .table fields => fields.isEmpty
  | .moment _ => false

def shownText (s : String) : String := String.ofList (Text.quoted s.toList)

mutual

/-- The text of a value in a message; none when it holds an integer too long to be shown. -/
def shown? : Datum → Option String
  | .null => some "None"
  | .bool true => some "True"
  | .bool false => some "False"
  | .number (.int n) => showInt? n
  | .number (.float x) => some (String.ofList x.text)
  | .text s => some (shownText s)
  | .list items => (shownItems? items).map fun parts => "[" ++ ", ".intercalate parts ++ "]"
  | .table fields =>
    (shownFields? fields).map fun parts => "\x7b" ++ ", ".intercalate parts ++ "\x7d"
  | .moment iso => some iso

def shownItems? : List Datum → Option (List String)
  | [] => some []
  | item :: rest => do
    let first ← shown? item
    let others ← shownItems? rest
    return first :: others

def shownFields? : List (String × Datum) → Option (List String)
  | [] => some []
  | (name, value) :: rest => do
    let first ← shown? value
    let others ← shownFields? rest
    return (shownText name ++ ": " ++ first) :: others

end

end Datum

end LiveChain
