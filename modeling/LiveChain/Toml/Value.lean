import LiveChain.Toml.Moment
import LiveChain.Toml.Number
import LiveChain.Toml.Table
import LiveChain.Toml.Text

/-!
# Keys and values of a TOML document

A key is a sequence of names with points between them. A value is a text, a truth value, a date, a
time, a number, a list, or a table between braces.
-/

set_option autoImplicit false

namespace LiveChain.Toml

/-! ## Keys -/

/-- Whether a character may stand in a name without quotes. -/
def isBareKeyChar (c : Char) : Bool := c.isAlphanum || c == '-' || c == '_'

def keyPart : Reader String := do
  let cs ← get
  match cs with
  | '"' :: _ => basicText
  | '\'' :: _ => literalText
  | _ =>
    let name := cs.takeWhile isBareKeyChar
    if name.isEmpty then reject
    else
      set (cs.dropWhile isBareKeyChar)
      return String.ofList name

/-- The names of a key after the first, at most `fuel`. -/
def keyTail : Nat → Reader Key
  | 0 => reject
  | fuel + 1 => do
    skipBlanks
    if ← optional ['.'] then
      skipBlanks
      let name ← keyPart
      return name :: (← keyTail fuel)
    else return []

def key : Reader Key := do
  let first ← keyPart
  return first :: (← keyTail ((← get).length + 1))

/-! ## Values -/

def scalar : Reader Datum := do
  let cs ← get
  match cs with
  | '"' :: _ => return .text (← anyText '"')
  | '\'' :: _ => return .text (← anyText '\'')
  | _ =>
    if ← optional "true".toList then return .bool true
    else if ← optional "false".toList then return .bool false
    else match momentAhead cs with
      | .found m rest =>
        set rest
        return .moment (String.ofList m.text)
      | .notInCalendar => reject
      | .absent =>
        match ← number? cs with
        | some (n, rest) =>
          set rest
          return .number n
        | none => reject

def assignment (value : Reader Datum) : Reader (Key × Datum) := do
  let path ← key
  expect ['=']
  skipBlanks
  return (path, ← value)

/-- The items of a list up to its closing bracket, at most `fuel`. -/
def listItems (value : Reader Datum) : Nat → Reader (List Datum)
  | 0 => reject
  | fuel + 1 => do
    skipFiller
    if ← optional [']'] then return []
    else
      let item ← value
      skipFiller
      if ← optional [','] then return item :: (← listItems value fuel)
      else
        expect [']']
        return [item]

def hasParts : Datum → Bool
  | .list _ => true
  | .table _ => true
  | _ => false

/-- A table between braces while it is read: its fields, and the keys whose values are complete. -/
structure Inline where
  fields : Fields
  closed : List Key

/-- Adds a value. Nothing can be added below a complete value. -/
def Inline.add (table : Inline) (path : Key) (d : Datum) : Option Inline :=
  if table.closed.any fun k => k.isPrefixOf path then none
  else (addValue false path d table.fields).map fun fields =>
    ⟨fields, if hasParts d then path :: table.closed else table.closed⟩

/-- The assignments of a table between braces up to the closing brace, at most `fuel`. -/
def inlineFields (value : Reader Datum) : Nat → Inline → Reader Fields
  | 0, _ => reject
  | fuel + 1, table => do
    skipBlanks
    let (path, d) ← assignment value
    let table ← require (table.add path d)
    skipBlanks
    if ← optional [','] then inlineFields value fuel table
    else
      expect ['\x7d']
      return table.fields

/-- A value of at most `depth` levels of lists and tables. -/
def valueUpTo : Nat → Reader Datum
  | 0 => reject
  | depth + 1 => do
    let cs ← get
    match cs with
    | '[' :: rest =>
      set rest
      return .list (← listItems (valueUpTo depth) (rest.length + 1))
    | '\x7b' :: rest =>
      set (rest.dropWhile isGap)
      if ← optional ['\x7d'] then return .table []
      else return .table (← inlineFields (valueUpTo depth) (rest.length + 1) ⟨[], []⟩)
    | _ => scalar

def value : Reader Datum := do valueUpTo ((← get).length + 1)

end LiveChain.Toml
