import LiveChain.Value.Editable

/-!
# Listings of editable values

A value is listed as one line of JSON without blanks. Integers of more than 64 bits cannot be listed.
-/

set_option autoImplicit false

namespace LiveChain.Cli

open Text

def listedChar (c : Char) : List Char :=
  if c == '"' || c == '\\' then ['\\', c]
  else if c == '\n' then ['\\', 'n']
  else if c == '\r' then ['\\', 'r']
  else if c == '\t' then ['\\', 't']
  else if c == '\x08' then ['\\', 'b']
  else if c == '\x0c' then ['\\', 'f']
  else if c.toNat < 0x20 then '\\' :: 'u' :: hexText 4 c.toNat
  else [c]

def listedText (s : String) : List Char := '"' :: s.toList.flatMap listedChar ++ ['"']

/-- An integer, if it fits into 64 bits with or without a sign. -/
def listedInt? (n : Int) : Option (List Char) :=
  if -0x8000000000000000 ≤ n && n < 0x10000000000000000 then some (toString n).toList else none

/-- A number; those that are not finite have no JSON form and count as missing. -/
def listedNumber? : Number → Option (List Char)
  | .int n => listedInt? n
  | .float (.finite x) => some (Layout.listing.finite x)
  | .float _ => some "null".toList

def commaSeparated (parts : List (List Char)) : List Char := (parts.intersperse [',']).flatten

def listedRecord (fields : List (String × List Char)) : List Char :=
  '\x7b' :: commaSeparated (fields.map fun (name, d) => listedText name ++ ':' :: d) ++ ['\x7d']

mutual

/-- The JSON text of a datum; none when it holds an integer of more than 64 bits. -/
def listed? : Datum → Option (List Char)
  | .null => some "null".toList
  | .bool true => some "true".toList
  | .bool false => some "false".toList
  | .number n => listedNumber? n
  | .text s => some (listedText s)
  | .list items => (listedItems? items).map fun parts => '[' :: commaSeparated parts ++ [']']
  | .table fields => (listedFields? fields).map listedRecord
  | .moment iso => some (listedText iso)

def listedItems? : List Datum → Option (List (List Char))
  | [] => some []
  | item :: rest => do
    let first ← listed? item
    let others ← listedItems? rest
    return first :: others

/-- The JSON texts of the fields of a table, each with its name. -/
def listedFields? : List (String × Datum) → Option (List (String × List Char))
  | [] => some []
  | (name, value) :: rest => do
    let first ← listed? value
    let others ← listedFields? rest
    return (name, first) :: others

end

def listing? (v : EditableValue) : Option (List Char) := do
  let int (n : Int) := Datum.number (.int n)
  let position : Datum :=
    .table [("line", int v.line), ("column", int v.column), ("length", int v.length)]
  listed? (.table [
    ("value", v.value),
    ("kind", .text v.kind.name),
    ("position", position),
    ("ordinal", int v.ordinal),
    ("call_name", .text v.callName),
    ("call_anchor_column", int v.callAnchorColumn),
    ("parameter_index", int v.parameterIndex),
    ("parameter_name", .text v.parameterName),
    ("parameter_type", .text v.parameterType),
    ("parameter_default", v.parameterDefault),
    ("key", .text v.key),
    ("call_site_id", .text v.callSiteId),
    ("options", .list (v.options.map .text))])

end LiveChain.Cli
