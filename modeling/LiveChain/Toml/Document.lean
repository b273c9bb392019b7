import LiveChain.Toml.Value

/-!
# TOML documents

A document is a sequence of lines: assignments, table headers and list headers. A header opens
the table that the following assignments go to.
-/

set_option autoImplicit false

namespace LiveChain

namespace Toml

/-- A document while it is read: its data, the header that is open, the tables that no header may
open again, those that this will hold for from the next header on, and the keys of values that
are complete. -/
structure Document where
  fields : Fields
  header : Key
  declared : List Key
  pending : List Key
  closed : List Key

def Document.empty : Document := ⟨[], [], [], [], []⟩

namespace Document

/-- Whether a key lies at or below a complete value. -/
def isClosed (doc : Document) (path : Key) : Bool := doc.closed.any fun k => k.isPrefixOf path

/-- Ends the part of the document under the open header. -/
def settle (doc : Document) : Document :=
  { doc with declared := doc.pending ++ doc.declared, pending := [] }

/-- Opens a table, which must not have been opened before. -/
def openHeader (doc : Document) (path : Key) : Option Document :=
  if doc.declared.contains path || doc.isClosed path then none
  else (openTable path doc.fields).map fun fields =>
    { doc with fields := fields, header := path, declared := path :: doc.declared }

/-- Adds a table to a list and opens it. What was said of the last item does not hold for the
new one. -/
def appendHeader (doc : Document) (path : Key) : Option Document :=
  if doc.isClosed path then none
  else (appendTable path doc.fields).map fun fields =>
    { doc with
      fields := fields
      header := path
      declared := path :: doc.declared.filter fun k => !path.isPrefixOf k
      closed := doc.closed.filter fun k => !path.isPrefixOf k }

/-- The tables that the points in a key lead through. -/
def passedTables (doc : Document) (path : Key) : List Key :=
  (List.range (path.length - 1)).map fun i => doc.header ++ path.take (i + 1)

/-- Adds a value below the open header. A key with points must not lead through a table that a
header has opened. -/
def assign (doc : Document) (path : Key) (d : Datum) : Option Document :=
  let passed := doc.passedTables path
  if passed.any doc.declared.contains || doc.isClosed (doc.header ++ path.dropLast) then none
  else (addValue true (doc.header ++ path) d doc.fields).map fun fields =>
    { doc with
      fields := fields
      pending := passed ++ doc.pending
      closed := if hasParts d then (doc.header ++ path) :: doc.closed else doc.closed }

end Document

/-! ## Lines -/

def header (doc : Document) : Reader Document := do
  let doc := doc.settle
  if ← optional "[[".toList then
    skipBlanks
    let path ← key
    let doc ← require (doc.appendHeader path)
    expect "]]".toList
    return doc
  else
    expect ['[']
    skipBlanks
    let path ← key
    let doc ← require (doc.openHeader path)
    expect [']']
    return doc

def statement (doc : Document) : Reader Document := do
  match ← peek with
  | none => return doc
  | some c =>
    if c == '\n' || c == '#' then return doc
    else if c == '[' then header doc
    else
      let (path, d) ← assignment value
      require (doc.assign path d)

def documentLines : Nat → Document → Reader Document
  | 0, _ => reject
  | fuel + 1, doc => do
    skipBlanks
    let doc ← statement doc
    skipBlanks
    skipComment
    if (← get).isEmpty then return doc
    else
      expect ['\n']
      documentLines fuel doc

end Toml

open Toml

/-- The data of a document. A carriage return before a line feed does not count. -/
def parseToml (text : List Char) : Except TomlError Datum :=
  let text := Text.replaceAll ['\r', '\n'] ['\n'] text
  (documentLines (text.length + 1) .empty text).map fun (doc, _) => .table doc.fields

end LiveChain
