import LiveChain.Number.Literal
import LiveChain.Syntax.Node
import LiveChain.Syntax.Tree
import LiveChain.Text.Utf8

/-!
# From concrete trees to syntax trees

Discovery works on a few kinds of nodes whose positions count characters. A concrete tree is
converted node by node: comments and nameless tokens go, calls, member accesses and unary operators
are told from their fields, and what lacks them keeps its kind and its parts.
-/

set_option autoImplicit false

namespace LiveChain

open Text

/-- Why a text is no program: it breaks the grammar, or it has a decimal integer of more digits
than are read. -/
inductive ParseError where
  | malformed
  | tooLong (digits : Nat)
deriving DecidableEq, Repr

def ParseError.message : ParseError → String
  | .malformed => "snippet contains syntax errors"
  | .tooLong digits => tooManyDigits digits

/-- Why a number cannot be read, as an error of the text that it stands in. -/
def ParseError.ofNumber : IntError → ParseError
  | .malformed => .malformed
  | .tooLong digits => .tooLong digits

namespace Syntax

/-! ## Positions in characters -/

/-- The bytes of a text, and whether each of them is a character. -/
structure SourceIndex where
  bytes : List UInt8
  ascii : Bool

namespace SourceIndex

def ofBytes (bytes : List UInt8) : SourceIndex :=
  ⟨bytes, bytes.length == (decodeLossy bytes).length⟩

/-- The characters between two positions in bytes. -/
def decoded (index : SourceIndex) (start stop : Nat) : List Char :=
  decodeLossy ((index.bytes.take stop).drop start)

def charOffset (index : SourceIndex) (position : Nat) : Nat :=
  if index.ascii then position else (index.decoded 0 position).length

/-- The column of a position, given its column in bytes. -/
def charColumn (index : SourceIndex) (position column : Nat) : Nat :=
  if index.ascii then column else (index.decoded (position - column) position).length

def span (index : SourceIndex) (site : Site) : Span :=
  ⟨site.startPoint.row, index.charColumn site.start site.startPoint.column, site.stopPoint.row,
    index.charColumn site.stop site.stopPoint.column, index.charOffset site.start,
    index.charOffset site.stop⟩

def text (index : SourceIndex) (site : Site) : String :=
  String.ofList (index.decoded site.start site.stop)

/-- A node that discovery does not look into. -/
def other (index : SourceIndex) (site : Site) (nodes : List Node) : Node :=
  .other (index.span site) site.kind nodes

def number (index : SourceIndex) (site : Site) : Except ParseError Node :=
  let raw := index.text site
  match NumberLiteral.read raw.toList with
  | .ok n => .ok (.literal (index.span site) (.number n) raw)
  | .error e => .error (.ofNumber e)

end SourceIndex

/-- The text of a string literal without its first and last character, the quotes. -/
def unquoted (raw : String) : String := String.ofList (raw.toList.drop 1).dropLast

/-! ## Nodes -/

def skippedKinds : List String := ["comment", "html_comment"]

def keywordLiteral? (kind : String) : Option Literal :=
  if kind = "true" then some (.bool true)
  else if kind = "false" then some (.bool false)
  else if kind = "null" then some .null
  else none

namespace ParseTree

mutual

/-- The node that a concrete node stands for. The arguments of a call must be between parentheses:
a tagged template is no call. -/
def convert (index : SourceIndex) : ParseTree → Except ParseError Node
  | .node site children =>
    match site.kind with
    | "call_expression" =>
      match convertArguments index children with
      | none => index.other site <$> convertAll index children
      | some arguments =>
        match convertField index "function" children with
        | none => index.other site <$> convertAll index children
        | some callee => do return .call (index.span site) (← callee) (← arguments)
    | "member_expression" =>
      match field? "property" children with
      | none => index.other site <$> convertAll index children
      | some property =>
        match convertField index "object" children with
        | none => index.other site <$> convertAll index children
        | some object => do
          return .member (index.span site) (← object) (index.text property.site)
            (index.span property.site)
    | "unary_expression" =>
      match field? "operator" children with
      | none => index.other site <$> convertAll index children
      | some operator =>
        match convertField index "argument" children with
        | none => index.other site <$> convertAll index children
        | some argument => do
          return .unary (index.span site) operator.site.kind (← argument)
    | "identifier" => return .identifier (index.span site) (index.text site)
    | "number" => index.number site
    | "string" =>
      let raw := index.text site
      return .literal (index.span site) (.text (unquoted raw)) raw
    | kind =>
      match keywordLiteral? kind with
      | some value => return .literal (index.span site) value kind
      | none => index.other site <$> convertAll index children

/-- The nodes that named children stand for, without comments. -/
def convertAll (index : SourceIndex) : List ParseTree → Except ParseError (List Node)
  | [] => return []
  | t :: rest =>
    if t.site.named && !skippedKinds.contains t.site.kind then do
      let first ← t.convert index
      let others ← convertAll index rest
      return first :: others
    else convertAll index rest

def convertField (index : SourceIndex) (name : String) :
    List ParseTree → Option (Except ParseError Node)
  | [] => none
  | t :: rest =>
    if t.site.field == some name then some (t.convert index) else convertField index name rest

/-- The nodes of the arguments, if the first child that fills their field is a list of them. -/
def convertArguments (index : SourceIndex) : List ParseTree → Option (Except ParseError (List Node))
  | [] => none
  | .node site children :: rest =>
    if site.field == some "arguments" then
      if site.kind == "arguments" then some (convertAll index children) else none
    else convertArguments index rest

end

end ParseTree

end Syntax

open Syntax

/-- The program that a parser finds in the bytes of a text, or why it is none. -/
def parseWith (parser : List UInt8 → Parsed) (text : List Char) : Except ParseError Program :=
  let bytes := encodeUtf8 text
  let parsed := parser bytes
  if parsed.hasError then .error .malformed
  else do
    let index := SourceIndex.ofBytes bytes
    let body ← ParseTree.convertAll index parsed.root.children
    return ⟨index.span parsed.root.site, body⟩

end LiveChain
