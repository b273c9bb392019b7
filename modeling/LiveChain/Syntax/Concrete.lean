import LiveChain.Syntax.Convert

/-!
# Concrete trees of nodes

The concrete tree that a node is converted from: positions count bytes, and the parts that a
conversion tells apart fill their fields. Punctuators, comments and the fields of other kinds of
nodes are left out.
-/

set_option autoImplicit false

namespace LiveChain

open Syntax Text

/-- The position in bytes behind so many characters of a text. -/
def byteOffset (text : List Char) (k : Nat) : Nat := (encodeUtf8 (text.take k)).length

/-- The point of an offset, given its line and column. -/
def pointOf (text : List Char) (line column offset : Int) : Point :=
  ⟨line.toNat, byteOffset text offset.toNat - byteOffset text (offset - column).toNat⟩

def Span.site (text : List Char) (span : Span) (kind : String) (field : Option String) : Site where
  kind := kind
  named := true
  field := field
  start := byteOffset text span.startOffset.toNat
  stop := byteOffset text span.endOffset.toNat
  startPoint := pointOf text span.startLine span.startColumn span.startOffset
  stopPoint := pointOf text span.endLine span.endColumn span.endOffset

/-- The site of an operator in front of the operand of a node. -/
def Span.operatorSite (text : List Char) (span : Span) (operator : String) : Site :=
  let stop : Span := ⟨span.startLine, span.startColumn, span.startLine,
    span.startColumn + operator.length, span.startOffset, span.startOffset + operator.length⟩
  { stop.site text operator (some "operator") with named := false }

/-- The kind of the token that a literal is read from. -/
def Literal.kind : Literal → String
  | .number _ => "number"
  | .text _ => "string"
  | .bool true => "true"
  | .bool false => "false"
  | .null => "null"

/-- The fields that the parts of a node of another kind fill: those of a tagged template. -/
def partFields : String → List Node → List (Option String)
  | "call_expression", [_, .other _ "template_string" _] => [some "function", some "arguments"]
  | _, _ => []

mutual

def Node.toTree (text : List Char) (field : Option String) : Node → ParseTree
  | .literal span value _ => .node (span.site text value.kind field) []
  | .identifier span _ => .node (span.site text "identifier" field) []
  | .member span object _ propertySpan =>
    .node (span.site text "member_expression" field)
      [object.toTree text (some "object"),
        .node (propertySpan.site text "property_identifier" (some "property")) []]
  | .call span callee arguments =>
    let list : Span := { span with
      startLine := callee.span.endLine
      startColumn := callee.span.endColumn
      startOffset := callee.span.endOffset }
    .node (span.site text "call_expression" field)
      [callee.toTree text (some "function"),
        .node (list.site text "arguments" (some "arguments")) (Node.toTrees text [] arguments)]
  | .unary span operator argument =>
    .node (span.site text "unary_expression" field)
      [.node (span.operatorSite text operator) [], argument.toTree text (some "argument")]
  | .other span kind nodes =>
    .node (span.site text kind field) (Node.toTrees text (partFields kind nodes) nodes)

/-- The concrete trees of parts that fill fields in order; those that are left over fill none. -/
def Node.toTrees (text : List Char) : List (Option String) → List Node → List ParseTree
  | _, [] => []
  | [], n :: rest => n.toTree text none :: Node.toTrees text [] rest
  | field :: fields, n :: rest => n.toTree text field :: Node.toTrees text fields rest

end

end LiveChain
