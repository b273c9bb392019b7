import LiveChain.Locate.Context
import LiveChain.Notice
import LiveChain.Scan.Directive
import LiveChain.Sorted
import LiveChain.Value.Slots

/-!
# Value nodes of a syntax tree

The nodes of a tree that are editable values: numeric literals, taken together with a minus sign
directly before them, and identifiers that name a slot.
-/

set_option autoImplicit false

namespace LiveChain

open Text

/-- A value node: what it is, its value, where it stands and the way up from it. -/
structure Candidate where
  kind : ValueKind
  value : Datum
  span : Span
  path : List Crumb

/-- The value that a visited node is. A number whose parent is a minus sign is taken together
with the sign. -/
def candidateOf? (names : SlotNames) (v : Visit) : Option Candidate :=
  match v.node with
  | .literal s (.number n) _ =>
    match v.path with
    | .operand "-" signed :: outer => some ⟨.number, .number n.neg, signed, outer⟩
    | path => some ⟨.number, .number n, s, path⟩
  | .identifier s name =>
    (names.kindOf? name).map fun kind => ⟨kind, .text name, s, v.path⟩
  | _ => none

inductive Placement where
  | kept
  | onDirective
  | outside

/-- Candidates that start on a directive line are left out. A line number past the end is no
obstacle; one before the start is outside every text. -/
def placement (keywords : List String) (textLines : List (List Char)) (c : Candidate) :
    Placement :=
  if c.span.startLine < textLines.length then
    match entry? textLines c.span.startLine with
    | some line => if isDirective keywords line then .onDirective else .kept
    | none => .outside
  else .kept

/-- Candidates in walking order up to the first that is outside every text. -/
def keptCandidates (keywords : List String) (textLines : List (List Char)) :
    List Candidate → Noted (List Candidate)
  | [] => ⟨[], []⟩
  | c :: rest =>
    match placement keywords textLines c with
    | .kept =>
      let others := keptCandidates keywords textLines rest
      ⟨c :: others.result, others.notices⟩
    | .onDirective => keptCandidates keywords textLines rest
    | .outside =>
      ⟨[], [⟨.error, .locating, "Error traversing syntax tree; keeping values found so far"⟩]⟩

/-- The value nodes of a program that do not start on a directive line, in the order of their
start offsets; nodes with the same start keep the order of the walk. -/
def candidates (names : SlotNames) (keywords : List String) (text : List Char) (p : Program) :
    Noted (List Candidate) :=
  let kept := keptCandidates keywords (lines text) (p.visits.filterMap (candidateOf? names))
  ⟨sortBy (fun a b => a.span.startOffset ≤ b.span.startOffset) kept.result, kept.notices⟩

/-- Start and end offset of every value node, by ordinal. An empty text has none. -/
def valueOffsets (names : SlotNames) (keywords : List String) (program : Option Program)
    (text : List Char) : Noted (List (Int × Int)) :=
  match program with
  | none => ⟨[], []⟩
  | some p =>
    if text.isEmpty then ⟨[], []⟩
    else
      let found := candidates names keywords text p
      ⟨found.result.map fun c => (c.span.startOffset, c.span.endOffset), found.notices⟩

end LiveChain
