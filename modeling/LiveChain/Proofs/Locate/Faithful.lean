import LiveChain.Proofs.Locate.ValueNodes
import LiveChain.Proofs.Syntax.Concrete

/-!
# Parsed leaves and values are where the text has them

The identifiers and literals of a parsed text hold the characters of their spans, and a walk over
the tree meets them from left to right. The values of the tree come in that order too, so that their
offsets need no sorting.
-/

set_option autoImplicit false

namespace LiveChain

open Syntax Text

variable {text : List Char}

/-! ## Spans -/

theorem spanOf_eq {s e : Nat} (hs : s ≤ text.length) (he : e ≤ text.length) :
    spanOf text s e = ⟨lineNumber text s, columnNumber text s, lineNumber text e,
      columnNumber text e, s, e⟩ := by
  rw [spanOf, placeAt_eq hs, placeAt_eq he]
  rfl

theorem Spread.mem {s e : Nat} {spans : List Span} {span : Span} (h : Spread text s e spans)
    (hspan : span ∈ spans) : ∃ a b, s ≤ a ∧ a < b ∧ b ≤ e ∧ span = spanOf text a b := by
  induction h with
  | nil => cases hspan
  | @cons s a b e rest hs hab hrest ih =>
    rcases List.mem_cons.mp hspan with rfl | hspan
    · exact ⟨a, b, hs, hab, hrest.le, rfl⟩
    · obtain ⟨a', b', ha', hab', hb', heq⟩ := ih hspan
      exact ⟨a', b', by omega, hab', hb', heq⟩

/-- Spans one after the other are not empty, and each ends before the next ones start. -/
theorem Spread.pairwise {s e : Nat} {spans : List Span} (h : Spread text s e spans)
    (he : e ≤ text.length) : spans.Pairwise fun a b => a.endOffset ≤ b.startOffset := by
  induction h with
  | nil => exact List.Pairwise.nil
  | @cons s a b e rest hs hab hrest ih =>
    refine List.pairwise_cons.mpr ⟨fun span hspan => ?_, ih he⟩
    obtain ⟨a', b', ha', hab', hb', rfl⟩ := hrest.mem hspan
    rw [spanOf_eq (by omega) (by omega), spanOf_eq (by omega) (by omega)]
    exact Int.ofNat_le.mpr ha'

/-- Spans one after the other start at different places. -/
theorem Spread.places_nodup {s e : Nat} {spans : List Span} (h : Spread text s e spans)
    (he : e ≤ text.length) :
    (spans.map fun span => (span.startLine, span.startColumn)).Nodup := by
  refine List.pairwise_map.mpr ((h.pairwise he).imp_of_mem fun {x y} hx hy hxy heq => ?_)
  obtain ⟨a, b, -, hab, hb, rfl⟩ := h.mem hx
  obtain ⟨a', b', -, hab', hb', rfl⟩ := h.mem hy
  rw [spanOf_eq (by omega) (by omega), spanOf_eq (by omega) (by omega)] at hxy heq
  obtain ⟨hline, hcolumn⟩ := Prod.mk.inj heq
  have := offset_unique (by omega) (by omega) (Int.ofNat_inj.mp hline) (Int.ofNat_inj.mp hcolumn)
  have := Int.ofNat_le.mp hxy
  omega

/-! ## Values of a tree -/

section Values

variable {names : SlotNames}

theorem valueNodesOfParts_eq (path : List Crumb) (nodes : List Node) :
    Node.valueNodesOfParts names path nodes =
      nodes.flatMap (Node.valueNodes names (.elsewhere :: path)) := by
  induction nodes with
  | nil => rfl
  | cons n rest ih => rw [Node.valueNodesOfParts, ih, List.flatMap_cons]

theorem valueNodesOfArguments_spread {s e : Nat} {arguments : List Node}
    (h : Within text s e arguments)
    (hvalues : ∀ n ∈ arguments, ∀ path a b, Covers text a b n →
      Spread text a b ((n.valueNodes names path).map (·.span)))
    (callee : Option (String × Int)) (path : List Crumb) (index : Nat) :
    Spread text s e
      ((Node.valueNodesOfArguments names callee path index arguments).map (·.span)) := by
  induction arguments generalizing s index with
  | nil => exact .nil h.le
  | cons n rest ih =>
    obtain ⟨a, b, ha, hn, hrest⟩ := h.first
    have hfirst := hvalues n List.mem_cons_self (.argument callee index :: path) a b hn
    rw [Node.valueNodesOfArguments, List.map_append]
    exact (hfirst.mono ha (Nat.le_refl b)).append
      (ih hrest (fun m hm => hvalues m (List.mem_cons_of_mem n hm)) (index + 1))

/-- The values of a tree stand one after the other, a number together with its sign. -/
theorem Covers.valueNodes_spread {s e : Nat} {n : Node} (h : Covers text s e n)
    (path : List Crumb) : Spread text s e ((n.valueNodes names path).map (·.span)) := by
  induction n using Node.induction_children generalizing s e path with
  | h n ih =>
    cases h with
    | @literal _ _ value h _ =>
      cases value with
      | number m => exact .single h
      | _ => exact .nil (Nat.le_of_lt h)
    | identifier h =>
      rw [Node.valueNodes]
      cases names.kindOf? (String.ofList (slice text s e)) with
      | none => exact .nil (Nat.le_of_lt h)
      | some kind => exact .single h
    | @member _ c b _ object h hc hb =>
      obtain ⟨a, d, ha, hobject, hend⟩ := Within.first ⟨c, h, hc⟩
      have hvalues := ih object List.mem_cons_self hobject (.elsewhere :: path)
      exact hvalues.mono ha (Nat.le_trans hend.le (Nat.le_of_lt hb))
    | @call _ c _ callee arguments h hc =>
      obtain ⟨a, b, ha, hcallee, harguments⟩ := Within.first ⟨c, h, hc⟩
      have hvalues := ih callee List.mem_cons_self hcallee (.elsewhere :: path)
      rw [Node.valueNodes, List.map_append]
      refine (hvalues.mono ha (Nat.le_refl b)).append ?_
      exact valueNodesOfArguments_spread harguments
        (fun m hm path a b hm' => ih m (List.mem_cons_of_mem callee hm) hm' path) _ path 0
    | @unary _ a _ argument operator hs h =>
      rw [Node.valueNodes]
      split
      · exact .single (Nat.lt_of_lt_of_le hs h.le)
      · have hvalues := ih argument List.mem_cons_self h
          (.operand operator (spanOf text s e) :: path)
        exact hvalues.mono (Nat.le_of_lt hs) (Nat.le_refl e)
    | @other _ c _ _ nodes h hc _ =>
      rw [Node.valueNodes, valueNodesOfParts_eq, List.map_flatMap]
      exact .flatMap ⟨c, h, hc⟩ fun m hm a b hm' => ih m hm hm' _

theorem Within.valueNodes_spread {s e : Nat} {nodes : List Node} (h : Within text s e nodes)
    (path : List Crumb) :
    Spread text s e ((Node.valueNodesOfParts names path nodes).map (·.span)) := by
  rw [valueNodesOfParts_eq, List.map_flatMap]
  exact .flatMap h fun m _ a b hm => hm.valueNodes_spread _

end Values

/-! ## Values in walking order -/

/-- The values of a program outside directive lines, in walking order. -/
def Program.keptNodes (names : SlotNames) (keywords : List String) (text : List Char)
    (p : Program) : List Candidate :=
  (keptCandidates keywords (lines text) (p.visits.filterMap (candidateOf? names))).result

section Kept

variable {names : SlotNames} {keywords : List String} {p : Program}
  (h : Within text 0 text.length p.body)

include h

theorem valueNodes_spread : Spread text 0 text.length ((p.valueNodes names).map (·.span)) :=
  h.valueNodes_spread []

theorem mem_valueNodes {c : Candidate} (hc : c ∈ p.valueNodes names) :
    0 ≤ c.span.startLine ∧ c.span.startOffset < c.span.endOffset ∧ text ≠ [] := by
  obtain ⟨a, b, -, hab, hb, hspan⟩ := (valueNodes_spread h).mem (List.mem_map_of_mem hc)
  rw [hspan, spanOf_eq (by omega) hb]
  refine ⟨Int.natCast_nonneg _, Int.ofNat_lt.mpr hab, ?_⟩
  rintro rfl
  exact absurd hb (Nat.not_le_of_lt (Nat.zero_lt_of_lt hab))

theorem keptNodes_sublist : (p.keptNodes names keywords text).Sublist (p.valueNodes names) := by
  have hvalues : p.visits.filterMap (candidateOf? names) = p.valueNodes names :=
    filterMap_visitsAll names [] p.body
  rw [Program.keptNodes, hvalues, keptCandidates_of_nonneg fun c hc => (mem_valueNodes h hc).1]
  exact List.filter_sublist

/-- Each of the values starts and ends before the next ones start. -/
theorem keptNodes_ascending : (p.keptNodes names keywords text).Pairwise fun a b =>
    a.span.startOffset < b.span.startOffset ∧ a.span.endOffset ≤ b.span.startOffset := by
  have hpairwise : (p.valueNodes names).Pairwise fun a b =>
      a.span.endOffset ≤ b.span.startOffset :=
    List.pairwise_map.mp ((valueNodes_spread h).pairwise (Nat.le_refl _))
  refine (hpairwise.sublist (keptNodes_sublist h)).imp_of_mem fun {a b} ha _ hab => ?_
  have hfilled := (mem_valueNodes h ((keptNodes_sublist h).subset ha)).2.1
  exact ⟨by omega, hab⟩

theorem valueOffsets_eq_kept : (valueOffsets names keywords (some p) text).result =
    (p.keptNodes names keywords text).map fun c => (c.span.startOffset, c.span.endOffset) := by
  have hsorted : sortBy (fun a b => decide (a.span.startOffset ≤ b.span.startOffset))
      (p.keptNodes names keywords text) = p.keptNodes names keywords text := by
    refine sortBy_of_pairwise ((keptNodes_ascending h).imp fun {a b} hab => ?_)
    exact decide_eq_true (Int.le_of_lt hab.1)
  by_cases htext : text = []
  · -- an empty text has no values
    have hnone : p.keptNodes names keywords text = [] := by
      refine List.eq_nil_iff_forall_not_mem.mpr fun c hc => ?_
      exact (mem_valueNodes h ((keptNodes_sublist h).subset hc)).2.2 htext
    rw [hnone, htext]
    rfl
  · have hcandidates : (candidates names keywords text p).result =
        p.keptNodes names keywords text := hsorted
    simp only [valueOffsets, List.isEmpty_iff, htext, if_false, hcandidates]

end Kept

/-! ## Leaves, unary operators and offsets -/

/-- A span covers the characters from one offset of a text to another, not none, and has the lines
and columns of these offsets. -/
def Span.Holds (text : List Char) (span : Span) (content : String) : Prop :=
  ∃ s e : Nat, s < e ∧ e ≤ text.length ∧ content = String.ofList (slice text s e) ∧
    span = ⟨lineNumber text s, columnNumber text s, lineNumber text e, columnNumber text e, s, e⟩

/-- A program fits a text. The walk over it takes a node before its children and these in order.
Each identifier and each literal that it visits holds the characters of its span, and these spans
stand one after the other; a unary operator starts before its operand and ends with it. The offsets
of the values come in walking order, without sorting, are not empty and stand one after the
other. -/
structure Faithful (text : List Char) (p : Program) : Prop where
  preorder : p.walk = p.body.flatMap Node.walk ∧
    ∀ n : Node, n.walk = n :: n.children.flatMap Node.walk
  identifiers : ∀ span name, Node.identifier span name ∈ p.walk → span.Holds text name
  literals : ∀ span value raw, Node.literal span value raw ∈ p.walk → span.Holds text raw
  leaves : (leafSpans p.walk).Pairwise fun a b => a.endOffset ≤ b.startOffset
  unaries : ∀ span operator argument, Node.unary span operator argument ∈ p.walk →
    span.startOffset < argument.span.startOffset ∧ span.endLine = argument.span.endLine ∧
      span.endColumn = argument.span.endColumn ∧ span.endOffset = argument.span.endOffset
  unsorted : ∀ names keywords, (valueOffsets names keywords (some p) text).result =
    (p.keptNodes names keywords text).map fun c => (c.span.startOffset, c.span.endOffset)
  ascending : ∀ names keywords, (valueOffsets names keywords (some p) text).result.Pairwise
    fun a b => a.1 < b.1 ∧ a.2 ≤ b.1
  filled : ∀ names keywords, ∀ offsets ∈ (valueOffsets names keywords (some p) text).result,
    offsets.1 < offsets.2

/-- A program whose statements stand in a row inside a text fits it. -/
theorem Within.faithful {p : Program} (h : Within text 0 text.length p.body) : Faithful text p := by
  have hvisited : ∀ n ∈ p.walk, ∃ s e, e ≤ text.length ∧ Covers text s e n := by
    rw [Program.walk_eq]
    exact fun n hn => h.mem_walk hn
  have hleaves : Spread text 0 text.length (leafSpans p.walk) := by
    rw [Program.walk_eq]
    exact h.leafSpans_spread
  refine ⟨⟨p.walk_eq, Node.walk_eq⟩, ?_, ?_, ?_, ?_, ?_, ?_, ?_⟩
  · intro span name hn
    obtain ⟨s, e, he, hcovers⟩ := hvisited _ hn
    cases hcovers with
    | identifier hlt => exact ⟨s, e, hlt, he, rfl, spanOf_eq (by omega) he⟩
  · intro span value raw hn
    obtain ⟨s, e, he, hcovers⟩ := hvisited _ hn
    cases hcovers with
    | literal hlt _ => exact ⟨s, e, hlt, he, rfl, spanOf_eq (by omega) he⟩
  · exact hleaves.pairwise (Nat.le_refl _)
  · intro span operator argument hn
    obtain ⟨s, e, he, hcovers⟩ := hvisited _ hn
    cases hcovers with
    | @unary _ a _ _ _ hs hargument =>
      have ha := hargument.le
      rw [hargument.span_eq, spanOf_eq (by omega) he, spanOf_eq (by omega) he]
      exact ⟨Int.ofNat_lt.mpr hs, rfl, rfl, rfl⟩
  · exact fun names keywords => valueOffsets_eq_kept h
  · intro names keywords
    rw [valueOffsets_eq_kept h]
    exact List.pairwise_map.mpr (keptNodes_ascending h)
  · intro names keywords offsets hoffsets
    rw [valueOffsets_eq_kept h] at hoffsets
    obtain ⟨c, hc, rfl⟩ := List.mem_map.mp hoffsets
    exact (mem_valueNodes h ((keptNodes_sublist h).subset hc)).2.1

theorem parseProgram_faithful {p : Program} (h : parseProgram text = .ok p) : Faithful text p :=
  (parseProgram_within h).faithful

/-- Whatever parser gives regular trees, every text in which it finds no error and whose numbers can
be read is fitted by its program, whatever constructs and characters it has. -/
theorem parseWith_faithful {parser : List UInt8 → Parsed}
    (hparser : ∀ text, (parser (encodeUtf8 text)).Regular (encodeUtf8 text)) {p : Program}
    (h : parseWith parser text = .ok p) : Faithful text p := by
  unfold parseWith at h
  simp only at h
  split at h
  · cases h
  · next herror =>
    obtain ⟨body, hbody, h⟩ := exists_of_bind_ok h
    cases h
    have hroot := converted_of_regular (hparser text (Bool.eq_false_iff.mpr herror))
    obtain ⟨s, e, hat⟩ := hroot.regular.exists_at
    have hwithin := hroot.parts body hbody s e hat
    exact (hwithin.mono (Nat.zero_le s) hat.closes.inside).faithful

/-! ### A parsed text -/

/-- A text of two lines with a comment, calls, a sign, a template with a value inside and letters
beyond ASCII. -/
def mixedText : List Char := "/* ∑ */ osc(-10, 'ß')\n  .färbe(`é$\x7bo0\x7d`, true, s0)".toList

/-- A node of the mixed text; its second line starts at byte 25. -/
def mixedNode (kind : String) (start stop : Nat) (children : List ParseTree) (named : Bool)
    (field : Option String) : ParseTree :=
  let point (position : Nat) : Point :=
    if position < 25 then ⟨0, position⟩ else ⟨1, position - 25⟩
  .node ⟨kind, named, field, start, stop, point start, point stop⟩ children

def mixedPart (kind : String) (start stop : Nat) (children : List ParseTree) : ParseTree :=
  mixedNode kind start stop children true none

def mixedField (field kind : String) (start stop : Nat) (children : List ParseTree) : ParseTree :=
  mixedNode kind start stop children true (some field)

def mixedMark (kind : String) (start stop : Nat) : ParseTree :=
  mixedNode kind start stop [] false none

def mixedTree : ParseTree :=
  mixedPart "program" 0 55 [
    mixedPart "comment" 0 9 [],
    mixedPart "expression_statement" 10 55 [
      mixedPart "call_expression" 10 55 [
        mixedField "function" "member_expression" 10 34 [
          mixedField "object" "call_expression" 10 24 [
            mixedField "function" "identifier" 10 13 [],
            mixedField "arguments" "arguments" 13 24 [
              mixedMark "(" 13 14,
              mixedPart "unary_expression" 14 17 [
                mixedNode "-" 14 15 [] false (some "operator"),
                mixedField "argument" "number" 15 17 []],
              mixedMark "," 17 18,
              mixedPart "string" 19 23 [
                mixedMark "'" 19 20, mixedPart "string_fragment" 20 22 [], mixedMark "'" 22 23],
              mixedMark ")" 23 24]],
          mixedMark "." 27 28,
          mixedField "property" "property_identifier" 28 34 []],
        mixedField "arguments" "arguments" 34 55 [
          mixedMark "(" 34 35,
          mixedPart "template_string" 35 44 [
            mixedMark "`" 35 36,
            mixedPart "string_fragment" 36 38 [],
            mixedPart "template_substitution" 38 43 [
              mixedMark "$\x7b" 38 40, mixedPart "identifier" 40 42 [], mixedMark "\x7d" 42 43],
            mixedMark "`" 43 44],
          mixedMark "," 44 45,
          mixedPart "true" 46 50 [],
          mixedMark "," 50 51,
          mixedPart "identifier" 52 54 [],
          mixedMark ")" 54 55]]]]

def mixedParser (bytes : List UInt8) : Parsed :=
  if bytes = encodeUtf8 mixedText then ⟨false, mixedTree⟩ else ⟨true, mixedPart "ERROR" 0 0 []⟩

/-- The mixed text is fitted by its program; its values start and end where the characters do. -/
theorem parseWith_faithful_mixed :
    (∀ text, (mixedParser (encodeUtf8 text)).Regular (encodeUtf8 text)) ∧
    ∃ p, parseWith mixedParser mixedText = .ok p ∧ Faithful mixedText p ∧
      (valueOffsets .standard standardKeywords (some p) mixedText).result =
        [(12, 15), (35, 37), (47, 49)] := by
  have hparser : ∀ text, (mixedParser (encodeUtf8 text)).Regular (encodeUtf8 text) := by
    intro text
    have hnodes : ∀ t ∈ mixedTree.nodes, t.Regular (encodeUtf8 mixedText) := by decide +kernel
    unfold mixedParser
    split
    · next htext =>
      rw [htext]
      exact fun _ => hnodes
    · exact nofun
  refine ⟨hparser, ?_⟩
  have hparsed : ((parseWith mixedParser mixedText).toOption.map
      fun p => (valueOffsets .standard standardKeywords (some p) mixedText).result) =
        some [(12, 15), (35, 37), (47, 49)] := by decide +kernel
  cases hparse : parseWith mixedParser mixedText with
  | error e =>
    rw [hparse] at hparsed
    cases hparsed
  | ok p =>
    rw [hparse] at hparsed
    exact ⟨p, rfl, parseWith_faithful hparser hparse, Option.some.inj hparsed⟩

end LiveChain
