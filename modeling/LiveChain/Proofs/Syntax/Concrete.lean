import LiveChain.Proofs.Syntax.Leaves
import LiveChain.Proofs.Syntax.Regular

/-!
# Concrete trees and back

The concrete tree of a node is converted back to the node, whatever characters the text has, unless
a number in it has more digits than are read. So the grammar and the conversion of its trees give
what the grammar finds in the text.
-/

set_option autoImplicit false

namespace LiveChain

open Syntax Text

variable {text : List Char}

/-! ## Sites -/

theorem pointOf_marks {k : Nat} (hk : k ≤ text.length) :
    Marks text k (byteOffset text k)
      (pointOf text (lineNumber text k) (columnNumber text k) k) := by
  obtain ⟨front, hfront⟩ := exists_lastLine (text.take k)
  have hcolumn : columnNumber text k = (lastLine (text.take k)).length :=
    columnNumber_eq_lastLine k
  have hlength : k = front.length + (lastLine (text.take k)).length := by
    rw [← List.length_append, ← hfront, List.length_take, Nat.min_eq_left hk]
  have htake : text.take (k - columnNumber text k) = front := by
    have hwhole : (text.take k).take front.length = front := by
      conv_lhs => rw [hfront]
      exact List.take_left
    rw [List.take_take, Nat.min_eq_left (by omega)] at hwhole
    rwa [show k - columnNumber text k = front.length by omega]
  refine ⟨hk, rfl, Int.toNat_natCast _, ?_⟩
  have hoffset : ((k : Int) - columnNumber text k).toNat = k - columnNumber text k := by omega
  rw [pointOf]
  simp only [Int.toNat_natCast, hoffset]
  rw [byteOffset, byteOffset, htake]
  conv_lhs => rw [hfront, encodeUtf8_append, List.length_append]
  exact Nat.add_sub_cancel_left ..

theorem site_at {s e : Nat} (h : s ≤ e) (he : e ≤ text.length) (kind : String)
    (field : Option String) : ((spanOf text s e).site text kind field).At text s e := by
  rw [spanOf, placeAt_eq (Nat.le_trans h he), placeAt_eq he]
  exact ⟨h, pointOf_marks (Nat.le_trans h he), pointOf_marks he⟩

/-! ## Kinds of concrete nodes -/

section Kinds

variable {index : SourceIndex} {site : Site} {children : List ParseTree}

theorem convert_identifier (hkind : site.kind = "identifier") :
    (ParseTree.node site children).convert index =
      .ok (.identifier (index.span site) (index.text site)) := by
  simp only [ParseTree.convert, hkind]
  rfl

theorem convert_number (hkind : site.kind = "number") :
    (ParseTree.node site children).convert index = index.number site := by
  simp only [ParseTree.convert, hkind]

theorem convert_string (hkind : site.kind = "string") :
    (ParseTree.node site children).convert index =
      .ok (.literal (index.span site) (.text (unquoted (index.text site))) (index.text site)) := by
  simp only [ParseTree.convert, hkind]
  rfl

theorem convert_keyword {value : Literal} (hkind : keywordLiteral? site.kind = some value) :
    (ParseTree.node site children).convert index =
      .ok (.literal (index.span site) value site.kind) := by
  unfold ParseTree.convert
  split
  case h_7 =>
    rw [hkind]
    rfl
  -- the keywords are none of the kinds that are told apart before them
  all_goals next hother => cases hother ▸ hkind

theorem convert_member {object property : ParseTree} (hkind : site.kind = "member_expression")
    (hobject : ParseTree.field? "object" children = some object)
    (hproperty : ParseTree.field? "property" children = some property) :
    (ParseTree.node site children).convert index = (fun inner => .member (index.span site) inner
      (index.text property.site) (index.span property.site)) <$> object.convert index := by
  simp only [ParseTree.convert, hkind, hproperty, ParseTree.convertField_eq, hobject,
    Option.map_some]
  rfl

theorem convert_unary {operator argument : ParseTree} (hkind : site.kind = "unary_expression")
    (hoperator : ParseTree.field? "operator" children = some operator)
    (hargument : ParseTree.field? "argument" children = some argument) :
    (ParseTree.node site children).convert index =
      .unary (index.span site) operator.site.kind <$> argument.convert index := by
  simp only [ParseTree.convert, hkind, hoperator, ParseTree.convertField_eq, hargument,
    Option.map_some]
  rfl

theorem convert_call {callee list : ParseTree} (hkind : site.kind = "call_expression")
    (hcallee : ParseTree.field? "function" children = some callee)
    (hlist : ParseTree.field? "arguments" children = some list)
    (hform : list.site.kind = "arguments") :
    (ParseTree.node site children).convert index = (do
      let first ← callee.convert index
      let arguments ← ParseTree.convertAll index list.children
      return .call (index.span site) first arguments) := by
  simp only [ParseTree.convert, hkind, ParseTree.convertArguments_eq, hlist,
    ParseTree.convertField_eq, hcallee, Option.map_some, Option.bind_some, hform, beq_self_eq_true,
    if_true]

end Kinds

/-! ## Conversion of concrete trees -/

/-- The digits of a numeric literal that has more of them than are read. -/
def Node.excess? : Node → Option Nat
  | .literal _ (.number _) raw => NumberLiteral.excess? raw.toList
  | _ => none

/-- A result, unless a number before it has more digits than are read. -/
def unlessExcess {α : Type} (found : Option Nat) (result : α) : Except ParseError α :=
  match found with
  | some digits => .error (.tooLong digits)
  | none => .ok result

theorem unlessExcess_map {α β : Type} (found : Option Nat) (a : α) (f : α → β) :
    f <$> unlessExcess found a = unlessExcess found (f a) := by
  cases found <;> rfl

/-- The first number of some nodes that has more digits than are read. -/
def firstExcess (nodes : List Node) : Option Nat :=
  (nodes.flatMap Node.walk).findSome? Node.excess?

theorem firstExcess_cons (n : Node) (rest : List Node) :
    firstExcess (n :: rest) = (firstExcess [n]).or (firstExcess rest) := by
  rw [firstExcess, List.flatMap_cons, List.findSome?_append, firstExcess, List.flatMap_singleton]
  rfl

theorem firstExcess_singleton (n : Node) :
    firstExcess [n] = n.excess?.or (firstExcess n.children) := by
  rw [firstExcess, List.flatMap_singleton, Node.walk_eq, List.findSome?_cons]
  cases n.excess? <;> rfl

theorem firstExcess_of_plain {n : Node} (h : n.excess? = none) :
    firstExcess [n] = firstExcess n.children := by
  rw [firstExcess_singleton, h, Option.none_or]

def ConvertsBack (text : List Char) (n : Node) : Prop :=
  ∀ field, (n.toTree text field).convert (.ofBytes (encodeUtf8 text)) =
    unlessExcess (firstExcess [n]) n

theorem toTree_kept {s e : Nat} {n : Node} (h : Covers text s e n) (field : Option String) :
    ((n.toTree text field).site.named &&
      !skippedKinds.contains (n.toTree text field).site.kind) = true := by
  cases h with
  | @literal _ _ value =>
    cases value with
    | bool b => cases b <;> rfl
    | _ => rfl
  | @other _ _ _ kind _ h hc hkind =>
    have hkept : (!skippedKinds.contains kind) = true := by simpa using (plainKind_iff.mp hkind).2
    exact hkept
  | _ => rfl

theorem toTrees_cons (fields : List (Option String)) (n : Node) (rest : List Node) :
    Node.toTrees text fields (n :: rest) =
      n.toTree text fields.head?.join :: Node.toTrees text fields.tail rest := by
  cases fields with
  | nil => rw [Node.toTrees]; rfl
  | cons field fields => rw [Node.toTrees]; rfl

theorem convertAll_toTrees {nodes : List Node} {s e : Nat} (h : Within text s e nodes)
    (hnodes : ∀ n ∈ nodes, ConvertsBack text n) (fields : List (Option String)) :
    ParseTree.convertAll (.ofBytes (encodeUtf8 text)) (Node.toTrees text fields nodes) =
      unlessExcess (firstExcess nodes) nodes := by
  induction nodes generalizing s fields with
  | nil =>
    cases fields <;> rfl
  | cons n rest ih =>
    obtain ⟨a, b, -, hcovers, hrest⟩ := h.first
    obtain ⟨hn, hothers⟩ := List.forall_mem_cons.mp hnodes
    rw [toTrees_cons, ParseTree.convertAll, if_pos (toTree_kept hcovers _), hn,
      firstExcess_cons n rest]
    cases hfirst : firstExcess [n] with
    | some digits => rfl
    | none =>
      change (ParseTree.convertAll _ _ >>= fun others => pure (n :: others)) = _
      rw [ih hrest hothers]
      cases firstExcess rest <;> rfl

theorem literal_convertsBack {s e : Nat} {value : Literal} (hse : s ≤ e) (he : e ≤ text.length)
    (hvalue : value.Denotes (String.ofList (slice text s e))) :
    ConvertsBack text (.literal (spanOf text s e) value (String.ofList (slice text s e))) := by
  intro field
  have hat := site_at hse he value.kind field
  cases value with
  | number m =>
    have hvalue : NumberLiteral.value? (String.ofList (slice text s e)).toList = some m := hvalue
    rw [Node.toTree, convert_number rfl, SourceIndex.number, hat.text_eq, hat.span_eq,
      firstExcess_singleton]
    simp only [NumberLiteral.read, hvalue, Node.excess?]
    cases NumberLiteral.excess? (String.ofList (slice text s e)).toList <;> rfl
  | text content =>
    have hvalue : content = unquoted (String.ofList (slice text s e)) := hvalue
    rw [Node.toTree, convert_string rfl, hat.text_eq, hat.span_eq, ← hvalue]
    rfl
  | bool b =>
    have hvalue : String.ofList (slice text s e) = if b then "true" else "false" := hvalue
    have hkind : (Literal.bool b).kind = if b then "true" else "false" := by cases b <;> rfl
    have hword : keywordLiteral? (Literal.bool b).kind = some (.bool b) := by cases b <;> rfl
    rw [Node.toTree, convert_keyword hword, hat.span_eq, hvalue, ← hkind]
    rfl
  | null =>
    have hvalue : String.ofList (slice text s e) = "null" := hvalue
    rw [Node.toTree, convert_keyword rfl, hat.span_eq, hvalue]
    rfl

theorem toTree_field (n : Node) (field : Option String) :
    (n.toTree text field).site.field = field := by
  cases n <;> rfl

theorem field?_toTrees (name : String) (nodes : List Node) :
    ParseTree.field? name (Node.toTrees text [] nodes) = none := by
  induction nodes with
  | nil => rfl
  | cons n rest ih =>
    rw [toTrees_cons, ParseTree.field?_cons, toTree_field]
    exact ih

theorem partFields_eq {kind : String} (hkind : kind ≠ "call_expression") (nodes : List Node) :
    partFields kind nodes = [] := by
  unfold partFields
  split
  · exact absurd rfl hkind
  · rfl

/-- A node of another kind has no arguments: those of a tagged template are a template. -/
theorem convertArguments_toTrees (index : SourceIndex) (kind : String) (nodes : List Node) :
    ParseTree.convertArguments index (Node.toTrees text (partFields kind nodes) nodes) = none := by
  rw [ParseTree.convertArguments_eq]
  unfold partFields
  split
  · next tag span pieces =>
    rw [toTrees_cons, ParseTree.field?_cons, toTree_field]
    rfl
  · rw [field?_toTrees]
    rfl

theorem keywordLiteral?_of_plainKind {kind : String} (h : plainKind kind = true) :
    keywordLiteral? kind = none := by
  refine Option.eq_none_iff_forall_ne_some.mpr fun value hvalue => ?_
  exact (plainKind_iff.mp h).1 (keyword_denotes hvalue).1

theorem other_convertsBack {s e : Nat} {kind : String} {nodes : List Node}
    (h : Within text s e nodes) (he : e ≤ text.length) (hkind : plainKind kind = true)
    (hnodes : ∀ n ∈ nodes, ConvertsBack text n) :
    ConvertsBack text (.other (spanOf text s e) kind nodes) := by
  intro field
  have hat := site_at h.le he kind field
  have hparts := fun fields => convertAll_toTrees h hnodes fields
  have hother : ∀ fields, (SourceIndex.ofBytes (encodeUtf8 text)).other
      ((spanOf text s e).site text kind field) <$>
        ParseTree.convertAll (.ofBytes (encodeUtf8 text)) (Node.toTrees text fields nodes) =
      unlessExcess (firstExcess [.other (spanOf text s e) kind nodes])
        (.other (spanOf text s e) kind nodes) := by
    intro fields
    rw [hparts, unlessExcess_map, SourceIndex.other, hat.span_eq, firstExcess_singleton]
    rfl
  rw [Node.toTree, ParseTree.convert]
  split
  · rw [convertArguments_toTrees]
    exact hother _
  · next hmember =>
    cases (show kind = "member_expression" from hmember)
    rw [partFields_eq (by decide), field?_toTrees]
    exact hother _
  · next hunary =>
    cases (show kind = "unary_expression" from hunary)
    rw [partFields_eq (by decide), field?_toTrees]
    exact hother _
  · next htoken => cases (show kind = "identifier" from htoken) ▸ hkind
  · next htoken => cases (show kind = "number" from htoken) ▸ hkind
  · next htoken => cases (show kind = "string" from htoken) ▸ hkind
  · have hword : keywordLiteral? ((spanOf text s e).site text kind field).kind = none :=
      keywordLiteral?_of_plainKind hkind
    rw [hword]
    exact hother _

theorem field?_first (name : String) (n : Node) (rest : List ParseTree) :
    ParseTree.field? name (n.toTree text (some name) :: rest) =
      some (n.toTree text (some name)) := by
  rw [ParseTree.field?_cons, toTree_field, if_pos (beq_self_eq_true _)]

theorem field?_behind {name other : String} (hname : other ≠ name) (n : Node)
    (rest : List ParseTree) :
    ParseTree.field? name (n.toTree text (some other) :: rest) = ParseTree.field? name rest := by
  rw [ParseTree.field?_cons, toTree_field, if_neg (by simpa using hname)]

theorem member_convertsBack {s a e : Nat} {object : Node} (hse : s ≤ e) (ha : a < e)
    (he : e ≤ text.length) (hobject : ConvertsBack text object) :
    ConvertsBack text (.member (spanOf text s e) object (String.ofList (slice text a e))
      (spanOf text a e)) := by
  intro field
  have hat := site_at hse he "member_expression" field
  have hproperty := site_at (Nat.le_of_lt ha) he "property_identifier" (some "property")
  rw [Node.toTree, convert_member rfl (field?_first "object" object _)
    ((field?_behind (by decide) object _).trans rfl), hobject, unlessExcess_map, ParseTree.site,
    hat.span_eq, hproperty.text_eq, hproperty.span_eq]
  exact congrArg (unlessExcess · _) (firstExcess_of_plain (n := .member _ object _ _) rfl).symm

theorem unary_convertsBack {s e : Nat} {operator : String} {argument : Node} (hse : s ≤ e)
    (he : e ≤ text.length) (hargument : ConvertsBack text argument) :
    ConvertsBack text (.unary (spanOf text s e) operator argument) := by
  intro field
  have hat := site_at hse he "unary_expression" field
  have hsecond : ParseTree.field? "argument"
      [.node ((spanOf text s e).operatorSite text operator) [],
        argument.toTree text (some "argument")] = some (argument.toTree text (some "argument")) :=
    field?_first "argument" argument []
  rw [Node.toTree, convert_unary rfl rfl hsecond, hargument, unlessExcess_map, hat.span_eq]
  exact congrArg (unlessExcess · _) (firstExcess_of_plain (n := .unary _ operator argument) rfl).symm

theorem call_convertsBack {s e : Nat} {callee : Node} {arguments : List Node}
    (h : Within text s e (callee :: arguments)) (he : e ≤ text.length)
    (hcallee : ConvertsBack text callee) (harguments : ∀ n ∈ arguments, ConvertsBack text n) :
    ConvertsBack text (.call (spanOf text s e) callee arguments) := by
  intro field
  have hat := site_at h.le he "call_expression" field
  obtain ⟨a, b, -, -, hrest⟩ := h.first
  have hlist := convertAll_toTrees hrest harguments []
  have hexcess : firstExcess [.call (spanOf text s e) callee arguments] =
      (firstExcess [callee]).or (firstExcess arguments) :=
    (firstExcess_of_plain (n := .call _ callee arguments) rfl).trans (firstExcess_cons ..)
  rw [Node.toTree, convert_call rfl (field?_first "function" callee _)
    ((field?_behind (by decide) callee _).trans rfl) rfl, hcallee, hat.span_eq, ParseTree.children,
    hlist, hexcess]
  cases firstExcess [callee] <;> cases firstExcess arguments <;> rfl

/-- The concrete tree of a node that covers its text is converted back to the node: the cases are
those of covering. -/
theorem convertsBack {s e : Nat} {n : Node} (h : Covers text s e n) (he : e ≤ text.length) :
    ConvertsBack text n := by
  induction n using Node.induction_children generalizing s e with
  | h n ih =>
    have hparts : ∀ c ∈ n.children, ConvertsBack text c := by
      intro c hc
      obtain ⟨a, b, -, hb, hcovers⟩ := h.parts.mem hc
      exact ih c hc hcovers (Nat.le_trans hb he)
    have hse := h.le
    cases h with
    | literal hlt hvalue => exact literal_convertsBack hse he hvalue
    | identifier hlt =>
      intro field
      have hat := site_at hse he "identifier" field
      rw [Node.toTree, convert_identifier rfl, hat.span_eq, hat.text_eq]
      rfl
    | @member _ c a _ object hrow hc ha =>
      exact member_convertsBack hse ha he (hparts object List.mem_cons_self)
    | @call _ c _ callee arguments hrow hc =>
      obtain ⟨hcallee, harguments⟩ := List.forall_mem_cons.mp hparts
      exact call_convertsBack ⟨c, hrow, hc⟩ he hcallee harguments
    | @unary _ a _ argument operator hs hargument =>
      exact unary_convertsBack hse he (hparts argument List.mem_cons_self)
    | @other _ c _ kind nodes hrow hc hkind =>
      exact other_convertsBack ⟨c, hrow, hc⟩ he hkind hparts

/-! ## Parsing -/

theorem programSpan_eq (text : List Char) :
    programSpan text = spanOf text (text.takeWhile isSpace).length text.length := by
  have hfront : text.take (text.takeWhile isSpace).length = text.takeWhile isSpace :=
    (List.prefix_iff_eq_take.mp (List.takeWhile_prefix isSpace)).symm
  rw [programSpan, spanOf, placeAt, placeAt, hfront, List.take_length]

/-- A text is a program when its statements are, no object is left that is a pattern only, and no
number has more digits than are read. -/
theorem parseProgram_eq (text : List Char) : parseProgram text =
    match statements? text with
    | none => .error .malformed
    | some body =>
      let p : Program := ⟨programSpan text, body⟩
      if p.visits.any fun v => v.node.isPatternOnly then .error .malformed
      else match p.visits.findSome? fun v => v.node.excess? with
        | some digits => .error (.tooLong digits)
        | none => .ok p := by
  simp only [parseProgram, parseWith, grammarParser, decodeLossy_encodeUtf8]
  cases hbody : statements? text with
  | none => rfl
  | some body =>
    have hwithin := statements?_within hbody
    have hback : ∀ n ∈ body, ConvertsBack text n := by
      intro n hn
      obtain ⟨a, b, -, hb, hcovers⟩ := hwithin.mem hn
      exact convertsBack hcovers hb
    have hexcess : (Node.visitsAll [] body).findSome? (fun v => v.node.excess?) =
        firstExcess body := by
      rw [firstExcess, ← visitsAll_nodes [] body, List.findSome?_map]
      rfl
    have hroot := (site_at (List.takeWhile_prefix isSpace).length_le (Nat.le_refl text.length)
      "program" none).span_eq
    by_cases hpattern : ((Node.visitsAll [] body).any fun v => v.node.isPatternOnly) = true
    · rw [if_pos hpattern]
      exact (if_pos hpattern).symm
    · refine Eq.trans ?_ (if_neg hpattern).symm
      rw [if_neg hpattern, ParseTree.children, convertAll_toTrees hwithin hback, ParseTree.site,
        programSpan_eq, hroot, Program.visits, hexcess]
      cases firstExcess body <;> rfl

theorem statements?_of_parseProgram {p : Program} (h : parseProgram text = .ok p) :
    statements? text = some p.body := by
  rw [parseProgram_eq] at h
  split at h
  · cases h
  · next body hbody =>
    simp only at h
    split at h
    · cases h
    · split at h
      · cases h
      · cases h
        exact hbody

/-- The statements of a parsed text stand in a row inside it. -/
theorem parseProgram_within {p : Program} (h : parseProgram text = .ok p) :
    Within text 0 text.length p.body :=
  statements?_within (statements?_of_parseProgram h)

end LiveChain
