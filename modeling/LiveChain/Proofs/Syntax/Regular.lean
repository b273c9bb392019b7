import LiveChain.Proofs.Except
import LiveChain.Proofs.Syntax.Covers
import LiveChain.Proofs.Syntax.Index

/-!
# Conversion of regular trees

A parser that finds no error gives a regular tree: positions come with their lines and columns and
go through no character, children stand one after the other inside their parent, tokens are not
empty, and the fields of calls, member accesses and unary operators are where the grammar has them.
Whatever else such a tree is, the nodes that it is converted to cover the text it stands at.
-/

set_option autoImplicit false

namespace LiveChain.Syntax

open Text

/-! ## Regular trees -/

/-- A position goes through no character, and its point says how many line feeds are before it and
how many bytes are behind the last of them. -/
structure Point.Locates (bytes : List UInt8) (position : Nat) (point : Point) : Prop where
  boundary : AtBoundary bytes position
  row_eq : point.row = (bytes.take position).count lineFeedByte
  column_eq : point.column = ((bytes.take position).reverse.takeWhile (· ≠ lineFeedByte)).length

/-- What a parser documents about a node of a text without errors, and what the grammar says of the
fields of some kinds. -/
structure ParseTree.Regular (bytes : List UInt8) (t : ParseTree) : Prop where
  opens : t.site.startPoint.Locates bytes t.site.start
  closes : t.site.stopPoint.Locates bytes t.site.stop
  ordered : t.site.start ≤ t.site.stop
  inside : ∀ c ∈ t.children, t.site.start ≤ c.site.start ∧ c.site.stop ≤ t.site.stop
  row : t.children.Pairwise fun a b => a.site.stop ≤ b.site.start
  token : t.site.kind ∈ tokenKinds → t.site.start < t.site.stop
  keyword : (keywordLiteral? t.site.kind).isSome = true →
    (bytes.take t.site.stop).drop t.site.start = encodeUtf8 t.site.kind.toList
  comment : t.site.kind ∈ skippedKinds → t.site.field = none
  call : t.site.kind = "call_expression" →
    ∀ callee ∈ ParseTree.field? "function" t.children,
      ∀ list ∈ ParseTree.field? "arguments" t.children,
        callee.site.stop ≤ list.site.start
  member : t.site.kind = "member_expression" →
    ∀ object ∈ ParseTree.field? "object" t.children,
      ∀ property ∈ ParseTree.field? "property" t.children,
        object.site.stop ≤ property.site.start ∧ property.site.start < property.site.stop ∧
          property.site.stop = t.site.stop
  unary : t.site.kind = "unary_expression" →
    ∀ operator ∈ ParseTree.field? "operator" t.children,
      ∀ argument ∈ ParseTree.field? "argument" t.children,
        operator.site.start < operator.site.stop ∧ operator.site.stop ≤ argument.site.start ∧
          argument.site.stop = t.site.stop

instance (position : Nat) (point : Point) (bytes : List UInt8) :
    Decidable (point.Locates bytes position) :=
  decidable_of_iff (_ ∧ _ ∧ _) ⟨fun ⟨h, h', h''⟩ => ⟨h, h', h''⟩, fun h => ⟨h.1, h.2, h.3⟩⟩

instance (bytes : List UInt8) (t : ParseTree) : Decidable (t.Regular bytes) :=
  decidable_of_iff (_ ∧ _ ∧ _ ∧ _ ∧ _ ∧ _ ∧ _ ∧ _ ∧ _ ∧ _ ∧ _)
    ⟨fun ⟨h1, h2, h3, h4, h5, h6, h7, h8, h9, h10, h11⟩ =>
      ⟨h1, h2, h3, h4, h5, h6, h7, h8, h9, h10, h11⟩,
    fun h => ⟨h.1, h.2, h.3, h.4, h.5, h.6, h.7, h.8, h.9, h.10, h.11⟩⟩

mutual

def ParseTree.nodes : ParseTree → List ParseTree
  | .node site children => .node site children :: ParseTree.nodesOf children

def ParseTree.nodesOf : List ParseTree → List ParseTree
  | [] => []
  | t :: rest => t.nodes ++ ParseTree.nodesOf rest

end

/-- In a text without errors all nodes are regular. -/
def Parsed.Regular (bytes : List UInt8) (parsed : Parsed) : Prop :=
  parsed.hasError = false → ∀ t ∈ parsed.root.nodes, t.Regular bytes

theorem ParseTree.mem_nodes_self (t : ParseTree) : t ∈ t.nodes := by
  cases t with
  | node site children =>
    rw [ParseTree.nodes]
    exact List.mem_cons_self

theorem ParseTree.mem_nodesOf {u : ParseTree} {children : List ParseTree} :
    u ∈ ParseTree.nodesOf children ↔ ∃ c ∈ children, u ∈ c.nodes := by
  induction children with
  | nil => simp [ParseTree.nodesOf]
  | cons t rest ih => simp [ParseTree.nodesOf, ih]

theorem ParseTree.mem_nodes_of_child {t c u : ParseTree} (hc : c ∈ t.children) (hu : u ∈ c.nodes) :
    u ∈ t.nodes := by
  cases t with
  | node site children =>
    rw [ParseTree.nodes]
    exact List.mem_cons_of_mem _ (ParseTree.mem_nodesOf.mpr ⟨c, hc, hu⟩)

theorem ParseTree.sizeOf_child {t c : ParseTree} (h : c ∈ t.children) : sizeOf c < sizeOf t := by
  cases t with
  | node site children =>
    have : sizeOf c < sizeOf children := List.sizeOf_lt_of_mem h
    rw [ParseTree.node.sizeOf_spec]
    omega

/-- What holds of a tree whenever it holds of its children holds of every tree. -/
theorem ParseTree.induction_children {P : ParseTree → Prop}
    (h : ∀ t : ParseTree, (∀ c ∈ t.children, P c) → P t) (t : ParseTree) : P t :=
  h t fun c _ => ParseTree.induction_children h c
termination_by sizeOf t
decreasing_by exact ParseTree.sizeOf_child ‹_›

/-! ## Places of regular nodes -/

section Places

variable {text : List Char}

theorem byteOffset_lt {a b : Nat} (hab : a < b) (hb : b ≤ text.length) :
    byteOffset text a < byteOffset text b := by
  have hpart := length_le_encodeUtf8 (slice text a b)
  rw [slice_length a hb] at hpart
  rw [byteOffset, byteOffset, ← take_append_slice text (Nat.le_of_lt hab), encodeUtf8_append,
    List.length_append]
  omega

theorem le_of_byteOffset_le {a b : Nat} (ha : a ≤ text.length)
    (h : byteOffset text a ≤ byteOffset text b) : a ≤ b := by
  by_contra hba
  exact absurd (byteOffset_lt (Nat.lt_of_not_le hba) ha) (Nat.not_lt.mpr h)

theorem lt_of_byteOffset_lt {a b : Nat} (h : byteOffset text a < byteOffset text b) : a < b := by
  by_contra hba
  have hle : byteOffset text b ≤ byteOffset text a := by
    rw [byteOffset, byteOffset, ← take_append_slice text (Nat.le_of_not_lt hba), encodeUtf8_append,
      List.length_append]
    exact Nat.le_add_right ..
  omega

theorem Marks.unique {a b position : Nat} {point point' : Point} (ha : Marks text a position point)
    (hb : Marks text b position point') : a = b := by
  have heq := ha.position_eq.symm.trans hb.position_eq
  exact Nat.le_antisymm (le_of_byteOffset_le ha.inside heq.le)
    (le_of_byteOffset_le hb.inside heq.ge)

theorem Point.Locates.exists_marks {position : Nat} {point : Point}
    (h : point.Locates (encodeUtf8 text) position) : ∃ k, Marks text k position point := by
  obtain ⟨k, hk, hposition⟩ := exists_chars_before h.boundary
  have htake : (encodeUtf8 text).take position = encodeUtf8 (text.take k) := by
    rw [hposition]
    exact take_byteOffset k
  refine ⟨k, hk, hposition, ?_, ?_⟩
  · rw [h.row_eq, htake, count_encodeUtf8]
    rfl
  · rw [h.column_eq, htake, takeWhile_encodeUtf8, List.length_reverse]

theorem ParseTree.Regular.exists_at {t : ParseTree} (h : t.Regular (encodeUtf8 text)) :
    ∃ s e, t.site.At text s e := by
  obtain ⟨s, hs⟩ := h.opens.exists_marks
  obtain ⟨e, he⟩ := h.closes.exists_marks
  have hordered := h.ordered
  rw [hs.position_eq, he.position_eq] at hordered
  exact ⟨s, e, le_of_byteOffset_le hs.inside hordered, hs, he⟩

end Places

/-! ## Fields -/

namespace ParseTree

theorem field?_cons (name : String) (t : ParseTree) (rest : List ParseTree) :
    field? name (t :: rest) = if t.site.field == some name then some t else field? name rest := by
  rw [field?, List.find?_cons]
  cases t.site.field == some name <;> rfl

theorem convertField_eq (index : SourceIndex) (name : String) (children : List ParseTree) :
    convertField index name children = (field? name children).map (convert index) := by
  induction children with
  | nil => rfl
  | cons t rest ih =>
    rw [convertField, field?_cons]
    split
    · rfl
    · exact ih

theorem convertArguments_eq (index : SourceIndex) (children : List ParseTree) :
    convertArguments index children = (field? "arguments" children).bind fun list =>
      if list.site.kind == "arguments" then some (convertAll index list.children) else none := by
  induction children with
  | nil => rfl
  | cons t rest ih =>
    obtain ⟨site, children⟩ := t
    rw [convertArguments, field?_cons, ParseTree.site]
    split
    · rfl
    · exact ih

theorem mem_of_field? {name : String} {children : List ParseTree} {t : ParseTree}
    (h : field? name children = some t) : t ∈ children :=
  List.mem_of_find?_eq_some h

theorem Regular.not_skipped {bytes : List UInt8} {name : String} {children : List ParseTree}
    {t : ParseTree} (ht : t.Regular bytes) (h : field? name children = some t) :
    t.site.kind ∉ skippedKinds := by
  intro hskipped
  have hfield := List.find?_some h
  rw [ht.comment hskipped] at hfield
  cases hfield

end ParseTree

/-! ## Conversion -/

theorem value?_of_read {raw : List Char} {value : Number}
    (h : NumberLiteral.read raw = .ok value) : NumberLiteral.value? raw = some value := by
  unfold NumberLiteral.read at h
  split at h
  · cases h
  · next n hn =>
    split at h
    · cases h
    · cases h
      exact hn

theorem keyword_denotes {kind : String} {value : Literal} (h : keywordLiteral? kind = some value) :
    kind ∈ tokenKinds ∧ value.Denotes kind := by
  unfold keywordLiteral? at h
  split at h
  · next htrue =>
    cases h
    exact ⟨htrue ▸ by decide, htrue⟩
  · split at h
    · next hfalse =>
      cases h
      exact ⟨hfalse ▸ by decide, hfalse⟩
    · split at h
      · next hnull =>
        cases h
        exact ⟨hnull ▸ by decide, hnull⟩
      · cases h

theorem plainKind_of_other {kind : String} (hidentifier : kind ≠ "identifier")
    (hnumber : kind ≠ "number") (hstring : kind ≠ "string")
    (hkeyword : keywordLiteral? kind = none) (hskipped : kind ∉ skippedKinds) :
    plainKind kind = true := by
  have hwords : kind ≠ "true" ∧ kind ≠ "false" ∧ kind ≠ "null" := by
    refine ⟨?_, ?_, ?_⟩ <;> rintro rfl <;> cases hkeyword
  obtain ⟨htrue, hfalse, hnull⟩ := hwords
  refine plainKind_iff.mpr ⟨?_, hskipped⟩
  simp [tokenKinds, hidentifier, hnumber, hstring, htrue, hfalse, hnull]

section Conversion

variable {text : List Char} {s e : Nat}

/-- What a concrete node and its children are converted to covers the text at which the node is. -/
structure ParseTree.Converted (text : List Char) (t : ParseTree) : Prop where
  regular : t.Regular (encodeUtf8 text)
  parts : ∀ nodes, ParseTree.convertAll (.ofBytes (encodeUtf8 text)) t.children = .ok nodes →
    ∀ s e, t.site.At text s e → Within text s e nodes
  node : ∀ n, t.convert (.ofBytes (encodeUtf8 text)) = .ok n → t.site.kind ∉ skippedKinds →
    ∀ s e, t.site.At text s e → Covers text s e n

/-- Concrete nodes in a row between two offsets. -/
structure Lined (text : List Char) (s e : Nat) (trees : List ParseTree) : Prop where
  ordered : s ≤ e
  bounded : e ≤ text.length
  inside : ∀ t ∈ trees, byteOffset text s ≤ t.site.start ∧ t.site.stop ≤ byteOffset text e
  row : trees.Pairwise fun a b => a.site.stop ≤ b.site.start

theorem Lined.child_at {trees : List ParseTree} (h : Lined text s e trees) {t : ParseTree}
    (ht : t ∈ trees) (hregular : t.Regular (encodeUtf8 text)) :
    ∃ a b, t.site.At text a b ∧ s ≤ a ∧ b ≤ e := by
  obtain ⟨a, b, hat⟩ := hregular.exists_at
  obtain ⟨hstart, hstop⟩ := h.inside t ht
  rw [hat.opens.position_eq] at hstart
  rw [hat.closes.position_eq] at hstop
  exact ⟨a, b, hat, le_of_byteOffset_le (Nat.le_trans h.ordered h.bounded) hstart,
    le_of_byteOffset_le hat.closes.inside hstop⟩

theorem ParseTree.Regular.lined {t : ParseTree} (h : t.Regular (encodeUtf8 text))
    (hat : t.site.At text s e) : Lined text s e t.children where
  ordered := hat.ordered
  bounded := hat.closes.inside
  inside c hc := hat.opens.position_eq ▸ hat.closes.position_eq ▸ h.inside c hc
  row := h.row

theorem convertAll_within {trees : List ParseTree} {nodes : List Node} (h : Lined text s e trees)
    (htrees : ∀ t ∈ trees, t.Converted text)
    (hnodes : ParseTree.convertAll (.ofBytes (encodeUtf8 text)) trees = .ok nodes) :
    Within text s e nodes := by
  induction trees generalizing s nodes with
  | nil =>
    cases hnodes
    exact .nil h.ordered
  | cons t rest ih =>
    obtain ⟨ht, hothers⟩ := List.forall_mem_cons.mp htrees
    obtain ⟨a, b, hat, ha, hb⟩ := h.child_at List.mem_cons_self ht.regular
    obtain ⟨hbehind, hrow⟩ := List.pairwise_cons.mp h.row
    have hrest : Lined text b e rest := by
      refine ⟨hb, h.bounded, fun u hu => ⟨?_, (h.inside u (List.mem_cons_of_mem t hu)).2⟩, hrow⟩
      rw [← hat.closes.position_eq]
      exact hbehind u hu
    rw [ParseTree.convertAll] at hnodes
    split at hnodes
    · next hkept =>
      obtain ⟨first, hfirst, hnodes⟩ := exists_of_bind_ok hnodes
      obtain ⟨others, hmore, hnodes⟩ := exists_of_bind_ok hnodes
      cases hnodes
      have hkind : t.site.kind ∉ skippedKinds := by simpa using (Bool.and_eq_true_iff.mp hkept).2
      exact (ht.node first hfirst hkind a b hat).cons ha (ih hrest hothers hmore)
    · exact (ih hrest hothers hnodes).mono (Nat.le_trans ha hat.ordered) (Nat.le_refl e)

/-! ### Nodes by kind -/

section Kinds

variable {site : Site} {children : List ParseTree} {n : Node}
  (h : (ParseTree.node site children).Regular (encodeUtf8 text))
  (hchildren : ∀ c ∈ children, c.Converted text) (hat : site.At text s e)

include h hchildren hat

theorem other_covers (hkind : plainKind site.kind = true)
    (hn : (SourceIndex.ofBytes (encodeUtf8 text)).other site <$>
      ParseTree.convertAll (.ofBytes (encodeUtf8 text)) children = .ok n) : Covers text s e n := by
  obtain ⟨nodes, hnodes, rfl⟩ := exists_of_map_ok hn
  rw [SourceIndex.other, hat.span_eq]
  exact (convertAll_within (h.lined hat) hchildren hnodes).other hkind

theorem field_covers {name : String} {c : ParseTree} (hc : ParseTree.field? name children = some c)
    (hn : c.convert (.ofBytes (encodeUtf8 text)) = .ok n) :
    ∃ a b, c.site.At text a b ∧ s ≤ a ∧ b ≤ e ∧ Covers text a b n := by
  have hmem := ParseTree.mem_of_field? hc
  have hconverted := hchildren c hmem
  obtain ⟨a, b, hcat, ha, hb⟩ := (h.lined hat).child_at hmem hconverted.regular
  have hkind := hconverted.regular.not_skipped hc
  exact ⟨a, b, hcat, ha, hb, hconverted.node n hn hkind a b hcat⟩

theorem call_covers {callee list : ParseTree} {first : Node} {arguments : List Node}
    (hkind : site.kind = "call_expression")
    (hcallee : ParseTree.field? "function" children = some callee)
    (hlist : ParseTree.field? "arguments" children = some list)
    (hfirst : callee.convert (.ofBytes (encodeUtf8 text)) = .ok first)
    (harguments : ParseTree.convertAll (.ofBytes (encodeUtf8 text)) list.children = .ok arguments) :
    Covers text s e (.call (spanOf text s e) first arguments) := by
  obtain ⟨a, b, hcat, ha, -, hcovers⟩ := field_covers h hchildren hat hcallee hfirst
  have hconverted := hchildren list (ParseTree.mem_of_field? hlist)
  obtain ⟨c, d, hlat, -, hd⟩ :=
    (h.lined hat).child_at (ParseTree.mem_of_field? hlist) hconverted.regular
  have hbehind := h.call hkind callee hcallee list hlist
  rw [hcat.closes.position_eq, hlat.opens.position_eq] at hbehind
  have hbc := le_of_byteOffset_le hcat.closes.inside hbehind
  exact (hcovers.cons ha ((hconverted.parts arguments harguments c d hlat).mono hbc hd)).call

theorem member_covers {object property : ParseTree} {inner : Node}
    (hkind : site.kind = "member_expression")
    (hobject : ParseTree.field? "object" children = some object)
    (hproperty : ParseTree.field? "property" children = some property)
    (hinner : object.convert (.ofBytes (encodeUtf8 text)) = .ok inner) :
    Covers text s e (.member (spanOf text s e) inner
      ((SourceIndex.ofBytes (encodeUtf8 text)).text property.site)
      ((SourceIndex.ofBytes (encodeUtf8 text)).span property.site)) := by
  obtain ⟨a, b, hoat, ha, -, hcovers⟩ := field_covers h hchildren hat hobject hinner
  have hmem := ParseTree.mem_of_field? hproperty
  obtain ⟨c, d, hpat, -, -⟩ := (h.lined hat).child_at hmem (hchildren property hmem).regular
  obtain ⟨hbehind, hfilled, hend⟩ := h.member hkind object hobject property hproperty
  rw [hoat.closes.position_eq, hpat.opens.position_eq] at hbehind
  rw [hpat.opens.position_eq, hpat.closes.position_eq] at hfilled
  have hde : d = e := hpat.closes.unique (hend ▸ hat.closes)
  subst hde
  rw [hpat.span_eq, hpat.text_eq]
  exact Within.member (hcovers.cons ha (.nil (le_of_byteOffset_le hoat.closes.inside hbehind)))
    (lt_of_byteOffset_lt hfilled)

theorem unary_covers {operator argument : ParseTree} {inner : Node}
    (hkind : site.kind = "unary_expression")
    (hoperator : ParseTree.field? "operator" children = some operator)
    (hargument : ParseTree.field? "argument" children = some argument)
    (hinner : argument.convert (.ofBytes (encodeUtf8 text)) = .ok inner) :
    Covers text s e (.unary (spanOf text s e) operator.site.kind inner) := by
  obtain ⟨a, b, haat, -, -, hcovers⟩ := field_covers h hchildren hat hargument hinner
  have hmem := ParseTree.mem_of_field? hoperator
  obtain ⟨c, d, hoat, hc, -⟩ := (h.lined hat).child_at hmem (hchildren operator hmem).regular
  obtain ⟨hfilled, hbehind, hend⟩ := h.unary hkind operator hoperator argument hargument
  rw [hoat.opens.position_eq, hoat.closes.position_eq] at hfilled
  rw [hoat.closes.position_eq, haat.opens.position_eq] at hbehind
  have hbe : b = e := haat.closes.unique (hend ▸ hat.closes)
  subst hbe
  have hda := le_of_byteOffset_le hoat.closes.inside hbehind
  have hcd := lt_of_byteOffset_lt hfilled
  exact .unary operator.site.kind (by omega) hcovers

omit hchildren in
theorem token_filled (hkind : site.kind ∈ tokenKinds) : s < e := by
  have hfilled : site.start < site.stop := h.token hkind
  rw [hat.opens.position_eq, hat.closes.position_eq] at hfilled
  exact lt_of_byteOffset_lt hfilled

omit hchildren in
theorem number_covers (hkind : site.kind = "number")
    (hn : (SourceIndex.ofBytes (encodeUtf8 text)).number site = .ok n) : Covers text s e n := by
  have hfilled := token_filled h hat (hkind ▸ by decide)
  unfold SourceIndex.number at hn
  rw [hat.text_eq, hat.span_eq] at hn
  simp only at hn
  split at hn
  · next value hvalue =>
    cases hn
    exact .literal hfilled (value?_of_read hvalue)
  · cases hn

omit hchildren in
theorem keyword_covers {value : Literal} (hvalue : keywordLiteral? site.kind = some value) :
    Covers text s e (.literal (spanOf text s e) value site.kind) := by
  have htext : site.kind = String.ofList (slice text s e) := by
    rw [← hat.text_eq, SourceIndex.text, SourceIndex.decoded]
    have hbytes := h.keyword (by rw [ParseTree.site, hvalue]; rfl)
    change ((encodeUtf8 text).take site.stop).drop site.start = _ at hbytes
    change site.kind = String.ofList (decodeLossy (((encodeUtf8 text).take _).drop _))
    rw [hbytes, decodeLossy_encodeUtf8, ParseTree.site, String.ofList_toList]
  obtain ⟨hkind, hdenotes⟩ := keyword_denotes hvalue
  have hfilled := token_filled h hat hkind
  rw [htext] at hdenotes ⊢
  exact .literal hfilled hdenotes

/-- A node whose children are converted to what covers their text is so itself: the cases are those
of the conversion. -/
theorem converts_covers
    (hn : (ParseTree.node site children).convert (.ofBytes (encodeUtf8 text)) = .ok n)
    (hplain : site.kind ∉ skippedKinds) : Covers text s e n := by
  have hother := other_covers h hchildren hat (n := n)
  unfold ParseTree.convert at hn
  simp only [ParseTree.convertField_eq, ParseTree.convertArguments_eq, hat.span_eq] at hn
  split at hn
  · next hkind =>
    have hother := hother (hkind ▸ by decide)
    split at hn
    · exact hother hn
    · next arguments hbound =>
      obtain ⟨list, hlist, hform⟩ := Option.bind_eq_some_iff.mp hbound
      split at hform
      · cases hform
        split at hn
        · exact hother hn
        · next hmapped =>
          obtain ⟨callee, hcallee, rfl⟩ := Option.map_eq_some_iff.mp hmapped
          obtain ⟨first, hfirst, hn⟩ := exists_of_bind_ok hn
          obtain ⟨arguments, harguments, hn⟩ := exists_of_bind_ok hn
          cases hn
          exact call_covers h hchildren hat hkind hcallee hlist hfirst harguments
      · cases hform
  · next hkind =>
    have hother := hother (hkind ▸ by decide)
    split at hn
    · exact hother hn
    · next property hproperty =>
      split at hn
      · exact hother hn
      · next hmapped =>
        obtain ⟨object, hobject, rfl⟩ := Option.map_eq_some_iff.mp hmapped
        obtain ⟨inner, hinner, hn⟩ := exists_of_bind_ok hn
        cases hn
        exact member_covers h hchildren hat hkind hobject hproperty hinner
  · next hkind =>
    have hother := hother (hkind ▸ by decide)
    split at hn
    · exact hother hn
    · next operator hoperator =>
      split at hn
      · exact hother hn
      · next hmapped =>
        obtain ⟨argument, hargument, rfl⟩ := Option.map_eq_some_iff.mp hmapped
        obtain ⟨inner, hinner, hn⟩ := exists_of_bind_ok hn
        cases hn
        exact unary_covers h hchildren hat hkind hoperator hargument hinner
  · next hkind =>
    cases hn
    rw [hat.text_eq]
    exact .identifier (token_filled h hat (hkind ▸ by decide))
  · next hkind => exact number_covers h hat hkind hn
  · next hkind =>
    cases hn
    rw [hat.text_eq]
    exact .literal (token_filled h hat (hkind ▸ by decide)) rfl
  · next hidentifier hnumber hstring =>
    split at hn
    · next value hvalue =>
      cases hn
      exact keyword_covers h hat hvalue
    · next hkeyword =>
      exact hother (plainKind_of_other hidentifier hnumber hstring hkeyword hplain) hn

end Kinds

/-- Regular trees are converted to nodes that cover the text that they stand at. -/
theorem converted_of_regular {t : ParseTree} (h : ∀ u ∈ t.nodes, u.Regular (encodeUtf8 text)) :
    t.Converted text := by
  induction t using ParseTree.induction_children with
  | h t ih =>
    have hregular := h t t.mem_nodes_self
    have hchildren : ∀ c ∈ t.children, c.Converted text := fun c hc =>
      ih c hc fun u hu => h u (ParseTree.mem_nodes_of_child hc hu)
    refine ⟨hregular, fun nodes hnodes s e hat => ?_, fun n hn hplain s e hat => ?_⟩
    · exact convertAll_within (hregular.lined hat) hchildren hnodes
    · cases t with
      | node site children => exact converts_covers hregular hchildren hat hn hplain

end Conversion

end LiveChain.Syntax
