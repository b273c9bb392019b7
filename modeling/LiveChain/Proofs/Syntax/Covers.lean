import LiveChain.Proofs.Syntax.Place
import LiveChain.Syntax.Convert
import LiveChain.Syntax.Grammar.Binary
import LiveChain.Syntax.Grammar.Pattern

/-!
# Trees that fit a text

A tree fits a text when every node has the span of the characters that it stands for, leaves hold
these characters and what they denote, and the parts of a node stand one after the other inside it.
What patterns are read from fits the text as the patterns do.
-/

set_option autoImplicit false

namespace LiveChain

/-- A literal denotes what its text says: a number its value, a string what is between the quotes, a
keyword itself. -/
def Literal.Denotes (raw : String) : Literal → Prop
  | .number n => NumberLiteral.value? raw.toList = some n
  | .text s => s = Syntax.unquoted raw
  | .bool b => raw = if b then "true" else "false"
  | .null => raw = "null"

/-- Kinds of tokens that leaves are made of. -/
def tokenKinds : List String := ["identifier", "number", "string", "true", "false", "null"]

/-- Kinds of nodes that are neither leaves nor left out. -/
def plainKind (kind : String) : Bool := !(tokenKinds ++ Syntax.skippedKinds).contains kind

theorem plainKind_iff {kind : String} :
    plainKind kind = true ↔ kind ∉ tokenKinds ∧ kind ∉ Syntax.skippedKinds := by
  simp [plainKind]

mutual

/-- A node covers a text from one offset to another: a leaf is not empty and holds the characters,
the name of a member stands behind its object and ends with it, a unary operator starts before its
operand and ends with it, and the parts of other nodes stand in a row inside. -/
inductive Covers (text : List Char) : Nat → Nat → Node → Prop
  | literal {s e : Nat} {value : Literal} (h : s < e)
      (hvalue : value.Denotes (String.ofList (slice text s e))) :
    Covers text s e (.literal (spanOf text s e) value (String.ofList (slice text s e)))
  | identifier {s e : Nat} (h : s < e) :
    Covers text s e (.identifier (spanOf text s e) (String.ofList (slice text s e)))
  | member {s c a e : Nat} {object : Node} (h : Row text s c [object]) (hc : c ≤ a) (ha : a < e) :
    Covers text s e
      (.member (spanOf text s e) object (String.ofList (slice text a e)) (spanOf text a e))
  | call {s c e : Nat} {callee : Node} {arguments : List Node}
      (h : Row text s c (callee :: arguments)) (hc : c ≤ e) :
    Covers text s e (.call (spanOf text s e) callee arguments)
  | unary {s a e : Nat} {argument : Node} (operator : String) (hs : s < a)
      (h : Covers text a e argument) :
    Covers text s e (.unary (spanOf text s e) operator argument)
  | other {s c e : Nat} {kind : String} {nodes : List Node} (h : Row text s c nodes) (hc : c ≤ e)
      (hkind : plainKind kind = true) :
    Covers text s e (.other (spanOf text s e) kind nodes)

/-- Nodes in a row behind an offset, the last of which ends at another. -/
inductive Row (text : List Char) : Nat → Nat → List Node → Prop
  | nil {s : Nat} : Row text s s []
  | cons {s a b e : Nat} {n : Node} {rest : List Node} (hs : s ≤ a) (h : Covers text a b n)
      (hrest : Row text b e rest) :
    Row text s e (n :: rest)

end

/-- Nodes in a row between two offsets. -/
def Within (text : List Char) (s e : Nat) (nodes : List Node) : Prop :=
  ∃ c, Row text s c nodes ∧ c ≤ e

/-- A node that starts at an offset or later and ends at another. -/
def Reaches (text : List Char) (i : Nat) (n : Node) (j : Nat) : Prop :=
  ∃ s, i ≤ s ∧ Covers text s j n

variable {text : List Char}

/-! ## Ends -/

theorem Covers.span_eq {s e : Nat} {n : Node} (h : Covers text s e n) :
    n.span = spanOf text s e := by
  cases h <;> rfl

mutual

theorem Covers.le {s e : Nat} {n : Node} : Covers text s e n → s ≤ e
  | .literal h _ => Nat.le_of_lt h
  | .identifier h => Nat.le_of_lt h
  | .member h hc ha => Nat.le_trans h.le (Nat.le_trans hc (Nat.le_of_lt ha))
  | .call h hc => Nat.le_trans h.le hc
  | .unary _ hs h => Nat.le_trans (Nat.le_of_lt hs) h.le
  | .other h hc _ => Nat.le_trans h.le hc

theorem Row.le {s e : Nat} {nodes : List Node} : Row text s e nodes → s ≤ e
  | .nil => Nat.le_refl s
  | .cons hs h hrest => Nat.le_trans hs (Nat.le_trans h.le hrest.le)

end

theorem Reaches.le {i j : Nat} {n : Node} (h : Reaches text i n j) : i ≤ j := by
  obtain ⟨s, hs, hn⟩ := h
  exact Nat.le_trans hs hn.le

theorem Within.le {s e : Nat} {nodes : List Node} (h : Within text s e nodes) : s ≤ e := by
  obtain ⟨c, hrow, hc⟩ := h
  exact Nat.le_trans hrow.le hc

theorem Reaches.mono {i i' j : Nat} {n : Node} (h : Reaches text i n j) (hi : i' ≤ i) :
    Reaches text i' n j := by
  obtain ⟨s, hs, hn⟩ := h
  exact ⟨s, Nat.le_trans hi hs, hn⟩

/-! ## Rows -/

theorem Row.append {s c e : Nat} {xs ys : List Node} (hx : Row text s c xs)
    (hy : Row text c e ys) : Row text s e (xs ++ ys) := by
  induction xs generalizing s with
  | nil =>
    cases hx
    exact hy
  | cons n xs ih =>
    cases hx with
    | cons ha h hrest => exact .cons ha h (ih hrest)

theorem Row.push {s c e : Nat} {found : List Node} {n : Node} (h : Row text s c found.reverse)
    (hn : Reaches text c n e) : Row text s e (n :: found).reverse := by
  obtain ⟨a, ha, hn⟩ := hn
  rw [List.reverse_cons]
  exact h.append (.cons ha hn .nil)

namespace Within

theorem nil {s e : Nat} (h : s ≤ e) : Within text s e [] := ⟨s, .nil, h⟩

theorem mono {s s' e e' : Nat} {nodes : List Node} (h : Within text s e nodes) (hs : s' ≤ s)
    (he : e ≤ e') : Within text s' e' nodes := by
  obtain ⟨c, hrow, hc⟩ := h
  cases hrow with
  | nil => exact nil (by omega)
  | cons ha h hrest => exact ⟨c, .cons (Nat.le_trans hs ha) h hrest, Nat.le_trans hc he⟩

theorem append {s c e : Nat} {xs ys : List Node} (hx : Within text s c xs)
    (hy : Within text c e ys) : Within text s e (xs ++ ys) := by
  obtain ⟨b, hrow, hb⟩ := hx
  obtain ⟨d, hrow', hd⟩ := hy
  cases hrow' with
  | nil =>
    rw [List.append_nil]
    exact ⟨b, hrow, by omega⟩
  | cons ha h hrest => exact ⟨d, hrow.append (.cons (Nat.le_trans hb ha) h hrest), hd⟩

theorem push {s c e : Nat} {found : List Node} {n : Node} (h : Within text s c found.reverse)
    (hn : Within text c e [n]) : Within text s e (n :: found).reverse := by
  rw [List.reverse_cons]
  exact h.append hn

/-- The first node of a row covers its text, and the others stand behind it. -/
theorem first {s e : Nat} {n : Node} {rest : List Node} (h : Within text s e (n :: rest)) :
    ∃ a b, s ≤ a ∧ Covers text a b n ∧ Within text b e rest := by
  obtain ⟨c, hrow, hc⟩ := h
  cases hrow with
  | cons ha h hrest => exact ⟨_, _, ha, h, _, hrest, hc⟩

end Within

theorem Covers.cons {s a b e : Nat} {n : Node} {rest : List Node} (h : Covers text a b n)
    (hs : s ≤ a) (hrest : Within text b e rest) : Within text s e (n :: rest) := by
  obtain ⟨c, hrow, hc⟩ := hrest
  exact ⟨c, .cons hs h hrow, hc⟩

theorem Reaches.cons {s i j e : Nat} {n : Node} {rest : List Node} (h : Reaches text i n j)
    (hs : s ≤ i) (hrest : Within text j e rest) : Within text s e (n :: rest) := by
  obtain ⟨a, ha, hn⟩ := h
  exact hn.cons (Nat.le_trans hs ha) hrest

theorem Reaches.within {i j : Nat} {n : Node} (h : Reaches text i n j) : Within text i j [n] :=
  h.cons (Nat.le_refl i) (.nil (Nat.le_refl j))

/-! ## Nodes of other kinds -/

theorem Within.other {s e : Nat} {kind : String} {nodes : List Node} (h : Within text s e nodes)
    (hkind : plainKind kind = true) :
    Covers text s e (.other (spanOf text s e) kind nodes) := by
  obtain ⟨c, hrow, hc⟩ := h
  exact .other hrow hc hkind

theorem Within.call {s e : Nat} {callee : Node} {arguments : List Node}
    (h : Within text s e (callee :: arguments)) :
    Covers text s e (.call (spanOf text s e) callee arguments) := by
  obtain ⟨c, hrow, hc⟩ := h
  exact .call hrow hc

theorem Within.member {s a e : Nat} {object : Node} (h : Within text s a [object]) (ha : a < e) :
    Covers text s e
      (.member (spanOf text s e) object (String.ofList (slice text a e)) (spanOf text a e)) := by
  obtain ⟨c, hrow, hc⟩ := h
  exact .member hrow hc ha

/-- The parts of a node of another kind may be exchanged for others in a row. -/
theorem Covers.other_replace {s e : Nat} {span : Span} {kind kind' : String}
    {nodes nodes' : List Node} (h : Covers text s e (.other span kind nodes))
    (hparts : ∀ c, Within text s c nodes → Within text s c nodes')
    (hkind : plainKind kind' = true) : Covers text s e (.other span kind' nodes') := by
  cases h with
  | other h hc _ => exact (hparts e ⟨_, h, hc⟩).other hkind

/-! ## Operands and operators -/

namespace Syntax

theorem joined_covers {s b c e : Nat} {l r : Node} (hl : Covers text s b l)
    (hr : Covers text c e r) (h : b ≤ c) : Covers text s e (joined l r) := by
  have hspan : Span.cover l.span r.span = spanOf text s e := by
    rw [hl.span_eq, hr.span_eq]
    rfl
  rw [joined, hspan]
  exact (hl.cons (Nat.le_refl s) (hr.cons h (.nil (Nat.le_refl e)))).other (by decide)

/-- Operands that wait for one that starts at an offset; the outermost of all starts at `s`. -/
inductive Awaits (text : List Char) (s : Nat) : Nat → List Waiting → Prop
  | nil : Awaits text s s []
  | cons {a b c : Nat} {w : Waiting} {rest : List Waiting} (h : Covers text a b w.left)
      (hb : b ≤ c) (hrest : Awaits text s a rest) :
    Awaits text s c (w :: rest)

theorem settle_covers {s c e : Nat} {right : Node} {waiting : List Waiting}
    (hright : Covers text c e right) (h : Awaits text s c waiting) (strength : Nat) :
    ∃ a, Covers text a e (settle strength right waiting).1 ∧
      Awaits text s a (settle strength right waiting).2 := by
  induction h generalizing right with
  | nil => exact ⟨s, hright, .nil⟩
  | @cons a b c w rest hw hb hrest ih =>
    rw [settle]
    split
    · exact ih (joined_covers hw hright hb)
    · exact ⟨c, hright, .cons hw hb hrest⟩

theorem settleAll_covers {s c e : Nat} {right : Node} {waiting : List Waiting}
    (hright : Covers text c e right) (h : Awaits text s c waiting) :
    Covers text s e (settleAll right waiting) := by
  induction h generalizing right with
  | nil => exact hright
  | cons hw hb hrest ih => exact ih (joined_covers hw hright hb)

theorem combineFrom_covers {s c b e : Nat} {waiting : List Waiting} {last : Node}
    {rest : List (Nat × Node)} (hlast : Covers text c b last) (h : Awaits text s c waiting)
    (hrest : Row text b e (rest.map (·.2))) : Covers text s e (combineFrom waiting last rest) := by
  induction rest generalizing c b waiting last with
  | nil =>
    cases hrest
    exact settleAll_covers hlast h
  | cons operand rest ih =>
    cases hrest with
    | cons ha hnext hmore =>
      obtain ⟨a, hleft, houter⟩ := settle_covers hlast h operand.1
      exact ih hnext (.cons hleft ha houter) hmore

/-- Operands joined by operators start with the first operand and end with the last one. -/
theorem combine_reaches {i b e : Nat} {first : Node} {rest : List (Nat × Node)}
    (hfirst : Reaches text i first b) (hrest : Row text b e (rest.map (·.2))) :
    Reaches text i (combine first rest) e := by
  obtain ⟨s, hs, hfirst⟩ := hfirst
  exact ⟨s, hs, combineFrom_covers hfirst .nil hrest⟩

end Syntax

/-! ## Induction over the parts of nodes -/

theorem sizeOf_child {n c : Node} (h : c ∈ n.children) : sizeOf c < sizeOf n := by
  cases n with
  | literal s v r => cases h
  | identifier s name => cases h
  | member s object p ps =>
    rw [List.mem_singleton.mp h, Node.member.sizeOf_spec]
    omega
  | call s callee arguments =>
    rw [Node.call.sizeOf_spec]
    rcases List.mem_cons.mp h with rfl | hargument
    · omega
    · have := List.sizeOf_lt_of_mem hargument
      omega
  | unary s o argument =>
    rw [List.mem_singleton.mp h, Node.unary.sizeOf_spec]
    omega
  | other s kind nodes =>
    have : sizeOf c < sizeOf nodes := List.sizeOf_lt_of_mem h
    rw [Node.other.sizeOf_spec]
    omega

/-- What holds of a node whenever it holds of its parts holds of every node. -/
theorem Node.induction_children {P : Node → Prop} (h : ∀ n : Node, (∀ c ∈ n.children, P c) → P n)
    (n : Node) : P n :=
  h n fun c _ => Node.induction_children h c
termination_by sizeOf n
decreasing_by exact sizeOf_child ‹_›

/-! ## Patterns -/

theorem parameters?_eq (items : List Node) :
    Node.parameters? items = items.mapM Node.parameter? := by
  induction items with
  | nil => rfl
  | cons n rest ih => rw [Node.parameters?, ih, List.mapM_cons]

theorem memberPatterns?_eq (items : List Node) :
    Node.memberPatterns? items = items.mapM Node.memberPattern? := by
  induction items with
  | nil => rfl
  | cons n rest ih => rw [Node.memberPatterns?, ih, List.mapM_cons]

/-- A relation of nodes to the patterns that they can be read as: nodes are related to themselves,
and nodes of other kinds to those without parts and to those with related parts. -/
structure KeptByPatterns (R : Node → Node → Prop) : Prop where
  same (n : Node) : R n n
  bare (span : Span) (kind : String) {kind' : String} (parts : List Node)
    (hkind : plainKind kind' = true) :
    R (.other span kind parts) (.other span kind' [])
  parts {span : Span} {kind kind' : String} {parts parts' : List Node}
    (h : List.Forall₂ R parts parts') (hkind : plainKind kind' = true) :
    R (.other span kind parts) (.other span kind' parts')

namespace KeptByPatterns

variable {R : Node → Node → Prop}

theorem related_of_mapM {f : Node → Option Node} {items items' : List Node}
    (hf : ∀ n ∈ items, ∀ p, f n = some p → R n p) (h : items.mapM f = some items') :
    List.Forall₂ R items items' := by
  induction items generalizing items' with
  | nil =>
    cases h
    exact .nil
  | cons n rest ih =>
    rw [List.mapM_cons] at h
    obtain ⟨p, hp, hrest⟩ := Option.bind_eq_some_iff.mp h
    obtain ⟨others, hothers, hall⟩ := Option.bind_eq_some_iff.mp hrest
    cases hall
    obtain ⟨hfirst, hmore⟩ := List.forall_mem_cons.mp hf
    exact .cons (hfirst p hp) (ih hmore hothers)

/-- What a node is read as on the left of an equals sign, as a parameter and as a member of a
pattern. -/
theorem related (hR : KeptByPatterns R) (n : Node) : (∀ p, n.pattern? = some p → R n p) ∧
    (∀ p, n.parameter? = some p → R n p) ∧ ∀ p, n.memberPattern? = some p → R n p := by
  induction n using Node.induction_children with
  | h n ih =>
    have hreference : ∀ p, (if n.isReference then some n else none) = some p → R n p := by
      intro p hp
      split at hp
      · cases hp
        exact hR.same n
      · cases hp
    have harray : ∀ {span kind items p}, n = .other span kind items →
        (Node.parameters? items).map (.other span "array_pattern") = some p → R n p := by
      rintro span kind items p rfl hp
      obtain ⟨items', hitems, rfl⟩ := Option.map_eq_some_iff.mp hp
      rw [parameters?_eq] at hitems
      exact hR.parts (related_of_mapM (fun m hm => (ih m hm).2.1) hitems) (by decide)
    have hobject : ∀ {span kind items p}, n = .other span kind items →
        (Node.memberPatterns? items).map (.other span "object_pattern") = some p → R n p := by
      rintro span kind items p rfl hp
      obtain ⟨items', hitems, rfl⟩ := Option.map_eq_some_iff.mp hp
      rw [memberPatterns?_eq] at hitems
      exact hR.parts (related_of_mapM (fun m hm => (ih m hm).2.2) hitems) (by decide)
    have hspread : ∀ {span kind inner p}, n = .other span kind [inner] →
        (inner.pattern?.map fun p => .other span "rest_pattern" [p]) = some p → R n p := by
      rintro span kind inner p rfl hp
      obtain ⟨inner', hinner, rfl⟩ := Option.map_eq_some_iff.mp hp
      exact hR.parts (.cons ((ih inner List.mem_cons_self).1 inner' hinner) .nil) (by decide)
    refine ⟨fun p hp => ?_, fun p hp => ?_, fun p hp => ?_⟩
    · unfold Node.pattern? at hp
      split at hp
      · exact harray rfl hp
      · exact hobject rfl hp
      · exact hreference p hp
    · unfold Node.parameter? at hp
      split at hp
      · split at hp
        · cases hp
          exact hR.parts (.cons (hR.same _) (.cons (hR.same _) .nil)) (by decide)
        · cases hp
      · exact hspread rfl hp
      · exact harray rfl hp
      · exact hobject rfl hp
      · exact hreference p hp
    · unfold Node.memberPattern? at hp
      split at hp
      · next key value =>
        obtain ⟨value', hvalue, rfl⟩ := Option.map_eq_some_iff.mp hp
        have hkept := (ih value (by simp [Node.children])).2.1 value' hvalue
        exact hR.parts (.cons (hR.same key) (.cons hkept .nil)) (by decide)
      · cases hp
        exact hR.bare _ _ _ (by decide)
      · exact hspread rfl hp
      · cases hp
        exact hR.same _
      · cases hp

theorem parameters (hR : KeptByPatterns R) {items items' : List Node}
    (h : Node.parameters? items = some items') : List.Forall₂ R items items' :=
  related_of_mapM (fun n _ => (hR.related n).2.1) (parameters?_eq items ▸ h)

/-- What stands on the left of an equals sign is a pattern, or stands between parentheses. -/
theorem target (hR : KeptByPatterns R) {n p : Node} (h : n.target? = some p) : R n p := by
  unfold Node.target? at h
  split at h
  · cases h
    exact hR.same n
  · exact (hR.related n).1 p h

end KeptByPatterns

theorem Within.exchange {s e : Nat} {items items' : List Node} (h : Within text s e items)
    (hitems : List.Forall₂ (fun n p => ∀ s e, Covers text s e n → Covers text s e p) items items') :
    Within text s e items' := by
  induction hitems generalizing s with
  | nil => exact h
  | cons hn _ ih =>
    obtain ⟨a, b, ha, hcovers, hbehind⟩ := h.first
    exact (hn a b hcovers).cons ha (ih hbehind)

/-- Patterns cover what the expressions covered that they were read as. -/
theorem covers_kept (text : List Char) :
    KeptByPatterns fun n p => ∀ s e, Covers text s e n → Covers text s e p where
  same _ _ _ h := h
  bare _ _ _ _ hkind _ _ h := h.other_replace (fun _ hwithin => .nil hwithin.le) hkind
  parts hparts hkind _ _ h := h.other_replace (fun _ hwithin => hwithin.exchange hparts) hkind

theorem parameters?_within {s e : Nat} {items items' : List Node} (h : Within text s e items)
    (hp : Node.parameters? items = some items') : Within text s e items' :=
  h.exchange ((covers_kept text).parameters hp)

theorem pattern?_reaches {i j : Nat} {n p : Node} (h : Reaches text i n j)
    (hp : n.pattern? = some p) : Reaches text i p j := by
  obtain ⟨s, hs, hn⟩ := h
  exact ⟨s, hs, ((covers_kept text).related n).1 p hp s j hn⟩

theorem target?_reaches {i j : Nat} {n p : Node} (h : Reaches text i n j)
    (hp : n.target? = some p) : Reaches text i p j := by
  obtain ⟨s, hs, hn⟩ := h
  exact ⟨s, hs, (covers_kept text).target hp s j hn⟩

end LiveChain
