import LiveChain.Locate.Candidates
import LiveChain.Proofs.Chain.Values
import LiveChain.Proofs.Syntax.Concrete

/-!
# The values of the tree of a chain

What the walk over a syntax tree has to show of the pieces that the tree was read from: their values
at their places, and their numerals; and the calls on the way to a value have names.
-/

set_option autoImplicit false

namespace LiveChain.Chain

open Syntax Scan

/-- The spans and kinds of the values among tokens that start at a place. -/
def sites (q : Place) : List Token → List (Span × ValueKind)
  | [] => []
  | t :: tokens =>
    (t.kind.map fun kind => (Span.between q (q.after t.text), kind)).toList ++
      sites (q.after t.text) tokens

theorem sites_append (q : Place) (tokens tokens' : List Token) :
    sites q (tokens ++ tokens') = sites q tokens ++ sites (q.after (written tokens)) tokens' := by
  induction tokens generalizing q with
  | nil => rfl
  | cons t tokens ih =>
    rw [List.cons_append, sites, sites, ih, List.append_assoc, written_cons, Place.after_append]

def candidateSite (c : Candidate) : Span × ValueKind := (c.span, c.kind)

def IsNamed (callee : Option (String × Int)) : Prop := ∀ called ∈ callee, called.1 ≠ ""

/-- Every call on a path has a name that is not empty, if it has one. -/
def Named (path : List Crumb) : Prop := ∀ callee index, .argument callee index ∈ path → IsNamed callee

theorem Named.argument {callee : Option (String × Int)} {path : List Crumb} (h : IsNamed callee)
    (hpath : Named path) (index : Nat) : Named (.argument callee index :: path) := by
  intro callee' index' hmem
  rcases List.mem_cons.mp hmem with heq | hmem
  · obtain ⟨rfl, -⟩ := Crumb.argument.inj heq
    exact h
  · exact hpath callee' index' hmem

theorem Named.elsewhere {path : List Crumb} (h : Named path) : Named (.elsewhere :: path) := by
  intro callee index hmem
  exact h callee index ((List.mem_cons.mp hmem).resolve_left nofun)

theorem Named.operand {path : List Crumb} (h : Named path) (operator : String) (span : Span) :
    Named (.operand operator span :: path) := by
  intro callee index hmem
  exact h callee index ((List.mem_cons.mp hmem).resolve_left nofun)

/-- Visits that show the values and the numerals of pieces that start at a place. -/
structure Shows (q : Place) (pieces : List Piece) (visits : List Visit) : Prop where
  values : ∀ names, (visits.filterMap (candidateOf? names)).map candidateSite =
    sites q (tokens names pieces)
  excess : visits.filterMap (fun v => v.node.excess?) =
    (numerals pieces).filterMap NumberLiteral.excess?
  plain : ∀ v ∈ visits, v.node.isPatternOnly = false
  named : ∀ v ∈ visits, Named v.path

section Shows

variable {q : Place} {pieces pieces' : List Piece} {visits visits' : List Visit}

theorem Shows.append (h : Shows q pieces visits) (h' : Shows (q.after (spelled pieces)) pieces' visits') :
    Shows q (pieces ++ pieces') (visits ++ visits') where
  values names := by
    rw [List.filterMap_append, List.map_append, h.values, h'.values, tokens_append, sites_append,
      written_tokens]
  excess := by
    rw [List.filterMap_append, h.excess, h'.excess, numerals, numerals, numerals,
      List.filterMap_append, List.filterMap_append]
  plain := List.forall_mem_append.mpr ⟨h.plain, h'.plain⟩
  named := List.forall_mem_append.mpr ⟨h.named, h'.named⟩

/-- A piece that is neither a name nor a number has no node of its own. -/
theorem Shows.silent {p : Piece} (hkind : ∀ names, p.kind? names = none)
    (h : Shows (q.after p.text) pieces visits) : Shows q (p :: pieces) visits where
  values names := by
    rw [h.values, tokens_cons, sites, Piece.token, hkind]
    rfl
  excess := by
    rw [h.excess]
    cases p with
    | number => cases hkind default
    | _ => rfl
  plain := h.plain
  named := h.named

/-- A node that is neither a value nor a pattern shows nothing. -/
theorem Shows.cons {v : Visit} (hvalue : ∀ names, candidateOf? names v = none)
    (hexcess : v.node.excess? = none) (hplain : v.node.isPatternOnly = false)
    (hpath : Named v.path) (h : Shows q pieces visits) : Shows q pieces (v :: visits) where
  values names := by rw [List.filterMap_cons_none (hvalue names), h.values]
  excess := by simp only [List.filterMap_cons, hexcess, h.excess]
  plain := List.forall_mem_cons.mpr ⟨hplain, h.plain⟩
  named := List.forall_mem_cons.mpr ⟨hpath, h.named⟩

theorem Shows.nil : Shows q [] [] := ⟨fun _ => rfl, rfl, nofun, nofun⟩

end Shows

/-! ## Nodes of a chain -/

section Nodes

variable (q : Place) {path : List Crumb} (hpath : Named path)

include hpath

theorem shows_name (w : List Char) : Shows q [.name w]
    (Node.visits path (.identifier (Span.between q (q.after w)) (String.ofList w))) where
  values names := by
    rw [Node.visits]
    simp only [List.filterMap_cons, List.filterMap_nil, candidateOf?, tokens_cons, Piece.token,
      Piece.kind?, sites, Piece.text]
    cases names.kindOf? (String.ofList w) <;> rfl
  excess := rfl
  plain := by simp [Node.visits, Node.isPatternOnly]
  named := by simpa [Node.visits] using hpath

theorem shows_number {callee : Option (String × Int)} (hcallee : IsNamed callee) (index : Nat)
    (digits : List Char) (value : Number) : Shows q [.number [] digits]
    (Node.visits (.argument callee index :: path)
      (.literal (Span.between q (q.after digits)) (.number value) (String.ofList digits))) where
  values names := rfl
  excess := by
    simp only [Node.visits, List.filterMap_cons, List.filterMap_nil, Node.excess?,
      String.toList_ofList, numerals]
  plain := by simp [Node.visits, Node.isPatternOnly]
  named := by simpa [Node.visits] using hpath.argument hcallee index

theorem shows_negative (digits gap : List Char) (span : Span) (value : Number) :
    Shows q [.number ('-' :: gap) digits]
    (Node.visits path (.unary (Span.between q (q.after ('-' :: gap ++ digits))) "-"
      (.literal span (.number value) (String.ofList digits)))) where
  values names := rfl
  excess := by
    simp only [Node.visits, List.filterMap_cons, List.filterMap_nil, Node.excess?,
      String.toList_ofList, numerals]
  plain := by simp [Node.visits, Node.isPatternOnly]
  named := by simpa [Node.visits] using ⟨hpath, hpath.operand _ _⟩

theorem shows_quoted (text : List Char) (span : Span) (value raw : String) :
    Shows q [.quoted text] (Node.visits path (.literal span (.text value) raw)) where
  values names := rfl
  excess := rfl
  plain := by simp [Node.visits, Node.isPatternOnly]
  named := by simpa [Node.visits] using hpath

theorem shows_member {object : List Piece} {node : Node}
    (h : ∀ path, Named path → Shows q object (node.visits path)) (before after w : List Char)
    (span : Span) (property : String) (propertySpan : Span) :
    Shows q (object ++ [.gap before, .mark '.', .gap after, .property w])
      (Node.visits path (.member span node property propertySpan)) := by
  rw [Node.visits]
  refine .cons (fun _ => rfl) rfl rfl hpath ?_
  have htail : Shows (q.after (spelled object)) [.gap before, .mark '.', .gap after, .property w] [] :=
    .silent (fun _ => rfl) (.silent (fun _ => rfl) (.silent (fun _ => rfl)
      (.silent (fun _ => rfl) .nil)))
  have := (h (.elsewhere :: path) hpath.elsewhere).append htail
  rwa [List.append_nil] at this

theorem shows_call {callee list : List Piece} {node : Node} (arguments : List Node)
    {before : List Char} (h : ∀ path, Named path → Shows q callee (node.visits path))
    (h' : Shows (q.after (spelled callee ++ before ++ ['('])) list
      (Node.argumentVisits node.calleeName? path 0 arguments)) (span : Span) :
    Shows q (callee ++ .gap before :: .mark '(' :: list)
      (Node.visits path (.call span node arguments)) := by
  rw [Node.visits]
  refine .cons (fun _ => rfl) rfl rfl hpath ((h (.elsewhere :: path) hpath.elsewhere).append ?_)
  refine .silent (fun _ => rfl) (.silent (fun _ => rfl) ?_)
  rw [Place.after_append, Place.after_append] at h'
  exact h'

end Nodes

end LiveChain.Chain
