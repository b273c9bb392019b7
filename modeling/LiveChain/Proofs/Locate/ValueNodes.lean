import LiveChain.Proofs.Locate.Numbering
import LiveChain.Proofs.Sorting

/-!
# The numbering of value nodes

Values are located under the numbers that the offsets of value nodes have. The value nodes are read
off the tree by recursion, those on directive lines are left out and the others are sorted; a value
that cannot be placed or named leaves its number unused.
-/

set_option autoImplicit false

namespace LiveChain

open Text

/-! ## Values of a tree -/

/-- The number that an operator and its operand are together: a minus sign and a number. -/
def negated? : String → Node → Option Number
  | "-", .literal _ (.number n) _ => some n.neg
  | _, _ => none

mutual

/-- The values of a node that is reached by `path`: each number, with a minus sign that is applied to
it, and each identifier that names a slot. -/
def Node.valueNodes (names : SlotNames) (path : List Crumb) : Node → List Candidate
  | .literal s (.number n) _ => [⟨.number, .number n, s, path⟩]
  | .literal _ _ _ => []
  | .identifier s name =>
    ((names.kindOf? name).map fun kind => (⟨kind, .text name, s, path⟩ : Candidate)).toList
  | .member _ object _ _ => Node.valueNodes names (.elsewhere :: path) object
  | .call _ callee arguments =>
    Node.valueNodes names (.elsewhere :: path) callee ++
      Node.valueNodesOfArguments names callee.calleeName? path 0 arguments
  | .unary s operator argument =>
    match negated? operator argument with
    | some n => [⟨.number, .number n, s, path⟩]
    | none => Node.valueNodes names (.operand operator s :: path) argument
  | .other _ _ nodes => Node.valueNodesOfParts names path nodes

/-- The values of the arguments of a call, numbered from `index`. -/
def Node.valueNodesOfArguments (names : SlotNames) (callee : Option (String × Int))
    (path : List Crumb) : Nat → List Node → List Candidate
  | _, [] => []
  | index, a :: rest =>
    Node.valueNodes names (.argument callee index :: path) a ++
      Node.valueNodesOfArguments names callee path (index + 1) rest

def Node.valueNodesOfParts (names : SlotNames) (path : List Crumb) : List Node → List Candidate
  | [] => []
  | n :: rest =>
    Node.valueNodes names (.elsewhere :: path) n ++ Node.valueNodesOfParts names path rest

end

def Program.valueNodes (names : SlotNames) (p : Program) : List Candidate :=
  Node.valueNodesOfParts names [] p.body

section Walk

variable (names : SlotNames)

/-- No minus sign is applied to a node that is a number. -/
def Unsigned (path : List Crumb) (n : Node) : Prop :=
  ∀ signed outer, path = .operand "-" signed :: outer → ∀ s m raw, n ≠ .literal s (.number m) raw

theorem candidateOf?_number {path : List Crumb} {s : Span} {n : Number} {raw : String}
    (h : Unsigned path (.literal s (.number n) raw)) :
    candidateOf? names ⟨.literal s (.number n) raw, path⟩ =
      some ⟨.number, .number n, s, path⟩ := by
  simp only [candidateOf?]
  split
  · next signed outer => exact absurd rfl (h signed outer rfl s n raw)
  · rfl

theorem negated?_eq_some {operator : String} {argument : Node} {n : Number}
    (h : negated? operator argument = some n) : operator = "-" ∧
      ∃ s m raw, argument = .literal s (.number m) raw ∧ n = m.neg := by
  unfold negated? at h
  split at h
  · next s m raw => exact ⟨rfl, s, m, raw, rfl, (Option.some.inj h).symm⟩
  · cases h

theorem unsigned_of_negated? {operator : String} {argument : Node} {s : Span} {path : List Crumb}
    (h : negated? operator argument = none) : Unsigned (.operand operator s :: path) argument := by
  rintro signed outer hpath t m raw rfl
  cases hpath
  cases h

theorem unsigned_elsewhere (path : List Crumb) (n : Node) : Unsigned (.elsewhere :: path) n := by
  intro signed outer hpath
  cases hpath

theorem unsigned_argument (callee : Option (String × Int)) (index : Nat) (path : List Crumb)
    (n : Node) : Unsigned (.argument callee index :: path) n := by
  intro signed outer hpath
  cases hpath

mutual

theorem filterMap_visits {path : List Crumb} (n : Node) (h : Unsigned path n) :
    (n.visits path).filterMap (candidateOf? names) = n.valueNodes names path := by
  cases n with
  | literal s v raw =>
    cases v with
    | number n =>
      rw [Node.visits, List.filterMap_cons, candidateOf?_number names h]
      rfl
    | _ => rfl
  | identifier s name =>
    simp only [Node.visits, Node.valueNodes, List.filterMap_cons, candidateOf?]
    cases names.kindOf? name <;> rfl
  | member s object property propertySpan => exact filterMap_visits object (unsigned_elsewhere path object)
  | call s callee arguments =>
    rw [Node.visits, Node.valueNodes, List.filterMap_cons, List.filterMap_append,
      filterMap_visits callee (unsigned_elsewhere path callee),
      filterMap_argumentVisits callee.calleeName? path 0 arguments]
    rfl
  | unary s operator argument =>
    rw [Node.visits, Node.valueNodes, List.filterMap_cons]
    cases hsigned : negated? operator argument with
    | none => exact filterMap_visits argument (unsigned_of_negated? hsigned)
    | some n =>
      obtain ⟨rfl, t, m, raw, rfl, rfl⟩ := negated?_eq_some hsigned
      rfl
  | other s kind nodes => exact filterMap_visitsAll path nodes

theorem filterMap_argumentVisits (callee : Option (String × Int)) (path : List Crumb) (index : Nat)
    (arguments : List Node) :
    (Node.argumentVisits callee path index arguments).filterMap (candidateOf? names) =
      Node.valueNodesOfArguments names callee path index arguments := by
  cases arguments with
  | nil => rfl
  | cons a rest =>
    rw [Node.argumentVisits, Node.valueNodesOfArguments, List.filterMap_append,
      filterMap_visits a (unsigned_argument callee index path a),
      filterMap_argumentVisits callee path (index + 1) rest]

theorem filterMap_visitsAll (path : List Crumb) (nodes : List Node) :
    (Node.visitsAll path nodes).filterMap (candidateOf? names) =
      Node.valueNodesOfParts names path nodes := by
  cases nodes with
  | nil => rfl
  | cons n rest =>
    rw [Node.visitsAll, Node.valueNodesOfParts, List.filterMap_append,
      filterMap_visits n (unsigned_elsewhere path n), filterMap_visitsAll path rest]

end

end Walk

/-! ## Values outside directive lines -/

def Candidate.onDirective (keywords : List String) (text : List Char) (c : Candidate) : Bool :=
  ( entry? (lines text) c.span.startLine).any (isDirective keywords)

section Kept

variable {keywords : List String} {text : List Char}

theorem entry?_isSome {α : Type} {xs : List α} {i : Int} (h : 0 ≤ i) (hi : i < xs.length) :
    ∃ x, entry? xs i = some x := by
  rw [entry?_of_nonneg h]
  exact ⟨_, List.getElem?_eq_getElem (by omega)⟩

theorem entry?_eq_none {α : Type} {xs : List α} {i : Int} (h : (xs.length : Int) ≤ i) :
    entry? xs i = none := by
  rw [entry?_of_nonneg (by omega)]
  exact List.getElem?_eq_none_iff.mpr (by omega)

theorem placement_of_nonneg {c : Candidate} (h : 0 ≤ c.span.startLine) :
    placement keywords (lines text) c =
      if c.onDirective keywords text then .onDirective else .kept := by
  rw [placement, Candidate.onDirective]
  split
  · next hinside =>
    obtain ⟨line, hline⟩ := entry?_isSome h hinside
    rw [hline]
    rfl
  · next houtside =>
    rw [entry?_eq_none (by omega)]
    rfl

/-- Where lines are not negative, the values on directive lines are left out and no others. -/
theorem keptCandidates_of_nonneg {found : List Candidate}
    (h : ∀ c ∈ found, 0 ≤ c.span.startLine) :
    keptCandidates keywords (lines text) found =
      ⟨found.filter fun c => !c.onDirective keywords text, []⟩ := by
  induction found with
  | nil => rfl
  | cons c found ih =>
    have hrest := ih fun c' hc' => h c' (List.mem_cons_of_mem _ hc')
    rw [keptCandidates, placement_of_nonneg (h c List.mem_cons_self), List.filter_cons]
    cases hline : c.onDirective keywords text with
    | true => simpa using hrest
    | false => simp [hrest]

theorem candidates_sortedFrom {names : SlotNames} {p : Program}
    (h : ∀ c ∈ p.valueNodes names, 0 ≤ c.span.startLine) :
    SortedFrom (fun c => c.span.startOffset)
      ((p.valueNodes names).filter fun c => !c.onDirective keywords text)
      (candidates names keywords text p).result := by
  have hvalues : p.visits.filterMap (candidateOf? names) = p.valueNodes names :=
    filterMap_visitsAll names [] p.body
  simp only [candidates, hvalues, keptCandidates_of_nonneg h]
  exact sortBy_sortedFrom _

end Kept

/-! ## Located values -/

/-- A located value shows a value node: its kind and value, and where it stands. -/
structure Candidate.ShownBy (c : Candidate) (v : EditableValue) : Prop where
  kind : v.kind = c.kind
  value : v.value = c.value
  line : v.line = c.span.startLine
  column : v.column = c.span.startColumn
  length : v.length = c.span.endOffset - c.span.startOffset

/-- A value node without a place or a name: it starts behind the last line of the text, or the name
of the call that it belongs to is empty. -/
def Candidate.Unplaced (text : List Char) (c : Candidate) : Prop :=
  (lines text).length ≤ c.span.startLine ∨
    ∃ line, entry? (lines text) c.span.startLine = some line ∧ (owner line c).callName = ""

section Built

variable {names : SlotNames} {registry : Option Registry} {c : Candidate} {ordinal : Nat}

theorem describe_isOk {context : CallContext} {info : ParameterInfo} :
    (∃ v, describe names c ordinal context info = .ok v) ↔ context.callName ≠ "" := by
  by_cases hname : context.callName = ""
  · simp [describe, valueKey, hname, bind, Except.bind]
  · simp [describe, valueKey, callSiteId, hname, bind, Except.bind, pure, Except.pure]

theorem buildValue_shown {textLines : List (List Char)} {v : EditableValue}
    (h : (buildValue names registry textLines c ordinal).result = .ok v) : c.ShownBy v := by
  obtain ⟨line, info, -, hbuilt⟩ := buildValue_eq_ok h
  obtain ⟨key, site, -, -, rfl⟩ := describe_eq_ok hbuilt
  exact ⟨rfl, rfl, rfl, rfl, rfl⟩

/-- A value node becomes an editable value unless it has no place or no name, whatever the registry
says or fails to say. -/
theorem buildValue_isOk {text : List Char} (hstart : 0 ≤ c.span.startLine) :
    (∃ v, (buildValue names registry (lines text) c ordinal).result = .ok v) ↔
      ¬ c.Unplaced text := by
  unfold buildValue Candidate.Unplaced
  by_cases hend : (lines text).length ≤ c.span.startLine
  · simp [hend]
  · obtain ⟨line, hline⟩ := entry?_isSome hstart (Int.not_le.mp hend)
    rw [if_neg hend, hline]
    simp only [mapError_eq_ok, describe_isOk, hend, Option.some.injEq, exists_eq_left', false_or,
      ne_eq]

end Built

section Numbered

variable {names : SlotNames} {registry : Option Registry} {textLines : List (List Char)}

theorem mem_locateFrom_iff {found : List Candidate} {first : Nat} {v : EditableValue} :
    v ∈ (locateFrom names registry textLines first found).result ↔ ∃ k c, found[k]? = some c ∧
      (buildValue names registry textLines c (first + k)).result = .ok v := by
  induction found generalizing first with
  | nil => simp [locateFrom]
  | cons c found ih =>
    -- the first value node, or one of the others under its own number
    have hsplit : (∃ k c', (c :: found)[k]? = some c' ∧
        (buildValue names registry textLines c' (first + k)).result = .ok v) ↔
          (buildValue names registry textLines c first).result = .ok v ∨
            v ∈ (locateFrom names registry textLines (first + 1) found).result := by
      rw [ih]
      constructor
      · rintro ⟨_ | k, c', hc', hbuilt⟩
        · cases hc'
          exact .inl hbuilt
        · exact .inr ⟨k, c', hc', by rwa [Nat.add_assoc, Nat.add_comm 1]⟩
      · rintro (hbuilt | ⟨k, c', hc', hbuilt⟩)
        · exact ⟨0, c, rfl, hbuilt⟩
        · exact ⟨k + 1, c', hc', by rwa [Nat.add_assoc, Nat.add_comm 1] at hbuilt⟩
    rw [hsplit, locateFrom]
    cases hbuilt : (buildValue names registry textLines c first).result with
    | ok built => simp [eq_comm]
    | error obstacle => simp

theorem locateFrom_ascending (found : List Candidate) (first : Nat) :
    ((locateFrom names registry textLines first found).result.map (·.ordinal)).Pairwise
      (· < ·) := by
  induction found generalizing first with
  | nil => exact List.Pairwise.nil
  | cons c found ih =>
    rw [locateFrom]
    split
    · next built hbuilt =>
      refine List.pairwise_cons.mpr ⟨fun ordinal hordinal => ?_, ih (first + 1)⟩
      obtain ⟨v, hv, rfl⟩ := List.mem_map.mp hordinal
      have hfirst := buildValue_ordinal hbuilt
      have hlater := (mem_locateFrom hv).1
      change built.ordinal < v.ordinal
      omega
    · exact ih (first + 1)

end Numbered

/-- The values of a program in their order, and how offsets and located values are numbered by it:
the order has the values of the tree outside directive lines, by ascending start and in walking
order where starts are equal; each of them has its offsets; located values have strictly ascending
ordinals and show the value of their ordinal; and an ordinal is unused exactly when its value starts
behind the text or belongs to a call with an empty name. -/
structure Numbering (names : SlotNames) (registry : Option Registry) (keywords : List String)
    (p : Program) (text : List Char) (order : List Candidate) : Prop where
  sorted : SortedFrom (fun c => c.span.startOffset)
    ((p.valueNodes names).filter fun c => !c.onDirective keywords text) order
  offsets : (valueOffsets names keywords (some p) text).result =
    order.map fun c => (c.span.startOffset, c.span.endOffset)
  ascending : ((locate names registry keywords (some p) text).result.map (·.ordinal)).Pairwise
    (· < ·)
  shown : ∀ v ∈ (locate names registry keywords (some p) text).result,
    ∃ c, order[v.ordinal]? = some c ∧ c.ShownBy v
  unused : ∀ k c, order[k]? = some c →
    ((∀ v ∈ (locate names registry keywords (some p) text).result, v.ordinal ≠ k) ↔
      c.Unplaced text)

/-- The offsets of value nodes and the located values are numbered by one order of the values of the
tree, whatever the tree is like and whatever the registry says or fails to say. -/
theorem locate_numbers_value_nodes (names : SlotNames) (registry : Option Registry)
    (keywords : List String) {text : List Char} (htext : text ≠ []) {p : Program}
    (hstart : ∀ c ∈ p.valueNodes names, 0 ≤ c.span.startLine) :
    ∃ order, Numbering names registry keywords p text order := by
  have hsorted : SortedFrom (fun c => c.span.startOffset)
      ((p.valueNodes names).filter fun c => !c.onDirective keywords text)
      (candidates names keywords text p).result := candidates_sortedFrom hstart
  have hlocated : (locate names registry keywords (some p) text).result =
      (locateFrom names registry (lines text) 0 (candidates names keywords text p).result).result := by
    simp [locate, htext]
  have hoffsets : (valueOffsets names keywords (some p) text).result =
      (candidates names keywords text p).result.map
        fun c => (c.span.startOffset, c.span.endOffset) := by
    simp [valueOffsets, htext]
  generalize (candidates names keywords text p).result = order at hsorted hlocated hoffsets
  refine ⟨order, hsorted, hoffsets, ?_, fun v hv => ?_, fun k c hc => ?_⟩
  · rw [hlocated]
    exact locateFrom_ascending order 0
  · rw [hlocated] at hv
    obtain ⟨k, c, hc, hbuilt⟩ := mem_locateFrom_iff.mp hv
    rw [buildValue_ordinal hbuilt, Nat.zero_add]
    exact ⟨c, hc, buildValue_shown hbuilt⟩
  · have hmem := (hsorted.perm.mem_iff.mp (List.mem_of_getElem? hc))
    have hbuild : (∃ v, (buildValue names registry (lines text) c k).result = .ok v) ↔
        ¬ c.Unplaced text := buildValue_isOk (hstart c (List.mem_filter.mp hmem).1)
    rw [hlocated]
    constructor
    · intro hunused
      by_contra hplaced
      obtain ⟨v, hbuilt⟩ := hbuild.mpr hplaced
      exact hunused v (mem_locateFrom_iff.mpr ⟨k, c, hc, by rwa [Nat.zero_add]⟩)
        (buildValue_ordinal hbuilt)
    · intro hunplaced v hv hk
      obtain ⟨k', c', hc', hbuilt⟩ := mem_locateFrom_iff.mp hv
      obtain rfl : 0 + k' = k := (buildValue_ordinal hbuilt).symm.trans hk
      rw [Nat.zero_add, hc', Option.some.injEq] at hc
      exact hbuild.mp ⟨v, hc ▸ hbuilt⟩ hunplaced

/-- A tree that does not fit its text, with a failing registry: a number on a directive line, one
behind the text, one of a call without a name, and a signed number and a reference with the same
start. The two last ones are located, under the ordinals that the others leave them. -/
theorem locate_numbers_value_nodes_unfit :
    let place := fun (line start stop : Int) => (⟨line, 0, line, 0, start, stop⟩ : Span)
    let number := fun (line start stop n : Int) =>
      Node.literal (place line start stop) (.number (.int n)) ""
    let p : Program := ⟨place 0 0 0, [number 0 3 4 1, number 9 8 9 2,
      .call (place 1 0 0) (.identifier (place 1 0 0) "") [number 1 2 4 3],
      .call (place 1 0 0) (.identifier (place 1 0 0) "osc")
        [.unary (place 1 5 7) "-" (number 1 6 7 4), .identifier (place 1 5 6) "s0"]]⟩
    let text := "loadScript\nosc".toList
    text ≠ [] ∧ (∀ c ∈ p.valueNodes .standard, 0 ≤ c.span.startLine) ∧
      (∃ order, Numbering .standard (some .failing) standardKeywords p text order) ∧
      (valueOffsets .standard standardKeywords (some p) text).result =
        [(2, 4), (5, 7), (5, 6), (8, 9)] ∧
      (locate .standard (some .failing) standardKeywords (some p) text).result.map (·.ordinal) =
        [1, 2] := by
  intro place number p text
  have htext : text ≠ [] := by decide
  have hstart : ∀ c ∈ p.valueNodes .standard, 0 ≤ c.span.startLine := by decide +kernel
  exact ⟨htext, hstart, locate_numbers_value_nodes _ _ _ htext hstart, by decide +kernel,
    by decide +kernel⟩

end LiveChain
