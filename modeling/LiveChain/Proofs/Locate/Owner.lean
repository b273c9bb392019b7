import LiveChain.Proofs.Except
import LiveChain.Proofs.Locate.ValueNodes
import LiveChain.Proofs.Syntax.Address
import Mathlib.Data.List.Infix

/-!
# Owners of values

A value belongs to the call that it is an argument of, alone or behind one unary operator, when that
call has a plain name. Values anywhere else get the owner that the text before them suggests.

The rule looks at most two nodes up. A search through everything above a node, from the inside out,
finds the same owner.
-/

set_option autoImplicit false

namespace LiveChain

open Text

variable {names : SlotNames} {p : Program} {a call : Address} {n : Node}

/-! ## Values at addresses -/

def Node.value? (names : SlotNames) : Node → Option (ValueKind × Datum)
  | .literal _ (.number n) _ => some (.number, .number n)
  | .identifier _ name => (names.kindOf? name).map fun kind => (kind, .text name)
  | .unary _ operator argument =>
    (negated? operator argument).map fun n => (.number, .number n)
  | _ => none

def Node.isNegated : Node → Bool
  | .unary _ operator argument => (negated? operator argument).isSome
  | _ => false

/-- The value at an address. A number behind a minus sign is no value of its own: it is one together
with the sign. -/
def Program.value? (names : SlotNames) (p : Program) (a : Address) : Option Candidate :=
  if (p.node? a.tail).any Node.isNegated then none
  else (p.node? a).bind fun n =>
    (n.value? names).map fun value => ⟨value.1, value.2, n.span, p.path a⟩

/-- The node at an address is not the number behind a minus sign. -/
def Program.Unnegated (p : Program) (a : Address) : Prop :=
  (p.node? a.tail).any Node.isNegated = false

theorem value?_of_node? (hn : p.node? a = some n) (ha : p.Unnegated a) :
    p.value? names a = (n.value? names).map fun value =>
      ⟨value.1, value.2, n.span, p.path a⟩ := by
  have ha : (p.node? a.tail).any Node.isNegated = false := ha
  rw [Program.value?, ha, hn]
  rfl

theorem unnegated_part (hn : p.node? a = some n) (h : n.isNegated = false) (i : Nat) :
    p.Unnegated (i :: a) := by
  rw [Program.Unnegated, List.tail_cons, hn]
  exact h

/-- Numbered nodes are parts of the node at `a` with the given way up, and none of them is the number
behind a minus sign. -/
def Program.PartsAt (p : Program) (a : Address) (i : Nat) (crumb : Nat → Crumb)
    (nodes : List Node) : Prop :=
  ∀ k m, nodes[k]? = some m → p.node? ((i + k) :: a) = some m ∧ p.Unnegated ((i + k) :: a) ∧
    p.path ((i + k) :: a) = crumb k :: p.path a

theorem Program.PartsAt.head {i : Nat} {crumb : Nat → Crumb} {rest : List Node}
    (h : p.PartsAt a i crumb (n :: rest)) : p.node? (i :: a) = some n ∧ p.Unnegated (i :: a) ∧
      p.path (i :: a) = crumb 0 :: p.path a :=
  h 0 n rfl

theorem Program.PartsAt.tail {i : Nat} {crumb : Nat → Crumb} {rest : List Node}
    (h : p.PartsAt a i crumb (n :: rest)) :
    p.PartsAt a (i + 1) (fun k => crumb (k + 1)) rest := by
  intro k m hm
  rw [Nat.add_assoc, Nat.add_comm 1]
  exact h (k + 1) m hm

theorem partsAt_of_node? {skipped : List Node} {nodes : List Node} {crumb : Nat → Crumb}
    (hn : p.node? a = some n) (hunnegated : n.isNegated = false)
    (hparts : n.children = skipped ++ nodes)
    (hcrumb : ∀ k, n.crumb (skipped.length + k) = crumb k) :
    p.PartsAt a skipped.length crumb nodes := by
  intro k m hm
  refine ⟨?_, unnegated_part hn hunnegated _, ?_⟩
  · rw [node?_part hn, hparts, List.getElem?_append_right (Nat.le_add_right _ _),
      Nat.add_sub_cancel_left]
    exact hm
  · rw [path_part hn, hcrumb]

mutual

/-- The addresses below a node lead to its values, in walking order. -/
theorem filterMap_addresses (n : Node) {a : Address} (hn : p.node? a = some n)
    (ha : p.Unnegated a) :
    (n.addresses a).filterMap (p.value? names) = n.valueNodes names (p.path a) := by
  have hvalue : p.value? names a = (n.value? names).map fun value =>
      ⟨value.1, value.2, n.span, p.path a⟩ := value?_of_node? hn ha
  cases n with
  | literal s v raw =>
    rw [Node.addresses, List.filterMap_cons, hvalue]
    cases v <;> rfl
  | identifier s name =>
    rw [Node.addresses, List.filterMap_cons, hvalue, Node.valueNodes, Node.value?]
    cases names.kindOf? name <;> rfl
  | member s object property propertySpan =>
    have hpath := path_part hn 0
    rw [Node.addresses, List.filterMap_cons, hvalue, Node.valueNodes]
    change List.filterMap _ _ = _
    rw [filterMap_addresses object (node?_part hn 0) (unnegated_part hn rfl 0), hpath]
    rfl
  | call s callee arguments =>
    have hcallee := path_part hn 0
    have hparts : p.PartsAt a 1 (fun k => .argument callee.calleeName? (0 + k)) arguments :=
      @partsAt_of_node? _ _ _ [callee] _ _ hn rfl rfl fun k => by
        rw [Node.crumb, if_neg (by simp), List.length_singleton, Nat.add_sub_cancel_left,
          Nat.zero_add]
    rw [Node.addresses, List.filterMap_cons, hvalue, Node.valueNodes]
    change List.filterMap _ _ = _
    rw [List.filterMap_append,
      filterMap_addresses callee (node?_part hn 0) (unnegated_part hn rfl 0), hcallee,
      filterMap_argument_addresses arguments hparts]
    rfl
  | unary s operator argument =>
    rw [Node.addresses, List.filterMap_cons, hvalue, Node.valueNodes, Node.value?]
    cases hnegated : negated? operator argument with
    | none =>
      have hplain : (Node.unary s operator argument).isNegated = false := by
        rw [Node.isNegated, hnegated]
        rfl
      have hpath := path_part hn 0
      change List.filterMap _ _ = _
      rw [filterMap_addresses argument (node?_part hn 0) (unnegated_part hn hplain 0), hpath]
      rfl
    | some m =>
      -- the number behind the sign is no value of its own
      obtain ⟨rfl, t, m', raw, rfl, rfl⟩ := negated?_eq_some hnegated
      have hnone : p.value? names (0 :: a) = none := by
        rw [Program.value?, List.tail_cons, hn]
        rfl
      rw [Node.addresses, List.filterMap_cons, hnone]
      rfl
  | other s kind nodes =>
    rw [Node.addresses, List.filterMap_cons, hvalue, Node.valueNodes]
    exact filterMap_part_addresses nodes
      (@partsAt_of_node? _ _ _ [] _ _ hn rfl rfl fun _ => rfl)

theorem filterMap_argument_addresses (arguments : List Node) {a : Address}
    {callee : Option (String × Int)} {index : Nat}
    (h : p.PartsAt a (index + 1) (fun k => .argument callee (index + k)) arguments) :
    (Node.addressesFrom a (index + 1) arguments).filterMap (p.value? names) =
      Node.valueNodesOfArguments names callee (p.path a) index arguments := by
  cases arguments with
  | nil => rfl
  | cons m rest =>
    obtain ⟨hm, hunnegated, hpath⟩ := h.head
    have hrest : p.PartsAt a (index + 1 + 1) (fun k => .argument callee (index + 1 + k)) rest := by
      have htail := h.tail
      simp only [← Nat.add_assoc, Nat.add_right_comm index _ 1] at htail ⊢
      exact htail
    rw [Node.addressesFrom, Node.valueNodesOfArguments, List.filterMap_append,
      filterMap_addresses m hm hunnegated, hpath, filterMap_argument_addresses rest hrest]
    rfl

theorem filterMap_part_addresses (nodes : List Node) {a : Address} {i : Nat}
    (h : p.PartsAt a i (fun _ => .elsewhere) nodes) :
    (Node.addressesFrom a i nodes).filterMap (p.value? names) =
      Node.valueNodesOfParts names (p.path a) nodes := by
  cases nodes with
  | nil => rfl
  | cons m rest =>
    obtain ⟨hm, hunnegated, hpath⟩ := h.head
    rw [Node.addressesFrom, Node.valueNodesOfParts, List.filterMap_append,
      filterMap_addresses m hm hunnegated, hpath, filterMap_part_addresses rest h.tail]

end

/-- The addresses of a program lead to its values, in walking order. -/
theorem Program.filterMap_addresses (names : SlotNames) (p : Program) :
    p.addresses.filterMap (p.value? names) = p.valueNodes names := by
  refine filterMap_part_addresses p.body fun k m hm => ?_
  rw [Nat.zero_add]
  exact ⟨hm, rfl, rfl⟩

/-! ## Arguments and owners -/

/-- The node at an address is the `i`-th argument of the call at `call`, or the operand of the one
unary operator that is. -/
inductive Program.Argument (p : Program) (call : Address) (callee : Node) : Nat → Address → Prop
  | plain {s : Span} {arguments : List Node} {i : Nat}
      (h : p.node? call = some (.call s callee arguments)) (hi : i < arguments.length) :
    Argument p call callee i ((i + 1) :: call)
  | operand {s t : Span} {arguments : List Node} {i : Nat} {operator : String} {argument : Node}
      (h : p.node? call = some (.call s callee arguments))
      (hi : arguments[i]? = some (.unary t operator argument)) :
    Argument p call callee i (0 :: (i + 1) :: call)

/-- The owner of the node at an address, which starts at a column of a line: the call that has it as
an argument, by its name, the column of the name and the number of the argument, if that call has a
plain name; else what the line suggests. -/
inductive Program.Owner (p : Program) (line : List Char) (column : Int) (a : Address) :
    CallContext → Prop
  | argument {call : Address} {callee : Node} {i : Nat} {name : String} {anchor : Int}
      (h : p.Argument call callee i a) (hname : callee.calleeName? = some (name, anchor)) :
    Owner p line column a ⟨name, anchor, i, .structural⟩
  | elsewhere
      (h : ∀ call callee i, p.Argument call callee i a → callee.calleeName? = none) :
    Owner p line column a (textualOwner line column)

/-- The owner that a call gives to its `i`-th argument. -/
def Node.ownerBy? (callee : Node) (i : Nat) : Option CallContext :=
  callee.calleeName?.map fun name => ⟨name.1, name.2, i, .structural⟩

theorem ownerOf?_of_argument {callee : Node} {i : Nat} (h : p.Argument call callee i a) :
    ownerOf? (p.path a) = callee.ownerBy? i := by
  cases h with
  | plain h hi =>
    rw [path_part h]
    rfl
  | operand h hi =>
    rw [path_part ((node?_part h _).trans hi), path_part h]
    rfl

/-- What is no argument has no owner by its place in the tree. -/
theorem ownerOf?_of_no_argument (hn : p.node? a = some n)
    (h : ∀ call callee i, ¬ p.Argument call callee i a) : ownerOf? (p.path a) = none := by
  cases a with
  | nil => rfl
  | cons i up =>
    cases hup : p.node? up with
    | none =>
      rw [Program.path, hup]
      rfl
    | some m =>
      have hpart := node?_part hup i ▸ hn
      rw [path_part hup]
      cases m with
      | literal => rfl
      | identifier => rfl
      | member => rfl
      | other => rfl
      | call s callee arguments =>
        cases i with
        | zero => rfl
        | succ i =>
          obtain ⟨hi, -⟩ := List.getElem?_eq_some_iff.mp hpart
          exact absurd (.plain hup (Nat.lt_of_succ_lt_succ hi)) (h up callee i)
      | unary s operator argument =>
        obtain rfl : i = 0 := by
          obtain ⟨hi, -⟩ := List.getElem?_eq_some_iff.mp hpart
          exact Nat.lt_one_iff.mp hi
        cases up with
        | nil => cases hup
        | cons j up =>
          cases hcall : p.node? up with
          | none =>
            rw [Program.path, hcall]
            rfl
          | some m =>
            have hunary := node?_part hcall j ▸ hup
            rw [path_part hcall]
            cases m with
            | literal => rfl
            | identifier => rfl
            | member => rfl
            | other => rfl
            | unary => rfl
            | call s callee arguments =>
              cases j with
              | zero => rfl
              | succ j => exact absurd (.operand hcall hunary) (h up callee j)

theorem Program.Argument.unique {call' : Address} {callee callee' : Node} {i i' : Nat}
    (h : p.Argument call callee i a) (h' : p.Argument call' callee' i' a) :
    call' = call ∧ callee' = callee ∧ i' = i := by
  cases h with
  | plain h hi =>
    cases h' with
    | plain h' hi' =>
      cases h.symm.trans h'
      exact ⟨rfl, rfl, rfl⟩
  | operand h hi =>
    cases h' with
    | operand h' hi' =>
      cases h.symm.trans h'
      exact ⟨rfl, rfl, rfl⟩

/-! ## The search through everything above -/

def Node.isUnary : Node → Bool
  | .unary _ _ _ => true
  | _ => false

/-- Whether the `i`-th argument of the call at `call` is the node at `a`, or an operator with this
node as its operand. -/
def isArgumentAt (call a : Address) (arguments : List Node) (i : Nat) : Bool :=
  (i + 1) :: call == a || (arguments[i]?.any Node.isUnary && 0 :: (i + 1) :: call == a)

/-- What the node at `call` says of the node at `a`: nothing if it is no call with that node among
its arguments, else the owner that it gives to the first such argument, if it has a plain name. -/
def Node.claim? (call a : Address) : Node → Option (Option CallContext)
  | .call _ callee arguments =>
    ((List.range arguments.length).find? (isArgumentAt call a arguments)).map callee.ownerBy?
  | _ => none

/-- The owner that the innermost of all nodes above an address gives to it. -/
def Program.searchOwner? (p : Program) (a : Address) : Option CallContext :=
  (a.tails.tail.findSome? fun call => (p.node? call).bind (Node.claim? call a)).join

theorem isArgumentAt_iff {s : Span} {callee : Node} {arguments : List Node} {i : Nat}
    (hcall : p.node? call = some (.call s callee arguments)) (hi : i < arguments.length) :
    isArgumentAt call a arguments i = true ↔ p.Argument call callee i a := by
  rw [isArgumentAt, Bool.or_eq_true, Bool.and_eq_true, beq_iff_eq, beq_iff_eq]
  constructor
  · rintro (rfl | ⟨hunary, rfl⟩)
    · exact .plain hcall hi
    · obtain ⟨m, hm, hunary⟩ := (Option.any_eq_true _ _).mp hunary
      cases m with
      | unary t operator argument => exact .operand hcall hm
      | _ => cases hunary
  · intro h
    cases h with
    | plain h hi' => exact .inl rfl
    | operand h hi' =>
      cases hcall.symm.trans h
      rw [hi']
      exact .inr ⟨rfl, rfl⟩

/-- A node claims another one exactly when it is a call that has it as an argument. -/
theorem claim?_eq_some_iff (hcall : p.node? call = some n) {owner : Option CallContext} :
    n.claim? call a = some owner ↔
      ∃ callee i, p.Argument call callee i a ∧ owner = callee.ownerBy? i := by
  constructor
  · intro h
    cases n with
    | call s callee arguments =>
      obtain ⟨i, hi, rfl⟩ := Option.map_eq_some_iff.mp h
      obtain ⟨hargument, hrange, -⟩ := List.find?_range_eq_some.mp hi
      exact ⟨callee, i, (isArgumentAt_iff hcall (List.mem_range.mp hrange)).mp hargument, rfl⟩
    | _ => cases h
  · rintro ⟨callee, i, h, rfl⟩
    obtain ⟨s, arguments, hnode, hi⟩ : ∃ s arguments,
        p.node? call = some (.call s callee arguments) ∧ i < arguments.length := by
      cases h with
      | plain h hi => exact ⟨_, _, h, hi⟩
      | operand h hi => exact ⟨_, _, h, (List.getElem?_eq_some_iff.mp hi).1⟩
    cases hcall.symm.trans hnode
    refine Option.map_eq_some_iff.mpr ⟨i, List.find?_range_eq_some.mpr ⟨?_, List.mem_range.mpr hi,
      fun j hj => ?_⟩, rfl⟩
    · exact (isArgumentAt_iff hcall hi).mpr h
    · -- an earlier argument would be the same one
      rw [Bool.not_eq_true', Bool.eq_false_iff]
      intro hother
      have := (((isArgumentAt_iff hcall (by omega)).mp hother).unique h).2.2
      omega

/-- The search finds the owner that a look at the parent, or at the unary operator and its parent,
finds: no call further out and no other call is ever taken. -/
theorem searchOwner?_eq (hn : p.node? a = some n) : p.searchOwner? a = ownerOf? (p.path a) := by
  by_cases hargument : ∃ call callee i, p.Argument call callee i a
  · obtain ⟨call, callee, i, h⟩ := hargument
    obtain ⟨m, hm, habove⟩ : ∃ m, p.node? call = some m ∧ call ∈ a.tails.tail := by
      cases h with
      | plain h hi => exact ⟨_, h, by simp [List.mem_tails]⟩
      | operand h hi => exact ⟨_, h, by simp [List.mem_tails]⟩
    have hclaim : (p.node? call).bind (Node.claim? call a) = some (callee.ownerBy? i) := by
      rw [hm]
      exact (claim?_eq_some_iff hm).mpr ⟨callee, i, h, rfl⟩
    cases hfound : a.tails.tail.findSome? fun call =>
        (p.node? call).bind (Node.claim? call a) with
    | none =>
      rw [List.findSome?_eq_none_iff.mp hfound call habove] at hclaim
      cases hclaim
    | some owner =>
      -- whatever claims the node is the same call
      obtain ⟨call', -, hclaim'⟩ := List.exists_of_findSome?_eq_some hfound
      obtain ⟨m', hm', hclaim'⟩ := Option.bind_eq_some_iff.mp hclaim'
      obtain ⟨callee', i', h', rfl⟩ := (claim?_eq_some_iff hm').mp hclaim'
      obtain ⟨rfl, rfl, rfl⟩ := h.unique h'
      rw [Program.searchOwner?, hfound, ownerOf?_of_argument h]
      rfl
  · have hnone : (a.tails.tail.findSome? fun call =>
        (p.node? call).bind (Node.claim? call a)) = none := by
      refine List.findSome?_eq_none_iff.mpr fun call _ => Option.eq_none_iff_forall_ne_some.mpr ?_
      intro owner hclaim
      obtain ⟨m, hm, hclaim⟩ := Option.bind_eq_some_iff.mp hclaim
      obtain ⟨callee, i, h, -⟩ := (claim?_eq_some_iff hm).mp hclaim
      exact hargument ⟨call, callee, i, h⟩
    rw [Program.searchOwner?, hnone, ownerOf?_of_no_argument hn fun call callee i h =>
      hargument ⟨call, callee, i, h⟩]
    rfl

/-! ## Owners of values -/

theorem value?_eq_some {c : Candidate} (h : p.value? names a = some c) :
    ∃ n, p.node? a = some n ∧ n.value? names = some (c.kind, c.value) ∧ c.span = n.span ∧
      c.path = p.path a := by
  unfold Program.value? at h
  split at h
  · cases h
  · obtain ⟨n, hn, h⟩ := Option.bind_eq_some_iff.mp h
    obtain ⟨value, hvalue, rfl⟩ := Option.map_eq_some_iff.mp h
    exact ⟨n, hn, hvalue, rfl, rfl⟩

/-- The owner of a value is the one by the rule, and no other is. -/
theorem owner_iff {c : Candidate} (h : p.value? names a = some c) (line : List Char)
    (context : CallContext) :
    p.Owner line c.span.startColumn a context ↔ context = owner line c := by
  obtain ⟨n, hn, -, -, hpath⟩ := value?_eq_some h
  rw [owner, hpath]
  constructor
  · intro howner
    cases howner with
    | @argument call callee i name anchor h hname =>
      rw [ownerOf?_of_argument h, Node.ownerBy?, hname]
      rfl
    | elsewhere h =>
      by_cases hargument : ∃ call callee i, p.Argument call callee i a
      · obtain ⟨call, callee, i, hargument⟩ := hargument
        rw [ownerOf?_of_argument hargument, Node.ownerBy?, h call callee i hargument]
        rfl
      · rw [ownerOf?_of_no_argument hn fun call callee i h => hargument ⟨call, callee, i, h⟩]
        rfl
  · rintro rfl
    by_cases hargument : ∃ call callee i, p.Argument call callee i a
    · obtain ⟨call, callee, i, hargument⟩ := hargument
      rw [ownerOf?_of_argument hargument, Node.ownerBy?]
      cases hname : callee.calleeName? with
      | some name => exact .argument hargument hname
      | none =>
        refine .elsewhere fun call' callee' i' h' => ?_
        obtain ⟨rfl, rfl, rfl⟩ := hargument.unique h'
        exact hname
    · rw [ownerOf?_of_no_argument hn fun call callee i h => hargument ⟨call, callee, i, h⟩]
      exact .elsewhere fun call callee i h => absurd ⟨call, callee, i, h⟩ hargument

/-! ## Located values -/

theorem keptCandidates_sublist (keywords : List String) (textLines : List (List Char))
    (found : List Candidate) : (keptCandidates keywords textLines found).result.Sublist found := by
  induction found with
  | nil => exact List.Sublist.refl []
  | cons c found ih =>
    rw [keptCandidates]
    split
    · exact ih.cons_cons c
    · exact ih.cons c
    · exact List.nil_sublist _

/-- The values that are kept stand at different addresses. -/
theorem exists_order (names : SlotNames) (keywords : List String) (text : List Char)
    (p : Program) : ∃ order : List Address, order.Nodup ∧
      order.map (p.value? names) = (candidates names keywords text p).result.map some := by
  let sites : List (Address × Candidate) :=
    p.addresses.filterMap fun a => (p.value? names a).map fun c => (a, c)
  have hvalues : p.visits.filterMap (candidateOf? names) = sites.map (·.2) := by
    have hnodes : p.visits.filterMap (candidateOf? names) = p.valueNodes names :=
      filterMap_visitsAll names [] p.body
    rw [hnodes, ← p.filterMap_addresses names, List.map_filterMap]
    simp [Function.comp_def]
  have hsites : (sites.map (·.1)).Nodup := by
    rw [List.map_filterMap]
    refine p.addresses_nodup.filterMap fun a a' b hb hb' => ?_
    simp only [Option.map_map, Option.mem_def, Option.map_eq_some_iff] at hb hb'
    obtain ⟨c, -, rfl⟩ := hb
    obtain ⟨c', -, heq⟩ := hb'
    exact heq.symm
  have hholds : ∀ site ∈ sites, p.value? names site.1 = some site.2 := by
    intro site hsite
    obtain ⟨a, -, hsite⟩ := List.mem_filterMap.mp hsite
    obtain ⟨c, hc, rfl⟩ := Option.map_eq_some_iff.mp hsite
    exact hc
  -- what is kept of the values, with the addresses, and sorted with them
  have hkept := keptCandidates_sublist keywords (lines text)
    (p.visits.filterMap (candidateOf? names))
  rw [hvalues, List.sublist_map_iff] at hkept
  obtain ⟨kept, hsublist, hresult⟩ := hkept
  let sorted := sortBy (fun a b => decide (a.2.span.startOffset ≤ b.2.span.startOffset)) kept
  have hperm : sorted.Perm kept :=
    (@sortBy_sortedFrom _ (fun site => site.2.span.startOffset) kept).perm
  refine ⟨sorted.map (·.1), ?_, ?_⟩
  · exact (hperm.map (·.1)).nodup_iff.mpr (hsites.sublist (hsublist.map (·.1)))
  · have hsorted : (candidates names keywords text p).result = sorted.map (·.2) := by
      simp only [candidates, hvalues, hresult]
      exact sortBy_map _ _ _
    rw [hsorted, List.map_map, List.map_map]
    refine List.map_congr_left fun site hsite => ?_
    exact hholds site (hsublist.subset (hperm.mem_iff.mp hsite))

/-- An order of the values that tells where each of them stands, and whose they are: the numbered
values stand at different addresses of the tree, and the owner of a located value is that of the
value node with its number, on the line that it starts on. -/
structure Owners (names : SlotNames) (registry : Option Registry) (keywords : List String)
    (p : Program) (text : List Char) (order : List Address) : Prop where
  distinct : order.Nodup
  numbered : order.map (p.value? names) = (candidates names keywords text p).result.map some
  owned : ∀ v ∈ (locate names registry keywords (some p) text).result,
    ∃ a c line context, order[v.ordinal]? = some a ∧ p.value? names a = some c ∧ c.ShownBy v ∧
      entry? (lines text) v.line = some line ∧ p.Owner line v.column a context ∧
      v.callName = context.callName ∧ v.callAnchorColumn = context.anchorColumn ∧
      v.parameterIndex = context.parameterIndex

theorem buildValue_owner {registry : Option Registry} {textLines : List (List Char)}
    {c : Candidate} {ordinal : Nat} {v : EditableValue}
    (h : (buildValue names registry textLines c ordinal).result = .ok v) :
    ∃ line, entry? textLines c.span.startLine = some line ∧
      v.callName = (owner line c).callName ∧
      v.callAnchorColumn = (owner line c).anchorColumn ∧
      v.parameterIndex = (owner line c).parameterIndex := by
  obtain ⟨line, info, hline, hbuilt⟩ := buildValue_eq_ok h
  obtain ⟨key, site, -, -, rfl⟩ := describe_eq_ok hbuilt
  exact ⟨line, hline, rfl, rfl, rfl⟩

/-- Every value of a tree, of any shape and also where nodes are equal in content, has the owner that
its place gives: the call that it is an argument of, alone or behind one unary operator, if that call
has a plain name, and else what its line suggests. A search through everything above it finds the
same call, and what is located has that owner. -/
theorem locate_owners (names : SlotNames) (registry : Option Registry) (keywords : List String)
    (p : Program) (text : List Char) :
    (∀ a c, p.value? names a = some c → p.searchOwner? a = ownerOf? c.path ∧
      ∀ line context, p.Owner line c.span.startColumn a context ↔ context = owner line c) ∧
    ∃ order, Owners names registry keywords p text order := by
  constructor
  · intro a c hc
    obtain ⟨n, hn, -, -, hpath⟩ := value?_eq_some hc
    rw [hpath]
    exact ⟨searchOwner?_eq hn, owner_iff hc⟩
  · obtain ⟨order, hdistinct, hnumbered⟩ := exists_order names keywords text p
    refine ⟨order, hdistinct, hnumbered, fun v hv => ?_⟩
    have hlocated : v ∈ (locateFrom names registry (lines text) 0
        (candidates names keywords text p).result).result := by
      unfold locate at hv
      simp only at hv
      split at hv
      · cases hv
      · exact hv
    obtain ⟨k, c, hk, hbuilt⟩ := mem_locateFrom_iff.mp hlocated
    rw [Nat.zero_add] at hbuilt
    obtain ⟨line, hline, hname, hanchor, hindex⟩ := buildValue_owner hbuilt
    have hshown := buildValue_shown hbuilt
    have hentry : (order.map (p.value? names))[k]? = some (some c) := by
      rw [hnumbered, List.getElem?_map, hk]
      rfl
    rw [List.getElem?_map] at hentry
    obtain ⟨a, ha, hc⟩ := Option.map_eq_some_iff.mp hentry
    rw [← buildValue_ordinal hbuilt] at ha
    rw [← hshown.line] at hline
    have howner := (owner_iff hc line _).mpr rfl
    rw [← hshown.column] at howner
    exact ⟨a, c, line, _, ha, hc, hshown, hline, howner, hname, hanchor, hindex⟩

/-- A chain of calls with a number behind a sign, one in an array, and one that is written twice. -/
theorem locate_owners_chained :
    let text := "osc(10, -2).add(osc([3], 10), o0)".toList
    let owners : List (Address × Int × CallContext) :=
      [([1, 0, 0, 0, 0], 4, ⟨"osc", 0, 0, .structural⟩),
        ([2, 0, 0, 0, 0], 8, ⟨"osc", 0, 1, .structural⟩),
        ([0, 1, 1, 0, 0], 21, ⟨"osc", 16, 0, .textual⟩),
        ([2, 1, 0, 0], 25, ⟨"osc", 16, 1, .structural⟩),
        ([2, 0, 0], 30, ⟨"add", 12, 1, .structural⟩)]
    ∃ p, parseProgram text = .ok p ∧
      (∀ o ∈ owners, p.Owner text o.2.1 o.1 o.2.2) ∧
      (∃ order, Owners .standard none standardKeywords p text order) ∧
      (locate .standard none standardKeywords (some p) text).result.map
        (fun v => (v.column, v.callName, v.callAnchorColumn, v.parameterIndex)) =
          [(4, "osc", 0, 0), (8, "osc", 0, 1), (21, "osc", 16, 0), (25, "osc", 16, 1),
            (30, "add", 12, 1)] := by
  intro text owners
  have hvalues : (parseProgram text).toOption.map (fun p => owners.map fun o =>
      (p.value? .standard o.1).map fun c => (c.span.startColumn, owner text c)) =
        some (owners.map fun o => some o.2) := by decide +kernel
  have hlocated : (parseProgram text).toOption.map (fun p =>
      (locate .standard none standardKeywords (some p) text).result.map
        fun v => (v.column, v.callName, v.callAnchorColumn, v.parameterIndex)) =
      some [(4, "osc", 0, 0), (8, "osc", 0, 1), (21, "osc", 16, 0), (25, "osc", 16, 1),
        (30, "add", 12, 1)] := by decide +kernel
  obtain ⟨p, hp, hvalues⟩ := exists_of_toOption_map hvalues
  rw [hp] at hlocated
  obtain ⟨howners, horder⟩ := locate_owners .standard none standardKeywords p text
  refine ⟨p, hp, fun o ho => ?_, horder, Option.some.inj hlocated⟩
  obtain ⟨c, hc, hplace⟩ := Option.map_eq_some_iff.mp (List.map_inj_left.mp hvalues o ho)
  rw [← hplace]
  exact ((howners o.1 c hc).2 text _).mpr rfl

end LiveChain
