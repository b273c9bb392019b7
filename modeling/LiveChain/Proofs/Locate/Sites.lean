import LiveChain.Locate.Discover
import LiveChain.Proofs.Locate.Identity

/-!
# What call-site ids tell

A call-site id has the name of a call and the column of this name, but the line of the value. So it
tells the call where values start on the line of the name, and may fail to where they do not: a call
over two lines has two ids, and two calls can share one.
-/

set_option autoImplicit false

namespace LiveChain

open Text

variable {names : SlotNames} {registry : Option Registry} {keywords : List String} {p : Program}
  {text : List Char} {a b : Address} {n m : Node}

/-! ## Names of a tree -/

/-- Where the name of an identifier or a member stands. -/
def Node.nameSpan? : Node → Option Span
  | .identifier s _ => some s
  | .member _ _ _ propertySpan => some propertySpan
  | _ => none

mutual

/-- The names in a node at `a`, each with the address of the node that has it; the name of a member
stands behind its object. -/
def Node.named (a : Address) : Node → List (Address × Span)
  | .literal _ _ _ => []
  | .identifier s _ => [(a, s)]
  | .member _ object _ propertySpan => Node.named (0 :: a) object ++ [(a, propertySpan)]
  | .call _ callee arguments => Node.named (0 :: a) callee ++ Node.namedFrom a 1 arguments
  | .unary _ _ argument => Node.named (0 :: a) argument
  | .other _ _ nodes => Node.namedFrom a 0 nodes

/-- The names in the parts of the node at `a` from the `i`-th on. -/
def Node.namedFrom (a : Address) : Nat → List Node → List (Address × Span)
  | _, [] => []
  | i, n :: rest => Node.named (i :: a) n ++ Node.namedFrom a (i + 1) rest

end

def Program.named (p : Program) : List (Address × Span) := Node.namedFrom [] 0 p.body

theorem Node.named_eq (a : Address) (n : Node) :
    n.named a =
      Node.namedFrom a 0 n.children ++ (n.nameSpan?.map fun span => (a, span)).toList := by
  cases n with
  | literal => rfl
  | identifier => rfl
  | member s object property propertySpan =>
    rw [Node.named, Node.children, Node.namedFrom, Node.namedFrom, List.append_nil]
    rfl
  | call => exact (List.append_nil _).symm
  | unary s operator argument =>
    rw [Node.named, Node.children, Node.namedFrom, Node.namedFrom, List.append_nil]
    exact (List.append_nil _).symm
  | other => exact (List.append_nil _).symm

theorem namedFrom_spread {s e i : Nat} {nodes : List Node} (h : Within text s e nodes)
    (hnamed : ∀ n ∈ nodes, ∀ a b c, Covers text b c n →
      Spread text b c ((n.named a).map (·.2))) (a : Address) :
    Spread text s e ((Node.namedFrom a i nodes).map (·.2)) := by
  induction nodes generalizing s i with
  | nil => exact .nil h.le
  | cons n rest ih =>
    obtain ⟨b, c, hb, hn, hrest⟩ := h.first
    have hfirst := hnamed n List.mem_cons_self (i :: a) b c hn
    rw [Node.namedFrom, List.map_append]
    exact (hfirst.mono hb (Nat.le_refl c)).append
      (ih hrest fun m hm => hnamed m (List.mem_cons_of_mem n hm))

theorem Covers.named_spread {s e : Nat} {n : Node} (h : Covers text s e n) (a : Address) :
    Spread text s e ((n.named a).map (·.2)) := by
  induction n using Node.induction_children generalizing s e a with
  | h n ih =>
    have hparts : ∀ c ∈ n.children, ∀ a b d, Covers text b d c →
        Spread text b d ((c.named a).map (·.2)) := fun c hc a b d hcovers => ih c hc hcovers a
    rw [Node.named_eq, List.map_append]
    cases h with
    | literal h _ => exact .nil (Nat.le_of_lt h)
    | identifier h => exact .single h
    | member h hc ha => exact (namedFrom_spread ⟨_, h, hc⟩ hparts a).append (.single ha)
    | call h hc => exact (namedFrom_spread ⟨_, h, hc⟩ hparts a).append (.nil (Nat.le_refl e))
    | unary operator hs h =>
      have hargument := h.cons (Nat.le_of_lt hs) (.nil (Nat.le_refl e))
      exact (namedFrom_spread hargument hparts a).append (.nil (Nat.le_refl e))
    | other h hc _ => exact (namedFrom_spread ⟨_, h, hc⟩ hparts a).append (.nil (Nat.le_refl e))

theorem named_subset_namedFrom {i k : Nat} {nodes : List Node} (h : nodes[k]? = some n) :
    n.named ((i + k) :: a) ⊆ Node.namedFrom a i nodes := by
  induction nodes generalizing i k with
  | nil => cases h
  | cons m rest ih =>
    rw [Node.namedFrom]
    cases k with
    | zero =>
      cases h
      exact List.subset_append_left ..
    | succ k =>
      rw [← Nat.add_assoc, Nat.add_right_comm]
      exact List.Subset.trans (ih h) (List.subset_append_right ..)

theorem named_subset (h : p.node? a = some n) : n.named a ⊆ p.named := by
  induction a generalizing n with
  | nil => cases h
  | cons i up ih =>
    rw [← Nat.zero_add i]
    cases up with
    | nil => exact named_subset_namedFrom h
    | cons j up =>
      obtain ⟨m, hm, hpart⟩ := exists_above h
      have hparts := List.subset_append_left (Node.namedFrom (j :: up) 0 m.children)
        (m.nameSpan?.map fun span => (j :: up, span)).toList
      rw [← Node.named_eq] at hparts
      exact List.Subset.trans (named_subset_namedFrom hpart) (List.Subset.trans hparts (ih hm))

/-- The place of a name in a parsed text tells which node has it. -/
theorem name_unique {span span' : Span} (h : parseProgram text = .ok p)
    (hn : p.node? a = some n) (hspan : n.nameSpan? = some span) (hm : p.node? b = some m)
    (hspan' : m.nameSpan? = some span') (hline : span.startLine = span'.startLine)
    (hcolumn : span.startColumn = span'.startColumn) : a = b := by
  have hmem : ∀ {a n span}, p.node? a = some n → n.nameSpan? = some span →
      (a, span) ∈ p.named := by
    intro a n span hn hspan
    refine named_subset hn ?_
    rw [Node.named_eq, hspan]
    exact List.mem_append_right _ (List.mem_singleton.mpr rfl)
  have hspread : Spread text 0 text.length (p.named.map (·.2)) :=
    namedFrom_spread (parseProgram_within h) (fun n _ a b c hcovers => hcovers.named_spread a) []
  have hplaces := hspread.places_nodup (Nat.le_refl _)
  rw [List.map_map] at hplaces
  have hsame := List.inj_on_of_nodup_map hplaces (hmem hn hspan) (hmem hm hspan')
    (Prod.ext hline hcolumn)
  exact congrArg Prod.fst hsame

/-! ## Values of calls -/

/-- A value is shown by a value node that is an argument of the call at `call`, alone or behind one
unary operator; the name of the call stands at `span`. -/
def Program.ArgumentOf (names : SlotNames) (p : Program) (call : Address) (span : Span)
    (v : EditableValue) : Prop :=
  ∃ a c callee i, p.value? names a = some c ∧ c.ShownBy v ∧ p.Argument call callee i a ∧
    callee.nameSpan? = some span

/-- Where the name of a call stands, and where its `i`-th argument starts if that is a value. -/
def Program.site? (names : SlotNames) (p : Program) (call : Address) (i : Nat) :
    Option (Span × Int × Int) :=
  match p.node? call with
  | some (.call _ callee arguments) =>
    if i < arguments.length then
      callee.nameSpan?.bind fun span => (p.value? names ((i + 1) :: call)).map fun c =>
        (span, c.span.startLine, c.span.startColumn)
    else none
  | _ => none

theorem calleeName?_of_nameSpan? {span : Span} (h : n.nameSpan? = some span) :
    ∃ name, n.calleeName? = some (name, span.startColumn) := by
  cases n with
  | identifier s name =>
    cases h
    exact ⟨name, rfl⟩
  | member s object property propertySpan =>
    cases h
    exact ⟨property, rfl⟩
  | _ => cases h

theorem Program.Argument.node? {call : Address} {callee : Node} {i : Nat}
    (h : p.Argument call callee i a) : p.node? (0 :: call) = some callee := by
  cases h with
  | plain h hi => exact node?_part h 0
  | operand h hi => exact node?_part h 0

theorem mem_valueNodes_of_value? {c : Candidate} (h : p.value? names a = some c) :
    c ∈ p.valueNodes names := by
  obtain ⟨n, hn, -⟩ := value?_eq_some h
  rw [← p.filterMap_addresses]
  exact List.mem_filterMap.mpr ⟨a, mem_addresses_iff.mpr ⟨n, hn⟩, h⟩

section Sites

variable {call call' : Address} {span span' : Span} {v v' : EditableValue}
  (h : parseProgram text = .ok p)

include h

theorem discover_eq (hv : v ∈ (discover names registry keywords text).result) :
    v ∈ (locate names registry keywords (some p) text).result := by
  unfold discover at hv
  split at hv
  · cases hv
  · rwa [h] at hv

/-- A discovered value is built from the value node that starts where it does. -/
theorem built_of_place {c : Candidate} (hv : v ∈ (discover names registry keywords text).result)
    (hc : p.value? names a = some c) (hline : v.line = c.span.startLine)
    (hcolumn : v.column = c.span.startColumn) :
    ∃ k, (buildValue names registry (lines text) c k).result = .ok v := by
  obtain ⟨k, c', hc', hbuilt⟩ := mem_locateFrom_iff.mp (locate_sublist.subset (discover_eq h hv))
  have hshown := buildValue_shown hbuilt
  have hmem : c' ∈ p.valueNodes names := (keptCandidates_sublist _ _ _).subset
    (candidates_perm.mem_iff.mp (List.mem_of_getElem? hc'))
  obtain rfl : c' = c := List.inj_on_of_nodup_map (parseProgram_distinctStarts h) hmem
    (mem_valueNodes_of_value? hc) (Prod.ext (hshown.line.symm.trans hline)
      (hshown.column.symm.trans hcolumn))
  exact ⟨0 + k, hbuilt⟩

/-- The value of a named call has the column of its name, and its id is made of the name, the line of
the value and this column. -/
theorem argument_site (hv : v ∈ (discover names registry keywords text).result)
    (hargument : p.ArgumentOf names call span v) :
    v.callAnchorColumn = span.startColumn ∧
      (∃ callee, p.node? (0 :: call) = some callee ∧ callee.nameSpan? = some span ∧
        callee.calleeName? = some (v.callName, span.startColumn)) ∧
      callSiteId (some v.callName) (some v.line) (some v.callAnchorColumn) = .ok v.callSiteId := by
  obtain ⟨a, c, callee, i, hc, hshown, hargument, hspan⟩ := hargument
  obtain ⟨k, hbuilt⟩ := built_of_place h hv hc hshown.line hshown.column
  obtain ⟨line, -, hname, hanchor, -⟩ := buildValue_owner hbuilt
  obtain ⟨name, hcallee⟩ := calleeName?_of_nameSpan? hspan
  have howner := (owner_iff hc line _).mp (.argument hargument hcallee)
  rw [← howner] at hname hanchor
  refine ⟨hanchor, ⟨callee, hargument.node?, hspan, ?_⟩, (buildValue_identity hbuilt).2⟩
  rw [hname]
  exact hcallee

/-- A discovered value that starts where an argument of a named call does is that argument. -/
theorem argumentOf_of_site? {i : Nat} (hv : v ∈ (discover names registry keywords text).result)
    (hsite : p.site? names call i = some (span, v.line, v.column)) :
    p.ArgumentOf names call span v := by
  unfold Program.site? at hsite
  split at hsite
  · next s callee arguments hnode =>
    obtain ⟨hi, hsite⟩ := Option.ite_none_right_eq_some.mp hsite
    obtain ⟨span', hspan, hsite⟩ := Option.bind_eq_some_iff.mp hsite
    obtain ⟨c, hc, hsite⟩ := Option.map_eq_some_iff.mp hsite
    obtain ⟨rfl, hplace⟩ := Prod.mk.inj hsite
    obtain ⟨hline, hcolumn⟩ := Prod.mk.inj hplace
    obtain ⟨k, hbuilt⟩ := built_of_place h hv hc hline.symm hcolumn.symm
    exact ⟨_, c, callee, i, hc, buildValue_shown hbuilt, .plain hnode hi, hspan⟩
  · cases hsite

end Sites

/-- Two values that start where arguments of named calls do, in a text with these values. -/
theorem exists_arguments {sites : List (Int × Int × String)} {i i' : Nat} {call call' : Address}
    {span span' : Span} {line line' column column' : Int} {site site' : String}
    (hsites : (discover .standard none standardKeywords text).result.map
      (fun v => (v.line, v.column, v.callSiteId)) = sites)
    (hsite : (line, column, site) ∈ sites) (hsite' : (line', column', site') ∈ sites)
    (htree : (parseProgram text).toOption.map
      (fun p => (p.site? .standard call i, p.site? .standard call' i')) =
        some (some (span, line, column), some (span', line', column'))) :
    ∃ p, parseProgram text = .ok p ∧
      (∃ v ∈ (discover .standard none standardKeywords text).result,
        p.ArgumentOf .standard call span v ∧ v.line = line ∧ v.callSiteId = site) ∧
      ∃ v ∈ (discover .standard none standardKeywords text).result,
        p.ArgumentOf .standard call' span' v ∧ v.line = line' ∧ v.callSiteId = site' := by
  have hvalue : ∀ {p : Program} {call i span line column site}, parseProgram text = .ok p →
      (line, column, site) ∈ sites → p.site? .standard call i = some (span, line, column) →
      ∃ v ∈ (discover .standard none standardKeywords text).result,
        p.ArgumentOf .standard call span v ∧ v.line = line ∧ v.callSiteId = site := by
    intro p call i span line column site hp hsite hargument
    rw [← hsites] at hsite
    obtain ⟨v, hv, hshown⟩ := List.mem_map.mp hsite
    cases hshown
    exact ⟨v, hv, argumentOf_of_site? hp hv hargument, rfl, rfl⟩
  cases hp : parseProgram text with
  | error e =>
    rw [hp] at htree
    cases htree
  | ok p =>
    rw [hp] at htree
    obtain ⟨hargument, hargument'⟩ := Prod.mk.inj (Option.some.inj htree)
    exact ⟨p, rfl, hvalue hp hsite hargument, hvalue hp hsite' hargument'⟩

/-- Two values of named calls of a text have one call-site id exactly when the names of their calls
and the columns of these are the same and the values start on one line. So two values of one call
have one id exactly when they start on one line; and of values that start on the lines of the names
of their calls, those of one call have one id and no others have it. -/
theorem callSites_iff (h : parseProgram text = .ok p) {call call' : Address} {span span' : Span}
    {v v' : EditableValue} (hv : v ∈ (discover names registry keywords text).result)
    (hv' : v' ∈ (discover names registry keywords text).result)
    (hargument : p.ArgumentOf names call span v)
    (hargument' : p.ArgumentOf names call' span' v') :
    (v.callSiteId = v'.callSiteId ↔ v.callName = v'.callName ∧ v.line = v'.line ∧
      v.callAnchorColumn = v'.callAnchorColumn) ∧
      (call = call' → (v.callSiteId = v'.callSiteId ↔ v.line = v'.line)) ∧
      (v.line = span.startLine → v'.line = span'.startLine →
        (v.callSiteId = v'.callSiteId ↔ call = call')) := by
  obtain ⟨hanchor, ⟨callee, hcallee, hspan, hname⟩, hsite⟩ := argument_site h hv hargument
  obtain ⟨hanchor', ⟨callee', hcallee', hspan', hname'⟩, hsite'⟩ := argument_site h hv' hargument'
  have hids := callSiteId_eq_iff hsite hsite'
  have hsame : call = call' → v.callName = v'.callName ∧ span = span' := by
    rintro rfl
    cases hcallee.symm.trans hcallee'
    cases hspan.symm.trans hspan'
    exact ⟨congrArg Prod.fst (Option.some.inj (hname.symm.trans hname')), rfl⟩
  refine ⟨hids, fun hcall => ?_, fun hline hline' => ?_⟩
  · obtain ⟨hnames, rfl⟩ := hsame hcall
    rw [hids, hanchor, hanchor']
    exact ⟨fun heq => heq.2.1, fun heq => ⟨hnames, heq, rfl⟩⟩
  · constructor
    · intro heq
      obtain ⟨-, hlines, hanchors⟩ := hids.mp heq
      rw [hline, hline'] at hlines
      rw [hanchor, hanchor'] at hanchors
      have hcalls := name_unique h hcallee hspan hcallee' hspan' hlines hanchors
      exact (List.cons.inj hcalls).2
    · intro hcall
      obtain ⟨hnames, rfl⟩ := hsame hcall
      rw [hids, hanchor, hanchor', hline, hline']
      exact ⟨hnames, rfl, rfl⟩

/-- Nested calls of one name, behind a call over two lines. -/
theorem callSites_iff_nested :
    let text := "osc(1,\n2).f(f(3), 4)".toList
    ∃ p v v', parseProgram text = .ok p ∧
      v ∈ (discover .standard none standardKeywords text).result ∧
      v' ∈ (discover .standard none standardKeywords text).result ∧
      p.ArgumentOf .standard [1, 0, 0] ⟨1, 5, 1, 6, 12, 13⟩ v ∧
      p.ArgumentOf .standard [0, 0] ⟨1, 3, 1, 4, 10, 11⟩ v' ∧
      v.line = 1 ∧ v'.line = 1 ∧ v.callSiteId ≠ v'.callSiteId := by
  intro text
  have hsites : (discover .standard none standardKeywords text).result.map
      (fun v => (v.line, v.column, v.callSiteId)) = [(0, 4, "osc_line0_pos0"),
        (1, 0, "osc_line1_pos0"), (1, 7, "f_line1_pos5"), (1, 11, "f_line1_pos3")] := by
    decide +kernel
  have htree : (parseProgram text).toOption.map
      (fun p => (p.site? .standard [1, 0, 0] 0, p.site? .standard [0, 0] 1)) =
        some (some (⟨1, 5, 1, 6, 12, 13⟩, 1, 7), some (⟨1, 3, 1, 4, 10, 11⟩, 1, 11)) := by
    decide +kernel
  obtain ⟨p, hp, ⟨v, hv, hargument, hline, -⟩, v', hv', hargument', hline', -⟩ :=
    exists_arguments hsites (show (1, 7, "f_line1_pos5") ∈ _ by simp)
      (show (1, 11, "f_line1_pos3") ∈ _ by simp) htree
  obtain ⟨-, -, hcalls⟩ := callSites_iff hp hv hv' hargument hargument'
  refine ⟨p, v, v', hp, hv, hv', hargument, hargument', hline, hline', fun hsame => ?_⟩
  exact absurd ((hcalls hline hline').mp hsame) (by decide)

/-- The call-site ids of a text tell its calls: two values of named calls have one id exactly when
they are arguments of one call. -/
def TellsCalls (text : List Char) : Prop :=
  ∀ names registry keywords p call call' span span' v v', parseProgram text = .ok p →
    v ∈ (discover names registry keywords text).result →
    v' ∈ (discover names registry keywords text).result →
    p.ArgumentOf names call span v → p.ArgumentOf names call' span' v' →
    (v.callSiteId = v'.callSiteId ↔ call = call')

theorem TellsCalls.site_eq_iff {sites : List (Int × Int × String)} {i i' : Nat}
    {call call' : Address} {span span' : Span} {line line' column column' : Int}
    {site site' : String} (h : TellsCalls text)
    (hsites : (discover .standard none standardKeywords text).result.map
      (fun v => (v.line, v.column, v.callSiteId)) = sites)
    (hsite : (line, column, site) ∈ sites) (hsite' : (line', column', site') ∈ sites)
    (htree : (parseProgram text).toOption.map
      (fun p => (p.site? .standard call i, p.site? .standard call' i')) =
        some (some (span, line, column), some (span', line', column'))) :
    site = site' ↔ call = call' := by
  obtain ⟨p, hp, ⟨v, hv, hargument, -, rfl⟩, v', hv', hargument', -, rfl⟩ :=
    exists_arguments hsites hsite hsite' htree
  exact h _ _ _ _ _ _ _ _ _ _ hp hv hv' hargument hargument'

/-- Ids tell no calls where values stand on other lines than the names of their calls: a call over
two lines has two ids, and nested calls of one name can share one behind a line break. -/
theorem callSites_behind_line_break :
    ¬ TellsCalls "osc(1,\n2)".toList ∧ ¬ TellsCalls "f(\nf(1), 2)".toList := by
  constructor
  · intro h
    have hsites : (discover .standard none standardKeywords "osc(1,\n2)".toList).result.map
        (fun v => (v.line, v.column, v.callSiteId)) =
          [(0, 4, "osc_line0_pos0"), (1, 0, "osc_line1_pos0")] := by decide +kernel
    have htree : (parseProgram "osc(1,\n2)".toList).toOption.map
        (fun p => (p.site? .standard [0, 0] 0, p.site? .standard [0, 0] 1)) =
          some (some (⟨0, 0, 0, 3, 0, 3⟩, 0, 4), some (⟨0, 0, 0, 3, 0, 3⟩, 1, 0)) := by
      decide +kernel
    have hids := (h.site_eq_iff hsites List.mem_cons_self
      (List.mem_cons_of_mem _ List.mem_cons_self) htree).mpr rfl
    exact absurd hids (by decide)
  · intro h
    have hsites : (discover .standard none standardKeywords "f(\nf(1), 2)".toList).result.map
        (fun v => (v.line, v.column, v.callSiteId)) =
          [(1, 2, "f_line1_pos0"), (1, 6, "f_line1_pos0")] := by decide +kernel
    have htree : (parseProgram "f(\nf(1), 2)".toList).toOption.map
        (fun p => (p.site? .standard [1, 0, 0] 0, p.site? .standard [0, 0] 1)) =
          some (some (⟨1, 0, 1, 1, 3, 4⟩, 1, 2), some (⟨0, 0, 0, 1, 0, 1⟩, 1, 6)) := by
      decide +kernel
    have hcalls := (h.site_eq_iff hsites List.mem_cons_self
      (List.mem_cons_of_mem _ List.mem_cons_self) htree).mp rfl
    exact absurd hcalls (by decide)

end LiveChain
