import LiveChain.Proofs.Syntax.NumberEnds

/-!
# Numbers in lists, functions and members

What closes a list, a function or a member, and what separates its parts, stands behind the numbers
in it. So only a number at the very end of a construct may still run on.
-/

set_option autoImplicit false

namespace LiveChain.Syntax

/-- A grammar whose rules give trees in which only a number right before the cursor may run on;
behind a statement no number does. -/
structure Grammar.Delimits (text : List Char) (g : Grammar) : Prop where
  expression : ∀ s i, Leads text i (g.expression s) (Trailing text)
  statement : ∀ i, Leads text i g.statement fun n _ => Closed text n
  operand : ∀ s updates i, Leads text i (g.operand s updates) (Trailing text)
  constructible : ∀ s i, Leads text i (g.constructible s) (Trailing text)

variable {text : List Char}

theorem Leads.trailing {x : Rule Node} {i : Nat} (h : Leads text i x fun n _ => Closed text n) :
    Leads text i x (Trailing text) :=
  h.mono fun _ j hn => hn.trailing j

theorem Leads.optional {x : Rule Node} {i : Nat} {Q : Node → Nat → Prop} (h : Leads text i x Q) :
    Leads text i (some <$> x) fun part j => ∀ n ∈ part.toList, Q n j :=
  h.map fun _ _ hn => List.forall_mem_singleton.mpr hn

/-! ## Items in a row -/

theorem commaList_closed {close : String} {item : Rule Node} (hclose : close ≠ "")
    (hitem : ∀ j, Leads text j item (Trailing text)) (i : Nat) :
    Leads text i (commaList close item) fun list _ => ∀ n ∈ list.items, Closed text n := by
  refine .iterate (fun found _ => ∀ n ∈ found.items, Closed text n) (fun found j hfound => ?_)
    nofun
  refine .look looks_peekPunctuator fun p => ?_
  split
  · exact .punct fun _ _ => .pure (forall_mem_reverse hfound)
  · split
    · exact .punct fun _ _ => .pure hfound
    · refine (hitem j).bind fun n k hn => ?_
      -- a comma or the closing punctuator stands behind the item
      have hall (hk : Detached (text.drop k)) : ∀ m ∈ n :: found.items, Closed text m :=
        List.forall_mem_cons.mpr ⟨hn.close hk, hfound⟩
      refine .optionalPunct_detached (by decide) (fun _ hk => .pure (hall hk)) ?_
      exact .punct_detached hclose fun _ hk => .pure (forall_mem_reverse (hall hk))

namespace Grammar

variable {g : Grammar} (hg : g.Delimits text)

include hg

theorem expressions_trailing (s : Setting) (i : Nat) :
    Leads text i (g.expressions s) (Trailing text) := by
  refine (hg.expression s i).bind fun first a hfirst => ?_
  refine Leads.bind (P := fun all j => ∀ n ∈ all, Trailing text n j) ?_ fun all j hall =>
    (sequenceOf_numbersEnd hall j).mono ?_
  · refine .iterate (fun found j => ∀ n ∈ found, Trailing text n j) (fun found j hfound => ?_)
      (List.forall_mem_singleton.mpr hfirst)
    have hdone : ∀ n ∈ found.reverse, Trailing text n j := forall_mem_reverse hfound
    refine .look (looks_endsIn s) fun ends => .ite (.pure hdone) ?_
    refine .optionalPunct_detached (by decide) (fun k hk => ?_) (.pure hdone)
    refine (hg.expression s k).bind fun n l hn => .pure (List.forall_mem_cons.mpr ⟨hn, ?_⟩)
    exact fun m hm => ((hfound m hm).close hk).trailing l
  · rintro n _ ⟨rfl, hn⟩
    exact hn

theorem element_trailing (i : Nat) : Leads text i g.element (Trailing text) := by
  refine .place fun s _ _ => .optionalPunct (fun a _ => ?_) (hg.expression _ s)
  exact (hg.expression _ a).bind fun inner _ hinner => node_trailing (by simpa using hinner)

theorem elements_closed (i : Nat) : Leads text i g.elements fun list _ =>
    Detached (text.drop i) ∧ ∀ n ∈ list.items, Closed text n := by
  refine .punct_detached (by decide) fun a ha => ?_
  exact (commaList_closed (by decide) (element_trailing hg) a).mono fun _ _ h => ⟨ha, h⟩

theorem arrayRule_closed (i : Nat) : Leads text i g.arrayRule fun n _ => Closed text n := by
  refine .place fun _ _ _ => .punct fun a _ => ?_
  exact (commaList_closed (by decide) (element_trailing hg) a).bind fun _ _ h => node_closed h

theorem parenthesized_closed (i : Nat) :
    Leads text i g.parenthesized fun n _ => Closed text n := by
  refine .place fun _ _ _ => .punct fun a _ => ?_
  refine (expressions_trailing hg _ a).bind fun inner b hinner => ?_
  exact .punct_detached (by decide) fun _ hb => node_closed (by simpa using hinner.close hb)

theorem statementsToBrace_closed (i : Nat) :
    Leads text i g.statementsToBrace fun found _ => ∀ n ∈ found, Closed text n := by
  refine .iterate (fun found _ => ∀ n ∈ found, Closed text n) (fun found j hfound => ?_) nofun
  refine .optionalPunct (fun _ _ => .pure (forall_mem_reverse hfound)) ?_
  exact (hg.statement j).bind fun n _ hn => .pure (List.forall_mem_cons.mpr ⟨hn, hfound⟩)

theorem block_closed (early : Bool) (i : Nat) :
    Leads text i (g.block early) fun n _ => Closed text n := by
  refine .place fun _ _ _ => .punct fun a _ => ?_
  exact (statementsToBrace_closed hg a).bind fun _ _ hinner => .passToEnd fun _ _ =>
    node_closed hinner

/-- An equals sign closes what stands before it, and without one the cursor stays there. -/
theorem initializer?_trailing {target : Node} {i : Nat} (h : Trailing text target i) (s : Setting) :
    Leads text i (g.initializer? s) fun value j =>
      ∀ n ∈ target :: value.toList, Trailing text n j := by
  refine .optionalPunct_detached (by decide) (fun a ha => ?_) (.pure (by simpa using h))
  refine (hg.expression s a).bind fun value j hvalue => .pure ?_
  simp [hvalue, (h.close ha).trailing j]

/-! ## Functions -/

omit hg in
theorem parametersFrom_closed {start : Place} {list : CommaList}
    (h : ∀ n ∈ list.items, Closed text n) (i : Nat) :
    Leads text i (parametersFrom start list) fun n _ => Closed text n := by
  unfold parametersFrom
  split
  · next items hitems =>
    split at hitems
    · cases hitems
    · exact node_closed (parameters?_numbersEnd h hitems)
  · exact .failure

theorem formalParameters_closed (i : Nat) : Leads text i g.formalParameters fun n _ =>
    Detached (text.drop i) ∧ Closed text n := by
  refine .place_past fun s hs => (elements_closed hg s).bind fun list j ⟨hopen, hlist⟩ => ?_
  exact (parametersFrom_closed hlist j).mono fun _ _ hn => ⟨hs.detached hopen, hn⟩

theorem signature_closed (early : Bool) (i : Nat) : Leads text i (g.signature early) fun parts _ =>
    Detached (text.drop i) ∧ ∀ n ∈ parts, Closed text n := by
  refine (formalParameters_closed hg i).bind fun parameters a ⟨hopen, hparameters⟩ => ?_
  refine (block_closed hg early a).bind fun body _ hbody => .pure ⟨hopen, ?_⟩
  simp [hparameters, hbody]

theorem functionTail_closed (start : Place) (declared : Bool) (i : Nat) :
    Leads text i (g.functionTail start declared) fun n _ => Closed text n := by
  refine (optionalPunct_leads text i "*").bind fun star a _ => ?_
  extract_lets kind rest
  refine .look looks_peekWord fun w => ?_
  refine .either (identifier_closed text a).optional (.pure nofun) fun name b hname => ?_
  refine .ite .failure ?_
  refine (signature_closed hg false b).bind fun rest _ ⟨_, hrest⟩ => node_closed ?_
  exact List.forall_mem_append.mpr ⟨hname, hrest⟩

theorem functionRule_closed (declared : Bool) (i : Nat) :
    Leads text i (g.functionRule declared) fun n _ => Closed text n :=
  .place fun _ _ _ => .optionalKeyword fun _ _ _ => .keyword fun b _ =>
    functionTail_closed hg _ declared b

theorem bodyBlock_closed (i : Nat) : Leads text i g.bodyBlock fun n _ => Closed text n := by
  refine (block_closed hg false i).bind fun body _ hbody => .look looks_peekPunctuator fun p => ?_
  exact .ite .failure (.pure hbody)

theorem arrowBody_trailing (s : Setting) (i : Nat) :
    Leads text i (g.arrowBody s) (Trailing text) := by
  refine .look looks_peekPunctuator fun p => ?_
  split
  · refine .look looks_bracesAhead fun braces => ?_
    split
    · exact (hg.expression s i).orElse (block_closed hg false i).trailing
    · exact (block_closed hg false i).trailing
    · exact (bodyBlock_closed hg i).trailing.orElse (hg.expression s i)
  · exact hg.expression s i

theorem arrowTail_trailing {parameters : Node} (h : Closed text parameters) (setting : Setting)
    (start : Place) (i : Nat) :
    Leads text i (g.arrowTail setting start parameters) (Trailing text) := by
  refine .punct fun a _ => (arrowBody_trailing hg setting a).bind fun body j hbody => ?_
  exact node_trailing (by simp [h.trailing j, hbody])

/-! ## Keys and members of objects -/

theorem propertyKey_trailing (i : Nat) : Leads text i g.propertyKey (Trailing text) := by
  refine .place fun s _ _ => .get fun _ => ?_
  simp only
  split
  · refine .punct fun a _ => (hg.expression _ a).bind fun inner b hinner => ?_
    refine .punct_detached (by decide) fun _ hb => Leads.trailing ?_
    exact node_closed (by simpa using hinner.close hb)
  · exact (stringLiteral_closed text s).trailing
  · exact (stringLiteral_closed text s).trailing
  · exact (privateName_leads text s).bind fun _ _ _ => leaf_closed.trailing
  · split
    · exact numberLiteral_trailing text s
    · exact (wordNode_closed text s _).trailing

section Member

variable {i : Nat} {key : Node} (hkey : Trailing text key i) (start : Place)

include hkey

theorem method_closed : Leads text i (g.method start key) fun n _ => Closed text n := by
  refine (signature_closed hg true i).bind fun rest _ ⟨hopen, hrest⟩ => ?_
  exact node_closed (List.forall_mem_cons.mpr ⟨hkey.close hopen, hrest⟩)

theorem plainMember_trailing : Leads text i (g.plainMember start key) (Trailing text) := by
  refine .optionalPunct_detached (by decide) (fun a ha => ?_) ?_
  · refine (element_trailing hg a).bind fun value j hvalue => ?_
    exact node_trailing (by simp [(hkey.close ha).trailing j, hvalue])
  · rw [if_neg Bool.false_ne_true]
    split
    · next span parts =>
      have hname : Trailing text (.other span "shorthand_property_identifier" []) i :=
        numbersEnd_other.mpr nofun
      refine (initializer?_trailing hg hname _).bind fun value j hvalue => ?_
      split
      · next value =>
        have hvalue : Trailing text value j := hvalue value (by simp)
        exact node_trailing (List.forall_mem_cons.mpr
          ⟨numbersEnd_other.mpr nofun, List.forall_mem_singleton.mpr hvalue⟩)
      · exact .pure (numbersEnd_other.mpr nofun)
    · exact .failure

theorem field_closed : Leads text i (g.field start key) fun n _ => Closed text n := by
  refine (initializer?_trailing hg hkey _).bind fun value a hparts => ?_
  refine (node_trailing hparts).bind fun n b hn => ?_
  exact .endStatement_detached fun _ hb => .pure (hn.close hb)

end Member

theorem objectMember_trailing (i : Nat) : Leads text i g.objectMember (Trailing text) := by
  refine .place fun s _ _ => .optionalPunct (fun a _ => ?_) ?_
  · exact (hg.expression _ a).bind fun inner _ hinner => node_trailing (by simpa using hinner)
  · refine (modifier_leads text s _ _ _).bind fun isStatic a _ => ?_
    refine (methodModifiers_leads text a _).bind fun modified b _ => ?_
    refine (propertyKey_trailing hg b).bind fun key c hkey => .look looks_peekPunctuator fun p => ?_
    split
    · exact (method_closed hg hkey _).trailing
    · exact .ite .failure (plainMember_trailing hg hkey _)

theorem objectRule_closed (i : Nat) : Leads text i g.objectRule fun n _ => Closed text n := by
  refine .place fun _ _ _ => .punct fun a _ => ?_
  exact (commaList_closed (by decide) (objectMember_trailing hg) a).bind fun _ _ h => node_closed h

/-! ## Classes -/

theorem classMember_closed (i : Nat) : Leads text i g.classMember fun n _ => Closed text n := by
  refine .place fun s _ _ => (modifier_leads text s _ _ _).bind fun isStatic a _ => ?_
  refine .look looks_peekPunctuator fun p => ?_
  split
  · exact (block_closed hg true a).bind fun body _ hbody => node_closed (by simpa using hbody)
  · refine (methodModifiers_leads text a _).bind fun modified b _ => ?_
    refine (propertyKey_trailing hg b).bind fun key c hkey => ?_
    extract_lets rest
    have hrest : ∀ ended, Leads text c (rest ended) fun n _ => Closed text n := by
      refine fun ended => .look looks_peekPunctuator fun p => ?_
      split
      · exact method_closed hg hkey _
      · exact .ite .failure (field_closed hg hkey _)
    split
    · exact hrest false
    · exact .look (looks_endsHere true) hrest

/-- The opening brace of a class closes what stands before it. -/
theorem classBody_closed (i : Nat) : Leads text i g.classBody fun n _ =>
    Detached (text.drop i) ∧ Closed text n := by
  refine .place_past fun s hs => .punct_detached (by decide) fun a ha => ?_
  refine Leads.bind (P := fun members _ => ∀ n ∈ members, Closed text n) ?_ fun _ _ h =>
    (node_closed h).mono fun _ _ hn => ⟨hs.detached ha, hn⟩
  refine .iterate (fun found _ => ∀ n ∈ found, Closed text n) (fun found j hfound => ?_) nofun
  refine .optionalPunct (fun _ _ => .pure (forall_mem_reverse hfound)) ?_
  refine .optionalPunct (fun _ _ => .pure hfound) ?_
  exact (classMember_closed hg j).bind fun n _ hn => .pure (List.forall_mem_cons.mpr ⟨hn, hfound⟩)

theorem classRule_closed (declared : Bool) (i : Nat) :
    Leads text i (g.classRule declared) fun n _ => Closed text n := by
  refine .place fun _ _ _ => .keyword fun a _ => .look looks_peekWord fun w => ?_
  refine .either (identifier_closed text a).optional (.pure nofun) fun name b hname => ?_
  refine .ite .failure (.place fun c _ _ => .optionalKeyword fun found d _ => ?_)
  extract_lets rest
  have hrest : ∀ base j, (∀ n ∈ Option.toList base, Trailing text n j) →
      Leads text j (rest base) fun n _ => Closed text n := by
    intro base j hbase
    refine (classBody_closed hg j).bind fun body _ ⟨hopen, hbody⟩ => node_closed ?_
    have hbase : ∀ n ∈ base.toList, Closed text n := fun n hn => (hbase n hn).close hopen
    exact List.forall_mem_append.mpr ⟨List.forall_mem_append.mpr ⟨hname, hbase⟩,
      List.forall_mem_singleton.mpr hbody⟩
  split
  · refine (hg.expression _ d).bind fun inner j hinner => ?_
    have hbase : Leads text j (node (placeAt text c) "class_heritage" [inner]) (Trailing text) :=
      node_trailing (List.forall_mem_singleton.mpr hinner)
    exact hbase.optional.bind hrest
  · exact hrest .none d nofun

end Grammar

end LiveChain.Syntax
