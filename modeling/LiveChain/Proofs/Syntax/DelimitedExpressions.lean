import LiveChain.Proofs.Syntax.DelimitedConstructs
import LiveChain.Proofs.Syntax.Expressions

/-!
# Numbers in expressions

Links, operators and brackets close the numbers before them. Only the last number of an expression
may still run on, if it ends the expression.
-/

set_option autoImplicit false

namespace LiveChain.Syntax

/-! ## Binary operators -/

def binaryOperators : List String :=
  ["??", "||", "&&", "|", "^", "&", "==", "!=", "===", "!==", "<", ">", "<=", ">=", "in",
   "instanceof", "<<", ">>", ">>>", "+", "-", "*", "/", "%", "**"]

theorem mem_of_strength {operator : String} {strength : Nat}
    (h : bindingStrength? operator = some strength) : operator ∈ binaryOperators := by
  by_contra hnot
  simp only [binaryOperators, List.mem_cons, List.not_mem_nil, not_or] at hnot
  simp [bindingStrength?, hnot] at h

/-- Binary operators are punctuators, and words that may stand behind numbers. -/
theorem detached_of_strength {operator : String} {strength : Nat}
    (h : bindingStrength? operator = some strength) :
    operator ≠ "" ∧ Detached operator.toList := by
  have hall : ∀ o ∈ binaryOperators, o.toList.head?.any
      fun c => c == 'i' || punctuationChars.contains c := by decide
  obtain ⟨c, hhead, hc⟩ := (Option.any_eq_true _ _).mp (hall operator (mem_of_strength h))
  obtain ⟨rest, hsplit⟩ := List.head?_eq_some_iff.mp hhead
  refine ⟨fun hempty => by simp [hempty] at hsplit, ?_⟩
  rw [hsplit]
  rcases Bool.or_eq_true_iff.mp hc with hc | hc
  · rw [beq_iff_eq.mp hc]
    exact .operator rest
  · exact .punctuation (List.mem_of_elem_eq_true hc) rest

namespace Grammar

variable {text : List Char} {g : Grammar} (hg : g.Delimits text)

include hg

/-! ## Primary expressions -/

theorem templateRound_closed {found : List Node} (h : ∀ n ∈ found, Closed text n) (i : Nat) :
    Leads text i (g.templateRound found) (Round.Meets
      (fun found _ => ∀ n ∈ found, Closed text n) fun pieces _ => ∀ n ∈ pieces, Closed text n) := by
  have hagain : ∀ {piece : Node}, Closed text piece → ∀ n ∈ piece :: found, Closed text n :=
    fun hpiece => List.forall_mem_cons.mpr ⟨hpiece, h⟩
  refine .get fun _ => ?_
  split
  · exact .failure
  · exact .pass fun _ _ _ => .pure (forall_mem_reverse h)
  · refine .pass fun _ a _ => (expressions_trailing hg _ a).bind fun inner b hinner => ?_
    refine .punct_detached (by decide) fun _ hb => ?_
    refine (node_closed (List.forall_mem_singleton.mpr (hinner.close hb))).bind fun _ _ hpiece => ?_
    exact .pure (hagain hpiece)
  · exact .ite .failure (.pass fun _ _ _ => leaf_closed.bind fun _ _ hpiece =>
      .pure (hagain hpiece))
  · exact .pass fun _ _ _ => leaf_closed.bind fun _ _ hpiece => .pure (hagain hpiece)

/-- The opening backtick of a template closes what stands before it. -/
theorem template_closed (i : Nat) : Leads text i g.template fun n _ =>
    Detached (text.drop i) ∧ Closed text n := by
  refine .place_past fun s hs => .punct_detached (by decide) fun a ha => ?_
  refine Leads.bind (.iterate _ (fun found j hfound => templateRound_closed hg hfound j) nofun)
    fun pieces j h => ?_
  exact (node_closed h).mono fun _ _ hn => ⟨hs.detached ha, hn⟩

theorem parenthesesRule_trailing (setting : Setting) (i : Nat) :
    Leads text i (g.parenthesesRule setting) (Trailing text) := by
  refine .place fun s _ _ => (elements_closed hg s).bind fun list a ⟨_, hlist⟩ => ?_
  refine .look looks_peekPunctuator fun p => .ite ?_ (.ite .failure ?_)
  · refine (parametersFrom_closed hlist a).bind fun parameters b hparameters => ?_
    exact arrowTail_trailing hg hparameters setting _ b
  · refine (sequenceOf_numbersEnd hlist a).bind fun inner j ⟨_, hinner⟩ => Leads.trailing ?_
    exact node_closed (List.forall_mem_singleton.mpr hinner)

theorem asyncRule_trailing (setting : Setting) (called : Bool) (i : Nat) :
    Leads text i (g.asyncRule setting called) (Trailing text) := by
  refine .place fun s _ _ => (identifier_closed text s).bind fun name a hname => ?_
  have hself : ∀ {j : Nat}, Leads text j (pure name) (Trailing text) := .pure (hname.trailing _)
  refine .look looks_peekPunctuator fun p => .look (looks_endsIn setting) fun ends => ?_
  refine .ite hself (.ite (arrowTail_trailing hg hname setting _ a) (.ite ?_ ?_))
  · refine .get fun ha => .place fun b _ _ => ?_
    refine (elements_closed hg b).bind fun list c ⟨_, hlist⟩ => ?_
    refine .look looks_peekPunctuator fun p => .ite ?_ (.ite ?_ ?_)
    · refine (parametersFrom_closed hlist c).bind fun parameters d hparameters => ?_
      exact arrowTail_trailing hg hparameters setting _ d
    · refine .spanFrom_any fun _ => Leads.trailing (.pure (numbersEnd_call.mpr ?_))
      exact List.forall_mem_cons.mpr ⟨hname, hlist⟩
    · exact (Leads.set (P := fun _ _ => True) ha trivial).bind fun _ _ _ => hself
  · refine .look looks_peekWord fun w => .look looks_punctuatorAfterWord fun q => .ite ?_ hself
    refine (identifier_closed text a).bind fun parameter b hparameter => ?_
    exact arrowTail_trailing hg hparameter setting _ b

omit hg in
theorem importRule_closed (i : Nat) : Leads text i importRule fun n _ => Closed text n := by
  refine .place fun _ _ _ => .keyword fun _ _ => .look looks_peekPunctuator fun p => ?_
  refine .look looks_upcoming fun cs => .ite ?_ ?_
  · exact .punct fun _ _ => .keyword fun _ _ => leaf_closed
  · exact .look looks_peekPunctuator fun q => .ite leaf_closed .failure

theorem wordPrimary_trailing (setting : Setting) (called : Bool) (w : String) (i : Nat) :
    Leads text i (g.wordPrimary setting called w) (Trailing text) := by
  refine .place fun s _ _ => ?_
  extract_lets literal
  have hliteral : ∀ value, (∀ v, value ≠ .number v) →
      Leads text s (literal value) (Trailing text) := fun value hvalue =>
    .keyword fun _ _ => .spanFrom_any fun _ => .pure (numbersEnd_literal hvalue)
  split
  · exact hliteral _ fun _ => Literal.noConfusion
  · exact hliteral _ fun _ => Literal.noConfusion
  · exact hliteral _ fun _ => Literal.noConfusion
  · exact (wordNode_closed text s _).trailing
  · exact (wordNode_closed text s _).trailing
  · exact (wordNode_closed text s _).trailing
  · exact (functionRule_closed hg _ s).trailing
  · exact (classRule_closed hg _ s).trailing
  · exact (importRule_closed s).trailing
  · refine .look (looks_asyncFunctionAhead setting) fun ahead => .ite ?_ ?_
    · exact (functionRule_closed hg _ s).trailing
    · exact asyncRule_trailing hg setting called s
  · refine .ite .failure ((identifier_closed text s).bind fun name a hname => ?_)
    refine .look looks_peekPunctuator fun p => .look (looks_endsIn setting) fun ends => ?_
    exact .ite (arrowTail_trailing hg hname setting _ a) (.pure (hname.trailing a))

theorem primary_trailing (setting : Setting) (called : Bool) (i : Nat) :
    Leads text i (g.primary setting called) (Trailing text) := by
  refine .look looks_upcoming fun cs => ?_
  split
  · exact .failure
  · have htemplate := (template_closed hg i).mono fun _ _ hn => hn.2
    refine .ite (stringLiteral_closed text i).trailing (.ite htemplate.trailing ?_)
    refine .ite (regexLiteral_closed text i).trailing ?_
    refine .ite (parenthesesRule_trailing hg setting i) (.ite (arrayRule_closed hg i).trailing ?_)
    refine .ite (objectRule_closed hg i).trailing (.ite (numberLiteral_trailing text i) ?_)
    exact wordPrimary_trailing hg setting called _ i

/-! ## Members and calls -/

section Link

variable {i : Nat} {object : Node} {start : Place}

omit hg in
theorem memberAccess_closed (h : Closed text object) :
    Leads text i (memberAccess start object) fun n _ => Closed text n := by
  refine .place fun a _ _ => .look looks_peekPunctuator fun p => ?_
  refine .either ((privateName_leads text a).mono fun _ _ _ => trivial)
    ((word_leads text a).mono fun _ _ _ => trivial) fun name j _ => ?_
  exact .spanFrom_any fun _ => .spanFrom_any fun _ => .pure (numbersEnd_member.mpr h)

theorem subscript_closed {parts : List Node} (h : ∀ n ∈ parts, Trailing text n i) :
    Leads text i (g.subscript start parts) fun n _ => Closed text n := by
  refine .punct_detached (by decide) fun a hi => ?_
  refine (expressions_trailing hg _ a).bind fun index b hindex => ?_
  refine .punct_detached (by decide) fun _ hb => node_closed (List.forall_mem_append.mpr ⟨?_, ?_⟩)
  · exact fun n hn => (h n hn).close hi
  · exact List.forall_mem_singleton.mpr (hindex.close hb)

variable (h : Trailing text object i)

include h

theorem callWith_closed : Leads text i (g.callWith start object) fun n _ => Closed text n := by
  refine (elements_closed hg i).bind fun list j ⟨hi, hlist⟩ => .spanFrom_any fun _ => .pure ?_
  exact numbersEnd_call.mpr (List.forall_mem_cons.mpr ⟨h.close hi, hlist⟩)

theorem optionalAccess_closed :
    Leads text i (g.optionalAccess start object) fun n _ => Closed text n := by
  refine .place_past fun m hm => .punct_detached (by decide) fun a ha => ?_
  have hobject := h.close (hm.detached ha)
  refine leaf_closed.bind fun mark b hmark => .look looks_peekPunctuator fun p => ?_
  refine .ite (.ite .failure ?_) (.ite ?_ (memberAccess_closed hobject))
  · exact callWith_closed hg (hobject.trailing b)
  · refine subscript_closed hg ?_
    simp [hobject.trailing b, hmark.trailing b]

theorem tagged_closed : Leads text i (g.tagged start object) fun n _ => Closed text n := by
  refine (template_closed hg i).bind fun t j ⟨hi, ht⟩ => node_closed ?_
  simp [h.close hi, ht]

theorem chainRound_trailing (setting : Setting) (links : Links) :
    Leads text i (g.chainRound setting links start object)
      (Round.Meets (Trailing text) (Trailing text)) := by
  have hagain : ∀ {x : Rule Node} {j : Nat}, Leads text j x (fun n _ => Closed text n) →
      Leads text j (.again <$> x) (Round.Meets (Trailing text) (Trailing text)) :=
    fun hx => hx.trailing.map fun _ _ hn => hn
  refine .look (looks_endsIn setting) fun ends => .ite (.pure h) ?_
  refine .look looks_peekPunctuator fun p => .ite ?_ (.ite ?_ (.ite ?_ ?_))
  · exact .punct_detached (by decide) fun _ hi => hagain (memberAccess_closed (h.close hi))
  · exact hagain (subscript_closed hg (List.forall_mem_singleton.mpr h))
  · exact hagain (tagged_closed hg h)
  · refine .ite (hagain (optionalAccess_closed hg h)) (.ite (hagain (callWith_closed hg h)) ?_)
    split
    · next hupdate =>
      have hne : p ≠ "" := by
        rintro rfl
        exact absurd (Bool.and_eq_true_iff.mp hupdate).1 (by decide)
      refine .punct_detached hne fun _ hi => hagain (node_closed ?_)
      exact List.forall_mem_singleton.mpr (h.close hi)
    · exact .pure h

theorem chainFrom_trailing (setting : Setting) (links : Links) :
    Leads text i (g.chainFrom setting links start object) (Trailing text) :=
  .iterate (Trailing text) (fun _ _ hobject => chainRound_trailing hg hobject setting links) h

end Link

theorem newRule_trailing (setting : Setting) (i : Nat) :
    Leads text i (g.newRule setting) (Trailing text) := by
  refine .place fun s _ _ => .keyword fun a _ => .optionalPunct (fun b _ => ?_) ?_
  · exact .keyword fun _ _ => leaf_closed.trailing
  · refine (hg.constructible setting a).bind fun target b htarget => ?_
    refine .look (looks_endsIn setting) fun ends => .look looks_peekPunctuator fun p => .ite ?_ ?_
    · exact node_trailing (List.forall_mem_singleton.mpr htarget)
    · refine .place_past fun c hc => (elements_closed hg c).bind fun list j ⟨hopen, hlist⟩ => ?_
      refine (node_closed hlist).bind fun arguments k harguments => Leads.trailing (node_closed ?_)
      simp [htarget.close (hc.detached hopen), harguments]

theorem constructibleRule_trailing (setting : Setting) (i : Nat) :
    Leads text i (g.constructibleRule setting) (Trailing text) := by
  refine .place fun s _ _ => .look looks_peekWord fun w => .ite ?_ ?_
  · refine (newRule_trailing hg setting s).bind fun inner a hinner => ?_
    refine .look looks_peekPunctuator fun p => .ite (.pure hinner) ?_
    exact chainFrom_trailing hg hinner setting _
  · refine (primary_trailing hg setting _ s).bind fun head a hhead => ?_
    exact chainFrom_trailing hg hhead setting _

/-! ## Operands -/

section Operand

variable (setting : Setting)

theorem assignmentTail_trailing {i : Nat} {left : Node} (h : Trailing text left i) (start : Place) :
    Leads text i (g.assignmentTail setting start left) (Trailing text) := by
  refine .look looks_peekPunctuator fun p => .ite ?_ ?_
  · split
    · next target htarget =>
      refine .punct_detached (by decide) fun a hi => ?_
      refine (hg.expression setting a).bind fun value j hvalue => node_trailing ?_
      have hclosed : Closed text target := target?_numbersEnd (h.close hi) htarget
      simp [hclosed.trailing j, hvalue]
    · exact .pure h
  · split
    · next haugmented =>
      have hne : p ≠ "" := by
        rintro rfl
        exact absurd (Bool.and_eq_true_iff.mp haugmented).1 (by decide)
      refine .punct_detached hne fun a hi => ?_
      refine (hg.expression setting a).bind fun value j hvalue => node_trailing ?_
      simp [(h.close hi).trailing j, hvalue]
    · exact .pure h

theorem chainTail_trailing {i : Nat} {head : Node} (h : Trailing text head i) (updates : Bool)
    (start : Place) : Leads text i (g.chainTail setting updates start head) (Trailing text) := by
  refine (chainFrom_trailing hg h setting _).bind fun chain a hchain => ?_
  refine .look (looks_endsIn setting) fun ends => .ite (.pure hchain) ?_
  exact assignmentTail_trailing hg setting hchain start

theorem chainRule_trailing (updates : Bool) (i : Nat) :
    Leads text i (g.chainRule setting updates) (Trailing text) := by
  refine .place fun s _ _ => .look looks_peekWord fun w => ?_
  refine .either (newRule_trailing hg setting s) (primary_trailing hg setting true s)
    fun head a h => ?_
  exact chainTail_trailing hg setting h updates _

theorem yieldRule_trailing (updates : Bool) (i : Nat) :
    Leads text i (g.yieldRule setting updates) (Trailing text) := by
  refine .place fun s _ _ => .keyword fun a _ => .look (looks_endsIn setting) fun ended => ?_
  refine .either (P := fun _ _ => True) (.pure trivial)
    ((optionalPunct_leads text a "*").mono fun _ _ _ => trivial) fun star b _ => ?_
  refine .look looks_peekWord fun w => .look looks_upcoming fun cs => .ite ?_ ?_
  · refine (hg.expression setting b).bind fun inner j hinner => ?_
    exact node_trailing (List.forall_mem_singleton.mpr hinner)
  · refine leaf_closed.bind fun bare j hbare => ?_
    exact chainTail_trailing hg setting (hbare.trailing j) updates _

omit hg in
theorem privateOperand_trailing {rest : Rule Node} (hrest : ∀ i, Leads text i rest (Trailing text))
    (i : Nat) : Leads text i (privateOperand rest) (Trailing text) := by
  refine .place fun s _ _ => (privateName_leads text s).bind fun _ a _ => ?_
  refine leaf_closed.bind fun name b hname => .keyword fun c _ => ?_
  exact (hrest c).bind fun right j hright => .pure (joined_numbersEnd (hname.trailing j) hright)

omit hg in
theorem binaryOperator?_detached (least i : Nat) :
    Leads text i (binaryOperator? setting least) fun strength j =>
      (strength ≠ .none → Detached (text.drop i)) ∧ (strength = .none → j = i) := by
  have hnone : Leads text i (pure Option.none : Rule (Option Nat)) fun strength j =>
      (strength ≠ .none → Detached (text.drop i)) ∧ (strength = .none → j = i) :=
    .pure ⟨absurd rfl, fun _ => rfl⟩
  refine .look (looks_endsIn setting) fun ends => .ite hnone ?_
  refine .peekWord fun w hw => .peekPunctuator fun p hp => ?_
  extract_lets operator
  split
  · next strength hstrength =>
    refine .ite hnone ((passTrivia_leads text i).bind fun _ a _ => .pass fun _ j _ => ?_)
    refine .pure ⟨fun _ => ?_, nofun⟩
    obtain ⟨hne, hdetached⟩ := detached_of_strength hstrength
    by_cases hempty : w.isEmpty = true
    · have hoperator : operator = p := if_pos hempty
      exact hp (hoperator ▸ hne)
    · have hoperator : operator = w := if_neg hempty
      exact hw (hoperator ▸ hne) (hoperator ▸ hdetached)
  · exact hnone

omit hg in
theorem operandsFrom_trailing {operand : Rule Node}
    (hoperand : ∀ i, Leads text i operand (Trailing text)) (least i : Nat) :
    Leads text i (operandsFrom setting least operand) (Trailing text) := by
  refine (hoperand i).bind fun first b hfirst => ?_
  refine Leads.bind (P := fun rest j => Trailing text first j ∧ ∀ o ∈ rest, Trailing text o.2 j) ?_
    fun rest j ⟨hfirst, hrest⟩ => .pure (combine_numbersEnd hfirst hrest)
  refine .iterate (fun found j => Trailing text first j ∧ ∀ o ∈ found, Trailing text o.2 j)
    (fun found j ⟨hfirst, hfound⟩ => ?_) ⟨hfirst, nofun⟩
  refine (binaryOperator?_detached setting least j).bind fun strength k ⟨hdetached, hstay⟩ => ?_
  split
  · -- the operator closes all operands before it, and only its right operand may run on
    have hj := hdetached (Option.some_ne_none _)
    refine (hoperand k).bind fun right l hright => .pure ⟨(hfirst.close hj).trailing l, ?_⟩
    exact List.forall_mem_cons.mpr ⟨hright, fun o ho => ((hfound o ho).close hj).trailing l⟩
  · rw [hstay rfl]
    exact .pure ⟨hfirst, forall_mem_reverse hfound⟩

theorem unary_trailing (start : Place) (operator : String) (updates : Bool) (i : Nat) :
    Leads text i (do
      let inner ← g.operand setting updates
      return .unary (← spanFrom start) operator inner) (Trailing text) :=
  (hg.operand setting updates i).bind fun _ _ hinner => .spanFrom_any fun _ =>
    .pure (numbersEnd_unary.mpr hinner)

theorem operandRule_trailing (updates : Bool) (i : Nat) :
    Leads text i (g.operandRule setting updates) (Trailing text) := by
  refine .place fun s _ _ => .look looks_peekWord fun w => .look looks_peekPunctuator fun p => ?_
  refine .ite (.keyword fun a _ => unary_trailing hg setting _ w true a) (.ite ?_ (.ite ?_ ?_))
  · refine .keyword fun a _ => (hg.operand setting true a).bind fun inner j hinner => ?_
    exact node_trailing (List.forall_mem_singleton.mpr hinner)
  · exact yieldRule_trailing hg setting updates s
  · refine .ite (.punct fun a _ => unary_trailing hg setting _ p true a) ?_
    refine .ite (.punct fun a _ => ?_) ?_
    · refine (hg.operand setting false a).bind fun inner b hinner => ?_
      refine (node_trailing (List.forall_mem_singleton.mpr hinner)).bind fun update c hupdate => ?_
      exact chainFrom_trailing hg hupdate setting _
    · refine .ite ?_ (chainRule_trailing hg setting updates s)
      refine privateOperand_trailing (fun j => ?_) s
      exact operandsFrom_trailing setting (hg.operand setting true) 9 j

end Operand

/-! ## Whole expressions -/

theorem expressionRule_trailing (setting : Setting) (i : Nat) :
    Leads text i (g.expressionRule setting) (Trailing text) := by
  refine .place fun s _ _ => ?_
  refine (operandsFrom_trailing setting (operandRule_trailing hg setting true) 0 s).bind
    fun test a htest => ?_
  refine .look (looks_endsIn setting) fun ends => .ite (.pure htest) ?_
  refine .get fun _ => .ite (.punct_detached (by decide) fun b ha => ?_) (.pure htest)
  refine (hg.expression _ b).bind fun yes c hyes => .punct_detached (by decide) fun d hc => ?_
  refine (hg.expression setting d).bind fun no j hno => node_trailing ?_
  simp [(htest.close ha).trailing j, (hyes.close hc).trailing j, hno]

end Grammar

end LiveChain.Syntax
