import LiveChain.Proofs.Syntax.Constructs
import LiveChain.Syntax.Grammar.Expression

/-!
# Expressions fit their text

Each rule for expressions gives a node that reaches to the cursor, if the rules for smaller texts
do: leaves hold their characters, a chain starts with its first expression, unary operators end with
their operands, and binary operators stand between theirs.
-/

set_option autoImplicit false

namespace LiveChain.Syntax.Grammar

variable {text : List Char} {g : Grammar} (hg : g.Fits text)

include hg

/-! ## Primary expressions -/

theorem templateRound_leads {s j : Nat} {found : List Node} (h : Within text s j found.reverse) :
    Leads text j (g.templateRound found) (Round.Meets
      (fun found j => Within text s j found.reverse) fun pieces j => Within text s j pieces) := by
  refine .get fun _ => ?_
  split
  · exact .failure
  · exact .pass fun _ k hk => .pure (h.mono (Nat.le_refl s) hk)
  · refine .pass fun _ a ha => (expressions_leads hg _ a).bind fun inner b hinner => ?_
    refine .punct fun k hk => .node (hinner.cons ha (.nil hk)) (by decide) fun piece hpiece => ?_
    exact .pure (h.push (hpiece.cons (Nat.le_refl j) (.nil (Nat.le_refl k))))
  · refine .ite .failure (.pass fun _ k hk => .node (.nil hk) (by decide) fun piece hpiece => ?_)
    exact .pure (h.push (hpiece.cons (Nat.le_refl j) (.nil (Nat.le_refl k))))
  · refine .pass fun _ k hk => .node (.nil hk) (by decide) fun piece hpiece => ?_
    exact .pure (h.push (hpiece.cons (Nat.le_refl j) (.nil (Nat.le_refl k))))

theorem template_leads (i : Nat) : Leads text i g.template (Reaches text i) := by
  refine .place fun s hs _ => .punct fun a ha => ?_
  refine Leads.bind (.iterate _ (fun found j hfound => templateRound_leads hg hfound) (.nil ha))
    fun pieces j h => ?_
  exact node_leads h hs (by decide)

theorem parenthesesRule_leads (setting : Setting) (i : Nat) :
    Leads text i (g.parenthesesRule setting) (Reaches text i) := by
  refine .place fun s hs _ => (elements_leads hg s).bind fun list a hlist => ?_
  refine .look looks_peekPunctuator fun p => .ite ?_ (.ite .failure ?_)
  · refine (parametersFrom_leads hlist (Nat.le_refl s)).bind fun parameters b hparameters => ?_
    exact arrowTail_leads hg hparameters.within hs setting
  · obtain ⟨c, hrow, hc⟩ := hlist
    refine (sequenceOf_leads hrow a).bind ?_
    rintro inner _ ⟨rfl, hinner⟩
    exact node_leads (hinner.cons (Nat.le_refl s) (.nil hc)) hs (by decide)

theorem asyncRule_leads (setting : Setting) (called : Bool) (i : Nat) :
    Leads text i (g.asyncRule setting called) (Reaches text i) := by
  refine .place fun s hs _ => (identifier_leads text s).bind fun name a hname => ?_
  have hself := hname.mono hs
  refine .look looks_peekPunctuator fun p => .look (looks_endsIn setting) fun ends => ?_
  refine .ite (.pure hself) (.ite (arrowTail_leads hg hname.within hs setting) (.ite ?_ ?_))
  · refine .get fun ha => .place fun b hb _ => (elements_leads hg b).bind fun list c hlist => ?_
    refine .look looks_peekPunctuator fun p => .ite ?_ (.ite ?_ ?_)
    · refine (parametersFrom_leads hlist (Nat.le_refl b)).bind fun parameters d hparameters => ?_
      have hwithin := hparameters.within.mono (Nat.le_trans hname.le hb) (Nat.le_refl d)
      exact arrowTail_leads hg hwithin hs setting
    · have hparts := hname.cons (Nat.le_refl s) (hlist.mono hb (Nat.le_refl c))
      exact .spanFrom (.pure ⟨s, hs, hparts.call⟩)
    · -- the parentheses belong to what follows: back to the end of the name
      exact (Leads.set (P := fun _ j => j = a) ha rfl).bind fun _ j hj => .pure (hj ▸ hself)
  · refine .look looks_peekWord fun w => .look looks_punctuatorAfterWord fun q => ?_
    refine .ite ((identifier_leads text a).bind fun parameter b hparameter => ?_) (.pure hself)
    have hwithin := hparameter.within.mono hname.le (Nat.le_refl b)
    exact arrowTail_leads hg hwithin hs setting

omit hg in
theorem importRule_leads (i : Nat) : Leads text i importRule (Reaches text i) := by
  refine .place fun s hs _ => .keyword fun a ha => ?_
  refine .look looks_peekPunctuator fun p => .look looks_upcoming fun cs => .ite ?_ ?_
  · refine .punct fun b hb => .keyword fun c hc => ?_
    exact node_leads (.nil (by omega)) hs (by decide)
  · refine .look looks_peekPunctuator fun q => .ite ?_ .failure
    exact node_leads (.nil (Nat.le_of_lt ha)) hs (by decide)

theorem wordPrimary_leads (setting : Setting) (called : Bool) (w : String) (i : Nat) :
    Leads text i (g.wordPrimary setting called w) (Reaches text i) := by
  refine .place fun s hs hfresh => ?_
  extract_lets literal
  have hliteral : ∀ value : Literal, value.Denotes w →
      Leads text s (literal value) (Reaches text i) := by
    refine fun value hvalue => (keyword_leads text s w).bind fun _ j ⟨hj, hraw⟩ => ?_
    rw [hraw hfresh] at hvalue ⊢
    exact .spanFrom (.pure ⟨s, hs, .literal hj hvalue⟩)
  split
  · exact hliteral .null rfl
  · exact hliteral (.bool true) rfl
  · exact hliteral (.bool false) rfl
  · exact (wordNode_leads text s (by decide)).later hs
  · exact (wordNode_leads text s (by decide)).later hs
  · exact (wordNode_leads text s (by decide)).later hs
  · exact (functionRule_leads hg _ s).later hs
  · exact (classRule_leads hg _ s).later hs
  · exact (importRule_leads s).later hs
  · refine .look (looks_asyncFunctionAhead setting) fun ahead => .ite ?_ ?_
    · exact (functionRule_leads hg _ s).later hs
    · exact (asyncRule_leads hg setting called s).later hs
  · refine .ite .failure ((identifier_leads text s).bind fun name a hname => ?_)
    refine .look looks_peekPunctuator fun p => .look (looks_endsIn setting) fun ends => ?_
    exact .ite (arrowTail_leads hg hname.within hs setting) (.pure (hname.mono hs))

theorem primary_leads (setting : Setting) (called : Bool) (i : Nat) :
    Leads text i (g.primary setting called) (Reaches text i) := by
  refine .look looks_upcoming fun cs => ?_
  split
  · exact .failure
  · refine .ite (stringLiteral_leads text i) (.ite (template_leads hg i) ?_)
    refine .ite (regexLiteral_leads text i) (.ite (parenthesesRule_leads hg setting i) ?_)
    refine .ite (arrayRule_leads hg i) (.ite (objectRule_leads hg i) ?_)
    exact .ite (numberLiteral_leads text i) (wordPrimary_leads hg setting called _ i)

/-! ## Members and calls -/

section Link

variable {s i : Nat} {object : Node}

omit hg in
theorem memberAccess_leads (h : Within text s i [object]) :
    Leads text i (memberAccess (placeAt text s) object) (Reaches text s) := by
  refine .place fun a ha hfresh => .look looks_peekPunctuator fun p => ?_
  refine .either (P := fun name j => a < j ∧ name = String.ofList (slice text a j))
    ((privateName_leads text a).mono fun _ _ hj => ⟨hj.1, hj.2 hfresh⟩)
    ((word_leads text a).mono fun _ _ hj => ⟨hj.1, hj.2 hfresh⟩) fun name j ⟨hj, hname⟩ => ?_
  have hobject := h.mono (Nat.le_refl s) ha
  rw [hname]
  exact .spanFrom (.spanFrom (.pure ⟨s, Nat.le_refl s, hobject.member hj⟩))

theorem subscript_leads {parts : List Node} (h : Within text s i parts) :
    Leads text i (g.subscript (placeAt text s) parts) (Reaches text s) := by
  refine .punct fun a ha => (expressions_leads hg _ a).bind fun index b hindex => ?_
  refine .punct fun j hj => ?_
  exact node_leads (h.append (hindex.within.mono ha hj)) (Nat.le_refl s) (by decide)

theorem callWith_leads (h : Within text s i [object]) :
    Leads text i (g.callWith (placeAt text s) object) (Reaches text s) := by
  refine (elements_leads hg i).bind fun list j hlist => ?_
  exact .spanFrom (.pure ⟨s, Nat.le_refl s, (h.append hlist).call⟩)

theorem optionalAccess_leads (h : Within text s i [object]) :
    Leads text i (g.optionalAccess (placeAt text s) object) (Reaches text s) := by
  refine .place fun m hm _ => .punct fun a ha => .node (.nil ha) (by decide) fun mark hmark => ?_
  refine .look looks_peekPunctuator fun p => .ite (.ite .failure ?_) (.ite ?_ ?_)
  · exact callWith_leads hg (h.mono (Nat.le_refl s) (Nat.le_trans hm ha))
  · exact subscript_leads hg (h.append (hmark.cons hm (.nil (Nat.le_refl a))))
  · exact memberAccess_leads (h.mono (Nat.le_refl s) (Nat.le_trans hm ha))

theorem tagged_leads (h : Within text s i [object]) :
    Leads text i (g.tagged (placeAt text s) object) (Reaches text s) := by
  refine (template_leads hg i).bind fun t j ht => ?_
  exact node_leads (h.append ht.within) (Nat.le_refl s) (by decide)

/-- One more link keeps the start of a chain and moves its end. -/
theorem chainRound_leads (h : Reaches text s object i) (setting : Setting) (links : Links) :
    Leads text i (g.chainRound setting links (placeAt text s) object)
      (Round.Meets (Reaches text s) (Reaches text s)) := by
  have hagain : ∀ {x : Rule Node} {j : Nat}, Leads text j x (Reaches text s) →
      Leads text j (.again <$> x) (Round.Meets (Reaches text s) (Reaches text s)) :=
    fun hx => hx.map fun _ _ hn => hn
  refine .look (looks_endsIn setting) fun ends => .ite (.pure h) ?_
  refine .look looks_peekPunctuator fun p => .ite (.punct fun a ha => ?_) (.ite ?_ (.ite ?_ ?_))
  · exact hagain (memberAccess_leads (h.within.mono (Nat.le_refl s) ha))
  · exact hagain (subscript_leads hg h.within)
  · exact hagain (tagged_leads hg h.within)
  · refine .ite ?_ (.ite ?_ (.ite (.punct fun a ha => ?_) (.pure h)))
    · exact hagain (optionalAccess_leads hg h.within)
    · exact hagain (callWith_leads hg h.within)
    · exact hagain (node_leads (h.within.mono (Nat.le_refl s) ha) (Nat.le_refl s) (by decide))

theorem chainFrom_leads (h : Reaches text s object i) (setting : Setting) (links : Links) :
    Leads text i (g.chainFrom setting links (placeAt text s) object) (Reaches text s) :=
  .iterate (Reaches text s) (fun _ _ hobject => chainRound_leads hg hobject setting links) h

end Link

theorem newRule_leads (setting : Setting) (i : Nat) :
    Leads text i (g.newRule setting) (Reaches text i) := by
  refine .place fun s hs _ => .keyword fun a ha => .optionalPunct (fun b hb => ?_) ?_
  · refine .keyword fun j hj => ?_
    exact node_leads (.nil (by omega)) hs (by decide)
  · refine (hg.constructible setting a).bind fun target b htarget => ?_
    refine .look (looks_endsIn setting) fun ends => .look looks_peekPunctuator fun p => .ite ?_ ?_
    · exact node_leads (htarget.cons (Nat.le_of_lt ha) (.nil (Nat.le_refl b))) hs (by decide)
    · refine .place fun c hc _ => (elements_leads hg c).bind fun list j hlist => ?_
      refine .node hlist (by decide) fun arguments harguments => ?_
      have hparts := htarget.cons (Nat.le_of_lt ha) (harguments.cons hc (.nil (Nat.le_refl j)))
      exact node_leads hparts hs (by decide)

theorem constructibleRule_leads (setting : Setting) (i : Nat) :
    Leads text i (g.constructibleRule setting) (Reaches text i) := by
  refine .place fun s hs _ => .look looks_peekWord fun w => .ite ?_ ?_
  · refine (newRule_leads hg setting s).bind fun inner a hinner => ?_
    refine .look looks_peekPunctuator fun p => .ite (.pure (hinner.mono hs)) ?_
    exact (chainFrom_leads hg hinner setting _).later hs
  · refine (primary_leads hg setting _ s).bind fun head a hhead => ?_
    exact (chainFrom_leads hg hhead setting _).later hs

/-! ## Operands -/

section Operand

variable {s i : Nat} (setting : Setting)

theorem assignmentTail_leads {left : Node} (h : Reaches text s left i) :
    Leads text i (g.assignmentTail setting (placeAt text s) left) (Reaches text s) := by
  refine .look looks_peekPunctuator fun p => .ite ?_ (.ite (.punct fun a ha => ?_) (.pure h))
  · split
    · next target htarget =>
      refine .punct fun a ha => (hg.expression setting a).bind fun value j hvalue => ?_
      have hparts := (target?_reaches h htarget).cons (Nat.le_refl s)
        (hvalue.within.mono ha (Nat.le_refl j))
      exact node_leads hparts (Nat.le_refl s) (by decide)
    · exact .pure h
  · refine (hg.expression setting a).bind fun value j hvalue => ?_
    exact node_leads (h.cons (Nat.le_refl s) (hvalue.within.mono ha (Nat.le_refl j)))
      (Nat.le_refl s) (by decide)

theorem chainTail_leads {head : Node} (h : Reaches text s head i) (updates : Bool) :
    Leads text i (g.chainTail setting updates (placeAt text s) head) (Reaches text s) := by
  refine (chainFrom_leads hg h setting _).bind fun chain a hchain => ?_
  refine .look (looks_endsIn setting) fun ends => .ite (.pure hchain) ?_
  exact assignmentTail_leads hg setting hchain

theorem chainRule_leads (updates : Bool) (i : Nat) :
    Leads text i (g.chainRule setting updates) (Reaches text i) := by
  refine .place fun s hs _ => .look looks_peekWord fun w => ?_
  refine .either (newRule_leads hg setting s) (primary_leads hg setting true s) fun head a h => ?_
  exact (chainTail_leads hg setting h updates).later hs

theorem yieldRule_leads (updates : Bool) (i : Nat) :
    Leads text i (g.yieldRule setting updates) (Reaches text i) := by
  refine .place fun s hs _ => .keyword fun a ha => .look (looks_endsIn setting) fun ended => ?_
  refine .either (P := fun _ j => a ≤ j) (.pure (Nat.le_refl a))
    ((optionalPunct_leads text a "*").mono fun _ j hj => hj.1) fun star b hb => ?_
  refine .look looks_peekWord fun w => .look looks_upcoming fun cs => .ite ?_ ?_
  · refine (hg.expression setting b).bind fun inner j hinner => ?_
    exact node_leads (hinner.cons (by omega) (.nil (Nat.le_refl j))) hs (by decide)
  · refine .node (.nil (by omega)) (by decide) fun bare hbare => ?_
    exact (chainTail_leads hg setting ⟨s, Nat.le_refl s, hbare⟩ updates).later hs

omit hg in
theorem privateOperand_leads {rest : Rule Node}
    (hrest : ∀ i, Leads text i rest (Reaches text i)) (i : Nat) :
    Leads text i (privateOperand rest) (Reaches text i) := by
  refine .place fun s hs _ => (privateName_leads text s).bind fun _ a ⟨ha, _⟩ => ?_
  refine .node (.nil (Nat.le_of_lt ha)) (by decide) fun name hname => .keyword fun b hb => ?_
  refine (hrest b).bind fun right j ⟨c, hc, hright⟩ => ?_
  exact .pure ⟨s, hs, joined_covers hname hright (by omega)⟩

omit hg in
theorem binaryOperator?_leads (least i : Nat) :
    Leads text i (binaryOperator? setting least)
      fun strength j => i ≤ j ∧ (strength = .none → j = i) := by
  have hnone : Leads text i (pure Option.none : Rule (Option Nat))
      fun strength j => i ≤ j ∧ (strength = .none → j = i) :=
    .pure ⟨Nat.le_refl i, fun _ => rfl⟩
  refine .look (looks_endsIn setting) fun ends => .ite hnone ?_
  refine .look looks_peekWord fun w => .look looks_peekPunctuator fun p => ?_
  extract_lets operator
  split
  · next strength _ =>
    refine .ite hnone ((passTrivia_leads text i).bind fun _ a ⟨ha, _⟩ => .pass fun _ j hj => ?_)
    exact .pure ⟨Nat.le_trans ha hj, nofun⟩
  · exact hnone

omit hg in
theorem operandsFrom_leads {operand : Rule Node}
    (hoperand : ∀ i, Leads text i operand (Reaches text i)) (least i : Nat) :
    Leads text i (operandsFrom setting least operand) (Reaches text i) := by
  refine (hoperand i).bind fun first b hfirst => ?_
  refine Leads.bind (P := fun rest j => Row text b j (rest.map (·.2))) ?_ fun rest j hrest =>
    .pure (combine_reaches hfirst hrest)
  refine .iterate (fun found j => Row text b j (found.map (·.2)).reverse)
    (fun found j hfound => ?_) .nil
  refine (binaryOperator?_leads setting least j).bind fun strength k ⟨hk, hstay⟩ => ?_
  split
  · exact (hoperand k).bind fun right l hright => .pure (hfound.push (hright.mono hk))
  · rw [hstay rfl]
    rw [← List.map_reverse] at hfound
    exact .pure hfound

/-- A unary operator of at least one character ends with its operand. -/
theorem unary_leads {s a k : Nat} (h : s < a) (hk : k ≤ s) (operator : String) (updates : Bool) :
    Leads text a (do
      let inner ← g.operand setting updates
      return .unary (← spanFrom (placeAt text s)) operator inner) (Reaches text k) := by
  refine (hg.operand setting updates a).bind fun inner j ⟨c, hc, hinner⟩ => ?_
  exact .spanFrom (.pure ⟨s, hk, .unary operator (by omega) hinner⟩)

theorem operandRule_leads (updates : Bool) (i : Nat) :
    Leads text i (g.operandRule setting updates) (Reaches text i) := by
  refine .place fun s hs _ => .look looks_peekWord fun w => .look looks_peekPunctuator fun p => ?_
  refine .ite (.keyword fun a ha => unary_leads hg setting ha hs w true) (.ite ?_ (.ite ?_ ?_))
  · refine .keyword fun a ha => (hg.operand setting true a).bind fun inner j hinner => ?_
    exact node_leads (hinner.cons (Nat.le_of_lt ha) (.nil (Nat.le_refl j))) hs (by decide)
  · exact (yieldRule_leads hg setting updates s).later hs
  · split
    · next hp =>
      have hne : p ≠ "" := by
        rintro rfl
        exact absurd hp (by decide)
      refine (punct_leads text s p).bind fun _ a ⟨_, ha⟩ => ?_
      exact unary_leads hg setting (ha hne) hs p true
    · refine .ite (.punct fun a ha => ?_) (.ite ?_ ?_)
      · refine (hg.operand setting false a).bind fun inner b hinner => ?_
        refine .node (hinner.cons ha (.nil (Nat.le_refl b))) (by decide) fun update hupdate => ?_
        exact (chainFrom_leads hg ⟨s, Nat.le_refl s, hupdate⟩ setting _).later hs
      · refine (privateOperand_leads (fun j => ?_) s).later hs
        exact operandsFrom_leads setting (hg.operand setting true) 9 j
      · exact (chainRule_leads hg setting updates s).later hs

end Operand

/-! ## Whole expressions -/

theorem expressionRule_leads (setting : Setting) (i : Nat) :
    Leads text i (g.expressionRule setting) (Reaches text i) := by
  refine .place fun s hs _ => ?_
  refine (operandsFrom_leads setting (operandRule_leads hg setting true) 0 s).bind
    fun test a htest => ?_
  refine .look (looks_endsIn setting) fun ends => .ite (.pure (htest.mono hs)) ?_
  refine .get fun _ => .ite (.punct fun b hb => ?_) (.pure (htest.mono hs))
  refine (hg.expression _ b).bind fun yes c hyes => .punct fun d hd => ?_
  refine (hg.expression setting d).bind fun no j hno => ?_
  have hparts := htest.cons (Nat.le_refl s) ((hyes.cons hb (hno.cons hd (.nil (Nat.le_refl j)))))
  exact node_leads hparts hs (by decide)

end LiveChain.Syntax.Grammar
