import LiveChain.Proofs.Syntax.DelimitedExpressions
import LiveChain.Proofs.Syntax.Statements

/-!
# Numbers in statements

A statement ends with a semicolon, a brace or where it may end by itself, so behind none of its
numbers stands what the number could run on into.
-/

set_option autoImplicit false

namespace LiveChain.Syntax.Grammar

variable {text : List Char} {g : Grammar} (hg : g.Delimits text)

include hg

/-! ## Declarations -/

theorem declaredPattern_closed (i : Nat) :
    Leads text i g.declaredPattern fun n _ => Closed text n := by
  refine .look looks_peekPunctuator fun p => .ite ?_ (identifier_closed text i)
  refine .either (arrayRule_closed hg i) (objectRule_closed hg i) fun literal j hliteral => ?_
  beta_reduce
  split
  · next pattern hpattern => exact .pure (pattern?_numbersEnd hliteral hpattern)
  · exact .failure

theorem declarator_trailing (i : Nat) : Leads text i g.declarator (Trailing text) := by
  refine .place fun s _ _ => (declaredPattern_closed hg s).bind fun target a htarget => ?_
  refine .look (looks_endsHere true) fun ends => ?_
  refine .either (P := fun value j => ∀ n ∈ target :: value.toList, Trailing text n j)
    (.pure (List.forall_mem_singleton.mpr (htarget.trailing a)))
    (initializer?_trailing hg (htarget.trailing a) _) fun value j hparts => ?_
  exact node_trailing hparts

theorem declarators_closed (i : Nat) :
    Leads text i g.declarators fun all _ => ∀ n ∈ all, Closed text n := by
  refine (declarator_trailing hg i).bind fun first a hfirst => ?_
  refine Leads.bind (P := fun (found : List Node × Node) j =>
    (∀ n ∈ found.1, Closed text n) ∧ Trailing text found.2 j) ?_ fun found b ⟨hfound, hlast⟩ => ?_
  · refine .iterate (fun (found : List Node × Node) j =>
      (∀ n ∈ found.1, Closed text n) ∧ Trailing text found.2 j)
      (fun found j ⟨hfound, hlast⟩ => ?_) ⟨nofun, hfirst⟩
    refine .look (looks_endsHere _) fun ends => .ite (.pure ⟨hfound, hlast⟩) ?_
    refine .optionalPunct_detached (by decide) (fun b hj => ?_) (.pure ⟨hfound, hlast⟩)
    refine (declarator_trailing hg b).bind fun next k hnext => .pure ⟨?_, hnext⟩
    exact List.forall_mem_cons.mpr ⟨hlast.close hj, hfound⟩
  · refine .endStatement_detached fun _ hb => .pure (forall_mem_reverse ?_)
    exact List.forall_mem_cons.mpr ⟨hlast.close hb, hfound⟩

theorem declaration_closed (i : Nat) : Leads text i g.declaration fun n _ => Closed text n :=
  .place fun _ _ _ => .word fun _ a _ => (declarators_closed hg a).bind fun _ _ hall =>
    node_closed hall

/-! ## Loops -/

section Head

variable {i : Nat}

theorem forEachTail_closed {targets : List Node} (h : ∀ n ∈ targets, Trailing text n i) :
    Leads text i (g.forEachTail targets) fun parts _ => ∀ n ∈ parts, Closed text n := by
  refine .word_detached fun w a hw => ?_
  split
  · next hword =>
    -- no punctuator stands behind the targets, but a word that no number runs on into
    have hi : Detached (text.drop i) := by
      rcases Bool.or_eq_true_iff.mp hword with hword | hword <;> rw [beq_iff_eq.mp hword] at hw
      · exact hw (by decide) (.operator _)
      · exact hw (by decide) (.range _)
    refine (expressions_trailing hg _ a).bind fun range b hrange => ?_
    refine .punct_detached (by decide) fun _ hb => .pure (List.forall_mem_append.mpr ⟨?_, ?_⟩)
    · exact fun n hn => (h n hn).close hi
    · exact List.forall_mem_singleton.mpr (hrange.close hb)
  · exact .failure

theorem forTail_closed {initial : Node} (h : Closed text initial) :
    Leads text i (g.forTail initial) fun parts _ => ∀ n ∈ parts, Closed text n := by
  refine .place fun c _ _ => (optionalPunct_leads text c ";").bind fun found d _ => ?_
  extract_lets rest
  have hrest : ∀ condition j, Closed text condition →
      Leads text j (rest condition) fun parts _ => ∀ n ∈ parts, Closed text n := by
    refine fun condition j hcondition => .look looks_peekPunctuator fun p => ?_
    refine .either (P := fun step k => ∀ n ∈ step.toList, Trailing text n k) (.pure nofun)
      (expressions_trailing hg _ j).optional fun step k hstep => ?_
    refine .punct_detached (by decide) fun _ hk => .pure (List.forall_mem_append.mpr ⟨?_, ?_⟩)
    · simp [h, hcondition]
    · exact fun n hn => (hstep n hn).close hk
  refine .ite ?_ ?_
  · exact leaf_closed.bind hrest
  · refine (expressions_trailing hg _ d).bind fun inner a hinner => ?_
    exact .punct_detached (by decide) fun b ha => hrest inner b (hinner.close ha)

end Head

theorem forEachDeclared_closed (waits : Bool) (i : Nat) :
    Leads text i (g.forEachDeclared waits) fun parts _ => ∀ n ∈ parts, Closed text n := by
  refine .word fun w a _ => (declaredPattern_closed hg a).bind fun target b htarget => ?_
  refine .ite ?_ (.look (looks_endsHere true) fun ends => .ite .failure ?_)
  · exact forEachTail_closed hg (List.forall_mem_singleton.mpr (htarget.trailing b))
  · refine (initializer?_trailing hg (htarget.trailing b) _).bind fun value c hparts => ?_
    refine .look (looks_endsHere _) fun ends => .ite .failure ?_
    exact forEachTail_closed hg hparts

theorem forEachAssigned_closed (i : Nat) :
    Leads text i g.forEachAssigned fun parts _ => ∀ n ∈ parts, Closed text n := by
  refine (operandRule_trailing hg _ true i).bind fun left a hleft => ?_
  split
  · next target htarget =>
    have htarget : Trailing text target a := target?_numbersEnd hleft htarget
    exact forEachTail_closed hg (List.forall_mem_singleton.mpr htarget)
  · exact .failure

theorem forHead_closed (i : Nat) :
    Leads text i g.forHead fun parts _ => ∀ n ∈ parts, Closed text n := by
  refine .place fun s _ _ => .optionalPunct (fun a _ => ?_) ?_
  · exact leaf_closed.bind fun _ _ hinitial => forTail_closed hg hinitial
  · refine .look looks_loopDeclarationAhead fun ahead => .ite ?_ ?_
    · exact (declaration_closed hg s).bind fun _ _ hinitial => forTail_closed hg hinitial
    · refine (expressions_trailing hg _ s).bind fun initial a hinitial => ?_
      exact .punct_detached (by decide) fun _ ha => forTail_closed hg (hinitial.close ha)

theorem forEachHead_closed (waits : Bool) (i : Nat) :
    Leads text i (g.forEachHead waits) fun parts _ => ∀ n ∈ parts, Closed text n := by
  refine .look looks_peekWord fun w => .look looks_punctuatorAfterWord fun p => ?_
  refine .look looks_loopDeclarationAhead fun ahead => ?_
  refine .ite (forEachAssigned_closed hg i) (.ite ?_ (forEachDeclared_closed hg waits i))
  exact (forEachAssigned_closed hg i).orElse (forEachDeclared_closed hg waits i)

theorem forRule_closed (i : Nat) : Leads text i g.forRule fun n _ => Closed text n := by
  refine .place fun s _ _ => .keyword fun a _ => .optionalKeyword fun waits b _ => ?_
  refine .punct fun c _ => ?_
  have hbody : ∀ {parts : List Node} {j : Nat} (kind : String), (∀ n ∈ parts, Closed text n) →
      Leads text j (do
        let body ← g.statement
        node (placeAt text s) kind (parts ++ [body])) fun n _ => Closed text n := by
    intro parts j kind hparts
    refine (hg.statement j).bind fun body k hbody => node_closed ?_
    exact List.forall_mem_append.mpr ⟨hparts, List.forall_mem_singleton.mpr hbody⟩
  have heach : Leads text c ((some <$> g.forEachHead waits) <|> pure Option.none)
      fun each _ => ∀ parts, each = some parts → ∀ n ∈ parts, Closed text n := by
    refine .orElse ((forEachHead_closed hg waits c).map fun parts _ h => ?_) (.pure nofun)
    rintro _ ⟨⟩
    exact h
  refine heach.bind fun each d hparts => ?_
  split
  · next parts => exact hbody _ (hparts parts rfl)
  · refine .ite .failure ((forHead_closed hg d).bind fun parts e hhead => ?_)
    exact hbody _ hhead

theorem whileRule_closed (i : Nat) : Leads text i g.whileRule fun n _ => Closed text n := by
  refine .place fun _ _ _ => .keyword fun a _ => ?_
  refine (parenthesized_closed hg a).bind fun condition b hcondition => ?_
  exact (hg.statement b).bind fun body _ hbody => node_closed (by simp [hcondition, hbody])

theorem doRule_closed (i : Nat) : Leads text i g.doRule fun n _ => Closed text n := by
  refine .place fun s _ _ => .keyword fun a _ => (hg.statement a).bind fun body b hbody => ?_
  refine .keyword fun c _ => (parenthesized_closed hg c).bind fun condition d hcondition => ?_
  have hdone : ∀ {j : Nat}, Leads text j (node (placeAt text s) "do_statement" [body, condition])
      fun n _ => Closed text n := node_closed (by simp [hbody, hcondition])
  refine .look (looks_endsHere true) fun ends => .ite ?_ hdone
  exact (optionalPunct_leads text d ";").bind fun _ _ _ => hdone

/-! ## Choices and errors -/

theorem ifRule_closed (i : Nat) : Leads text i g.ifRule fun n _ => Closed text n := by
  refine .place fun s _ _ => .keyword fun a _ => ?_
  refine (parenthesized_closed hg a).bind fun condition b hcondition => ?_
  refine (hg.statement b).bind fun yes c hyes => .look looks_peekWord fun w => ?_
  extract_lets rest
  have hrest : ∀ otherwise j, (∀ n ∈ Option.toList otherwise, Closed text n) →
      Leads text j (rest otherwise) fun n _ => Closed text n := fun otherwise j hotherwise =>
    node_closed (List.forall_mem_append.mpr ⟨by simp [hcondition, hyes], hotherwise⟩)
  refine .ite (.place fun d _ _ => .keyword fun e _ => ?_) (hrest .none c nofun)
  refine (hg.statement e).bind fun no j hno => ?_
  have helse : Leads text j (node (placeAt text d) "else_clause" [no]) fun n _ => Closed text n :=
    node_closed (List.forall_mem_singleton.mpr hno)
  exact helse.optional.bind hrest

theorem caseStatements_closed (i : Nat) :
    Leads text i g.caseStatements fun found _ => ∀ n ∈ found, Closed text n := by
  refine .iterate (fun found _ => ∀ n ∈ found, Closed text n) (fun found j hfound => ?_) nofun
  refine .look looks_peekWord fun w => .look looks_peekPunctuator fun p => ?_
  refine .ite (.pure (forall_mem_reverse hfound)) ?_
  exact (hg.statement j).bind fun n _ hn => .pure (List.forall_mem_cons.mpr ⟨hn, hfound⟩)

theorem caseRule_closed (i : Nat) : Leads text i g.caseRule fun n _ => Closed text n := by
  refine .place fun _ _ _ => .optionalKeyword fun found a _ => .ite ?_ ?_
  · exact .punct fun b _ => (caseStatements_closed hg b).bind fun _ _ hinner => node_closed hinner
  · refine .keyword fun b _ => (expressions_trailing hg _ b).bind fun value c hvalue => ?_
    refine .punct_detached (by decide) fun d hc => ?_
    refine (caseStatements_closed hg d).bind fun inner _ hinner => node_closed ?_
    exact List.forall_mem_cons.mpr ⟨hvalue.close hc, hinner⟩

theorem switchRule_closed (i : Nat) : Leads text i g.switchRule fun n _ => Closed text n := by
  refine .place fun _ _ _ => .keyword fun a _ => ?_
  refine (parenthesized_closed hg a).bind fun value b hvalue => .place fun _ _ _ => ?_
  refine .punct fun d _ => ?_
  refine Leads.bind (P := fun cases _ => ∀ n ∈ cases, Closed text n) ?_ fun cases j hcases => ?_
  · refine .iterate (fun found _ => ∀ n ∈ found, Closed text n) (fun found j hfound => ?_) nofun
    refine .optionalPunct (fun _ _ => .pure (forall_mem_reverse hfound)) ?_
    exact (caseRule_closed hg j).bind fun n _ hn => .pure (List.forall_mem_cons.mpr ⟨hn, hfound⟩)
  · refine (node_closed hcases).bind fun body _ hbody => node_closed ?_
    simp [hvalue, hbody]

theorem catchClause_closed (i : Nat) : Leads text i g.catchClause fun n _ => Closed text n := by
  refine .place fun _ _ _ => .keyword fun a _ => .optionalPunct (fun b _ => ?_) ?_
  · refine (declaredPattern_closed hg b).bind fun target c htarget => .punct fun d _ => ?_
    exact (block_closed hg true d).bind fun body _ hbody => node_closed (by simp [htarget, hbody])
  · exact (block_closed hg true a).bind fun body _ hbody => node_closed (by simpa using hbody)

theorem finallyClause_closed (i : Nat) : Leads text i g.finallyClause fun n _ => Closed text n :=
  .place fun _ _ _ => .keyword fun a _ => (block_closed hg true a).bind fun _ _ hbody =>
    node_closed (List.forall_mem_singleton.mpr hbody)

theorem tryRule_closed (i : Nat) : Leads text i g.tryRule fun n _ => Closed text n := by
  refine .place fun _ _ _ => .keyword fun a _ => ?_
  refine (block_closed hg true a).bind fun body b hbody => .look looks_peekWord fun w => ?_
  refine .either (catchClause_closed hg b).optional (.pure nofun) fun handler c hhandler => ?_
  refine .look looks_peekWord fun w => ?_
  refine .either (finallyClause_closed hg c).optional (.pure nofun) fun final j hfinal => ?_
  refine node_closed (List.forall_mem_cons.mpr ⟨hbody, ?_⟩)
  exact List.forall_mem_append.mpr ⟨hhandler, hfinal⟩

/-! ## Simple statements -/

theorem returnRule_closed (i : Nat) : Leads text i g.returnRule fun n _ => Closed text n := by
  refine .place fun _ _ _ => .keyword fun a _ => .look (looks_endsHere true) fun ends => ?_
  refine .look looks_upcoming fun cs => .ite ?_ (.endStatement fun _ _ => leaf_closed)
  refine (expressions_trailing hg _ a).bind fun value b hvalue => ?_
  exact .endStatement_detached fun _ hb => node_closed (by simpa using hvalue.close hb)

theorem throwRule_closed (i : Nat) : Leads text i g.throwRule fun n _ => Closed text n := by
  refine .place fun _ _ _ => .keyword fun a _ => ?_
  refine (expressions_trailing hg _ a).bind fun value b hvalue => ?_
  exact .endStatement_detached fun _ hb => node_closed (by simpa using hvalue.close hb)

omit hg in
theorem jumpRule_closed (w kind : String) (i : Nat) :
    Leads text i (jumpRule w kind) fun n _ => Closed text n := by
  refine .place fun _ _ _ => .keyword fun a _ => .look (looks_endsHere true) fun ends => ?_
  refine .look looks_peekWord fun next => ?_
  refine .either (wordNode_closed text a _).optional (.pure nofun) fun label b hlabel => ?_
  exact .endStatement fun _ _ => node_closed hlabel

theorem labelRule_closed (i : Nat) : Leads text i g.labelRule fun n _ => Closed text n := by
  refine .place fun s _ _ => (wordNode_closed text s _).bind fun label a hlabel => ?_
  refine .punct fun b _ => (hg.statement b).bind fun body _ hbody => ?_
  exact node_closed (by simp [hlabel, hbody])

theorem expressionStatement_closed (i : Nat) :
    Leads text i g.expressionStatement fun n _ => Closed text n := by
  refine .place fun s _ _ => (expressions_trailing hg _ s).bind fun inner a hinner => ?_
  exact .endStatement_detached fun _ ha => node_closed (by simpa using hinner.close ha)

omit hg in
theorem unjoined_closed {declaration : Rule Node} {i : Nat}
    (h : Leads text i declaration fun n _ => Closed text n) :
    Leads text i (unjoined declaration) fun n _ => Closed text n :=
  h.bind fun _ _ hn => .look looks_joinAhead fun _ => .ite .failure (.pure hn)

theorem emptyBlock_closed (i : Nat) : Leads text i g.emptyBlock fun n _ => Closed text n := by
  refine (block_closed hg false i).bind fun n j hn => .look looks_joinAhead fun _ => ?_
  exact .look looks_peekPunctuator fun _ => .ite .failure (.pure hn)

theorem braceRule_closed (i : Nat) : Leads text i g.braceRule fun n _ => Closed text n := by
  have hblock := block_closed hg true i
  have hexpression := expressionStatement_closed hg i
  refine .look looks_bracesAhead fun braces => ?_
  cases braces with
  | empty => exact (emptyBlock_closed hg i).orElse hexpression
  | label => exact hexpression.orElse hblock
  | emptyCall => exact hexpression.orElse hblock
  | member => exact hblock.orElse hexpression
  | statements => exact hblock

theorem wordStatement_closed (w : String) (i : Nat) :
    Leads text i (g.wordStatement w) fun n _ => Closed text n := by
  have hexpression := expressionStatement_closed hg i
  have hfunction := (unjoined_closed (functionRule_closed hg true i)).orElse hexpression
  unfold wordStatement
  split
  · exact ifRule_closed hg i
  · exact forRule_closed hg i
  · exact whileRule_closed hg i
  · exact doRule_closed hg i
  · exact returnRule_closed hg i
  · exact throwRule_closed hg i
  · exact jumpRule_closed _ _ i
  · exact jumpRule_closed _ _ i
  · exact switchRule_closed hg i
  · exact tryRule_closed hg i
  · exact hfunction
  · exact (unjoined_closed (classRule_closed hg true i)).orElse hexpression
  · refine .look (looks_asyncFunctionAhead .last) fun ahead => .ite hfunction ?_
    refine .look (looks_declarationAhead .last) fun ahead => .ite (declaration_closed hg i) ?_
    refine .look looks_punctuatorAfterWord fun p => .look looks_behindWord fun rest => ?_
    exact .ite (labelRule_closed hg i) hexpression

theorem statementRule_closed (i : Nat) :
    Leads text i g.statementRule fun n _ => Closed text n := by
  refine .place fun s _ _ => .look looks_peekPunctuator fun p => .ite ?_ (.ite ?_ ?_)
  · exact .punct fun _ _ => leaf_closed
  · exact braceRule_closed hg s
  · exact .look looks_peekWord fun w => wordStatement_closed hg w s

end LiveChain.Syntax.Grammar
