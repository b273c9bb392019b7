import LiveChain.Proofs.Syntax.Expressions
import LiveChain.Syntax.Grammar.Statement

/-!
# Statements fit their text

Each rule for statements gives a node that reaches to the cursor, if the rules for smaller texts do.
-/

set_option autoImplicit false

namespace LiveChain.Syntax

theorem looks_joinAhead : Looks joinAhead :=
  looks_peekWord.bind fun _ => looks_peekPunctuator.bind fun _ => .pure _

namespace Grammar

variable {text : List Char} {g : Grammar} (hg : g.Fits text)

include hg

/-! ## Declarations -/

theorem declaredPattern_leads (i : Nat) : Leads text i g.declaredPattern (Reaches text i) := by
  refine .look looks_peekPunctuator fun p => .ite ?_ (identifier_leads text i)
  refine .either (arrayRule_leads hg i) (objectRule_leads hg i) fun literal j hliteral => ?_
  beta_reduce
  split
  · next pattern hpattern => exact .pure (pattern?_reaches hliteral hpattern)
  · exact .failure

theorem declarator_leads (i : Nat) : Leads text i g.declarator (Reaches text i) := by
  refine .place fun s hs _ => (declaredPattern_leads hg s).bind fun target a htarget => ?_
  refine .look (looks_endsHere true) fun ends => ?_
  refine .either (.absent a) (initializer?_leads hg _ a) fun value j hvalue => ?_
  exact node_leads (htarget.cons (Nat.le_refl s) hvalue) hs (by decide)

theorem declarators_leads (i : Nat) :
    Leads text i g.declarators fun all j => Within text i j all := by
  refine (declarator_leads hg i).bind fun first a hfirst => ?_
  refine Leads.bind (P := fun (found : List Node × Node) j =>
    Within text i j (found.2 :: found.1).reverse) ?_ fun found b hfound => ?_
  · refine .iterate (fun (found : List Node × Node) j =>
      Within text i j (found.2 :: found.1).reverse) (fun found j hfound => ?_) hfirst.within
    refine .look (looks_endsHere _) fun ends => .ite (.pure hfound) ?_
    refine .optionalPunct (fun b hb => ?_) (.pure hfound)
    refine (declarator_leads hg b).bind fun next k hnext => ?_
    exact .pure (hfound.push (hnext.within.mono hb (Nat.le_refl k)))
  · exact .endStatement fun j hj => .pure (hfound.mono (Nat.le_refl i) hj)

omit hg in
theorem looks_declarationAhead (s : Setting) : Looks (declarationAhead s) := by
  refine looks_peekWord.bind fun w => ?_
  split
  · exact .pure true
  · split
    · exact looks_upcomingAfterWord.bind fun _ => looks_behindWord.bind fun _ => .pure _
    · exact .pure false

theorem declaration_leads (i : Nat) : Leads text i g.declaration (Reaches text i) := by
  refine .place fun s hs _ => .word fun w a ha => ?_
  refine (declarators_leads hg a).bind fun all j hall => ?_
  have hkind : plainKind (declarationKind w) = true := by
    rw [declarationKind]
    split <;> decide
  exact node_leads (hall.mono (Nat.le_of_lt ha) (Nat.le_refl j)) hs hkind

/-! ## Loops -/

omit hg in
theorem looks_loopDeclarationAhead : Looks loopDeclarationAhead :=
  looks_peekWord.bind fun _ => looks_upcomingAfterWord.bind fun _ =>
    (looks_declarationAhead .inner).bind fun _ => .pure _

section Head

variable {s i : Nat}

theorem forEachTail_leads {targets : List Node} (h : Within text s i targets) :
    Leads text i (g.forEachTail targets) fun parts j => Within text s j parts := by
  refine .word fun w a ha => .ite ?_ .failure
  refine (expressions_leads hg _ a).bind fun range b hrange => .punct fun j hj => ?_
  exact .pure (h.append (hrange.within.mono (Nat.le_of_lt ha) hj))

theorem forTail_leads {initial : Node} (h : Within text s i [initial]) :
    Leads text i (g.forTail initial) fun parts j => Within text s j parts := by
  refine .place fun c hc _ => (optionalPunct_leads text c ";").bind fun found d ⟨hd, _⟩ => ?_
  extract_lets rest
  have hrest : ∀ condition j, Within text i j [condition] →
      Leads text j (rest condition) fun parts j => Within text s j parts := by
    refine fun condition j hcondition => .look looks_peekPunctuator fun p => ?_
    refine .either (.absent j) (expressions_leads hg _ j).present fun step k hstep => ?_
    refine .punct fun l hl => .pure ?_
    exact (h.append hcondition).append (hstep.mono (Nat.le_refl j) hl)
  refine .ite ?_ ?_
  · exact .node (.nil hd) (by decide) fun condition hcondition =>
      hrest condition d (hcondition.cons hc (.nil (Nat.le_refl d)))
  · refine (expressions_leads hg _ d).bind fun inner a hinner => .punct fun b hb => ?_
    exact hrest inner b (hinner.within.mono (Nat.le_trans hc hd) hb)

end Head

theorem forEachDeclared_leads (waits : Bool) (i : Nat) :
    Leads text i (g.forEachDeclared waits) fun parts j => Within text i j parts := by
  refine .word fun w a ha => (declaredPattern_leads hg a).bind fun target b htarget => ?_
  refine .ite ?_ (.look (looks_endsHere true) fun ends => .ite .failure ?_)
  · exact forEachTail_leads hg (htarget.cons (Nat.le_of_lt ha) (.nil (Nat.le_refl b)))
  · refine (initializer?_leads hg _ b).bind fun value c hvalue => ?_
    refine .look (looks_endsHere _) fun ends => .ite .failure ?_
    exact forEachTail_leads hg (htarget.cons (Nat.le_of_lt ha) hvalue)

theorem forEachAssigned_leads (i : Nat) :
    Leads text i g.forEachAssigned fun parts j => Within text i j parts := by
  refine (operandRule_leads hg _ true i).bind fun left a hleft => ?_
  split
  · next target htarget => exact forEachTail_leads hg (target?_reaches hleft htarget).within
  · exact .failure

theorem forHead_leads (i : Nat) :
    Leads text i g.forHead fun parts j => Within text i j parts := by
  refine .place fun s hs _ => .optionalPunct (fun a ha => ?_) ?_
  · exact .node (.nil ha) (by decide) fun initial hinitial =>
      forTail_leads hg (hinitial.cons hs (.nil (Nat.le_refl a)))
  · refine .look looks_loopDeclarationAhead fun ahead => .ite ?_ ?_
    · refine (declaration_leads hg s).bind fun initial a hinitial => ?_
      exact forTail_leads hg (hinitial.cons hs (.nil (Nat.le_refl a)))
    · refine (expressions_leads hg _ s).bind fun initial a hinitial => .punct fun b hb => ?_
      exact forTail_leads hg (hinitial.cons hs (.nil hb))

theorem forEachHead_leads (waits : Bool) (i : Nat) :
    Leads text i (g.forEachHead waits) fun parts j => Within text i j parts := by
  refine .look looks_peekWord fun w => .look looks_punctuatorAfterWord fun p => ?_
  refine .look looks_loopDeclarationAhead fun ahead => ?_
  refine .ite (forEachAssigned_leads hg i) (.ite ?_ (forEachDeclared_leads hg waits i))
  exact (forEachAssigned_leads hg i).orElse (forEachDeclared_leads hg waits i)

theorem forRule_leads (i : Nat) : Leads text i g.forRule (Reaches text i) := by
  refine .place fun s hs _ => .keyword fun a ha => .optionalKeyword fun waits b hb => ?_
  refine .punct fun c hc => ?_
  have hbody : ∀ {parts : List Node} {j : Nat} {kind : String}, plainKind kind = true →
      Within text c j parts → Leads text j (do
        let body ← g.statement
        node (placeAt text s) kind (parts ++ [body])) (Reaches text i) := by
    intro parts j kind hkind hparts
    refine (hg.statement j).bind fun body k hbody => ?_
    exact node_leads ((hparts.append hbody.within).mono (by omega) (Nat.le_refl k)) hs hkind
  have heach : Leads text c ((some <$> g.forEachHead waits) <|> pure Option.none)
      fun each j => Within text c j (each.getD []) :=
    .orElse ((forEachHead_leads hg waits c).map fun _ _ h => h) (.pure (.nil (Nat.le_refl c)))
  refine heach.bind fun each d hparts => ?_
  split
  · exact hbody (by decide) hparts
  · refine .ite .failure ((forHead_leads hg d).bind fun parts e hhead => ?_)
    exact hbody (by decide) (hhead.mono hparts.le (Nat.le_refl e))

theorem whileRule_leads (i : Nat) : Leads text i g.whileRule (Reaches text i) := by
  refine .place fun s hs _ => .keyword fun a ha => ?_
  refine (parenthesized_leads hg a).bind fun condition b hcondition => ?_
  refine (hg.statement b).bind fun body j hbody => ?_
  exact node_leads (hcondition.cons (Nat.le_of_lt ha) hbody.within) hs (by decide)

theorem doRule_leads (i : Nat) : Leads text i g.doRule (Reaches text i) := by
  refine .place fun s hs _ => .keyword fun a ha => (hg.statement a).bind fun body b hbody => ?_
  refine .keyword fun c hc => (parenthesized_leads hg c).bind fun condition d hcondition => ?_
  have hparts : ∀ j, d ≤ j → Within text s j [body, condition] := fun j hj =>
    hbody.cons (Nat.le_of_lt ha) (hcondition.cons (Nat.le_of_lt hc) (.nil hj))
  refine .look (looks_endsHere true) fun ends => .ite ?_ ?_
  · refine (optionalPunct_leads text d ";").bind fun _ j hj => ?_
    exact node_leads (hparts j hj.1) hs (by decide)
  · exact node_leads (hparts d (Nat.le_refl d)) hs (by decide)

/-! ## Choices and errors -/

theorem ifRule_leads (i : Nat) : Leads text i g.ifRule (Reaches text i) := by
  refine .place fun s hs _ => .keyword fun a ha => ?_
  refine (parenthesized_leads hg a).bind fun condition b hcondition => ?_
  refine (hg.statement b).bind fun yes c hyes => .look looks_peekWord fun w => ?_
  extract_lets rest
  have hrest : ∀ otherwise j, Within text c j (Option.toList otherwise) →
      Leads text j (rest otherwise) (Reaches text i) := fun otherwise j hotherwise =>
    node_leads (hcondition.cons (Nat.le_of_lt ha) (hyes.cons (Nat.le_refl b) hotherwise)) hs
      (by decide)
  refine .ite (.place fun d hd _ => .keyword fun e he => ?_) (hrest .none c (.nil (Nat.le_refl c)))
  refine (hg.statement e).bind fun no j hno => ?_
  have helse : Leads text j (node (placeAt text d) "else_clause" [no]) (Reaches text c) :=
    node_leads (hno.cons (Nat.le_of_lt he) (.nil (Nat.le_refl j))) hd (by decide)
  exact (helse.map fun n k hn => hn.within).bind hrest

theorem caseStatements_leads (i : Nat) :
    Leads text i g.caseStatements fun found j => Within text i j found := by
  refine .iterate (fun found j => Within text i j found.reverse) (fun found j hfound => ?_)
    (.nil (Nat.le_refl i))
  refine .look looks_peekWord fun w => .look looks_peekPunctuator fun p => .ite (.pure hfound) ?_
  exact (hg.statement j).bind fun n k hn => .pure (hfound.push hn.within)

theorem caseRule_leads (i : Nat) : Leads text i g.caseRule (Reaches text i) := by
  refine .place fun s hs _ => .optionalKeyword fun found a ha => .ite ?_ ?_
  · refine .punct fun b hb => (caseStatements_leads hg b).bind fun inner j hinner => ?_
    exact node_leads (hinner.mono (Nat.le_trans ha hb) (Nat.le_refl j)) hs (by decide)
  · refine .keyword fun b hb => (expressions_leads hg _ b).bind fun value c hvalue => ?_
    refine .punct fun d hd => (caseStatements_leads hg d).bind fun inner j hinner => ?_
    exact node_leads (hvalue.cons (by omega) (hinner.mono hd (Nat.le_refl j))) hs (by decide)

theorem switchRule_leads (i : Nat) : Leads text i g.switchRule (Reaches text i) := by
  refine .place fun s hs _ => .keyword fun a ha => ?_
  refine (parenthesized_leads hg a).bind fun value b hvalue => .place fun c hc _ => ?_
  refine .punct fun d hd => ?_
  refine Leads.bind (P := fun cases j => Within text c j cases) ?_ fun cases j hcases => ?_
  · refine .iterate (fun found j => Within text c j found.reverse) (fun found j hfound => ?_)
      (.nil hd)
    refine .optionalPunct (fun k hk => .pure (hfound.mono (Nat.le_refl c) hk)) ?_
    exact (caseRule_leads hg j).bind fun n k hn => .pure (hfound.push hn.within)
  · refine .node hcases (by decide) fun body hbody => ?_
    exact node_leads (hvalue.cons (Nat.le_of_lt ha) (hbody.cons hc (.nil (Nat.le_refl j)))) hs
      (by decide)

theorem catchClause_leads (i : Nat) : Leads text i g.catchClause (Reaches text i) := by
  refine .place fun s hs _ => .keyword fun a ha => .optionalPunct (fun b hb => ?_) ?_
  · refine (declaredPattern_leads hg b).bind fun target c htarget => .punct fun d hd => ?_
    refine (block_leads hg true d).bind fun body j hbody => ?_
    exact node_leads (htarget.cons (by omega) (hbody.within.mono hd (Nat.le_refl j))) hs (by decide)
  · refine (block_leads hg true a).bind fun body j hbody => ?_
    exact node_leads (hbody.cons (Nat.le_of_lt ha) (.nil (Nat.le_refl j))) hs (by decide)

theorem finallyClause_leads (i : Nat) : Leads text i g.finallyClause (Reaches text i) := by
  refine .place fun s hs _ => .keyword fun a ha => ?_
  refine (block_leads hg true a).bind fun body j hbody => ?_
  exact node_leads (hbody.cons (Nat.le_of_lt ha) (.nil (Nat.le_refl j))) hs (by decide)

theorem tryRule_leads (i : Nat) : Leads text i g.tryRule (Reaches text i) := by
  refine .place fun s hs _ => .keyword fun a ha => ?_
  refine (block_leads hg true a).bind fun body b hbody => .look looks_peekWord fun w => ?_
  refine .either (catchClause_leads hg b).present (.absent b) fun handler c hhandler => ?_
  refine .look looks_peekWord fun w => ?_
  refine .either (finallyClause_leads hg c).present (.absent c) fun final j hfinal => ?_
  exact node_leads (hbody.cons (Nat.le_of_lt ha) (hhandler.append hfinal)) hs (by decide)

/-! ## Simple statements -/

theorem returnRule_leads (i : Nat) : Leads text i g.returnRule (Reaches text i) := by
  refine .place fun s hs _ => .keyword fun a ha => .look (looks_endsHere true) fun ends => ?_
  refine .look looks_upcoming fun cs => .ite ?_ (.endStatement fun j hj => ?_)
  · refine (expressions_leads hg _ a).bind fun value b hvalue => .endStatement fun j hj => ?_
    exact node_leads (hvalue.cons (Nat.le_of_lt ha) (.nil hj)) hs (by decide)
  · exact node_leads (.nil (by omega)) hs (by decide)

theorem throwRule_leads (i : Nat) : Leads text i g.throwRule (Reaches text i) := by
  refine .place fun s hs _ => .keyword fun a ha => ?_
  refine (expressions_leads hg _ a).bind fun value b hvalue => .endStatement fun j hj => ?_
  exact node_leads (hvalue.cons (Nat.le_of_lt ha) (.nil hj)) hs (by decide)

omit hg in
theorem jumpRule_leads (w : String) {kind : String} (i : Nat)
    (hkind : plainKind kind = true) :
    Leads text i (jumpRule w kind) (Reaches text i) := by
  refine .place fun s hs _ => .keyword fun a ha => .look (looks_endsHere true) fun ends => ?_
  refine .look looks_peekWord fun next => ?_
  refine .either (wordNode_leads text a (by decide)).present (.absent a) fun label b hlabel => ?_
  exact .endStatement fun j hj => node_leads (hlabel.mono (Nat.le_of_lt ha) hj) hs hkind

theorem labelRule_leads (i : Nat) : Leads text i g.labelRule (Reaches text i) := by
  refine .place fun s hs _ => (wordNode_leads text s (by decide)).bind fun label a hlabel => ?_
  refine .punct fun b hb => (hg.statement b).bind fun body j hbody => ?_
  exact node_leads (hlabel.cons (Nat.le_refl s) (hbody.within.mono hb (Nat.le_refl j))) hs
    (by decide)

theorem expressionStatement_leads (i : Nat) :
    Leads text i g.expressionStatement (Reaches text i) := by
  refine .place fun s hs _ => (expressions_leads hg _ s).bind fun inner a hinner => ?_
  exact .endStatement fun j hj => node_leads (hinner.within.mono (Nat.le_refl s) hj) hs (by decide)

omit hg in
theorem unjoined_leads {declaration : Rule Node} {i : Nat}
    (h : Leads text i declaration (Reaches text i)) :
    Leads text i (unjoined declaration) (Reaches text i) :=
  h.bind fun _ _ hn => .look looks_joinAhead fun _ => .ite .failure (.pure hn)

theorem emptyBlock_leads (i : Nat) : Leads text i g.emptyBlock (Reaches text i) := by
  refine (block_leads hg false i).bind fun n j hn => .look looks_joinAhead fun _ => ?_
  exact .look looks_peekPunctuator fun _ => .ite .failure (.pure hn)

theorem braceRule_leads (i : Nat) : Leads text i g.braceRule (Reaches text i) := by
  have hblock := block_leads hg true i
  have hexpression := expressionStatement_leads hg i
  refine .look looks_bracesAhead fun braces => ?_
  cases braces with
  | empty => exact (emptyBlock_leads hg i).orElse hexpression
  | label => exact hexpression.orElse hblock
  | emptyCall => exact hexpression.orElse hblock
  | member => exact hblock.orElse hexpression
  | statements => exact hblock

theorem wordStatement_leads (w : String) (i : Nat) :
    Leads text i (g.wordStatement w) (Reaches text i) := by
  have hexpression := expressionStatement_leads hg i
  have hfunction := (unjoined_leads (functionRule_leads hg true i)).orElse hexpression
  unfold wordStatement
  split
  · exact ifRule_leads hg i
  · exact forRule_leads hg i
  · exact whileRule_leads hg i
  · exact doRule_leads hg i
  · exact returnRule_leads hg i
  · exact throwRule_leads hg i
  · exact jumpRule_leads _ i (by decide)
  · exact jumpRule_leads _ i (by decide)
  · exact switchRule_leads hg i
  · exact tryRule_leads hg i
  · exact hfunction
  · exact (unjoined_leads (classRule_leads hg true i)).orElse hexpression
  · refine .look (looks_asyncFunctionAhead .last) fun ahead => .ite hfunction ?_
    refine .look (looks_declarationAhead .last) fun ahead => .ite (declaration_leads hg i) ?_
    refine .look looks_punctuatorAfterWord fun p => .look looks_behindWord fun rest => ?_
    exact .ite (labelRule_leads hg i) hexpression

theorem statementRule_leads (i : Nat) : Leads text i g.statementRule (Reaches text i) := by
  refine .place fun s hs _ => .look looks_peekPunctuator fun p => .ite ?_ (.ite ?_ ?_)
  · exact .punct fun j hj => node_leads (.nil hj) hs (by decide)
  · exact (braceRule_leads hg s).later hs
  · refine .look looks_peekWord fun w => ?_
    exact (wordStatement_leads hg w s).later hs

end Grammar

end LiveChain.Syntax
