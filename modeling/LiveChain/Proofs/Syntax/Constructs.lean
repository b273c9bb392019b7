import LiveChain.Proofs.Syntax.Leads
import LiveChain.Syntax.Grammar.Member

/-!
# Lists, functions and members

The constructs that are built on the rules of smaller texts give trees that fit the text if these
rules do.
-/

set_option autoImplicit false

namespace LiveChain.Syntax

/-- A grammar whose rules give nodes that fit the text and reach to the cursor. -/
structure Grammar.Fits (text : List Char) (g : Grammar) : Prop where
  expression : ∀ s i, Leads text i (g.expression s) (Reaches text i)
  statement : ∀ i, Leads text i g.statement (Reaches text i)
  operand : ∀ s updates i, Leads text i (g.operand s updates) (Reaches text i)
  constructible : ∀ s i, Leads text i (g.constructible s) (Reaches text i)

variable {text : List Char}

/-! ## Results of rules -/

theorem Leads.later {x : Rule Node} {i s j : Nat} (h : Leads text j x (Reaches text s))
    (hs : i ≤ s) : Leads text j x (Reaches text i) :=
  h.mono fun _ _ hn => hn.mono hs

theorem Leads.within {x : Rule Node} {i j : Nat} (h : Leads text j x (Reaches text i)) :
    Leads text j x fun n k => Within text i k [n] :=
  h.mono fun _ _ hn => hn.within

theorem Leads.present {x : Rule Node} {i : Nat} (h : Leads text i x (Reaches text i)) :
    Leads text i (some <$> x) fun part j => Within text i j part.toList :=
  h.map fun _ _ hn => hn.within

theorem Leads.absent (i : Nat) :
    Leads text i (Pure.pure none : Rule (Option Node)) fun part j => Within text i j part.toList :=
  .pure (.nil (Nat.le_refl i))

/-! ## Items in a row -/

theorem commaList_leads {close : String} {item : Rule Node}
    (hitem : ∀ j, Leads text j item fun n k => Within text j k [n]) (i : Nat) :
    Leads text i (commaList close item) fun list j => Within text i j list.items := by
  refine .iterate (fun found j => Within text i j found.items.reverse) (fun found j hfound => ?_)
    (.nil (Nat.le_refl i))
  refine .look looks_peekPunctuator fun p => ?_
  split
  · exact .punct fun k hk => .pure (hfound.mono (Nat.le_refl i) hk)
  · split
    · exact .punct fun k hk => .pure (hfound.mono (Nat.le_refl i) hk)
    · refine (hitem j).bind fun n k hn => ?_
      have hall := hfound.push hn
      refine .optionalPunct (fun l hl => ?_) (.punct fun l hl => ?_)
      · exact .pure (hall.mono (Nat.le_refl i) hl)
      · exact .pure (hall.mono (Nat.le_refl i) hl)

theorem Row.last_span {s b e : Nat} {first : Node} {rest : List Node}
    (hfirst : Covers text s b first) (h : Row text b e rest) :
    ∃ c, (rest.getLast?.getD first).span = spanOf text c e := by
  induction rest generalizing s b first with
  | nil =>
    cases h
    exact ⟨s, hfirst.span_eq⟩
  | cons n rest ih =>
    cases h with
    | cons ha hn hrest =>
      rw [List.getLast?_cons, Option.getD_some]
      exact ih hn hrest

/-- A sequence of expressions starts with the first and ends with the last of them. -/
theorem sequenceOf_leads {i j : Nat} {items : List Node} (h : Row text i j items) (k : Nat) :
    Leads text k (sequenceOf items) fun n k' => k' = k ∧ Reaches text i n j := by
  unfold sequenceOf
  split
  · exact .failure
  · cases h with
    | cons ha hn hrest =>
      cases hrest
      exact .pure ⟨rfl, _, ha, hn⟩
  · next first rest _ =>
    cases h with
    | @cons _ a b _ _ _ ha hfirst hrest =>
      obtain ⟨c, hlast⟩ := Row.last_span hfirst hrest
      refine .pure ⟨rfl, a, ha, ?_⟩
      have hspan : Span.cover first.span (rest.getLast?.getD first).span = spanOf text a j := by
        rw [hfirst.span_eq, hlast]
        rfl
      rw [hspan]
      exact .other (.cons (Nat.le_refl a) hfirst hrest) (Nat.le_refl j) (by decide)

namespace Grammar

variable {g : Grammar} (hg : g.Fits text)

include hg

theorem expressions_leads (s : Setting) (i : Nat) :
    Leads text i (g.expressions s) (Reaches text i) := by
  refine (hg.expression s i).bind fun first a ⟨b, hb, hfirst⟩ => ?_
  have hrow : Row text i a [first] := .cons hb hfirst .nil
  refine Leads.bind (P := fun all j => Row text i j all) ?_ fun all j hall =>
    (sequenceOf_leads hall j).mono ?_
  · refine .iterate (fun found j => Row text i j found.reverse) (fun found j hfound => ?_) hrow
    refine .look (looks_endsIn s) fun ends => ?_
    split
    · exact .pure hfound
    · refine .optionalPunct (fun k hk => ?_) (.pure hfound)
      exact (hg.expression s k).bind fun n l hn => .pure (hfound.push (hn.mono hk))
  · rintro n _ ⟨rfl, hn⟩
    exact hn

theorem element_leads (i : Nat) : Leads text i g.element (Reaches text i) := by
  refine .place fun s hs _ => .optionalPunct (fun a ha => ?_) ?_
  · refine (hg.expression _ a).bind fun inner b hinner => ?_
    exact node_leads (hinner.cons ha (.nil (Nat.le_refl b))) hs (by decide)
  · exact (hg.expression _ s).later hs

theorem elements_leads (i : Nat) :
    Leads text i g.elements fun list j => Within text i j list.items := by
  refine .punct fun a ha => ?_
  refine (commaList_leads (fun j => ?_) a).mono fun list j h => h.mono ha (Nat.le_refl j)
  exact (element_leads hg j).within

theorem arrayRule_leads (i : Nat) : Leads text i g.arrayRule (Reaches text i) := by
  refine .place fun s hs _ => .punct fun a ha => ?_
  refine (commaList_leads (fun j => ?_) a).bind fun list j h => ?_
  · exact (element_leads hg j).within
  · exact node_leads (h.mono ha (Nat.le_refl j)) hs (by decide)

theorem parenthesized_leads (i : Nat) : Leads text i g.parenthesized (Reaches text i) := by
  refine .place fun s hs _ => .punct fun a ha => ?_
  refine (expressions_leads hg _ a).bind fun inner b hinner => .punct fun j hj => ?_
  exact node_leads (hinner.cons ha (.nil hj)) hs (by decide)

theorem statementsToBrace_leads (i : Nat) :
    Leads text i g.statementsToBrace fun found j => Within text i j found := by
  refine .iterate (fun found j => Within text i j found.reverse) (fun found j hfound => ?_)
    (.nil (Nat.le_refl i))
  refine .optionalPunct (fun k hk => .pure (hfound.mono (Nat.le_refl i) hk)) ?_
  exact (hg.statement j).bind fun n k hn => .pure (hfound.push hn.within)

theorem block_leads (early : Bool) (i : Nat) : Leads text i (g.block early) (Reaches text i) := by
  refine .place fun s hs _ => .punct fun a ha => ?_
  refine (statementsToBrace_leads hg a).bind fun inner b hinner => .passToEnd fun j hj => ?_
  exact node_leads (hinner.mono ha hj) hs (by decide)

theorem initializer?_leads (s : Setting) (i : Nat) :
    Leads text i (g.initializer? s) fun value j => Within text i j value.toList := by
  refine .optionalPunct (fun a ha => ?_) (.pure (.nil (Nat.le_refl i)))
  exact (hg.expression s a).bind fun value j hvalue => .pure (hvalue.within.mono ha (Nat.le_refl j))

/-! ## Functions -/

omit hg in
theorem parametersFrom_leads {s j k : Nat} {list : CommaList} (h : Within text s j list.items)
    (hk : k ≤ s) : Leads text j (parametersFrom (placeAt text s) list) (Reaches text k) := by
  unfold parametersFrom
  split
  · next items hitems =>
    split at hitems
    · cases hitems
    · exact node_leads (parameters?_within h hitems) hk (by decide)
  · exact .failure

theorem formalParameters_leads (i : Nat) : Leads text i g.formalParameters (Reaches text i) := by
  refine .place fun s hs _ => (elements_leads hg s).bind fun list j h => ?_
  exact parametersFrom_leads h hs

theorem signature_leads (early : Bool) (i : Nat) :
    Leads text i (g.signature early) fun parts j => Within text i j parts := by
  refine (formalParameters_leads hg i).bind fun parameters a hparameters => ?_
  refine (block_leads hg early a).bind fun body j hbody => ?_
  exact .pure (hparameters.cons (Nat.le_refl i) hbody.within)

theorem functionTail_leads {s i k : Nat} (hs : s ≤ i) (hk : k ≤ s) (declared : Bool) :
    Leads text i (g.functionTail (placeAt text s) declared) (Reaches text k) := by
  refine (optionalPunct_leads text i "*").bind fun star a ⟨ha, _⟩ => ?_
  extract_lets kind rest
  refine .look looks_peekWord fun w => ?_
  refine .either (identifier_leads text a).present (.absent a) fun name b hname => ?_
  refine .ite .failure ((signature_leads hg false b).bind fun rest j hrest => ?_)
  have hkind : plainKind kind = true := by cases declared <;> cases star <;> decide
  exact node_leads ((hname.append hrest).mono (by omega) (Nat.le_refl j)) hk hkind

theorem functionRule_leads (declared : Bool) (i : Nat) :
    Leads text i (g.functionRule declared) (Reaches text i) := by
  refine .place fun s hs _ => .optionalKeyword fun _ a ha => .keyword fun b hb => ?_
  exact functionTail_leads hg (by omega) hs declared

theorem bodyBlock_leads (i : Nat) : Leads text i g.bodyBlock (Reaches text i) := by
  refine (block_leads hg false i).bind fun body j hbody => .look looks_peekPunctuator fun p => ?_
  exact .ite .failure (.pure hbody)

omit hg in
theorem looks_bracesAhead : Looks bracesAhead := looks_upcoming.bind fun _ => .pure _

theorem arrowBody_leads (s : Setting) (i : Nat) :
    Leads text i (g.arrowBody s) (Reaches text i) := by
  refine .look looks_peekPunctuator fun p => ?_
  split
  · refine .look looks_bracesAhead fun braces => ?_
    split
    · exact (hg.expression s i).orElse (block_leads hg false i)
    · exact block_leads hg false i
    · exact (bodyBlock_leads hg i).orElse (hg.expression s i)
  · exact hg.expression s i

/-- An arrow function starts with its parameters, or before them. -/
theorem arrowTail_leads {s i k : Nat} {parameters : Node} (h : Within text s i [parameters])
    (hk : k ≤ s) (setting : Setting) :
    Leads text i (g.arrowTail setting (placeAt text s) parameters) (Reaches text k) := by
  refine .punct fun a ha => (arrowBody_leads hg setting a).bind fun body j hbody => ?_
  exact node_leads (h.append (hbody.within.mono ha (Nat.le_refl j))) hk (by decide)

omit hg in
theorem looks_asyncFunctionAhead (s : Setting) : Looks (asyncFunctionAhead s) :=
  looks_behindWord.bind fun _ => looks_peekWord.bind fun _ =>
    looks_upcomingAfterWord.bind fun _ => .pure _

/-! ## Keys and modifiers -/

omit hg in
theorem privateName_leads (text : List Char) (i : Nat) :
    Leads text i privateName fun name j => i < j ∧
      (triviaLength (text.drop i) = 0 → name = String.ofList (slice text i j)) := by
  refine (passTrivia_leads text i).bind fun _ a ⟨ha, _, hstay⟩ => .get fun _ => ?_
  split
  · next cs hrest =>
    have hne : text.drop a ≠ [] := fun hnil => List.cons_ne_nil _ _ (hrest.symm.trans hnil)
    refine .ite .failure ((pass_leads text a _).mono fun name j ⟨hname, _, hlt⟩ => ?_)
    refine ⟨Nat.lt_of_le_of_lt ha (hlt (Nat.succ_ne_zero _) hne), fun hfresh => ?_⟩
    rw [hname, hstay hfresh]
  · exact .failure

omit hg in
theorem modifier_leads (text : List Char) (i : Nat) (inClass : Bool) (followers : List String)
    (w : String) : Leads text i (modifier inClass followers w) fun _ j => i ≤ j := by
  refine .look looks_behindWord fun _ => .look looks_upcomingAfterWord fun _ =>
    .look looks_peekWord fun _ => ?_
  split
  · exact .keyword fun j hj => .pure (Nat.le_of_lt hj)
  · exact .pure (Nat.le_refl i)

omit hg in
theorem methodModifiers_leads (text : List Char) (i : Nat) (inClass : Bool) :
    Leads text i (methodModifiers inClass) fun _ j => i ≤ j := by
  refine (modifier_leads text i _ _ _).bind fun isAsync a ha => ?_
  refine (modifier_leads text a _ _ _).bind fun getter b hb => ?_
  refine .either (.pure (Nat.le_refl b)) (modifier_leads text b _ _ _) fun setter c hc => ?_
  refine .either (P := fun _ j => c ≤ j) (.pure (Nat.le_refl c))
    ((optionalPunct_leads text c "*").mono fun _ j hj => hj.1) fun star d hd => ?_
  exact .pure (by omega)

theorem propertyKey_leads (i : Nat) : Leads text i g.propertyKey (Reaches text i) := by
  refine .place fun s hs _ => .get fun _ => ?_
  simp only
  split
  · refine .punct fun a ha => (hg.expression _ a).bind fun inner b hinner => .punct fun j hj => ?_
    exact node_leads (hinner.cons ha (.nil hj)) hs (by decide)
  · exact (stringLiteral_leads text s).later hs
  · exact (stringLiteral_leads text s).later hs
  · refine (privateName_leads text s).bind fun _ j hj => ?_
    exact node_leads (.nil (Nat.le_of_lt hj.1)) hs (by decide)
  · split
    · exact (numberLiteral_leads text s).later hs
    · exact (wordNode_leads text s (by decide)).later hs

/-! ## Members of objects -/

section Member

variable {s i k : Nat} {key : Node} (hkey : Within text s i [key]) (hk : k ≤ s)

include hkey hk

theorem method_leads : Leads text i (g.method (placeAt text s) key) (Reaches text k) := by
  refine (signature_leads hg true i).bind fun rest j hrest => ?_
  exact node_leads (hkey.append hrest) hk (by decide)

theorem plainMember_leads : Leads text i (g.plainMember (placeAt text s) key)
    fun n j => Within text k j [n] := by
  refine .optionalPunct (fun a ha => ?_) ?_
  · refine (element_leads hg a).bind fun value j hvalue => ?_
    have hparts := hkey.append (hvalue.within.mono ha (Nat.le_refl j))
    exact (node_leads hparts hk (by decide)).within
  · rw [if_neg Bool.false_ne_true]
    split
    · next span parts =>
      obtain ⟨a, b, ha, hcovers, hend⟩ := hkey.first
      -- a plain name stands for itself, in patterns too
      have hname : ∀ {kind}, plainKind kind = true → Covers text a b (.other span kind []) :=
        fun hkind => hcovers.other_replace (fun _ hparts => .nil hparts.le) hkind
      refine (initializer?_leads hg _ i).bind fun value j hvalue => ?_
      split
      · next value =>
        have hshort : plainKind "shorthand_property_identifier_pattern" = true := by decide
        have hparts := (hname hshort).cons ha (hvalue.mono hend.le (Nat.le_refl j))
        exact (node_leads hparts hk (by decide)).within
      · have hbehind : Within text b _ [] := .nil (Nat.le_trans hend.le hvalue.le)
        exact .pure ((hname (by decide)).cons (Nat.le_trans hk ha) hbehind)
    · exact .failure

theorem field_leads : Leads text i (g.field (placeAt text s) key)
    fun n j => Within text k j [n] := by
  refine (initializer?_leads hg _ i).bind fun value a hvalue => ?_
  refine .node (hkey.append hvalue) (by decide) fun n hn => .endStatement fun j hj => ?_
  exact .pure (hn.cons hk (.nil hj))

end Member

theorem objectMember_leads (i : Nat) :
    Leads text i g.objectMember fun n j => Within text i j [n] := by
  refine .place fun s hs _ => .optionalPunct (fun a ha => ?_) ?_
  · refine (hg.expression _ a).bind fun inner j hinner => ?_
    exact (node_leads (hinner.cons ha (.nil (Nat.le_refl j))) hs (by decide)).within
  · refine (modifier_leads text s _ _ _).bind fun isStatic a ha => ?_
    refine (methodModifiers_leads text a _).bind fun modified b hb => ?_
    refine (propertyKey_leads hg b).bind fun key c hkey => .look looks_peekPunctuator fun p => ?_
    have hwithin := hkey.cons (Nat.le_trans ha hb) (.nil (Nat.le_refl c))
    split
    · exact (method_leads hg hwithin hs).within
    · exact .ite .failure (plainMember_leads hg hwithin hs)

theorem objectRule_leads (i : Nat) : Leads text i g.objectRule (Reaches text i) := by
  refine .place fun s hs _ => .punct fun a ha => ?_
  refine (commaList_leads (objectMember_leads hg) a).bind fun members j h => ?_
  exact node_leads (h.mono ha (Nat.le_refl j)) hs (by decide)

/-! ## Classes -/

theorem classMember_leads (i : Nat) :
    Leads text i g.classMember fun n j => Within text i j [n] := by
  refine .place fun s hs _ => (modifier_leads text s _ _ _).bind fun isStatic a ha => ?_
  refine .look looks_peekPunctuator fun p => ?_
  split
  · refine (block_leads hg true a).bind fun body j hbody => ?_
    exact (node_leads (hbody.cons ha (.nil (Nat.le_refl j))) hs (by decide)).within
  · refine (methodModifiers_leads text a _).bind fun modified b hb => ?_
    refine (propertyKey_leads hg b).bind fun key c hkey => ?_
    have hwithin := hkey.cons (Nat.le_trans ha hb) (.nil (Nat.le_refl c))
    extract_lets rest
    have hrest : ∀ ended, Leads text c (rest ended) fun n j => Within text i j [n] := by
      refine fun ended => .look looks_peekPunctuator fun p => ?_
      split
      · exact (method_leads hg hwithin hs).within
      · exact .ite .failure (field_leads hg hwithin hs)
    split
    · exact hrest false
    · exact .look (looks_endsHere true) hrest

theorem classBody_leads (i : Nat) : Leads text i g.classBody (Reaches text i) := by
  refine .place fun s hs _ => .punct fun a ha => ?_
  refine Leads.bind (P := fun members j => Within text s j members) ?_ fun members j h =>
    node_leads h hs (by decide)
  refine .iterate (fun found j => Within text s j found.reverse) (fun found j hfound => ?_)
    (.nil ha)
  refine .optionalPunct (fun b hb => .pure (hfound.mono (Nat.le_refl s) hb)) ?_
  refine .optionalPunct (fun b hb => .pure (hfound.mono (Nat.le_refl s) hb)) ?_
  exact (classMember_leads hg j).bind fun n b hn => .pure (hfound.push hn)

theorem classRule_leads (declared : Bool) (i : Nat) :
    Leads text i (g.classRule declared) (Reaches text i) := by
  refine .place fun s hs _ => .keyword fun a ha => .look looks_peekWord fun w => ?_
  refine .either (identifier_leads text a).present (.absent a) fun name b hname => ?_
  refine .ite .failure (.place fun c hc _ => .optionalKeyword fun found d hd => ?_)
  extract_lets rest
  have hrest : ∀ base j, Within text c j (Option.toList base) →
      Leads text j (rest base) (Reaches text i) := by
    intro base j hbase
    refine (classBody_leads hg j).bind fun body k hbody => ?_
    have hparts := ((hname.mono (Nat.le_of_lt ha) hc).append hbase).append hbody.within
    exact node_leads hparts hs (by cases declared <;> decide)
  split
  · refine (hg.expression _ d).bind fun inner j hinner => ?_
    have hbase : Leads text j (node (placeAt text c) "class_heritage" [inner]) (Reaches text c) :=
      node_leads (hinner.cons hd (.nil (Nat.le_refl j))) (Nat.le_refl c) (by decide)
    exact (hbase.map fun n k hn => hn.within).bind hrest
  · exact hrest .none d (.nil hd)

end Grammar

end LiveChain.Syntax
