import LiveChain.Proofs.Chain.Leaf

/-!
# Parsing a chain

The grammar reads a method chain as one statement, and the tree that it gives shows the values of
the chain.
-/

set_option autoImplicit false

namespace LiveChain.Chain

open Text Syntax Scan

/-! ## How phrases start -/

inductive ChainHead : List Char → Prop
  | mk {w behind : List Char} (h : ChainName w) (hbehind : Part.Before .chain behind) :
    ChainHead (w ++ behind)

theorem ChainHead.solid {cs : List Char} (h : ChainHead cs) : Solid cs := by
  cases h with
  | mk h => exact h.solid _

theorem ChainHead.mark {cs : List Char} (h : ChainHead cs) : punctuator cs = "" := by
  cases h with
  | mk h =>
    obtain ⟨c, more, rfl, -⟩ := h.start
    exact punctuator_plain (isNameChar_classes (h.chars c List.mem_cons_self)).2.2.2.1 _

theorem ChainHead.isName_word {cs : List Char} (h : ChainHead cs) : isName (wordOf cs) = true := by
  cases h with
  | mk h hbehind =>
    rw [h.wordOf_eq (head_chain hbehind)]
    exact h.name

theorem before_property {before after w : List Char} (hbefore : Trivia before)
    (hafter : Trivia after) (h : ChainName w) (behind : List Char) :
    Part.Before .chain (before ++ '.' :: (after ++ (w ++ behind))) :=
  .inl ⟨before, _, rfl, hbefore, stop_of_link (link_property hafter h behind)⟩

theorem before_call {before : List Char} (hbefore : Trivia before) (rest : List Char) :
    Part.Before .chain (before ++ '(' :: rest) :=
  .inl ⟨before, _, rfl, hbefore, stop_of_link (.inl rfl)⟩

theorem Phrase.chainHead {part : Part} {pieces : List Piece} (h : Phrase part pieces)
    (hpart : part = .chain) {behind : List Char} (hbehind : Part.Before .chain behind) :
    ChainHead (spelled pieces ++ behind) := by
  induction h generalizing behind with
  | name h =>
    have := ChainHead.mk h hbehind
    simpa [Piece.text] using this
  | property _ hbefore hafter h ih =>
    have := ih rfl (before_property hbefore hafter h behind)
    simpa [Piece.text] using this
  | @call callee list before _ hbefore _ ih =>
    have := ih rfl (before_call hbefore (spelled list ++ behind))
    simpa [Piece.text] using this
  | number => cases hpart
  | quoted => cases hpart
  | nested => cases hpart
  | none => cases hpart
  | last => cases hpart
  | more => cases hpart

/-- A minus sign and a number behind it start with the sign alone. -/
theorem minus_head {gap digits : List Char} (hgap : Trivia gap) (h : Numeral digits)
    (rest : List Char) : Solid ('-' :: (gap ++ (digits ++ rest))) ∧
      punctuator ('-' :: (gap ++ (digits ++ rest))) = "-" := by
  have hnext : ∀ c ∈ (gap ++ (digits ++ rest)).head?, c ≠ '-' ∧ c ≠ '=' := by
    refine head_trivia hgap (forall_mem_of_all (by decide)) fun c hc => ?_
    have hplain := (numberHead h rest).head c hc
    exact ⟨fun heq => hplain (by rw [heq]; decide), fun heq => hplain (by rw [heq]; decide)⟩
  refine ⟨fun c hc => ?_,
    punctuator_minus (fun heq => (hnext '-' heq).1 rfl) fun heq => (hnext '=' heq).2 rfl⟩
  obtain rfl := Option.some.inj hc
  decide

theorem Sign.head {sign digits : List Char} (hsign : Sign sign) (h : Numeral digits)
    (rest : List Char) : Solid (sign ++ digits ++ rest) ∧
      punctuator (sign ++ digits ++ rest) ∈ ["", "-"] := by
  cases hsign with
  | none =>
    have hhead := numberHead h rest
    rw [List.nil_append]
    exact ⟨hhead.solid, by rw [hhead.mark]; decide⟩
  | @minus gap hgap =>
    obtain ⟨hsolid, hmark⟩ := minus_head hgap h rest
    rw [List.append_assoc, List.cons_append, hmark]
    exact ⟨hsolid, by decide⟩

/-- An argument starts with neither a comma, nor a closing parenthesis, nor a spread. -/
theorem Phrase.head_argument {pieces : List Piece} (h : Phrase .argument pieces)
    {behind : List Char} (hbehind : Part.Before .argument behind) :
    Solid (spelled pieces ++ behind) ∧ punctuator (spelled pieces ++ behind) ∈ ["", "-"] := by
  cases h with
  | @number sign digits hsign h =>
    have := hsign.head (numeral_of_token h) behind
    simpa [Piece.text] using this
  | @quoted text h =>
    obtain ⟨hsolid, -, hmark, -⟩ := h.head behind
    simp only [spelled_cons, spelled_nil, List.append_nil, Piece.text]
    exact ⟨hsolid, by rw [hmark]; decide⟩
  | nested h =>
    have hhead := h.chainHead rfl (before_chain hbehind)
    exact ⟨hhead.solid, by rw [hhead.mark]; decide⟩

/-! ## Links -/

section Links

variable {g : Grammar} {s : Setting} {q : Place} {behind : List Char}

theorem endsIn_link {gap stop : List Char} (hgap : Trivia gap) (hstop : Link stop) (q : Place) :
    endsIn s ⟨q, gap ++ stop⟩ = some (false, ⟨q, gap ++ stop⟩) := by
  rw [endsIn_eq, statementEnds_link hgap hstop, Bool.and_false]

theorem memberAccess_property {after w : List Char} (hafter : Trivia after) (h : ChainName w)
    (hbehind : Part.Before .chain behind) (start : Place) (object : Node) :
    ∃ span propertySpan, Grammar.memberAccess start object ⟨q, after ++ (w ++ behind)⟩ =
      some (.member span object (String.ofList w) propertySpan,
        ⟨(q.after after).after w, behind⟩) := by
  have hsolid := h.solid behind
  have hpeek : peekPunctuator ⟨q.after after, w ++ behind⟩ = some ("", ⟨q.after after, w ++ behind⟩) := by
    rw [← (ChainHead.mk h hbehind).mark]
    exact peekPunctuator_at .nil hsolid _
  have hread : word ⟨q.after after, w ++ behind⟩ =
      some (String.ofList w, ⟨(q.after after).after w, behind⟩) :=
    word_at .nil hsolid _ (h.wordLength_eq (Chain.head_chain hbehind)) h.ne_nil rfl
  refine ⟨Span.between start ((q.after after).after w),
    Span.between (q.after after) ((q.after after).after w), ?_⟩
  rw [Grammar.memberAccess, bind_of (place_at hafter hsolid q), bind_of hpeek, if_neg (by decide),
    bind_of hread]
  rfl

theorem chainRound_property {before after w : List Char} (hbefore : Trivia before)
    (hafter : Trivia after) (h : ChainName w) (hbehind : Part.Before .chain behind)
    (start : Place) (object : Node) : ∃ span propertySpan,
    g.chainRound s ⟨true, true⟩ start object ⟨q, before ++ '.' :: (after ++ (w ++ behind))⟩ =
      some (.again (.member span object (String.ofList w) propertySpan),
        ⟨q.after (before ++ '.' :: (after ++ w)), behind⟩) := by
  have hlink := link_property hafter h behind
  have hmark : punctuator ('.' :: (after ++ (w ++ behind))) = "." := by
    have hplain := head_property hafter h behind
    rw [punctuator_point fun heq => (hplain '.' heq).2.2 rfl, if_neg]
    rw [Option.any_eq_true]
    rintro ⟨c, hc, hdigit⟩
    rw [(hplain c hc).2.1] at hdigit
    cases hdigit
  have hpeek := peekPunctuator_at hbefore hlink.solid q
  have hpunct := punct_at hbefore hlink.solid q hmark rfl
  obtain ⟨span, propertySpan, hmember⟩ :=
    memberAccess_property (q := (q.after before).after ['.']) hafter h hbehind start object
  refine ⟨span, propertySpan, ?_⟩
  rw [hmark] at hpeek
  rw [Grammar.chainRound, bind_of (endsIn_link hbefore hlink q), if_neg (by decide), bind_of hpeek,
    if_pos (by decide), bind_of hpunct]
  have hplace : q.after (before ++ '.' :: (after ++ w)) =
      (((q.after before).after ['.']).after after).after w := by
    rw [Place.after_append, ← List.singleton_append, Place.after_append, Place.after_append]
  rw [hplace]
  exact map_of hmember

theorem chainRound_call {before rest : List Char} {list : CommaList} {c : Cursor}
    (hbefore : Trivia before)
    (hlist : commaList ")" g.element ⟨(q.after before).after ['('], rest⟩ = some (list, c))
    (start : Place) (callee : Node) : ∃ span,
    g.chainRound s ⟨true, true⟩ start callee ⟨q, before ++ '(' :: rest⟩ =
      some (.again (.call span callee list.items), c) := by
  have hlink : Link ('(' :: rest) := .inl rfl
  have hmark : punctuator ('(' :: rest) = "(" := rfl
  have hpeek := peekPunctuator_at hbefore hlink.solid q
  have hpunct := punct_at hbefore hlink.solid q hmark rfl
  rw [hmark] at hpeek
  refine ⟨Span.between start c.place, ?_⟩
  rw [Grammar.chainRound, bind_of (endsIn_link hbefore hlink q), if_neg (by decide), bind_of hpeek]
  have hcall : g.callWith start callee ⟨q, before ++ '(' :: rest⟩ =
      some (.call (Span.between start c.place) callee list.items, c) := by
    have helements : g.elements ⟨q, before ++ '(' :: rest⟩ = some (list, c) := by
      rw [Grammar.elements, bind_of hpunct]
      exact hlist
    rw [Grammar.callWith, bind_of helements, bind_of (spanFrom_eq _ _)]
    rfl
  exact map_of hcall

end Links

/-! ## Arguments -/

section Arguments

variable {g : Grammar} {q q' : Place} {n : Node} {behind : List Char}

theorem commaRound_close {gap : List Char} (h : Trivia gap) (item : Rule Node) (found : CommaList)
    (behind : List Char) :
    commaRound ")" item found ⟨q, gap ++ ')' :: behind⟩ =
      some (.done { found with items := found.items.reverse },
        ⟨q.after (gap ++ [')']), behind⟩) := by
  have hcloser : Closer (')' :: behind) := .inr rfl
  have hmark : punctuator (')' :: behind) = ")" := rfl
  have hpeek := peekPunctuator_at h hcloser.solid q
  have hpunct := punct_at h hcloser.solid q hmark rfl
  rw [hmark] at hpeek
  rw [commaRound, bind_of hpeek, if_pos (by decide), bind_of hpunct, Place.after_append]
  rfl

theorem element_argument {before cs : List Char} {c : Cursor} (hbefore : Trivia before)
    (hcs : Solid cs) (hmark : punctuator cs ∈ ["", "-"])
    (hexpression : g.expression .inner ⟨q.after before, cs⟩ = some (n, c)) :
    g.element ⟨q, before ++ cs⟩ = some (n, c) := by
  have hne : punctuator cs ≠ "..." := by
    intro heq
    rw [heq] at hmark
    revert hmark
    decide
  have hspread : optionalPunct "..." ⟨q.after before, cs⟩ = some (false, ⟨q.after before, cs⟩) :=
    optionalPunct_not .nil hcs _ hne
  rw [Grammar.element, bind_of (place_at hbefore hcs q), bind_of hspread, if_neg (by decide),
    hexpression]

theorem commaRound_item {before cs : List Char} {c : Cursor} (hbefore : Trivia before)
    (hcs : Solid cs) (hmark : punctuator cs ∈ ["", "-"])
    (hexpression : g.expression .inner ⟨q.after before, cs⟩ = some (n, c)) (found : CommaList) :
    commaRound ")" g.element found ⟨q, before ++ cs⟩ = (do
      if ← optionalPunct "," then return .again ⟨n :: found.items, found.hasHole, true⟩
      else
        punct ")"
        return .done ⟨(n :: found.items).reverse, found.hasHole, false⟩ :
          Rule (Round CommaList CommaList)) c := by
  have hclose : (punctuator cs == ")") = false ∧ (punctuator cs == ",") = false := by
    rcases List.mem_cons.mp hmark with heq | hmem
    · rw [heq]
      decide
    · rw [List.mem_singleton.mp hmem]
      decide
  rw [commaRound, bind_of (peekPunctuator_at hbefore hcs q), if_neg (by simp [hclose.1]),
    if_neg (by simp [hclose.2]), bind_of (element_argument hbefore hcs hmark hexpression)]

theorem commaRound_last {before cs after : List Char} (hbefore : Trivia before)
    (hcs : Solid cs) (hmark : punctuator cs ∈ ["", "-"]) (hafter : Trivia after)
    (hexpression : g.expression .inner ⟨q.after before, cs⟩ =
      some (n, ⟨q', after ++ ')' :: behind⟩)) (found : CommaList) :
    commaRound ")" g.element found ⟨q, before ++ cs⟩ =
      some (.done ⟨(n :: found.items).reverse, found.hasHole, false⟩,
        ⟨q'.after (after ++ [')']), behind⟩) := by
  have hcloser : Closer (')' :: behind) := .inr rfl
  have hmark' : punctuator (')' :: behind) = ")" := rfl
  have hcomma := optionalPunct_not hafter hcloser.solid q' (p := ",") (by rw [hmark']; decide)
  have hpunct := punct_at hafter hcloser.solid q' hmark' rfl
  rw [commaRound_item hbefore hcs hmark hexpression, bind_of hcomma, if_neg (by decide),
    bind_of hpunct, Place.after_append]
  rfl

theorem commaRound_more {before cs after : List Char} (hbefore : Trivia before)
    (hcs : Solid cs) (hmark : punctuator cs ∈ ["", "-"]) (hafter : Trivia after)
    (hexpression : g.expression .inner ⟨q.after before, cs⟩ =
      some (n, ⟨q', after ++ ',' :: behind⟩)) (found : CommaList) :
    commaRound ")" g.element found ⟨q, before ++ cs⟩ =
      some (.again ⟨n :: found.items, found.hasHole, true⟩,
        ⟨q'.after (after ++ [',']), behind⟩) := by
  have hcloser : Closer (',' :: behind) := .inl rfl
  have hmark' : punctuator (',' :: behind) = "," := rfl
  have hcomma := optionalPunct_at hafter hcloser.solid q' hmark' rfl
  rw [commaRound_item hbefore hcs hmark hexpression, bind_of hcomma, if_pos rfl,
    Place.after_append]
  rfl

end Arguments

/-! ## Phrases -/

/-- What the grammar reads at a phrase. A chain is a first expression with links behind it, an
argument is an expression, and arguments are the steps through a list. -/
def Parses : Part → List Piece → Prop
  | .chain, pieces => ∀ (d : Nat) (s : Setting) (q : Place) (behind : List Char),
      (spelled pieces).length ≤ d → Part.Before .chain behind →
      ∃ head c n, (grammar d).primary s true ⟨q, spelled pieces ++ behind⟩ = some (head, c) ∧
        Rounds ((grammar d).chainRound s ⟨true, true⟩ q) head c n
          ⟨q.after (spelled pieces), behind⟩ ∧
        IsNamed n.calleeName? ∧ ∀ path, Named path → Shows q pieces (n.visits path)
  | .argument, pieces => ∀ (d : Nat) (q : Place) (behind : List Char),
      (spelled pieces).length ≤ d → Part.Before .argument behind →
      ∃ n, (grammar d).expressionRule .inner ⟨q, spelled pieces ++ behind⟩ =
          some (n, ⟨q.after (spelled pieces), behind⟩) ∧
        ∀ callee index path, IsNamed callee → Named path →
          Shows q pieces (n.visits (.argument callee index :: path))
  | .arguments, pieces => ∀ (d fuel : Nat) (q : Place) (behind : List Char) (found : CommaList),
      (spelled pieces).length ≤ d → (spelled pieces).length ≤ fuel →
      ∃ list items, Rule.repeatUpTo (commaRound ")" (grammar d).element) fuel found
          ⟨q, spelled pieces ++ behind⟩ = some (list, ⟨q.after (spelled pieces), behind⟩) ∧
        list.items = found.items.reverse ++ items ∧
        ∀ callee path index, IsNamed callee → Named path →
          Shows q pieces (Node.argumentVisits callee path index items)

/-- A first expression with links behind it, read as a whole. -/
theorem expressionRule_chain {g : Grammar} {s : Setting} {q q' : Place} {cs behind : List Char}
    {head n : Node} {c : Cursor} (hhead : ChainHead cs)
    (hprimary : g.primary s true ⟨q, cs⟩ = some (head, c))
    (hrounds : Rounds (g.chainRound s ⟨true, true⟩ q) head c n ⟨q', behind⟩)
    (hends : Ends s behind) : g.expressionRule s ⟨q, cs⟩ = some (n, ⟨q', behind⟩) := by
  have hword : wordOf cs ∉ ["typeof", "void", "delete", "await", "yield", "new"] := by
    have hnames : ∀ k ∈ ["typeof", "void", "delete", "await", "yield", "new"],
        isName k = false := by decide
    intro hmem
    exact Bool.false_ne_true ((hnames _ hmem).symm.trans hhead.isName_word)
  have hoperand := operandRule_of_primary .nil rfl hhead.solid hword hhead.mark hprimary hrounds hends
  exact expressionRule_of_operand hends hhead.solid hoperand

theorem ChainName.isNamed {w : List Char} (h : ChainName w) (column : Int) :
    IsNamed (some (String.ofList w, column)) := by
  rintro called ⟨⟩ hempty
  exact h.ne_nil (String.ofList_eq_empty_iff.mp hempty)

theorem parses_name {w : List Char} (h : ChainName w) : Parses .chain [.name w] := by
  intro d s q behind _ hbehind
  have htext : spelled [.name w] = w := by simp [Piece.text]
  rw [htext]
  exact ⟨_, _, _, primary_name h hbehind, .refl, h.isNamed _,
    fun path hpath => shows_name q hpath w⟩

theorem parses_property {object : List Piece} {before after w : List Char}
    (hobject : Parses .chain object) (hbefore : Trivia before) (hafter : Trivia after)
    (h : ChainName w) :
    Parses .chain (object ++ [.gap before, .mark '.', .gap after, .property w]) := by
  intro d s q behind hlength hbehind
  have htext : spelled (object ++ [.gap before, .mark '.', .gap after, .property w]) =
      spelled object ++ (before ++ '.' :: (after ++ w)) := by
    simp [Piece.text]
  rw [htext, List.length_append] at hlength
  obtain ⟨head, c, n, hprimary, hrounds, -, hshows⟩ :=
    hobject d s q _ (by omega) (before_property hbefore hafter h behind)
  obtain ⟨span, propertySpan, hround⟩ :=
    chainRound_property (q := q.after (spelled object)) hbefore hafter h hbehind q n
  refine ⟨head, c, .member span n (String.ofList w) propertySpan, ?_, ?_, h.isNamed _,
    fun path hpath =>
      shows_member q hpath hshows before after w span (String.ofList w) propertySpan⟩
  · rw [htext, ← hprimary]
    simp only [List.append_assoc, List.cons_append]
  · rw [htext, Place.after_append]
    refine hrounds.tail hround ?_
    simp only [List.length_append, List.length_cons]
    omega

theorem parses_call {callee list : List Piece} {before : List Char}
    (hcallee : Parses .chain callee) (hbefore : Trivia before) (hlist : Parses .arguments list) :
    Parses .chain (callee ++ .gap before :: .mark '(' :: list) := by
  intro d s q behind hlength hbehind
  have htext : spelled (callee ++ .gap before :: .mark '(' :: list) =
      spelled callee ++ (before ++ '(' :: spelled list) := by
    simp [Piece.text]
  rw [htext] at hlength
  simp only [List.length_append, List.length_cons] at hlength
  obtain ⟨head, c, n, hprimary, hrounds, hnamed, hshows⟩ :=
    hcallee d s q _ (by omega) (before_call hbefore (spelled list ++ behind))
  obtain ⟨found, items, hread, hitems, hshows'⟩ :=
    hlist d ((spelled list ++ behind).length + 1)
      (((q.after (spelled callee)).after before).after ['(']) behind ⟨[], false, false⟩ (by omega)
      (by rw [List.length_append]; omega)
  have hcomma : commaList ")" (grammar d).element
      ⟨((q.after (spelled callee)).after before).after ['('], spelled list ++ behind⟩ = some (found,
        ⟨(((q.after (spelled callee)).after before).after ['(']).after (spelled list), behind⟩) := by
    rw [commaList]
    exact hread
  obtain ⟨span, hround⟩ := chainRound_call (s := s) hbefore hcomma q n
  have hplace : q.after (spelled callee ++ (before ++ '(' :: spelled list)) =
      (((q.after (spelled callee)).after before).after ['(']).after (spelled list) := by
    rw [Place.after_append, Place.after_append, ← List.singleton_append, Place.after_append]
  have hcall : IsNamed (Node.call span n found.items).calleeName? := by
    intro called hcalled
    cases hcalled
  refine ⟨head, c, .call span n found.items, ?_, ?_, hcall,
    fun path hpath => shows_call q hpath found.items hshows ?_ span⟩
  · rw [htext, ← hprimary]
    simp only [List.append_assoc, List.cons_append]
  · rw [htext, hplace]
    refine hrounds.tail hround ?_
    simp only [List.length_append, List.length_cons]
    omega
  · rw [hitems, Place.after_append, Place.after_append]
    exact hshows' n.calleeName? path 0 hnamed hpath

theorem operandRule_minus {d : Nat} {s : Setting} {q : Place} {cs : List Char} {inner : Node}
    {c : Cursor} (hsolid : Solid ('-' :: cs)) (hmark : punctuator ('-' :: cs) = "-")
    (h : (grammar d).operandRule s true ⟨q.after ['-'], cs⟩ = some (inner, c)) :
    (grammar (d + 1)).operandRule s true ⟨q, '-' :: cs⟩ =
      some (.unary (Span.between q c.place) "-" inner, c) := by
  have hplace : place ⟨q, '-' :: cs⟩ = some (q, ⟨q, '-' :: cs⟩) := place_at .nil hsolid q
  have hpeek : peekWord ⟨q, '-' :: cs⟩ = some ("", ⟨q, '-' :: cs⟩) := peekWord_at .nil hsolid q
  have hpunct : peekPunctuator ⟨q, '-' :: cs⟩ = some ("-", ⟨q, '-' :: cs⟩) := by
    rw [← hmark]
    exact peekPunctuator_at .nil hsolid q
  have hpass : punct "-" ⟨q, '-' :: cs⟩ = some ((), ⟨q.after ['-'], cs⟩) :=
    punct_at .nil hsolid q hmark rfl
  have hinner : (grammar (d + 1)).operand s true ⟨q.after ['-'], cs⟩ = some (inner, c) := h
  rw [Grammar.operandRule, bind_of hplace, bind_of hpeek, bind_of hpunct, if_neg (by decide),
    if_neg (by decide), if_neg (by decide), if_pos (by decide), bind_of hpass, bind_of hinner,
    bind_of (spanFrom_eq _ _)]
  rfl

theorem parses_number {sign digits : List Char} (hsign : Sign sign)
    (h : numberToken? digits = some digits.length) : Parses .argument [.number sign digits] := by
  intro d q behind hlength hbehind
  have hnumeral := numeral_of_token h
  have htext : spelled [.number sign digits] = sign ++ digits := by simp [Piece.text]
  rw [htext] at hlength ⊢
  have hhead := numberHead hnumeral behind
  have hword : wordOf (digits ++ behind) ∉ ["typeof", "void", "delete", "await", "yield", "new"] := by
    rw [hhead.word]
    decide
  have hends : Ends .inner behind := .inner hbehind
  cases hsign with
  | none =>
    obtain ⟨value, hprimary⟩ := primary_number (g := grammar d) (s := .inner) (q := q) h hbehind
    have hoperand := operandRule_of_primary .nil rfl hhead.solid hword hhead.mark hprimary .refl
      hends
    exact ⟨_, expressionRule_of_operand hends hhead.solid hoperand,
      fun callee index path hcallee hpath => shows_number q hpath hcallee index digits value⟩
  | @minus gap hgap =>
    obtain ⟨d, rfl⟩ : ∃ d', d = d' + 1 := ⟨d - 1, by simp at hlength; omega⟩
    -- the operand behind the sign is one level deeper
    obtain ⟨value, hprimary⟩ :=
      primary_number (g := grammar d) (s := .inner) (q := (q.after ['-']).after gap) h hbehind
    have hinner := operandRule_of_primary hgap rfl hhead.solid hword hhead.mark hprimary .refl
      hends
    obtain ⟨hsolid, hmark⟩ := minus_head hgap hnumeral behind
    have hoperand := operandRule_minus (q := q) hsolid hmark hinner
    have hplace : (((q.after ['-']).after gap).after digits) = q.after ('-' :: gap ++ digits) := by
      rw [← Place.after_append, ← Place.after_append]
      rfl
    rw [hplace] at hoperand
    rw [List.append_assoc, List.cons_append]
    exact ⟨_, expressionRule_of_operand hends hsolid hoperand,
      fun callee index path hcallee hpath =>
        shows_negative q (hpath.argument hcallee index) digits gap _ value⟩

theorem parses_quoted {text : List Char} (h : Quoted text) : Parses .argument [.quoted text] := by
  intro d q behind hlength hbehind
  have htext : spelled [.quoted text] = text := by simp [Piece.text]
  rw [htext]
  obtain ⟨hsolid, hword, hmark, -⟩ := h.head behind
  have hends : Ends .inner behind := .inner hbehind
  obtain ⟨span, value, raw, hprimary⟩ :=
    primary_quoted (g := grammar d) (s := .inner) (q := q) h behind
  have hoperand := operandRule_of_primary .nil rfl hsolid (by rw [hword]; decide) hmark hprimary
    .refl hends
  exact ⟨_, expressionRule_of_operand hends hsolid hoperand,
    fun callee index path hcallee hpath =>
      shows_quoted q (hpath.argument hcallee index) text span value raw⟩

theorem parses_nested {pieces : List Piece} (hchain : Phrase .chain pieces)
    (h : Parses .chain pieces) : Parses .argument pieces := by
  intro d q behind hlength hbehind
  obtain ⟨head, c, n, hprimary, hrounds, -, hshows⟩ :=
    h d .inner q behind hlength (before_chain hbehind)
  have hhead := hchain.chainHead rfl (before_chain hbehind)
  exact ⟨n, expressionRule_chain hhead hprimary hrounds (.inner hbehind),
    fun callee index path hcallee hpath => hshows _ (hpath.argument hcallee index)⟩

theorem parses_none {gap : List Char} (h : Trivia gap) :
    Parses .arguments [.gap gap, .mark ')'] := by
  intro d fuel q behind found hlength hfuel
  have htext : spelled [.gap gap, .mark ')'] = gap ++ [')'] := by simp [Piece.text]
  rw [htext] at hlength hfuel ⊢
  obtain ⟨fuel, rfl⟩ : ∃ fuel', fuel = fuel' + 1 := ⟨fuel - 1, by simp at hfuel; omega⟩
  have hround := commaRound_close (q := q) h (grammar d).element found behind
  have hread := repeatUpTo_done hround fuel
  rw [← List.singleton_append, ← List.append_assoc] at hread
  exact ⟨_, [], hread, (List.append_nil _).symm,
    fun callee path index _ _ => .silent (fun _ => rfl) (.silent (fun _ => rfl) .nil)⟩

/-- The visits of an argument and of those behind it. -/
theorem shows_argument {q : Place} {argument list : List Piece} {before after : List Char} {c : Char}
    {n : Node} {items : List Node} {callee : Option (String × Int)} {path : List Crumb} {index : Nat}
    (h : Shows (q.after before) argument (n.visits (.argument callee index :: path)))
    (h' : Shows (q.after (before ++ (spelled argument ++ (after ++ [c])))) list
      (Node.argumentVisits callee path (index + 1) items)) :
    Shows q (.gap before :: (argument ++ .gap after :: .mark c :: list))
      (Node.argumentVisits callee path index (n :: items)) := by
  rw [Node.argumentVisits]
  refine .silent (fun _ => rfl) (h.append (.silent (fun _ => rfl) (.silent (fun _ => rfl) ?_)))
  rw [Place.after_append, Place.after_append, Place.after_append] at h'
  exact h'

theorem parses_last {argument : List Piece} {before after : List Char} (hbefore : Trivia before)
    (hargument : Phrase .argument argument) (h : Parses .argument argument)
    (hafter : Trivia after) :
    Parses .arguments (.gap before :: (argument ++ [.gap after, .mark ')'])) := by
  intro d fuel q behind found hlength hfuel
  have htext : spelled (.gap before :: (argument ++ [.gap after, .mark ')'])) =
      before ++ (spelled argument ++ (after ++ [')'])) := by
    simp [Piece.text]
  rw [htext] at hlength hfuel ⊢
  simp only [List.length_append, List.length_cons] at hlength hfuel
  obtain ⟨fuel, rfl⟩ : ∃ fuel', fuel = fuel' + 1 := ⟨fuel - 1, by omega⟩
  obtain ⟨d, rfl⟩ : ∃ d', d = d' + 1 := ⟨d - 1, by omega⟩
  have hclose : Part.Before .argument (after ++ ')' :: behind) := ⟨after, _, rfl, hafter, .inr rfl⟩
  obtain ⟨n, hexpression, hshows⟩ := h d (q.after before) _ (by omega) hclose
  obtain ⟨hsolid, hmark⟩ := hargument.head_argument hclose
  have hround := commaRound_last (g := grammar (d + 1)) hbefore hsolid hmark hafter hexpression found
  have hread := repeatUpTo_done hround fuel
  rw [← Place.after_append, ← Place.after_append] at hread
  simp only [List.append_assoc, List.singleton_append]
  exact ⟨_, [n], hread, List.reverse_cons,
    fun callee path index hcallee hpath =>
      shows_argument (hshows callee index path hcallee hpath) .nil⟩

theorem parses_more {argument list : List Piece} {before after : List Char}
    (hbefore : Trivia before) (hargument : Phrase .argument argument)
    (h : Parses .argument argument) (hafter : Trivia after) (hlist : Parses .arguments list) :
    Parses .arguments (.gap before :: (argument ++ .gap after :: .mark ',' :: list)) := by
  intro d fuel q behind found hlength hfuel
  have htext : spelled (.gap before :: (argument ++ .gap after :: .mark ',' :: list)) =
      before ++ (spelled argument ++ (after ++ [','])) ++ spelled list := by
    simp [Piece.text]
  rw [htext] at hlength hfuel ⊢
  simp only [List.length_append, List.length_cons] at hlength hfuel
  obtain ⟨fuel, rfl⟩ : ∃ fuel', fuel = fuel' + 1 := ⟨fuel - 1, by omega⟩
  obtain ⟨d, rfl⟩ : ∃ d', d = d' + 1 := ⟨d - 1, by omega⟩
  have hclose : Part.Before .argument (after ++ ',' :: (spelled list ++ behind)) :=
    ⟨after, _, rfl, hafter, .inl rfl⟩
  obtain ⟨n, hexpression, hshows⟩ := h d (q.after before) _ (by omega) hclose
  obtain ⟨hsolid, hmark⟩ := hargument.head_argument hclose
  have hround := commaRound_more (g := grammar (d + 1)) hbefore hsolid hmark hafter hexpression found
  have hagain := repeatUpTo_again hround fuel
  obtain ⟨read, items, hread, hitems, hshows'⟩ :=
    hlist (d + 1) fuel (q.after (before ++ (spelled argument ++ (after ++ [','])))) behind
      ⟨n :: found.items, found.hasHole, true⟩ (by omega) (by omega)
  rw [← Place.after_append, ← Place.after_append] at hagain
  refine ⟨read, n :: items, ?_, by rw [hitems, List.reverse_cons, List.append_assoc]; rfl,
    fun callee path index hcallee hpath =>
      shows_argument (hshows callee index path hcallee hpath)
        (hshows' callee path (index + 1) hcallee hpath)⟩
  rw [Place.after_append, ← hread, ← hagain]
  simp only [List.append_assoc, List.cons_append, List.nil_append]

/-- The grammar reads every phrase, and the tree shows its values. -/
theorem Phrase.parses {part : Part} {pieces : List Piece} (h : Phrase part pieces) :
    Parses part pieces := by
  induction h with
  | name h => exact parses_name h
  | property _ hbefore hafter h ih => exact parses_property ih hbefore hafter h
  | call _ hbefore _ ih ih' => exact parses_call ih hbefore ih'
  | number hsign h => exact parses_number hsign h
  | quoted h => exact parses_quoted h
  | nested h ih => exact parses_nested h ih
  | none h => exact parses_none h
  | last hbefore h hafter ih => exact parses_last hbefore h ih hafter
  | more hbefore h hafter _ ih ih' => exact parses_more hbefore h ih hafter ih'

end LiveChain.Chain
