import LiveChain.Proofs.Chain.Tree

/-!
# Reading the leaves of a chain

What the grammar reads at a name, a number or a quoted text, and that nothing goes on with an
expression where it ends.
-/

set_option autoImplicit false

namespace LiveChain.Chain

open Text Syntax Scan

/-! ## Where an expression ends -/

/-- Where an expression ends: an argument before what closes it, and the expression of a statement
where only white space and comments are left. -/
inductive Ends : Setting → List Char → Prop
  | inner {behind : List Char} (h : Part.Before .argument behind) : Ends .inner behind
  | last {behind : List Char} (h : Ending behind) : Ends .last behind

theorem Ends.before {s : Setting} {behind : List Char} (h : Ends s behind) :
    Part.Before .chain behind := by
  cases h with
  | inner h => exact before_chain h
  | last h => exact .inr h

theorem punctuator_head (c : Char) (cs : List Char) :
    punctuator (c :: cs) = "" ∨ (punctuator (c :: cs)).toList.head? = some c := by
  unfold punctuator
  split
  · next p hp =>
    have hnonempty : ∀ p ∈ punctuators, p.toList ≠ [] := by decide
    have hhead : p.toList.head? = some c := by
      have hmatch := List.find?_some hp
      cases hlist : p.toList with
      | nil => exact absurd hlist (hnonempty p (List.mem_of_find?_eq_some hp))
      | cons d ds =>
        rw [hlist, List.isPrefixOf, Bool.and_eq_true, beq_iff_eq] at hmatch
        rw [List.head?_cons, hmatch.1]
    simp only
    split
    · exact .inl rfl
    · split
      · next hmark =>
        rw [Bool.and_eq_true, beq_iff_eq] at hmark
        rw [hmark.1] at hhead
        exact .inr hhead
      · exact .inr hhead
  · exact .inl rfl

/-- Behind a chain stands no punctuator with another first character. -/
theorem peekPunctuator_before {behind : List Char} (h : Part.Before .chain behind) (q : Place) :
    ∃ p, peekPunctuator ⟨q, behind⟩ = some (p, ⟨q, behind⟩) ∧
      ∀ c ∈ p.toList.head?, c ∈ ['.', '(', ',', ')'] := by
  have hstop := stop_chain h
  refine ⟨punctuator (behind.drop (triviaLength behind)), rfl, ?_⟩
  cases hnext : behind.drop (triviaLength behind) with
  | nil => simp [show punctuator [] = "" from rfl]
  | cons c rest =>
    rw [hnext] at hstop
    rcases punctuator_head c rest with hnone | hhead
    · simp [hnone]
    · rw [hhead]
      exact hstop

theorem peek_argument {behind : List Char} (h : Part.Before .argument behind) (q : Place) :
    peekWord ⟨q, behind⟩ = some ("", ⟨q, behind⟩) ∧
      (peekPunctuator ⟨q, behind⟩ = some (",", ⟨q, behind⟩) ∨
        peekPunctuator ⟨q, behind⟩ = some (")", ⟨q, behind⟩)) := by
  obtain ⟨gap, stop, rfl, hgap, hstop⟩ := h
  have hword := peekWord_at hgap hstop.solid q
  have hpunct := peekPunctuator_at hgap hstop.solid q
  obtain ⟨c, rest, rfl, rfl | rfl⟩ := hstop.exists_cons
  · exact ⟨hword, .inl hpunct⟩
  · exact ⟨hword, .inr hpunct⟩

section Ends

variable {g : Grammar} {s : Setting} {q : Place} {behind : List Char}

theorem endsIn_inner (c : Cursor) : endsIn .inner c = some (false, c) := rfl

theorem endsIn_last (h : Ending behind) (q : Place) :
    endsIn .last ⟨q, behind⟩ = some (true, ⟨q, behind⟩) := by
  rw [endsIn_eq, h.statementEnds_eq]
  rfl

theorem chainRound_ends (h : Ends s behind) (links : Grammar.Links) (start : Place) (n : Node) :
    g.chainRound s links start n ⟨q, behind⟩ = some (.done n, ⟨q, behind⟩) := by
  cases h with
  | inner h =>
    rw [Grammar.chainRound, bind_of (endsIn_inner _), if_neg (by decide)]
    rcases (peek_argument h q).2 with hpeek | hpeek
    · rw [bind_of hpeek]
      rfl
    · rw [bind_of hpeek]
      rfl
  | last h =>
    rw [Grammar.chainRound, bind_of (endsIn_last h q)]
    rfl

theorem assignmentTail_argument (h : Part.Before .argument behind) (start : Place) (n : Node) :
    g.assignmentTail s start n ⟨q, behind⟩ = some (n, ⟨q, behind⟩) := by
  rw [Grammar.assignmentTail]
  rcases (peek_argument h q).2 with hpeek | hpeek
  · rw [bind_of hpeek]
    rfl
  · rw [bind_of hpeek]
    rfl

theorem chainTail_of_rounds (h : Ends s behind) {updates : Bool} {start : Place} {head n : Node}
    {c : Cursor} (hrounds : Rounds (g.chainRound s ⟨true, updates⟩ start) head c n ⟨q, behind⟩) :
    g.chainTail s updates start head c = some (n, ⟨q, behind⟩) := by
  have hchain : g.chainFrom s ⟨true, updates⟩ start head c = some (n, ⟨q, behind⟩) :=
    hrounds.iterate_eq (chainRound_ends h ⟨true, updates⟩ start n)
  rw [Grammar.chainTail, bind_of hchain]
  cases h with
  | inner h =>
    rw [bind_of (endsIn_inner _)]
    exact assignmentTail_argument h start n
  | last h =>
    rw [bind_of (endsIn_last h q)]
    rfl

theorem binaryOperator?_ends (h : Ends s behind) (least : Nat) :
    Grammar.binaryOperator? s least ⟨q, behind⟩ = some (none, ⟨q, behind⟩) := by
  cases h with
  | inner h =>
    obtain ⟨hword, hpeek⟩ := peek_argument h q
    rw [Grammar.binaryOperator?, bind_of (endsIn_inner _), if_neg (by decide), bind_of hword]
    rcases hpeek with hpeek | hpeek
    · rw [bind_of hpeek]
      rfl
    · rw [bind_of hpeek]
      rfl
  | last h =>
    rw [Grammar.binaryOperator?, bind_of (endsIn_last h q)]
    rfl

/-- An operand that ends where an expression ends is the whole expression. -/
theorem expressionRule_of_operand (h : Ends s behind) {start : Place} {cs : List Char} {n : Node}
    (hcs : Solid cs) (hoperand : g.operandRule s true ⟨start, cs⟩ = some (n, ⟨q, behind⟩)) :
    g.expressionRule s ⟨start, cs⟩ = some (n, ⟨q, behind⟩) := by
  have hplace : place ⟨start, cs⟩ = some (start, ⟨start, cs⟩) := place_at .nil hcs start
  have hbinary : g.binaryRule s ⟨start, cs⟩ = some (n, ⟨q, behind⟩) := by
    rw [Grammar.binaryRule, Grammar.operandsFrom, bind_of hoperand]
    -- no operator follows, so there is one operand
    refine (bind_iterate_done [] ⟨q, behind⟩ ?_).trans rfl
    rw [bind_of (binaryOperator?_ends h 0)]
    rfl
  rw [Grammar.expressionRule, bind_of hplace, bind_of hbinary]
  cases h with
  | inner h =>
    obtain ⟨gap, stop, rfl, hgap, hstop⟩ := h
    have hget : (get : Rule Cursor) ⟨q, gap ++ stop⟩ =
        some (⟨q, gap ++ stop⟩, ⟨q, gap ++ stop⟩) := rfl
    rw [bind_of (endsIn_inner _), if_neg (by decide), bind_of hget]
    simp only [startsChoice_closer hgap hstop]
    rfl
  | last h =>
    rw [bind_of (endsIn_last h q)]
    rfl

end Ends

/-! ## First expressions -/

/-- A word that is a name starts an expression that is that name. -/
theorem wordPrimary_eq {g : Grammar} {s : Setting} {called : Bool} {w : String}
    (h : isName w = true) (hasync : w ≠ "async") :
    g.wordPrimary s called w = (do
      let start ← place
      let name ← identifier
      if (← peekPunctuator) == "=>" && !(← endsIn s) then g.arrowTail s start name
      else return name) := by
  unfold Grammar.wordPrimary
  refine congrArg (place >>= ·) (funext fun start => ?_)
  split
  · exact absurd h (by decide)
  · exact absurd h (by decide)
  · exact absurd h (by decide)
  · exact absurd h (by decide)
  · exact absurd h (by decide)
  · exact absurd h (by decide)
  · exact absurd h (by decide)
  · exact absurd h (by decide)
  · exact absurd h (by decide)
  · exact absurd rfl hasync
  · rw [if_neg (by simp [h])]

section Primary

variable {g : Grammar} {s : Setting} {q : Place} {behind : List Char}

theorem wordPrimary_name {w : List Char} (h : ChainName w) (hbehind : Part.Before .chain behind) :
    g.wordPrimary s true (String.ofList w) ⟨q, w ++ behind⟩ =
      some (.identifier (Span.between q (q.after w)) (String.ofList w), ⟨q.after w, behind⟩) := by
  have hsolid := h.solid behind
  have hword := h.wordLength_eq (head_chain hbehind)
  have hplace : place ⟨q, w ++ behind⟩ = some (q, ⟨q, w ++ behind⟩) := place_at .nil hsolid q
  have hread : word ⟨q, w ++ behind⟩ = some (String.ofList w, ⟨q.after w, behind⟩) :=
    word_at .nil hsolid q hword h.ne_nil rfl
  have hident : isIdentifier (String.ofList w) = true := by
    have hname := h.name
    rw [isName, Bool.and_eq_true] at hname
    exact hname.1
  have hidentifier : identifier ⟨q, w ++ behind⟩ =
      some (.identifier (Span.between q (q.after w)) (String.ofList w), ⟨q.after w, behind⟩) := by
    rw [identifier, bind_of hplace, bind_of hread, if_pos hident, bind_of (spanFrom_eq _ _)]
    rfl
  obtain ⟨p, hpeek, hp⟩ := peekPunctuator_before hbehind (q.after w)
  have harrow : (p == "=>") = false := by
    rw [beq_eq_false_iff_ne]
    rintro rfl
    exact absurd (hp '=' rfl) (by decide)
  rw [wordPrimary_eq h.name h.plain.1, bind_of hplace, bind_of hidentifier, bind_of hpeek,
    bind_of (endsIn_eq s _)]
  simp only [harrow, Bool.false_and]
  rfl

theorem startsNumber_of_plain {c : Char} (hdigit : c.isDigit = false) (hpoint : c ≠ '.')
    (cs : List Char) : startsNumber (c :: cs) = false := by
  have hzero : c ≠ '0' := by
    rintro rfl
    cases hdigit
  have hbased : basedNumber? (c :: cs) = none := by simp [basedNumber?, hzero]
  have hplain : plainNumber? (c :: cs) = none := by
    simp [plainNumber?, digitRun, hdigit, hpoint]
  rw [startsNumber, numberToken?, hbased, hplain]
  rfl

/-- No expression in quotes or brackets starts with another character. -/
theorem primary_of_head {c : Char} {cs : List Char} (hsolid : Solid (c :: cs))
    (h : c ∉ ['\'', '"', '`', '/', '(', '[', '\x7b']) (q : Place) :
    g.primary s true ⟨q, c :: cs⟩ = (if startsNumber (c :: cs) then numberLiteral
      else g.wordPrimary s true (wordOf (c :: cs))) ⟨q, c :: cs⟩ := by
  have hupcoming : upcoming ⟨q, c :: cs⟩ = some (c :: cs, ⟨q, c :: cs⟩) :=
    upcoming_at .nil hsolid q
  simp only [List.mem_cons, List.not_mem_nil, or_false, not_or] at h
  obtain ⟨hsingle, hdouble, htick, hslash, hparen, hbracket, hbrace⟩ := h
  rw [Grammar.primary, bind_of hupcoming]
  simp only [beq_iff_eq, Bool.or_eq_true, hsingle, hdouble, htick, hslash, hparen, hbracket,
    hbrace, or_self, if_false]

theorem primary_name {w : List Char} (h : ChainName w) (hbehind : Part.Before .chain behind) :
    g.primary s true ⟨q, w ++ behind⟩ =
      some (.identifier (Span.between q (q.after w)) (String.ofList w), ⟨q.after w, behind⟩) := by
  have hsolid := h.solid behind
  have hword := h.wordOf_eq (head_chain hbehind)
  have hplain := h.head_plain behind
  have hresult := wordPrimary_name (g := g) (s := s) (q := q) h hbehind
  obtain ⟨c, more, rfl, hdigit⟩ := h.start
  obtain ⟨-, -, -, hmark, -⟩ := isNameChar_classes (h.chars c List.mem_cons_self)
  rw [List.cons_append] at hsolid hword hplain hresult ⊢
  have hhead : c ∉ ['\'', '"', '`', '/', '(', '[', '\x7b'] := by
    intro hmem
    have hsub : ∀ d ∈ ['\'', '"', '`', '/', '(', '[', '\x7b'], d ∈ punctuationChars :=
      forall_mem_of_all (by decide)
    exact hmark (hsub c hmem)
  rw [primary_of_head hsolid hhead, startsNumber_of_plain hdigit (hplain c rfl).2.2, hword]
  exact hresult

/-- A text that starts with a numeral starts with no word and no punctuator. -/
structure NumberHead (cs : List Char) : Prop where
  solid : Solid cs
  word : wordOf cs = ""
  mark : punctuator cs = ""
  head : ∀ c ∈ cs.head?, c ∉ ['\'', '"', '`', '/', '(', '[', '\x7b', '-', '=']

theorem numberHead {digits : List Char} (h : Numeral digits) (rest : List Char) :
    NumberHead (digits ++ rest) := by
  obtain ⟨c, more, rfl, hdigit | ⟨rfl, d, ds, rfl, hd⟩⟩ := h.start
  · have hname : isNameChar c = true := by simp [isNameChar, Char.isAlphanum, hdigit]
    obtain ⟨-, -, hspace, hmark, -⟩ := isNameChar_classes hname
    have hsub : ∀ d ∈ ['\'', '"', '`', '/', '(', '[', '\x7b', '-', '='], d ∈ punctuationChars :=
      forall_mem_of_all (by decide)
    have hhead : c ∉ ['\'', '"', '`', '/', '(', '[', '\x7b', '-', '='] :=
      fun hmem => hmark (hsub c hmem)
    exact {
      solid := by
        intro d hd
        obtain rfl := Option.some.inj hd
        exact ⟨hspace, fun heq => hhead (by rw [heq]; decide)⟩
      word := by simp [wordOf, wordLength, hdigit]
      mark := punctuator_plain hmark _
      head := by
        intro d hd
        obtain rfl := Option.some.inj hd
        exact hhead }
  · have hpoint : (d :: (ds ++ rest)).head? ≠ some '.' := by
      rintro heq
      rw [Option.some.inj heq] at hd
      cases hd
    exact {
      solid := by
        intro c hc
        obtain rfl := Option.some.inj hc
        decide
      word := rfl
      mark := by
        rw [List.cons_append, List.cons_append, punctuator_point hpoint, if_pos]
        simpa using hd
      head := by
        intro c hc
        obtain rfl := Option.some.inj hc
        decide }

theorem primary_number {digits : List Char} (h : numberToken? digits = some digits.length)
    (hbehind : Part.Before .argument behind) : ∃ value,
    g.primary s true ⟨q, digits ++ behind⟩ =
      some (.literal (Span.between q (q.after digits)) (.number value) (String.ofList digits),
        ⟨q.after digits, behind⟩) := by
  have hnumeral := numeral_of_token h
  obtain ⟨value, hvalue⟩ := Option.isSome_iff_exists.mp hnumeral.value_isSome
  have htoken : numberToken? (digits ++ behind) = some digits.length := by
    rw [numberToken?_append (stops_argument hbehind), h]
  have hhead := numberHead hnumeral behind
  refine ⟨value, ?_⟩
  have hliteral : numberLiteral ⟨q, digits ++ behind⟩ =
      some (.literal (Span.between q (q.after digits)) (.number value) (String.ofList digits),
        ⟨q.after digits, behind⟩) := by
    have hplace : place ⟨q, digits ++ behind⟩ = some (q, ⟨q, digits ++ behind⟩) :=
      place_at .nil hhead.solid q
    have hget : (get : Rule Cursor) ⟨q, digits ++ behind⟩ =
        some (⟨q, digits ++ behind⟩, ⟨q, digits ++ behind⟩) := rfl
    rw [numberLiteral, bind_of hplace, bind_of hget]
    simp only [htoken]
    rw [bind_of (pass_append q digits behind)]
    simp only [String.toList_ofList, hvalue]
    rw [bind_of (spanFrom_eq _ _)]
    rfl
  obtain ⟨c, more, rfl, -⟩ := hnumeral.start
  have hplain : c ∉ ['\'', '"', '`', '/', '(', '[', '\x7b'] := by
    intro hmem
    exact hhead.head c rfl (List.mem_append_left ['-', '='] hmem)
  have hsolid := hhead.solid
  rw [List.cons_append] at htoken hliteral hsolid ⊢
  rw [primary_of_head hsolid hplain, startsNumber, htoken]
  exact hliteral

theorem stringFrom?_quoted {quote : Char} {body : List Char}
    (h : ∀ c ∈ body, c ≠ quote ∧ c ≠ '\\' ∧ c ≠ '\n' ∧ c ≠ '\r') (rest : List Char) :
    stringFrom? quote 0 (body ++ quote :: rest) = some (body.length + 1) := by
  induction body with
  | nil => simp [stringFrom?]
  | cons c body ih =>
    obtain ⟨hc, hslash, hline, hreturn⟩ := h c List.mem_cons_self
    simp [stringFrom?, hc, hslash, hline, hreturn, ih fun d hd => h d (List.mem_cons_of_mem _ hd)]

theorem Quoted.head {text : List Char} (h : Quoted text) (rest : List Char) :
    Solid (text ++ rest) ∧ wordOf (text ++ rest) = "" ∧ punctuator (text ++ rest) = "" ∧
      ∃ c more, text = c :: more ∧ (c == '\'' || c == '"') = true := by
  cases h with
  | mk hquote =>
    rcases hquote with rfl | rfl
    · exact ⟨by intro c hc; obtain rfl := Option.some.inj hc; decide, rfl, rfl, _, _, rfl, rfl⟩
    · exact ⟨by intro c hc; obtain rfl := Option.some.inj hc; decide, rfl, rfl, _, _, rfl, rfl⟩

theorem primary_quoted {text : List Char} (h : Quoted text) (behind : List Char) :
    ∃ span value raw,
    g.primary s true ⟨q, text ++ behind⟩ =
      some (.literal span (.text value) raw, ⟨q.after text, behind⟩) := by
  obtain ⟨hsolid, -, -, c, more, htext, hc⟩ := h.head behind
  have htoken : stringToken? (text ++ behind) = some text.length := by
    cases h with
    | @mk quote body hquote h =>
      have hquote' : (quote == '\'' || quote == '"') = true := by simpa using hquote
      have htail := stringFrom?_quoted h behind
      rw [List.cons_append, List.append_assoc, List.singleton_append, stringToken?, if_pos hquote',
        htail]
      simp
  have hplace : place ⟨q, text ++ behind⟩ = some (q, ⟨q, text ++ behind⟩) :=
    place_at .nil hsolid q
  have hupcoming : upcoming ⟨q, text ++ behind⟩ = some (text ++ behind, ⟨q, text ++ behind⟩) :=
    upcoming_at .nil hsolid q
  have hget : (get : Rule Cursor) ⟨q, text ++ behind⟩ =
      some (⟨q, text ++ behind⟩, ⟨q, text ++ behind⟩) := rfl
  have hliteral : stringLiteral ⟨q, text ++ behind⟩ =
      some (.literal (Span.between q (q.after text))
        (.text (String.ofList ((String.ofList text).toList.drop 1).dropLast)) (String.ofList text),
        ⟨q.after text, behind⟩) := by
    rw [stringLiteral, bind_of hplace, bind_of hget]
    simp only [htoken]
    rw [bind_of (pass_append q text behind), bind_of (spanFrom_eq _ _)]
    rfl
  have hprimary : g.primary s true ⟨q, text ++ behind⟩ = stringLiteral ⟨q, text ++ behind⟩ := by
    rw [Grammar.primary, bind_of hupcoming]
    subst htext
    simp only [List.cons_append]
    rw [if_pos hc]
  exact ⟨_, _, _, hprimary.trans hliteral⟩

/-- A first expression and the links behind it make an operand. -/
theorem operandRule_of_primary {gap cs : List Char} {head n : Node} {c : Cursor} {start q' : Place}
    (hgap : Trivia gap) (hstart : q.after gap = start) (hcs : Solid cs)
    (hword : wordOf cs ∉ ["typeof", "void", "delete", "await", "yield", "new"])
    (hmark : punctuator cs = "") (hprimary : g.primary s true ⟨start, cs⟩ = some (head, c))
    (hrounds : Rounds (g.chainRound s ⟨true, true⟩ start) head c n ⟨q', behind⟩)
    (hends : Ends s behind) :
    g.operandRule s true ⟨q, gap ++ cs⟩ = some (n, ⟨q', behind⟩) := by
  have hplace : place ⟨start, cs⟩ = some (start, ⟨start, cs⟩) := place_at .nil hcs start
  have hpeek : peekWord ⟨start, cs⟩ = some (wordOf cs, ⟨start, cs⟩) := peekWord_at .nil hcs start
  have hpunct : peekPunctuator ⟨start, cs⟩ = some ("", ⟨start, cs⟩) := by
    rw [← hmark]
    exact peekPunctuator_at .nil hcs start
  simp only [List.mem_cons, List.not_mem_nil, or_false, not_or] at hword
  obtain ⟨htypeof, hvoid, hdelete, hawait, hyield, hnew⟩ := hword
  have hchain : g.chainRule s true ⟨start, cs⟩ = some (n, ⟨q', behind⟩) := by
    rw [Grammar.chainRule, bind_of hplace, bind_of hpeek, if_neg (by simpa using hnew),
      bind_of hprimary]
    exact chainTail_of_rounds hends hrounds
  have hbegin := place_at hgap hcs q
  rw [hstart] at hbegin
  rw [Grammar.operandRule, bind_of hbegin, bind_of hpeek, bind_of hpunct,
    if_neg (by simp [htypeof, hvoid, hdelete]), if_neg (by simpa using hawait),
    if_neg (by simpa using hyield), if_neg (by decide), if_neg (by decide), if_neg (by decide),
    hchain]

end Primary

end LiveChain.Chain
