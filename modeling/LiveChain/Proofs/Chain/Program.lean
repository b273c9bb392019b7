import LiveChain.Proofs.Chain.Parse

/-!
# Chains as programs

A whole method chain is one statement, so it parses unless one of its numerals is longer than
numerals may be.
-/

set_option autoImplicit false

namespace LiveChain.Chain

open Text Syntax Scan

/-! ## The statement that a name starts -/

theorem wordStatement_eq {g : Grammar} {w : String} (h : isName w = true) :
    g.wordStatement w = (do
      if ← asyncFunctionAhead .last then
        Grammar.unjoined (g.functionRule true) <|> g.expressionStatement
      else if ← Grammar.declarationAhead .last then g.declaration
      else if isName w && (← punctuatorAfterWord) == ":" &&
          !statementEnds false (← behindWord) then g.labelRule
      else g.expressionStatement) := by
  unfold Grammar.wordStatement
  split
  · exact absurd h (by decide)
  · exact absurd h (by decide)
  · exact absurd h (by decide)
  · exact absurd h (by decide)
  · exact absurd h (by decide)
  · exact absurd h (by decide)
  · exact absurd h (by decide)
  · exact absurd h (by decide)
  · exact absurd h (by decide)
  · exact absurd h (by decide)
  · exact absurd h (by decide)
  · exact absurd h (by decide)
  · rfl

section Name

variable {w behind : List Char} (h : ChainName w) (hbehind : Part.Before .chain behind) (q : Place)

include h hbehind

theorem behindWord_name : behindWord ⟨q, w ++ behind⟩ = some (behind, ⟨q, w ++ behind⟩) := by
  have hbehindWord : behindWord ⟨q, w ++ behind⟩ =
      some ((w ++ behind).drop (wordLength (w ++ behind)), ⟨q, w ++ behind⟩) :=
    behindWord_at .nil (h.solid behind) q
  rwa [h.wordLength_eq (head_chain hbehind), List.drop_left] at hbehindWord

theorem upcomingAfterWord_name : upcomingAfterWord ⟨q, w ++ behind⟩ =
    some (behind.drop (triviaLength behind), ⟨q, w ++ behind⟩) := by
  rw [upcomingAfterWord, bind_of (behindWord_name h hbehind q)]
  rfl

theorem peekWord_name :
    peekWord ⟨q, w ++ behind⟩ = some (String.ofList w, ⟨q, w ++ behind⟩) := by
  rw [← h.wordOf_eq (head_chain hbehind)]
  exact peekWord_at .nil (h.solid behind) q

theorem asyncFunctionAhead_name :
    asyncFunctionAhead .last ⟨q, w ++ behind⟩ = some (false, ⟨q, w ++ behind⟩) := by
  have hasync : (String.ofList w == "async") = false := beq_eq_false_iff_ne.mpr h.plain.1
  rw [asyncFunctionAhead, bind_of (behindWord_name h hbehind q), bind_of (peekWord_name h hbehind q),
    bind_of (upcomingAfterWord_name h hbehind q), hasync, Bool.false_and, Bool.false_and]
  rfl

theorem declarationAhead_name :
    Grammar.declarationAhead .last ⟨q, w ++ behind⟩ = some (false, ⟨q, w ++ behind⟩) := by
  have hnames : isName "var" = false ∧ isName "const" = false := by decide
  have hvar : (String.ofList w == "var" || String.ofList w == "const") = false := by
    rw [Bool.or_eq_false_iff, beq_eq_false_iff_ne, beq_eq_false_iff_ne]
    have hname := h.name
    constructor
    · intro heq
      rw [heq, hnames.1] at hname
      cases hname
    · intro heq
      rw [heq, hnames.2] at hname
      cases hname
  rw [Grammar.declarationAhead, bind_of (peekWord_name h hbehind q), if_neg (by simp [hvar]),
    if_neg (by simpa using h.plain.2)]
  rfl

/-- Behind the first name of a chain stands no colon. -/
theorem punctuatorAfterWord_name : ∃ p, p ≠ ":" ∧
    punctuatorAfterWord ⟨q, w ++ behind⟩ = some (p, ⟨q, w ++ behind⟩) := by
  have hstop := stop_chain hbehind
  refine ⟨punctuator (behind.drop (triviaLength behind)), ?_, ?_⟩
  · cases hnext : behind.drop (triviaLength behind) with
    | nil => decide
    | cons c rest =>
      rw [hnext] at hstop
      intro heq
      have hhead := punctuator_head c rest
      rw [heq] at hhead
      rcases hhead with hnone | hhead
      · exact absurd hnone (by decide)
      · have hcolon : ':' = c := Option.some.inj hhead
        exact absurd (hstop c rfl) (by rw [← hcolon]; decide)
  · rw [punctuatorAfterWord, bind_of (upcomingAfterWord_name h hbehind q)]
    rfl

end Name

/-- What starts with a name of a chain is no other statement than an expression. -/
theorem wordStatement_chain {g : Grammar} {cs : List Char} (h : ChainHead cs) (q : Place) :
    g.wordStatement (wordOf cs) ⟨q, cs⟩ = g.expressionStatement ⟨q, cs⟩ := by
  rw [wordStatement_eq h.isName_word]
  cases h with
  | @mk w behind h hbehind =>
    obtain ⟨p, hcolon, hmark⟩ := punctuatorAfterWord_name h hbehind q
    rw [bind_of (asyncFunctionAhead_name h hbehind q), if_neg (by decide),
      bind_of (declarationAhead_name h hbehind q), if_neg (by decide), bind_of hmark,
      bind_of (behindWord_name h hbehind q), if_neg]
    simp [hcolon]

/-! ## The statement that a chain is -/

section Statement

variable {g : Grammar} {q q' : Place} {cs after : List Char} {n : Node}

theorem expressions_last (hafter : Ending after)
    (h : g.expression .last ⟨q, cs⟩ = some (n, ⟨q', after⟩)) :
    g.expressions .last ⟨q, cs⟩ = some (n, ⟨q', after⟩) := by
  rw [Grammar.expressions, bind_of h]
  -- the statement may end here, so no comma is looked for
  refine (bind_iterate_done [n] ⟨q', after⟩ ?_).trans rfl
  rw [bind_of (endsIn_last hafter q')]
  rfl

theorem expressionStatement_last (hcs : Solid cs) (hafter : Ending after)
    (h : g.expression .last ⟨q, cs⟩ = some (n, ⟨q', after⟩)) :
    g.expressionStatement ⟨q, cs⟩ =
      some (.other (Span.between q q') "expression_statement" [n], ⟨q', after⟩) := by
  have hplace : place ⟨q, cs⟩ = some (q, ⟨q, cs⟩) := place_at .nil hcs q
  have hends : endsHere false ⟨q', after⟩ = some (true, ⟨q', after⟩) := by
    rw [← hafter.statementEnds_eq]
    rfl
  have hend : endStatement false ⟨q', after⟩ = some ((), ⟨q', after⟩) := by
    rw [endStatement, bind_of hends]
    rfl
  rw [Grammar.expressionStatement, bind_of hplace, bind_of (expressions_last hafter h),
    bind_of hend]
  rfl

theorem statementRule_chain {before : List Char} (hbefore : Trivia before) (hcs : ChainHead cs)
    (hafter : Ending after)
    (h : g.expression .last ⟨q.after before, cs⟩ = some (n, ⟨q', after⟩)) :
    g.statementRule ⟨q, before ++ cs⟩ =
      some (.other (Span.between (q.after before) q') "expression_statement" [n],
        ⟨q', after⟩) := by
  have hpunct : peekPunctuator ⟨q.after before, cs⟩ = some ("", ⟨q.after before, cs⟩) := by
    rw [← hcs.mark]
    exact peekPunctuator_at .nil hcs.solid _
  have hword : peekWord ⟨q.after before, cs⟩ = some (wordOf cs, ⟨q.after before, cs⟩) :=
    peekWord_at .nil hcs.solid _
  rw [Grammar.statementRule, bind_of (place_at hbefore hcs.solid q), bind_of hpunct,
    if_neg (by decide), if_neg (by decide), bind_of hword, wordStatement_chain hcs,
    expressionStatement_last hcs.solid hafter h]

theorem programRule_one (hcs : upcoming ⟨q, cs⟩ ≠ some ([], ⟨q, cs⟩)) (hafter : Ending after)
    (hshort : after.length < cs.length) (h : g.statement ⟨q, cs⟩ = some (n, ⟨q', after⟩)) :
    programRule g ⟨q, cs⟩ = some ([n], ⟨q', after⟩) := by
  have hupcoming : upcoming ⟨q, cs⟩ = some (cs.drop (triviaLength cs), ⟨q, cs⟩) := rfl
  have hnonempty : (cs.drop (triviaLength cs)).isEmpty = false := by
    rw [List.isEmpty_eq_false_iff]
    intro hnil
    rw [hnil] at hupcoming
    exact hcs hupcoming
  have hlast : upcoming ⟨q', after⟩ = some ([], ⟨q', after⟩) := by
    rw [← hafter.drop_triviaLength]
    rfl
  have hround : programRound g [] ⟨q, cs⟩ = some (.again [n], ⟨q', after⟩) := by
    rw [programRound, bind_of hupcoming, if_neg (by simp [hnonempty]), bind_of h]
    rfl
  have hdone : programRound g [n] ⟨q', after⟩ = some (.done [n], ⟨q', after⟩) := by
    rw [programRound, bind_of hlast]
    rfl
  rw [programRule]
  exact (Rounds.refl.tail hround hshort).iterate_eq hdone

end Statement

theorem ChainHead.ne_nil {cs : List Char} (h : ChainHead cs) : cs ≠ [] := by
  rintro rfl
  exact absurd h.isName_word (by decide)

theorem Phrase.spelled_ne_nil {pieces : List Piece} (h : Phrase .chain pieces) :
    spelled pieces ≠ [] := by
  have hhead := h.chainHead rfl (.inr (.of_trivia .nil))
  rw [List.append_nil] at hhead
  exact hhead.ne_nil

/-- A chain with white space and comments around it is one statement. -/
theorem statements_chain {before after : List Char} {pieces : List Piece} (hbefore : Trivia before)
    (h : Phrase .chain pieces) (hafter : Ending after) : ∃ span n,
    statements? (before ++ (spelled pieces ++ after)) =
        some [.other span "expression_statement" [n]] ∧
      ∀ path, Named path → Shows (Place.origin.after before) pieces (n.visits path) := by
  have hends : Ends .last after := .last hafter
  have hhead := h.chainHead rfl hends.before
  have hpos := List.length_pos_iff.mpr h.spelled_ne_nil
  -- the statement and its expression are one level deep each
  obtain ⟨d, hd, hdepth⟩ : ∃ d, nestingBound (before ++ (spelled pieces ++ after)) = d + 2 ∧
      (spelled pieces).length ≤ d := by
    refine ⟨nestingBound (before ++ (spelled pieces ++ after)) - 2, ?_, ?_⟩ <;>
    · simp only [nestingBound, List.length_append]
      omega
  obtain ⟨head, c, n, hprimary, hrounds, -, hshows⟩ :=
    h.parses d .last (Place.origin.after before) after hdepth hends.before
  have hexpression : (grammar (d + 1)).expression .last
      ⟨Place.origin.after before, spelled pieces ++ after⟩ =
        some (n, ⟨(Place.origin.after before).after (spelled pieces), after⟩) :=
    expressionRule_chain hhead hprimary hrounds hends
  have hstatement : (grammar (d + 2)).statement
      ⟨Place.origin, before ++ (spelled pieces ++ after)⟩ = some (.other _ _ [n], _) :=
    statementRule_chain hbefore hhead hafter hexpression
  have hupcoming : upcoming ⟨Place.origin, before ++ (spelled pieces ++ after)⟩ ≠
      some ([], ⟨Place.origin, before ++ (spelled pieces ++ after)⟩) := by
    rw [upcoming_at hbefore hhead.solid]
    intro heq
    exact hhead.ne_nil (Prod.mk.inj (Option.some.inj heq)).1
  have hshort : after.length < (before ++ (spelled pieces ++ after)).length := by
    simp only [List.length_append]
    omega
  have hprogram := programRule_one hupcoming hafter hshort hstatement
  refine ⟨Span.between (Place.origin.after before)
    ((Place.origin.after before).after (spelled pieces)), n, ?_, hshows⟩
  rw [statements?, hd, Cursor.start, hprogram]
  rfl

theorem shows_program {before : List Char} {pieces : List Piece} {n : Node}
    (h : ∀ path, Named path → Shows (Place.origin.after before) pieces (n.visits path))
    (after : List Char)
    (span whole : Span) :
    Shows Place.origin (.gap before :: (pieces ++ [.gap after]))
      (Program.visits ⟨whole, [.other span "expression_statement" [n]]⟩) := by
  rw [Program.visits, Node.visitsAll, Node.visits, Node.visitsAll, Node.visitsAll, Node.visitsAll,
    List.append_nil]
  have hpath : Named [.elsewhere] := by simp [Named]
  refine .cons (fun _ => rfl) rfl rfl hpath
    (.silent (fun _ => rfl) ((h _ hpath.elsewhere).append ?_))
  exact .silent (fun _ => rfl) .nil

/-- A chain parses, and the tree shows its values, unless one of its numerals has more digits than
are read. -/
theorem parseProgram_chain {pieces : List Piece} (h : MethodChain pieces) :
    ∃ p : Program, Shows Place.origin pieces p.visits ∧
      ((numerals pieces).findSome? NumberLiteral.excess? = none →
        parseProgram (spelled pieces) = .ok p) ∧
      ∀ digits, (numerals pieces).findSome? NumberLiteral.excess? = some digits →
        parseProgram (spelled pieces) = .error (.tooLong digits) := by
  cases h with
  | @mk before after pieces hbefore h hafter =>
    obtain ⟨span, n, hstatements, hshows⟩ := statements_chain hbefore h hafter
    have htext : spelled (.gap before :: (pieces ++ [.gap after])) =
        before ++ (spelled pieces ++ after) := by
      simp [Piece.text]
    have hprogram := shows_program hshows after span
      (programSpan (before ++ (spelled pieces ++ after)))
    have hplain : (Program.visits ⟨programSpan (before ++ (spelled pieces ++ after)),
        [.other span "expression_statement" [n]]⟩).any (fun v => v.node.isPatternOnly) = false := by
      rw [List.any_eq_false]
      intro v hv
      rw [hprogram.plain v hv]
      decide
    have hexcess := congrArg List.head? hprogram.excess
    rw [List.head?_filterMap, List.head?_filterMap] at hexcess
    refine ⟨_, hprogram, fun hnone => ?_, fun digits hsome => ?_⟩
    · rw [htext, parseProgram_eq, hstatements]
      simp only [hplain, Bool.false_eq_true, if_false, hexcess, hnone]
    · rw [htext, parseProgram_eq, hstatements]
      simp only [hplain, Bool.false_eq_true, if_false, hexcess, hsome]

end LiveChain.Chain
