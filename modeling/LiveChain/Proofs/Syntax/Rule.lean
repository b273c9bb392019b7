import LiveChain.Proofs.Syntax.Place
import LiveChain.Proofs.Syntax.Trivia
import LiveChain.Syntax.Grammar.Expression

/-!
# How rules run

What the small rules of the grammar give where white space and comments stand before a token, and
how a sequence of rules runs. A repetition runs as its rounds do.
-/

set_option autoImplicit false

namespace LiveChain

theorem Cursor.skip_append (q : Place) (a b : List Char) :
    (Cursor.mk q (a ++ b)).skip a.length = ⟨q.after a, b⟩ := by
  simp [Cursor.skip]

namespace Syntax

/-! ## Sequences -/

section Sequence

variable {α β σ : Type} {c c' : Cursor} {a : α}

theorem bind_of {x : Rule α} {f : α → Rule β} (h : x c = some (a, c')) : (x >>= f) c = f a c' := by
  change (x c).bind (fun r => f r.1 r.2) = f a c'
  rw [h, Option.bind_some]

theorem map_of {x : Rule α} {f : α → β} (h : x c = some (a, c')) :
    (f <$> x) c = some (f a, c') := by
  change (x c).bind (fun r => some (f r.1, r.2)) = some (f a, c')
  rw [h, Option.bind_some]

theorem repeatUpTo_again {round : σ → Rule (Round σ α)} {state next : σ}
    (h : round state c = some (.again next, c')) (fuel : Nat) :
    Rule.repeatUpTo round (fuel + 1) state c = Rule.repeatUpTo round fuel next c' := by
  rw [Rule.repeatUpTo, bind_of h]

theorem repeatUpTo_done {round : σ → Rule (Round σ α)} {state : σ}
    (h : round state c = some (.done a, c')) (fuel : Nat) :
    Rule.repeatUpTo round (fuel + 1) state c = some (a, c') := by
  rw [Rule.repeatUpTo, bind_of h]
  rfl

/-- Rounds of a repetition that go on, each of which passes a character. -/
inductive Rounds (round : σ → Rule (Round σ α)) (state : σ) (c : Cursor) : σ → Cursor → Prop
  | refl : Rounds round state c state c
  | tail {next last : σ} {c' c'' : Cursor} (h : Rounds round state c next c')
      (hround : round next c' = some (.again last, c'')) (hshort : c''.rest.length < c'.rest.length) :
    Rounds round state c last c''

theorem Rounds.repeatUpTo_eq {round : σ → Rule (Round σ α)} {state next : σ}
    (h : Rounds round state c next c') : ∃ k, k + c'.rest.length ≤ c.rest.length ∧
      ∀ fuel, Rule.repeatUpTo round (fuel + k) state c = Rule.repeatUpTo round fuel next c' := by
  induction h with
  | refl => exact ⟨0, by omega, fun _ => rfl⟩
  | tail _ hround hshort ih =>
    obtain ⟨k, hk, hrun⟩ := ih
    refine ⟨k + 1, by omega, fun fuel => ?_⟩
    rw [show fuel + (k + 1) = fuel + 1 + k by omega, hrun, repeatUpTo_again hround]

/-- A repetition ends with the first round that is done. -/
theorem Rounds.iterate_eq {round : σ → Rule (Round σ α)} {state next : σ} {c'' : Cursor}
    (h : Rounds round state c next c') (hdone : round next c' = some (.done a, c'')) :
    Rule.iterate round state c = some (a, c'') := by
  obtain ⟨k, hk, hrun⟩ := h.repeatUpTo_eq
  obtain ⟨fuel, hfuel⟩ : ∃ fuel, c.rest.length + 1 = fuel + 1 + k :=
    ⟨c.rest.length - k, by omega⟩
  have hiterate : Rule.iterate round state c =
      Rule.repeatUpTo round (c.rest.length + 1) state c := rfl
  rw [hiterate, hfuel, hrun, repeatUpTo_done hdone]

theorem bind_iterate_done {round : σ → Rule (Round σ α)} {state : σ} {f : α → Rule β} (a : α)
    (c' : Cursor) (h : round state c = some (.done a, c')) :
    (Rule.iterate round state >>= f) c = f a c' :=
  bind_of (Rounds.refl.iterate_eq h)

end Sequence

theorem spanFrom_eq (start : Place) (c : Cursor) :
    spanFrom start c = some (Span.between start c.place, c) :=
  rfl

theorem pass_append (q : Place) (a b : List Char) :
    pass a.length ⟨q, a ++ b⟩ = some (String.ofList a, ⟨q.after a, b⟩) := by
  have hpass : pass a.length ⟨q, a ++ b⟩ =
      some (String.ofList ((a ++ b).take a.length), (Cursor.mk q (a ++ b)).skip a.length) := rfl
  rw [hpass, Cursor.skip_append, List.take_left]

theorem endsIn_eq (s : Setting) (c : Cursor) :
    endsIn s c = some (s.mayEnd && statementEnds false c.rest, c) := by
  cases s with
  | mk mayEnd allowIn => cases mayEnd <;> rfl

/-! ## Before a token -/

section Token

variable {gap cs : List Char} (hgap : Trivia gap) (hcs : Solid cs) (q : Place)

include hgap hcs

theorem upcoming_at : upcoming ⟨q, gap ++ cs⟩ = some (cs, ⟨q, gap ++ cs⟩) := by
  have hup : upcoming ⟨q, gap ++ cs⟩ =
      some ((gap ++ cs).drop (triviaLength (gap ++ cs)), ⟨q, gap ++ cs⟩) := rfl
  rw [hup, drop_triviaLength hgap hcs]

theorem peekPunctuator_at : peekPunctuator ⟨q, gap ++ cs⟩ =
    some (punctuator cs, ⟨q, gap ++ cs⟩) := by
  rw [peekPunctuator, bind_of (upcoming_at hgap hcs q)]
  rfl

theorem peekWord_at : peekWord ⟨q, gap ++ cs⟩ = some (wordOf cs, ⟨q, gap ++ cs⟩) := by
  rw [peekWord, bind_of (upcoming_at hgap hcs q)]
  rfl

theorem behindWord_at : behindWord ⟨q, gap ++ cs⟩ =
    some (cs.drop (wordLength cs), ⟨q, gap ++ cs⟩) := by
  rw [behindWord, bind_of (upcoming_at hgap hcs q)]
  rfl

theorem passTrivia_at : passTrivia ⟨q, gap ++ cs⟩ = some ((), ⟨q.after gap, cs⟩) := by
  have hpass : passTrivia ⟨q, gap ++ cs⟩ =
      some ((), (Cursor.mk q (gap ++ cs)).skip (triviaLength (gap ++ cs))) := rfl
  rw [hpass, triviaLength_append hgap, hcs.triviaLength_eq, Nat.add_zero, Cursor.skip_append]

theorem place_at : place ⟨q, gap ++ cs⟩ = some (q.after gap, ⟨q.after gap, cs⟩) := by
  rw [place, bind_of (passTrivia_at hgap hcs q)]
  rfl

theorem punct_at {p : String} (h : punctuator cs = p) {rest : List Char}
    (hrest : cs = p.toList ++ rest) :
    punct p ⟨q, gap ++ cs⟩ = some ((), ⟨(q.after gap).after p.toList, rest⟩) := by
  have hget : (get : Rule Cursor) ⟨q.after gap, cs⟩ = some (⟨q.after gap, cs⟩, ⟨q.after gap, cs⟩) :=
    rfl
  rw [punct, bind_of (passTrivia_at hgap hcs q), bind_of hget]
  simp only [h, beq_self_eq_true, if_true]
  have hskip := Cursor.skip_append (q.after gap) p.toList rest
  rw [← hrest, String.length_toList] at hskip
  rw [hskip]
  rfl

theorem optionalPunct_not {p : String} (h : punctuator cs ≠ p) :
    optionalPunct p ⟨q, gap ++ cs⟩ = some (false, ⟨q, gap ++ cs⟩) := by
  rw [optionalPunct, bind_of (peekPunctuator_at hgap hcs q), if_neg (by simpa using h)]
  rfl

theorem optionalPunct_at {p : String} (h : punctuator cs = p) {rest : List Char}
    (hrest : cs = p.toList ++ rest) :
    optionalPunct p ⟨q, gap ++ cs⟩ = some (true, ⟨(q.after gap).after p.toList, rest⟩) := by
  rw [optionalPunct, bind_of (peekPunctuator_at hgap hcs q), if_pos (by simpa using h),
    bind_of (punct_at hgap hcs q h hrest)]
  rfl

theorem word_at {w rest : List Char} (h : wordLength cs = w.length) (hne : w ≠ [])
    (hrest : cs = w ++ rest) :
    word ⟨q, gap ++ cs⟩ = some (String.ofList w, ⟨(q.after gap).after w, rest⟩) := by
  have hget : (get : Rule Cursor) ⟨q.after gap, cs⟩ = some (⟨q.after gap, cs⟩, ⟨q.after gap, cs⟩) :=
    rfl
  have hpos : w.length ≠ 0 := fun hzero => hne (List.length_eq_zero_iff.mp hzero)
  rw [word, bind_of (passTrivia_at hgap hcs q), bind_of hget]
  simp only [h, if_neg hpos]
  rw [hrest, pass_append]

end Token

/-! ## Punctuators -/

theorem punctuator_plain {c : Char} (h : c ∉ punctuationChars) (cs : List Char) :
    punctuator (c :: cs) = "" := by
  have hfirst : ∀ p ∈ punctuators, p.toList.head?.any (punctuationChars.contains ·) = true := by
    decide
  have hnone : (punctuators.find? fun p => p.toList.isPrefixOf (c :: cs)) = none := by
    refine List.find?_eq_none.mpr fun p hp hmatch => ?_
    obtain ⟨d, hhead, hd⟩ := (Option.any_eq_true _ _).mp (hfirst p hp)
    obtain ⟨rest, hrest⟩ := List.head?_eq_some_iff.mp hhead
    rw [hrest, List.isPrefixOf, Bool.and_eq_true, beq_iff_eq] at hmatch
    exact h (hmatch.1 ▸ List.mem_of_elem_eq_true hd)
  rw [punctuator, hnone]

theorem punctuator_point {cs : List Char} (h : cs.head? ≠ some '.') :
    punctuator ('.' :: cs) = if cs.head?.any Char.isDigit then "" else "." := by
  cases cs with
  | nil => rfl
  | cons c cs =>
    have hc : ('.' == c) = false := by
      rw [beq_eq_false_iff_ne]
      rintro rfl
      exact h rfl
    have hfind : (punctuators.find? fun p => p.toList.isPrefixOf ('.' :: c :: cs)) = some "." := by
      simp [punctuators, List.isPrefixOf, hc]
    rw [punctuator, hfind]
    rfl

theorem punctuator_minus {cs : List Char} (h : cs.head? ≠ some '-') (h' : cs.head? ≠ some '=') :
    punctuator ('-' :: cs) = "-" := by
  cases cs with
  | nil => rfl
  | cons c cs =>
    have hc : ('-' == c) = false ∧ ('=' == c) = false := by
      rw [beq_eq_false_iff_ne, beq_eq_false_iff_ne]
      constructor
      · rintro rfl
        exact h rfl
      · rintro rfl
        exact h' rfl
    have hfind : (punctuators.find? fun p => p.toList.isPrefixOf ('-' :: c :: cs)) = some "-" := by
      simp [punctuators, List.isPrefixOf, hc.1, hc.2]
    rw [punctuator, hfind]
    rfl

end Syntax

end LiveChain
