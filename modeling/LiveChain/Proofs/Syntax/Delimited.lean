import LiveChain.Proofs.Locate.Faithful
import LiveChain.Proofs.Syntax.DelimitedStatements

/-!
# The parser and the scan delimit numbers alike

Each numeric literal of a parsed text is a number for the scan too, which ends it where the parser
does. The one exception is a point behind digits that take no fraction, which the scan takes all the
same.
-/

set_option autoImplicit false

namespace LiveChain

open Syntax

namespace Syntax

/-! ## The grammar -/

theorem grammar_delimits (text : List Char) (depth : Nat) : (grammar depth).Delimits text := by
  induction depth with
  | zero =>
    exact ⟨fun _ _ => .failure, fun _ => .failure, fun _ _ _ => .failure, fun _ _ => .failure⟩
  | succ depth ih =>
    exact ⟨Grammar.expressionRule_trailing ih, Grammar.statementRule_closed ih,
      Grammar.operandRule_trailing ih, Grammar.constructibleRule_trailing ih⟩

theorem programRule_closed {text : List Char} {g : Grammar} (hg : g.Delimits text) (i : Nat) :
    Leads text i (programRule g) fun body _ => ∀ n ∈ body, Closed text n := by
  refine .iterate (fun found _ => ∀ n ∈ found, Closed text n) (fun found j hfound => ?_) nofun
  refine .look looks_upcoming fun cs => .ite (.pure (forall_mem_reverse hfound)) ?_
  exact (hg.statement j).bind fun n _ hn => .pure (List.forall_mem_cons.mpr ⟨hn, hfound⟩)

theorem statements?_closed {text : List Char} {body : List Node}
    (h : statements? text = some body) : ∀ n ∈ body, Closed text n := by
  obtain ⟨⟨found, c⟩, hrun, rfl⟩ := Option.map_eq_some_iff.mp h
  have hclosed := programRule_closed (grammar_delimits text (nestingBound text)) 0
  obtain ⟨_, _, -, hfound⟩ := hclosed (Nat.zero_le _) _ _ hrun
  exact hfound

end Syntax

/-- No number of a parsed text runs on behind its end. -/
theorem parseProgram_closed {text : List Char} {p : Program} (h : parseProgram text = .ok p) :
    ∀ n ∈ p.body, Closed text n :=
  Syntax.statements?_closed (statements?_of_parseProgram h)

/-! ## Literals and numbers of the scan -/

/-- The scan finds a number where a span starts, and ends it where the span ends. -/
def Span.Scanned (text : List Char) (span : Span) : Prop :=
  ∃ s n : Nat, span.startOffset = s ∧ span.endOffset = (s + n : Nat) ∧
    Scan.numberAt? (text.drop s) = some n

variable {text : List Char}

theorem scanned_iff {s e : Nat} (h : s ≤ e) (he : e ≤ text.length) :
    (spanOf text s e).Scanned text ↔ Scan.numberAt? (text.drop s) = some (e - s) := by
  rw [spanOf_eq (Nat.le_trans h he) he]
  constructor
  · rintro ⟨s', n, hstart, hend, hnumber⟩
    obtain rfl : s = s' := Int.ofNat_inj.mp hstart
    obtain rfl : e = s + n := Int.ofNat_inj.mp hend
    rwa [Nat.add_sub_cancel_left]
  · exact fun hnumber => ⟨s, e - s, rfl, congrArg Nat.cast (Nat.add_sub_cancel' h).symm, hnumber⟩

/-! ## Texts with given numbers -/

def Node.numeral? : Node → Option (Span × String)
  | .literal span (.number _) raw => some (span, raw)
  | _ => none

/-- A text is parsed as a program with certain numeric literals. -/
theorem exists_program {numerals : List (Span × String)}
    (h : (parseProgram text).toOption.map (fun p => p.walk.filterMap Node.numeral?) =
      some numerals) :
    ∃ p, parseProgram text = .ok p ∧ ∀ numeral ∈ numerals, ∃ value,
      Node.literal numeral.1 (.number value) numeral.2 ∈ p.walk := by
  cases hp : parseProgram text with
  | error e =>
    rw [hp] at h
    cases h
  | ok p =>
    rw [hp] at h
    obtain rfl := Option.some.inj h
    refine ⟨p, rfl, fun numeral hmem => ?_⟩
    obtain ⟨n, hn, hnumeral⟩ := List.mem_filterMap.mp hmem
    unfold Node.numeral? at hnumeral
    split at hnumeral
    · cases hnumeral
      exact ⟨_, hn⟩
    · cases hnumeral

/-! ## Which literals are delimited alike -/

/-- The scan delimits a numeric literal as the parser does, wherever it stands and whatever follows,
except before a point behind digits that take no fraction. -/
theorem numbers_delimited_iff {p : Program} (h : parseProgram text = .ok p) {span : Span}
    {value : Number} {raw : String} (hn : Node.literal span (.number value) raw ∈ p.walk) :
    span.Scanned text ↔
      ¬ (Fractionless raw.toList ∧ text[span.endOffset.toNat]? = some '.') := by
  rw [Program.walk_eq, List.mem_flatMap] at hn
  obtain ⟨n, hbody, hn⟩ := hn
  obtain ⟨s, e, he, rfl, rfl, htoken, hdetached⟩ := parseProgram_closed h n hbody _ hn
  have hpos : e - s ≠ 0 := (numberToken?_pos htoken).1
  have hsplit : (text.drop s).drop (e - s) = text.drop e := by
    rw [List.drop_drop, Nat.add_sub_cancel' (by omega)]
  have hraw : (String.ofList (slice text s e)).toList = (text.drop s).take (e - s) := by
    rw [String.toList_ofList, slice, List.drop_take]
  have hend : (spanOf text s e).endOffset.toNat = e := by
    rw [spanOf_eq (by omega) he, Int.toNat_natCast]
  rw [scanned_iff (by omega) he, numberAt?_iff htoken (hsplit ▸ hdetached.bounds), hsplit, hraw,
    hend, List.head?_drop]

/-- A point behind a fraction belongs to neither, one behind two zeros to the number of the scan. -/
theorem numbers_delimited_iff_point :
    let text := "1.5.x + 00.y".toList
    ∃ p value value', parseProgram text = .ok p ∧
      Node.literal ⟨0, 0, 0, 3, 0, 3⟩ (.number value) "1.5" ∈ p.walk ∧
      Span.Scanned text ⟨0, 0, 0, 3, 0, 3⟩ ∧
      Node.literal ⟨0, 8, 0, 10, 8, 10⟩ (.number value') "00" ∈ p.walk ∧
      ¬ Span.Scanned text ⟨0, 8, 0, 10, 8, 10⟩ := by
  intro text
  have hnumerals : (parseProgram text).toOption.map (fun p => p.walk.filterMap Node.numeral?) =
      some [(⟨0, 0, 0, 3, 0, 3⟩, "1.5"), (⟨0, 8, 0, 10, 8, 10⟩, "00")] := by decide +kernel
  obtain ⟨p, hp, hall⟩ := exists_program hnumerals
  obtain ⟨value, hn⟩ := hall _ List.mem_cons_self
  obtain ⟨value', hn'⟩ := hall _ (List.mem_cons_of_mem _ List.mem_cons_self)
  refine ⟨p, value, value', hp, hn, (numbers_delimited_iff hp hn).mpr ?_, hn', fun hscanned => ?_⟩
  · rintro ⟨⟨honly, -⟩, -⟩
    exact absurd (honly '.' (by decide)) (by decide)
  · have honly : DigitsOnly "00".toList := Text.forall_mem_of_all (by decide)
    exact (numbers_delimited_iff hp hn').mp hscanned ⟨⟨honly, '0', [], rfl, .inl rfl⟩, by decide⟩

/-- The scan takes the point behind two zeros, which the parser leaves to a member access. -/
theorem numbers_not_delimited : ¬ ∀ text p span value raw, parseProgram text = .ok p →
    Node.literal span (.number value) raw ∈ p.walk → span.Scanned text := by
  intro hdelimited
  have hnumerals : (parseProgram "00.x".toList).toOption.map
      (fun p => p.walk.filterMap Node.numeral?) = some [(⟨0, 0, 0, 2, 0, 2⟩, "00")] := by
    decide +kernel
  obtain ⟨p, hp, hall⟩ := exists_program hnumerals
  obtain ⟨value, hn⟩ := hall _ List.mem_cons_self
  obtain ⟨s, n, hstart, hend, hnumber⟩ := hdelimited _ p _ value _ hp hn
  obtain rfl : 0 = s := Int.ofNat_inj.mp hstart
  obtain rfl : 2 = n := (Int.ofNat_inj.mp hend).trans (Nat.zero_add n)
  exact absurd hnumber (by decide +kernel)

end LiveChain
