import LiveChain.Cli.Assignment
import LiveChain.Proofs.Number.Integers

/-!
# Ordinals on the command line

An ordinal is an integer as people type it: white space around it, a sign, decimal digits of any
script and single separators between digits. Whatever is read as an ordinal is written so.
-/

set_option autoImplicit false

namespace LiveChain

open Syntax Text

/-! ## Ordinals as text -/

/-- Digits of any script with single separators between two of them, and their values. -/
inductive DigitRun : List Char → List ℕ → Prop
  | last {c : Char} {d : ℕ} (h : digitValue? c = some d) : DigitRun [c] [d]
  | next {c : Char} {d : ℕ} {run : List Char} {ds : List ℕ} (h : digitValue? c = some d)
      (hrest : DigitRun run ds) : DigitRun (c :: run) (d :: ds)
  | separated {c : Char} {d : ℕ} {run : List Char} {ds : List ℕ} (h : digitValue? c = some d)
      (hrest : DigitRun run ds) : DigitRun (c :: '_' :: run) (d :: ds)

/-- An ordinal between white space: whether it has a minus sign, and its digits. -/
inductive OrdinalText : List Char → Bool → List ℕ → Prop
  | mk {front sign run back : List Char} {ds : List ℕ} (hfront : ∀ c ∈ front, isBlank c = true)
      (hback : ∀ c ∈ back, isBlank c = true) (hsign : sign = [] ∨ sign = ['+'] ∨ sign = ['-'])
      (hrun : DigitRun run ds) :
      OrdinalText (front ++ (sign ++ run) ++ back) (decide (sign = ['-'])) ds

/-- The integer that digits behind a minus sign, or none, say. -/
def ordinalValue (negative : Bool) (ds : List ℕ) : ℤ :=
  if negative then -(spelledValue 10 ds : ℤ) else spelledValue 10 ds

/-! ## Runs of digits -/

section Runs

variable {run sign : List Char} {ds : List ℕ}

namespace DigitRun

theorem isDecimal_of_value {c : Char} {d : ℕ} (h : digitValue? c = some d) : isDecimal c = true := by
  rw [isDecimal, h]
  rfl

theorem ne_separator {c : Char} {d : ℕ} (h : digitValue? c = some d) : c ≠ '_' := by
  rintro rfl
  exact absurd (isDecimal_of_value h) (by decide)

theorem chars (h : DigitRun run ds) : ∀ c ∈ run, (isDecimal c || c == '_') = true := by
  have hdigit : ∀ {c : Char} {d : ℕ}, digitValue? c = some d → (isDecimal c || c == '_') = true :=
    fun hc => by rw [isDecimal_of_value hc, Bool.true_or]
  induction h with
  | last hc => exact List.forall_mem_singleton.mpr (hdigit hc)
  | next hc _ ih => exact List.forall_mem_cons.mpr ⟨hdigit hc, ih⟩
  | separated hc _ ih =>
    exact List.forall_mem_cons.mpr ⟨hdigit hc, List.forall_mem_cons.mpr ⟨by decide, ih⟩⟩

theorem head (h : DigitRun run ds) : ∃ c more, run = c :: more ∧ isDecimal c = true := by
  cases h with
  | last hc => exact ⟨_, _, rfl, isDecimal_of_value hc⟩
  | next hc => exact ⟨_, _, rfl, isDecimal_of_value hc⟩
  | separated hc => exact ⟨_, _, rfl, isDecimal_of_value hc⟩

theorem wellSeparated (h : DigitRun run ds) : wellSeparated run = true := by
  induction h with
  | last hc =>
    rw [LiveChain.wellSeparated]
    · rfl
    · exact fun heq => ne_separator hc heq
    all_goals simp
  | next hc hrest ih =>
    obtain ⟨d, more, rfl, hd⟩ := hrest.head
    have hapart : d ≠ '_' := by
      rintro rfl
      exact absurd hd (by decide)
    rw [LiveChain.wellSeparated]
    · exact ih
    · exact fun heq => ne_separator hc heq
    all_goals simp [hapart]
  | separated hc hrest ih =>
    obtain ⟨d, more, rfl, -⟩ := hrest.head
    rw [LiveChain.wellSeparated]
    · exact ih
    · exact fun heq => ne_separator hc heq
    all_goals simp

theorem values (h : DigitRun run ds) :
    (run.filter (· ≠ '_')).Forall₂ (fun c d => digitIn? 10 c = some d) ds := by
  have hdigit : ∀ {c : Char} {d : ℕ}, digitValue? c = some d → digitIn? 10 c = some d := by
    intro c d hc
    simp [digitIn?, hc, digitValue?_lt hc]
  induction h with
  | last hc =>
    rw [List.filter_cons_of_pos (by simpa using ne_separator hc)]
    exact .cons (hdigit hc) .nil
  | next hc _ ih =>
    rw [List.filter_cons_of_pos (by simpa using ne_separator hc)]
    exact .cons (hdigit hc) ih
  | separated hc _ ih =>
    rw [List.filter_cons_of_pos (by simpa using ne_separator hc),
      List.filter_cons_of_neg (by decide)]
    exact .cons (hdigit hc) ih

end DigitRun

/-- Digits and separators with a digit first and no separator last or behind another are a run. -/
theorem exists_digitRun (hne : run ≠ []) (hchars : ∀ c ∈ run, (isDecimal c || c == '_') = true)
    (h : wellSeparated run = true) : ∃ ds, DigitRun run ds := by
  have hvalue : ∀ {c : Char}, (isDecimal c || c == '_') = true → c ≠ '_' →
      ∃ d, digitValue? c = some d := fun hc hne' =>
    Option.isSome_iff_exists.mp ((Bool.or_eq_true_iff.mp hc).resolve_right (by simpa using hne'))
  fun_induction wellSeparated run with
  | case1 => exact absurd rfl hne
  | case2 => cases h
  | case3 => cases h
  | case4 c rest hc hrest ih =>
    obtain ⟨hchar, hchars⟩ := List.forall_mem_cons.mp hchars
    obtain ⟨d, hd⟩ := hvalue hchar hc
    obtain ⟨ds, hrun⟩ := ih hrest (List.forall_mem_cons.mp hchars).2 h
    exact ⟨d :: ds, .separated hd hrun⟩
  | case5 c rest hc _ _ ih =>
    obtain ⟨hchar, hchars⟩ := List.forall_mem_cons.mp hchars
    obtain ⟨d, hd⟩ := hvalue hchar hc
    by_cases hnil : rest = []
    · exact ⟨[d], hnil ▸ .last hd⟩
    · obtain ⟨ds, hrun⟩ := ih hnil hchars h
      exact ⟨d :: ds, .next hd hrun⟩

end Runs

/-! ## Reading ordinals -/

section Read

variable {cs sign run ordinal : List Char} {ds : List ℕ} {n : ℤ}

theorem isBlank_of_run (hsign : sign = [] ∨ sign = ['+'] ∨ sign = ['-']) (h : DigitRun run ds) :
    ∀ c ∈ sign ++ run, isBlank c = false := by
  refine List.forall_mem_append.mpr ⟨?_, fun c hc => ?_⟩
  · rcases hsign with rfl | rfl | rfl
    · simp
    · exact List.forall_mem_singleton.mpr (by decide)
    · exact List.forall_mem_singleton.mpr (by decide)
  · rcases Bool.or_eq_true_iff.mp (h.chars c hc) with hdecimal | hsep
    · exact isBlank_of_isDecimal hdecimal
    · rw [beq_iff_eq.mp hsep]
      decide

/-- A sign and digits, between padding, are read unless there are too many digits. -/
theorem readInt_run (hcs : stripPadding cs = sign ++ run)
    (hsign : sign = [] ∨ sign = ['+'] ∨ sign = ['-']) (h : DigitRun run ds) :
    readInt cs = if ds.length ≤ 4300 then .ok (ordinalValue (decide (sign = ['-'])) ds)
      else .error (.tooLong ds.length) := by
  have hhead : ∀ c ∈ run.head?, c ≠ '-' ∧ c ≠ '+' := by
    obtain ⟨c, more, rfl, hc⟩ := h.head
    rintro d ⟨⟩
    constructor <;> rintro rfl <;> exact absurd hc (by decide)
  have htake := List.takeWhile_eq_self_iff.mpr h.chars
  have hdrop := List.dropWhile_eq_nil_iff.mpr h.chars
  have hlength := h.values.length_eq
  have hne : run.filter (· ≠ '_') ≠ [] := by
    obtain ⟨c, more, rfl, hc⟩ := h.head
    rw [List.filter_cons_of_pos (by rw [decide_eq_true_eq]; rintro rfl; exact absurd hc (by decide))]
    exact List.cons_ne_nil _ _
  have hvalue := positional?_values h.values hne
  rw [readInt, hcs, splitSign_append hsign hhead]
  simp only [htake, hdrop, h.wellSeparated, hlength, hvalue, digitLimit, Bool.not_true,
    Bool.false_eq_true, if_false, List.isEmpty_nil]
  by_cases hlong : 4300 < ds.length
  · rw [if_pos hlong, if_neg (Nat.not_le_of_lt hlong)]
  · rw [if_neg hlong, if_pos (Nat.le_of_not_lt hlong), ordinalValue]

/-- What is read is a sign and digits between padding. -/
theorem exists_run_of_readInt (h : readInt cs = .ok n) :
    ∃ sign run ds, stripPadding cs = sign ++ run ∧ (sign = [] ∨ sign = ['+'] ∨ sign = ['-']) ∧
      DigitRun run ds := by
  obtain ⟨sign, hsplit, -, hsign⟩ := splitSign_split (stripPadding cs)
  have hbody : (∀ c ∈ (splitSign (stripPadding cs)).2, (isDecimal c || c == '_') = true) ∧
      wellSeparated (splitSign (stripPadding cs)).2 = true ∧
      (splitSign (stripPadding cs)).2 ≠ [] := by
    rw [readInt] at h
    simp only at h
    split at h
    · cases h
    · next hwell =>
      split at h
      · cases h
      · split at h
        · cases h
        · next hrest =>
          have hempty : ((splitSign (stripPadding cs)).2.dropWhile
              fun c => isDecimal c || c == '_').isEmpty = true := by
            simpa only [Bool.not_eq_true', Bool.not_eq_false] using hrest
          have hchars := List.dropWhile_eq_nil_iff.mp (List.isEmpty_iff.mp hempty)
          rw [List.takeWhile_eq_self_iff.mpr hchars] at hwell h
          refine ⟨hchars, by simpa using hwell, fun hempty => ?_⟩
          rw [hempty] at h
          cases h
  obtain ⟨hchars, hwell, hne⟩ := hbody
  obtain ⟨ds, hrun⟩ := exists_digitRun hne hchars hwell
  exact ⟨sign, _, ds, hsplit, hsign, hrun⟩

/-- An ordinal between white space is read unless it has too many digits. -/
theorem OrdinalText.readInt_eq {negative : Bool} (h : OrdinalText ordinal negative ds) :
    readInt (strip ordinal) = if ds.length ≤ 4300 then .ok (ordinalValue negative ds)
      else .error (.tooLong ds.length) := by
  obtain @⟨front, sign, run, back, ds, hfront, hback, hsign, hrun⟩ := h
  have hclear := isBlank_of_run hsign hrun
  have hstrip : strip (front ++ (sign ++ run) ++ back) = sign ++ run :=
    trim_eq hfront hback (fun c hc => hclear c (List.mem_of_mem_head? hc))
      (fun c hc => hclear c (List.mem_of_getLast? hc))
  have hpadding : stripPadding (sign ++ run) = sign ++ run :=
    stripPadding_of_all fun c hc => by rw [isPadding, hclear c hc, Bool.false_and]
  rw [hstrip, readInt_run hpadding hsign hrun]

/-- What is read from a text without the white space at its ends is an ordinal. -/
theorem exists_ordinalText (h : readInt (strip ordinal) = .ok n) :
    ∃ negative ds, OrdinalText ordinal negative ds := by
  obtain ⟨sign, run, ds, hcore, hsign, hrun⟩ := exists_run_of_readInt h
  obtain ⟨front, back, hfront, hback, hstrip⟩ := trim_split isBlank ordinal
  obtain ⟨front', back', hfront', hback', hpadding⟩ := trim_split isPadding (strip ordinal)
  have hblank : ∀ c, isPadding c = true → isBlank c = true := fun c hc =>
    (Bool.and_eq_true_iff.mp hc).1
  have htext : ordinal = (front ++ front') ++ (sign ++ run) ++ (back' ++ back) := by
    have hinner : strip ordinal = front' ++ (sign ++ run) ++ back' := hcore ▸ hpadding
    have houter : ordinal = front ++ strip ordinal ++ back := hstrip
    rw [hinner] at houter
    simpa only [List.append_assoc] using houter
  have hordinal : OrdinalText ordinal (decide (sign = ['-'])) ds := htext ▸
    .mk (List.forall_mem_append.mpr ⟨hfront, fun c hc => hblank c (hfront' c hc)⟩)
      (List.forall_mem_append.mpr ⟨fun c hc => hblank c (hback' c hc), hback⟩) hsign hrun
  exact ⟨_, ds, hordinal⟩

end Read

end LiveChain
