import LiveChain.Proofs.Cli.Ordinal
import LiveChain.Proofs.Except
import LiveChain.Proofs.Number.Denoted
import LiveChain.Proofs.Number.Loose

/-!
# Values of assignments

The value of an assignment is the number that it denotes if it is a numeric literal, with a minus
sign or without, and otherwise its text. This is what is read unless the value is taken for a number
without being a literal, or is a literal of too many digits.
-/

set_option autoImplicit false

namespace LiveChain.Cli

open Syntax Text

/-! ## What a value stands for -/

/-- A text without a minus sign in front, and whether there was one. -/
def splitMinus : List Char → Bool × List Char
  | '-' :: rest => (true, rest)
  | cs => (false, cs)

def IsLiteral (cs : List Char) : Prop := numberToken? cs = some cs.length

instance (cs : List Char) : Decidable (IsLiteral cs) := inferInstanceAs (Decidable (_ = _))

/-- What the text of a value stands for: the number that a literal denotes, perhaps behind a minus sign,
and otherwise the text itself. -/
inductive Says (cs : List Char) : Datum → Prop
  | number {m : Number} (hliteral : IsLiteral (splitMinus cs).2)
      (h : Denotes ((splitMinus cs).2.filter (· ≠ '_')) m) :
      Says cs (.number (if (splitMinus cs).1 then m.neg else m))
  | text (h : ¬ IsLiteral (splitMinus cs).2) : Says cs (.text (String.ofList cs))

/-- The texts that are read as something else: literals of too many digits, and texts that are read as
numbers without being literals. -/
inductive Misread (cs : List Char) : Prop
  | long (hliteral : IsLiteral (splitMinus cs).2)
      (h : LongDecimal ((splitMinus cs).2.filter (· ≠ '_')))
  | loose (hliteral : ¬ IsLiteral (splitMinus cs).2)
      (h : Loose (NumberLiteral.bare (splitMinus cs).2))

/-! ## What is read -/

section Values

variable {cs : List Char}

theorem splitMinus_of_ne (h : ∀ rest, cs ≠ '-' :: rest) : splitMinus cs = (false, cs) := by
  unfold splitMinus
  split
  · next rest => exact absurd rfl (h rest)
  · rfl

theorem assignedValue_eq (cs : List Char) : assignedValue cs =
    match NumberLiteral.read (splitMinus cs).2 with
    | .ok m => .number (if (splitMinus cs).1 then m.neg else m)
    | .error _ => .text (String.ofList cs) := by
  unfold assignedValue
  split
  · next rest =>
    change _ = match NumberLiteral.read rest with
      | .ok m => Datum.number m.neg
      | .error _ => _
    cases NumberLiteral.read rest <;> rfl
  · next hminus =>
    rw [splitMinus_of_ne fun rest heq => hminus rest heq]
    rfl

theorem assignedValue_ok {m : Number} (h : NumberLiteral.read (splitMinus cs).2 = .ok m) :
    assignedValue cs = .number (if (splitMinus cs).1 then m.neg else m) := by
  rw [assignedValue_eq, h]

theorem assignedValue_error {e : IntError}
    (h : NumberLiteral.read (splitMinus cs).2 = .error e) :
    assignedValue cs = .text (String.ofList cs) := by
  rw [assignedValue_eq, h]

/-- A text is read as what it stands for unless it is misread. -/
theorem says_assignedValue_iff : Says cs (assignedValue cs) ↔ ¬ Misread cs := by
  constructor
  · intro hsays hmisread
    cases hmisread with
    | long hliteral h =>
      obtain ⟨count, hread⟩ := h.read_eq
      rw [assignedValue_error hread] at hsays
      cases hsays with
      | text hnot => exact hnot hliteral
    | loose hliteral h =>
      obtain ⟨m, hread⟩ := read_isOk_iff.mpr h
      rw [assignedValue_ok hread] at hsays
      generalize hvalue : Datum.number _ = v at hsays
      cases hsays with
      | number hnot => exact hliteral hnot
      | text => cases hvalue
  · intro hmisread
    by_cases hliteral : IsLiteral (splitMinus cs).2
    · obtain ⟨m, hdenotes, hread | hlong⟩ := denotes_of_numeral (numeral_of_token hliteral)
      · rw [assignedValue_ok hread]
        exact .number hliteral hdenotes
      · exact absurd (.long hliteral hlong) hmisread
    · cases hread : NumberLiteral.read (splitMinus cs).2 with
      | ok m => exact absurd (.loose hliteral (read_isOk_iff.mp ⟨m, hread⟩)) hmisread
      | error e =>
        rw [assignedValue_error hread]
        exact .text hliteral

theorem not_misread_of_literal (h : IsLiteral (splitMinus cs).2)
    (hfew : (splitMinus cs).2.length ≤ 4300) : ¬ Misread cs := by
  rintro (⟨-, hlong⟩ | ⟨hnot, -⟩)
  · have hlength := hlong.length
    have hle := List.length_filter_le (fun c => decide (c ≠ '_')) (splitMinus cs).2
    omega
  · exact hnot h

/-- A separator before a digit is taken for a number. -/
theorem misread_separator : Misread (strip ['_', '1']) := by
  have hread : NumberLiteral.read ['_', '1'] = .ok (.int 1) := rfl
  exact .loose (by decide) (read_isOk_iff.mp ⟨_, hread⟩)

end Values

/-! ## Assignments -/

section Assignments

variable {ordinal value : List Char} {negative : Bool} {ds : List ℕ}

theorem not_mem_ordinal (h : OrdinalText ordinal negative ds) : '=' ∉ ordinal := by
  obtain @⟨front, sign, run, back, ds, hfront, hback, hsign, hrun⟩ := h
  have hrun' : '=' ∉ run := fun hmem => absurd (hrun.chars _ hmem) (by decide)
  have hsign' : '=' ∉ sign := by rcases hsign with rfl | rfl | rfl <;> decide
  have hblank : ∀ cs : List Char, (∀ c ∈ cs, isBlank c = true) → '=' ∉ cs := fun cs hcs hmem =>
    absurd (hcs _ hmem) (by decide)
  simp [hrun', hsign', hblank front hfront, hblank back hback]

/-- An assignment is cut at its first equality sign. -/
theorem readAssignment_eq (h : '=' ∉ ordinal) :
    readAssignment (String.ofList (ordinal ++ '=' :: value)) =
      match readInt (strip ordinal) with
      | .ok n => .ok (n, assignedValue (strip value))
      | .error .malformed => .error (.badOrdinal (strip ordinal))
      | .error (.tooLong digits) => .error (.longOrdinal digits) := by
  have hpart : ∀ c ∈ ordinal, decide (c ≠ '=') = true := fun c hc =>
    decide_eq_true fun heq => h (heq ▸ hc)
  have hend : ∀ c ∈ ('=' :: value).head?, decide (c ≠ '=') = false := by
    rintro c ⟨⟩
    decide
  obtain ⟨htake, hdrop⟩ := span_run hpart hend
  rw [readAssignment, String.toList_ofList]
  cases hread : readInt (strip ordinal) with
  | ok n => simp only [htake, hdrop, hread]
  | error e => cases e <;> simp only [htake, hdrop, hread]

/-- The value that is read is the one of the text behind the equality sign. -/
theorem value_of_readAssignment {n : ℤ} {v : Datum} (h : '=' ∉ ordinal)
    (hread : readAssignment (String.ofList (ordinal ++ '=' :: value)) = .ok (n, v)) :
    v = assignedValue (strip value) := by
  rw [readAssignment_eq h] at hread
  split at hread
  · exact (Prod.mk.inj (Except.ok.inj hread)).2.symm
  · cases hread
  · cases hread

end Assignments

/-! ## All assignments -/

/-- An ordinal of these digits, an equality sign and a value. -/
def AssignmentText (raw : String) (ds : List ℕ) : Prop :=
  ∃ ordinal negative value, OrdinalText ordinal negative ds ∧ raw.toList = ordinal ++ '=' :: value

section All

variable {raw : String} {raws : List String} {ds : List ℕ}

/-- An assignment is read unless its ordinal has too many digits. -/
theorem AssignmentText.isOk_iff (h : AssignmentText raw ds) :
    (∃ pair, readAssignment raw = .ok pair) ↔ ds.length ≤ 4300 := by
  obtain ⟨ordinal, negative, value, hordinal, hraw⟩ := h
  rw [← String.ofList_toList (s := raw), hraw, readAssignment_eq (not_mem_ordinal hordinal),
    hordinal.readInt_eq]
  by_cases hfew : ds.length ≤ 4300
  · rw [if_pos hfew]
    exact iff_of_true ⟨_, rfl⟩ hfew
  · rw [if_neg hfew]
    exact iff_of_false nofun hfew

theorem exists_assignmentText {pair : ℤ × Datum} (h : readAssignment raw = .ok pair) :
    ∃ ds, AssignmentText raw ds := by
  rw [readAssignment] at h
  simp only at h
  split at h
  · cases h
  · next c value hdrop =>
    obtain rfl : c = '=' := by
      have hhead := List.head?_dropWhile_not (fun c => decide (c ≠ '=')) raw.toList
      rw [hdrop] at hhead
      simpa using hhead
    split at h
    · next n hread =>
      obtain ⟨negative, ds, hordinal⟩ := exists_ordinalText hread
      refine ⟨ds, _, negative, value, hordinal, ?_⟩
      rw [← hdrop, List.takeWhile_append_dropWhile]
    · cases h
    · cases h

/-- All assignments are read when each is one with an ordinal of few digits. -/
theorem readAssignments_isOk_iff : (∃ edits, readAssignments raws = .ok edits) ↔
    ∀ raw ∈ raws, ∃ ds, AssignmentText raw ds ∧ ds.length ≤ 4300 := by
  have hall : (∃ edits, readAssignments raws = .ok edits) ↔
      ∃ pairs, raws.mapM readAssignment = .ok pairs := by
    rw [readAssignments]
    cases raws.mapM readAssignment with
    | error e => exact iff_of_false nofun nofun
    | ok pairs => exact iff_of_true ⟨_, rfl⟩ ⟨_, rfl⟩
  rw [hall, mapM_isOk_iff]
  refine forall₂_congr fun raw _ =>
    ⟨fun ⟨pair, hread⟩ => ?_, fun ⟨ds, h, hfew⟩ => h.isOk_iff.mpr hfew⟩
  obtain ⟨ds, h⟩ := exists_assignmentText hread
  exact ⟨ds, h, h.isOk_iff.mp ⟨pair, hread⟩⟩

end All

/-- An ordinal, an equality sign and a value are read as this ordinal and what the value stands for
exactly when the ordinal does not have too many digits and the value is not misread. -/
theorem readAssignment_says_iff {ordinal value : List Char} {negative : Bool} {ds : List ℕ}
    (h : OrdinalText ordinal negative ds) :
    (∃ v, readAssignment (String.ofList (ordinal ++ '=' :: value)) =
        .ok (ordinalValue negative ds, v) ∧ Says (strip value) v) ↔
      ds.length ≤ 4300 ∧ ¬ Misread (strip value) := by
  have hordinal := not_mem_ordinal h
  rw [← says_assignedValue_iff]
  by_cases hfew : ds.length ≤ 4300
  · have hread : readAssignment (String.ofList (ordinal ++ '=' :: value)) =
        .ok (ordinalValue negative ds, assignedValue (strip value)) := by
      rw [readAssignment_eq hordinal, h.readInt_eq, if_pos hfew]
    constructor
    · rintro ⟨v, hv, hsays⟩
      obtain rfl := value_of_readAssignment hordinal hv
      exact ⟨hfew, hsays⟩
    · exact fun hsays => ⟨_, hread, hsays.2⟩
  · have hread : readAssignment (String.ofList (ordinal ++ '=' :: value)) =
        .error (.longOrdinal ds.length) := by
      rw [readAssignment_eq hordinal, h.readInt_eq, if_neg hfew]
    rw [hread]
    exact iff_of_false nofun fun hboth => hfew hboth.1

/-- A negative hexadecimal literal is read, and a separator before a digit is taken for a number. -/
theorem readAssignment_says_iff_hex :
    OrdinalText [' ', '-', '1', '_', '2'] true [1, 2] ∧
      (∃ v, readAssignment (String.ofList
          ([' ', '-', '1', '_', '2'] ++ '=' :: ['-', '0', 'x', '1', 'F'])) =
        .ok (ordinalValue true [1, 2], v) ∧ Says (strip ['-', '0', 'x', '1', 'F']) v) ∧
      ¬ ∃ v, readAssignment (String.ofList ([' ', '-', '1', '_', '2'] ++ '=' :: ['_', '1'])) =
        .ok (ordinalValue true [1, 2], v) ∧ Says (strip ['_', '1']) v := by
  have hordinal : OrdinalText [' ', '-', '1', '_', '2'] true [1, 2] :=
    @OrdinalText.mk [' '] ['-'] ['1', '_', '2'] [] [1, 2]
      (List.forall_mem_singleton.mpr (by decide)) (by simp) (.inr (.inr rfl))
      (.separated (by decide) (.last (by decide)))
  have hhex : strip ['-', '0', 'x', '1', 'F'] = ['-', '0', 'x', '1', 'F'] := by decide
  refine ⟨hordinal, (readAssignment_says_iff hordinal).mpr ⟨by simp, ?_⟩,
    fun h => ((readAssignment_says_iff hordinal).mp h).2 misread_separator⟩
  rw [hhex]
  exact not_misread_of_literal (by decide) (by simp [splitMinus])

/-- A name of a separator and a digit is read as a number. -/
theorem readAssignment_name : ¬ ∀ ordinal value negative ds, OrdinalText ordinal negative ds →
    ∃ v, readAssignment (String.ofList (ordinal ++ '=' :: value)) =
      .ok (ordinalValue negative ds, v) ∧ Says (strip value) v := by
  intro hall
  have hordinal : OrdinalText ['0'] false [0] :=
    @OrdinalText.mk [] [] ['0'] [] [0] (by simp) (by simp) (.inl rfl) (.last (by decide))
  obtain ⟨v, hread, hsays⟩ := hall ['0'] ['_', '1'] false [0] hordinal
  rw [value_of_readAssignment (by decide) hread] at hsays
  exact says_assignedValue_iff.mp hsays misread_separator

end LiveChain.Cli
