import LiveChain.Proofs.Data
import LiveChain.Proofs.Edit.Edits
import LiveChain.Proofs.Edit.Weave
import LiveChain.Proofs.Except
import LiveChain.Proofs.Live.Effects
import Mathlib.Algebra.Group.Int.Defs
import Mathlib.Algebra.Group.Nat.Defs

/-!
# Errors that cannot be shown

An error of a preview has a text, unless it would have to show an integer with too many digits. Such
an error comes from the edit of a live value, and the first edit of a number can end with one.
-/

set_option autoImplicit false

namespace LiveChain

theorem showInt?_eq_none_iff (n : Int) : showInt? n = none ↔ 10 ^ digitLimit ≤ n.natAbs := by
  have hlength : (toString n.natAbs).length ≤ digitLimit ↔ n.natAbs < 10 ^ digitLimit :=
    Nat.length_repr_le_iff (by decide)
  unfold showInt?
  simp only
  split
  · next hlong => exact iff_of_true rfl (by omega)
  · next hshort => exact iff_of_false (Option.some_ne_none _) (by omega)

/-- Data that hold an integer with more digits than are shown. -/
def Datum.Overlong (d : Datum) : Prop := d.Holds fun n => 10 ^ digitLimit ≤ n.natAbs

namespace Datum

mutual

/-- Exactly the data with an integer of too many digits have no text. -/
theorem shown?_eq_none_iff : ∀ d : Datum, d.shown? = none ↔ d.Overlong
  | .null => iff_of_false (Option.some_ne_none _) nofun
  | .bool true => iff_of_false (Option.some_ne_none _) nofun
  | .bool false => iff_of_false (Option.some_ne_none _) nofun
  | .number (.int n) => by rw [shown?, showInt?_eq_none_iff, Overlong, holds_int]
  | .number (.float x) => iff_of_false (Option.some_ne_none _) nofun
  | .text s => iff_of_false (Option.some_ne_none _) nofun
  | .moment iso => iff_of_false (Option.some_ne_none _) nofun
  | .list items =>
    Option.map_eq_none_iff.trans ((shownItems?_eq_none_iff items).trans holds_list.symm)
  | .table fields =>
    Option.map_eq_none_iff.trans ((shownFields?_eq_none_iff fields).trans holds_table.symm)

theorem shownItems?_eq_none_iff : ∀ items : List Datum,
    shownItems? items = none ↔ ∃ d ∈ items, d.Overlong
  | [] => by simp [shownItems?]
  | item :: rest => by
    rw [shownItems?, bind_eq_none_iff, shown?_eq_none_iff item, shownItems?_eq_none_iff rest,
      List.exists_mem_cons_iff]

theorem shownFields?_eq_none_iff : ∀ fields : List (String × Datum),
    shownFields? fields = none ↔ ∃ f ∈ fields, f.2.Overlong
  | [] => by simp [shownFields?]
  | (name, d) :: rest => by
    rw [shownFields?, bind_eq_none_iff, shown?_eq_none_iff d, shownFields?_eq_none_iff rest,
      List.exists_mem_cons_iff]

end

end Datum

/-- The error of an edit that cannot be written has a text exactly when its value can be shown. -/
theorem message?_of_replacement {value : Datum} {e : EditError} (h : replacement value = .error e) :
    e.message? = none ↔ value.shown? = none := by
  cases value with
  | number n =>
    cases n with
    | float x => cases h
    | int k =>
      simp only [replacement] at h
      split at h
      · cases h
      · next heq =>
        cases heq
        cases h
        exact Option.map_eq_none_iff
      · next hne => exact absurd rfl (hne k)
  | text s => cases h
  | _ =>
    cases h
    rw [EditError.message?, Option.map_eq_none_iff]

theorem natAbs_ten_pow (k : Nat) : ((10 : Int) ^ k).natAbs = 10 ^ k := Int.natAbs_pow 10 k

theorem showInt?_long : showInt? (10 ^ digitLimit) = none :=
  (showInt?_eq_none_iff _).mpr (Nat.le_of_eq (natAbs_ten_pow _).symm)

namespace Live

open Editor Text

/-! ## Errors in the parts of a preview -/

variable {s : Session} {e : LiveError}

theorem message?_of_variableOf {ordinal : Int} (h : s.variableOf ordinal = .error e) :
    e.message? ≠ none := by
  unfold Session.variableOf at h
  split at h
  · cases h
  · cases h
    exact Option.some_ne_none _

theorem Session.liveCode_result (s : Session) :
    s.liveCode.result = match s.placeholders with
      | .error e => .error e
      | .ok edits =>
        if s.text = some (s.codeWith edits).result then .error .unchanged
        else s.assignments.map fun head => head ++ ";\n".toList ++ (s.codeWith edits).result := by
  unfold Session.liveCode
  cases s.placeholders with
  | error e => rfl
  | ok edits =>
    simp only
    split <;> rfl

theorem Session.liveCode_eq_ok {code : List Char} (h : s.liveCode.result = .ok code) :
    ∃ marked head, s.placeholders = .ok marked ∧ s.assignments = .ok head ∧
      s.text ≠ some (s.codeWith marked).result ∧
      code = head ++ ";\n".toList ++ (s.codeWith marked).result := by
  rw [Session.liveCode_result] at h
  cases hmarked : s.placeholders with
  | error e =>
    rw [hmarked] at h
    cases h
  | ok marked =>
    simp only [hmarked] at h
    split at h
    · cases h
    · next hnew =>
      cases hhead : s.assignments with
      | error e =>
        rw [hhead] at h
        cases h
      | ok head =>
        rw [hhead] at h
        cases h
        exact ⟨marked, head, rfl, rfl, hnew, rfl⟩

/-- Placeholders are missing only for a value that is not there, and that has a text. -/
theorem message?_of_placeholders (h : s.placeholders = .error e) : e.message? ≠ none := by
  unfold Session.placeholders at h
  generalize s.edits = edits at h
  generalize hlive : s.live = live at h
  clear hlive
  induction live generalizing edits with
  | nil => cases h
  | cons ordinal live ih =>
    rw [List.foldlM_cons] at h
    cases hname : s.variableOf ordinal with
    | error e' =>
      rw [hname] at h
      cases h
      exact message?_of_variableOf hname
    | ok name =>
      rw [hname] at h
      exact ih _ h

theorem unshowable_of_assignment {ordinal : Int} (h : s.assignment ordinal = .error e)
    (hmessage : e.message? = none) :
    ∃ value, s.edits.get? (.ordinal ordinal) = some value ∧ value.shown? = none := by
  unfold Session.assignment at h
  cases hname : s.variableOf ordinal with
  | error e' =>
    rw [hname] at h
    cases h
    exact absurd hmessage (message?_of_variableOf hname)
  | ok name =>
    cases htext : replacement ((s.edits.get? (.ordinal ordinal)).getD .null) with
    | ok text =>
      simp only [hname, htext] at h
      cases h
    | error e' =>
      simp only [hname, htext] at h
      cases h
      have hshown := (message?_of_replacement htext).mp hmessage
      cases hget : s.edits.get? (.ordinal ordinal) with
      | none =>
        rw [hget] at hshown
        cases hshown
      | some value =>
        rw [hget] at hshown
        exact ⟨value, rfl, hshown⟩

theorem unshowable_of_assignments (h : s.assignments = .error e) (hmessage : e.message? = none) :
    ∃ ordinal ∈ s.live, ∃ value,
      s.edits.get? (.ordinal ordinal) = some value ∧ value.shown? = none := by
  unfold Session.assignments at h
  cases hall : (sortBy (fun a b => decide (a ≤ b)) s.live).mapM s.assignment with
  | ok all =>
    rw [hall] at h
    cases h
  | error e' =>
    rw [hall] at h
    cases h
    obtain ⟨before, ordinal, behind, hsplit, -, hordinal⟩ := mapM_eq_error_iff.mp hall
    have hmem : ordinal ∈ sortBy (fun a b => decide (a ≤ b)) s.live := by simp [hsplit]
    exact ⟨ordinal, mem_sortBy.mp hmem, unshowable_of_assignment hordinal hmessage⟩

/-- An error of a preview that cannot be shown comes from the edit of a live value that cannot be
shown. -/
theorem unshowable_of_preview {assignmentsOnly : Bool} (h : s.preview assignmentsOnly = .error e)
    (hmessage : e.message? = none) :
    ∃ ordinal ∈ s.live, ∃ value,
      s.edits.get? (.ordinal ordinal) = some value ∧ value.shown? = none := by
  cases assignmentsOnly with
  | true => exact unshowable_of_assignments h hmessage
  | false =>
    replace h : s.liveCode.result = .error e := h
    rw [Session.liveCode_result] at h
    cases hplaceholders : s.placeholders with
    | error e' =>
      rw [hplaceholders] at h
      cases h
      exact absurd hmessage (message?_of_placeholders hplaceholders)
    | ok edits =>
      simp only [hplaceholders] at h
      split at h
      · cases h
        cases hmessage
      · cases hhead : s.assignments with
        | ok head =>
          rw [hhead] at h
          cases h
        | error e' =>
          rw [hhead] at h
          cases h
          exact unshowable_of_assignments hhead hmessage

/-! ## Edits that end with such an error -/

theorem assignments_unshowable {ordinal : Int} {target : EditableValue} {value : Datum}
    (hlive : s.live = [ordinal]) (htarget : s.valueAt? ordinal = some target)
    (hedit : s.edits.get? (.ordinal ordinal) = some value) (hwritable : ¬ value.IsWritable)
    (hshown : value.shown? = none) :
    ∃ e, s.assignments = .error e ∧ e.message? = none := by
  cases hreplacement : replacement value with
  | ok new => exact absurd (replacement_isOk.mp ⟨new, hreplacement⟩) hwritable
  | error e =>
    refine ⟨.edit e, ?_, (message?_of_replacement hreplacement).mpr hshown⟩
    have hassignment : s.assignment ordinal = .error (.edit e) := by
      simp only [Session.assignment, Session.variableOf, htarget, hedit, Option.getD_some,
        hreplacement]
      rfl
    rw [Session.assignments, hlive, sortBy, sortBy, insertBy, List.mapM_cons, hassignment]
    rfl

theorem placeholders_single {ordinal : Int} {target : EditableValue} {value : Datum}
    (hlive : s.live = [ordinal]) (htarget : s.valueAt? ordinal = some target)
    (hedits : s.edits = [(.ordinal ordinal, value)]) :
    s.placeholders = .ok [(.ordinal ordinal, .text (s.settings.placeholder target.key))] := by
  rw [Session.placeholders, hlive, hedits, List.foldlM_cons]
  simp only [Session.variableOf, htarget, Edits.insert, if_true]
  rfl

/-- The preview of a single edit that can be neither written nor shown, where a placeholder could
stand. -/
theorem preview_unshowable {ordinal : Int} {target : EditableValue} {value : Datum}
    (hlive : s.live = [ordinal]) (htarget : s.valueAt? ordinal = some target)
    (hedits : s.edits = [(.ordinal ordinal, value)]) (hwritable : ¬ value.IsWritable)
    (hshown : value.shown? = none)
    (hplaceholder : s.text ≠ some (s.codeWith [(.ordinal ordinal,
      .text (s.settings.placeholder target.key))]).result) :
    ∃ e, s.preview false = .error e ∧ e.message? = none := by
  have hget : s.edits.get? (.ordinal ordinal) = some value := by
    rw [hedits, Edits.get?_cons, if_pos rfl]
  obtain ⟨e, hassignments, hmessage⟩ :=
    assignments_unshowable hlive htarget hget hwritable hshown
  refine ⟨e, ?_, hmessage⟩
  rw [Session.preview, if_neg Bool.false_ne_true, Session.liveCode_result,
    placeholders_single hlive htarget hedits]
  simp only [if_neg hplaceholder, hassignments]
  rfl

/-- An edit ends with a failure exactly when the preview of the session with the edit ends with an
error that cannot be shown. -/
theorem Updated.unshowable_iff {w : World} {ordinal : Int} {value : Datum}
    {outcome : World × Except Failure Bool} (h : Updated w ordinal value outcome) :
    outcome.2 = .error .unshowable ↔
      ∃ target, w.session.valueAt? ordinal = some target ∧ w.session.text ≠ none ∧
        (w.session.recorded target ordinal value).live ≠ [] ∧
        ∃ e, (w.session.recorded target ordinal value).preview (w.session.assignsOnly ordinal) =
          .error e ∧ e.message? = none := by
  cases h with
  | unknown notices hnone =>
    refine iff_of_false nofun ?_
    rintro ⟨target, htarget, htext, -⟩
    exact hnone.elim (fun hnone => by simp [hnone] at htarget) htext
  | static target s reports notices htarget htext hs hlive => simp [htarget, ← hs, hlive]
  | previewed target s code notices htarget htext hs hlive hcode haccept =>
    simp [htarget, ← hs, hcode]
  | fellBack target s host reports notices htarget htext hs hlive hhost =>
    simp only [htarget, Option.some.injEq, exists_eq_left', ← hs]
    refine iff_of_false nofun ?_
    rintro ⟨-, -, e, he, hsilent⟩
    rcases hhost with ⟨-, e', he', hmessage⟩ | ⟨code, -, hcode, -⟩
    · rw [he] at he'
      cases he'
      exact hmessage hsilent
    · rw [he] at hcode
      cases hcode
  | halfDone target s e notices htarget htext hs hlive hcode hmessage =>
    exact iff_of_true rfl ⟨target, htarget, htext, hs ▸ hlive, e, hs ▸ hcode, hmessage⟩

/-- The first edit of a number, made with a value that can be neither written nor shown, ends with
an error that cannot be shown, given that a placeholder could stand there. -/
theorem update_unshowable {w : World} {ordinal : Int} {target : EditableValue} {text : List Char}
    {value : Datum} (htarget : w.session.valueAt? ordinal = some target)
    (hnumber : target.isNumber = true) (htext : w.session.text = some text)
    (hedits : w.session.edits = []) (hlive : w.session.live = [])
    (hwritable : ¬ value.IsWritable) (hshown : value.shown? = none)
    (hplaceholder : (w.session.codeWith [(.ordinal ordinal,
      .text (w.session.settings.placeholder target.key))]).result ≠ text) :
    (w.update ordinal value).2 = .error .unshowable := by
  have hnotText : isText value = false := by
    cases value with
    | text s => exact absurd trivial hwritable
    | _ => rfl
  have hrecordedLive : (w.session.recorded target ordinal value).live = [ordinal] := by
    simp [Session.recorded, hlive, hnumber, hnotText]
  have hrecordedEdits : (w.session.recorded target ordinal value).edits =
      [(.ordinal ordinal, value)] := by
    simp [Session.recorded, hedits, Edits.insert]
  have hfull : w.session.assignsOnly ordinal = false := by simp [Session.assignsOnly, hlive]
  have hnew : w.session.text ≠ some (w.session.codeWith [(.ordinal ordinal,
      .text (w.session.settings.placeholder target.key))]).result := by
    rw [htext]
    exact fun heq => hplaceholder (Option.some.inj heq).symm
  obtain ⟨e, hpreview, hmessage⟩ :=
    preview_unshowable hrecordedLive htarget hrecordedEdits hwritable hshown hnew
  rw [← hfull] at hpreview
  exact (update_effect w ordinal value).unshowable_iff.mpr
    ⟨target, htarget, by simp [htext], by simp [hrecordedLive], e, hpreview, hmessage⟩

end Live

end LiveChain
