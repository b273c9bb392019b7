import LiveChain.Proofs.Edit.Lookup
import LiveChain.Proofs.Live.Coherence
import LiveChain.Proofs.Live.Outcome

/-!
# The last edit of a value counts

Edits are collected until they are committed. For each value the last operation on it says what its
edit is, and code and commit depend on that only, not on the order of the operations.
-/

set_option autoImplicit false

namespace LiveChain.Live

open Editor Text

def Op.IsEdit : Op → Prop
  | .update .. | .updateByKey .. | .reset _ => True
  | _ => False

namespace World

/-- What an operation makes of the edit for a target, if anything: an edit of a value that was found
sets it, and a reset drops it. -/
def setting (w : World) (target : EditTarget) (op : Op) : Option (Option Datum) :=
  match w.session.text, w.editOf op, op with
  | some _, some (ordinal, value), _ =>
    if target = .ordinal ordinal ∧ w.session.valueAt? ordinal ≠ none then some (some value)
    else none
  | some _, none, .reset ordinal => if target = .ordinal ordinal then some none else none
  | _, _, _ => none

/-- The edit for a target after operations: what the last operation that sets it makes of it, or
else the edit that was there. -/
def finalEdit (w : World) (ops : List Op) (target : EditTarget) : Option Datum :=
  (ops.reverse.findSome? (w.setting target)).getD (w.session.edits.get? target)

/-! ## Edits -/

theorem setting_base {w w' : World} (h : w.base = w'.base) (target : EditTarget) (op : Op) :
    w.setting target op = w'.setting target op := by
  apply base_congr (f := fun v => v.setting target op) _ h
  intro v
  cases op <;> rfl

theorem updated_edit {w : World} {ordinal : Int} {value : Datum}
    {outcome : World × Except Failure Bool} (h : Updated w ordinal value outcome) :
    outcome.1.base = w.base ∧ outcome.1.session.edits =
      if w.session.valueAt? ordinal ≠ none ∧ w.session.text ≠ none then
        w.session.edits.insert (.ordinal ordinal) value
      else w.session.edits := by
  cases h with
  | unknown notices hunknown =>
    rw [if_neg fun hknown => hunknown.elim hknown.1 hknown.2]
    exact ⟨rfl, rfl⟩
  | static target s reports notices htarget htext hs hlive =>
    rw [if_pos ⟨by simp [htarget], htext⟩, scheduleCommit_effect, hs]
    exact ⟨rfl, rfl⟩
  | previewed target s code notices htarget htext hs hlive hcode haccept =>
    rw [if_pos ⟨by simp [htarget], htext⟩, scheduleCommit_effect, hs]
    exact ⟨rfl, rfl⟩
  | fellBack target s host reports notices htarget htext hs hlive hhost =>
    rw [if_pos ⟨by simp [htarget], htext⟩, scheduleCommit_effect, hs]
    rcases hhost with ⟨rfl, -⟩ | ⟨code, rfl, -⟩ <;> exact ⟨rfl, rfl⟩
  | halfDone target s e notices htarget htext hs hlive hcode hmessage =>
    rw [if_pos ⟨by simp [htarget], htext⟩, hs]
    exact ⟨rfl, rfl⟩

theorem reset_edit (w : World) (ordinal : Int) : (w.reset ordinal).1.base = w.base ∧
    (w.reset ordinal).1.session.edits =
      if w.session.text = none then w.session.edits
      else w.session.edits.erase (.ordinal ordinal) := by
  have hquiet : ∀ v : World,
      (if v.session.edits.isEmpty then v.cancelCommit else v.scheduleCommit).base = v.base ∧
      (if v.session.edits.isEmpty then v.cancelCommit else v.scheduleCommit).session.edits =
        v.session.edits := by
    intro v
    rw [cancelCommit_effect, scheduleCommit_effect]
    split <;> exact ⟨rfl, rfl⟩
  by_cases hedit : (w.session.edits.contains (.ordinal ordinal) && w.session.text.isSome) = true
  · obtain ⟨reports, notices, hshown⟩ := showStatic_effect ⟨w.session.without ordinal, w.host⟩
    have htext : w.session.text ≠ none :=
      Option.isSome_iff_ne_none.mp (Bool.and_eq_true_iff.mp hedit).2
    simp only [reset, if_pos hedit, if_neg htext]
    refine ⟨(hquiet _).1.trans ?_, (hquiet _).2.trans ?_⟩
    · exact (congrArg World.base hshown).trans rfl
    · exact (congrArg (fun v : World => v.session.edits) hshown).trans rfl
  · have hsame : w.reset ordinal = (w, false) := if_neg hedit
    rw [hsame]
    refine ⟨rfl, ?_⟩
    split
    · rfl
    · next htext =>
      rw [Option.isSome_iff_ne_none.mpr htext, Bool.and_true, Bool.not_eq_true] at hedit
      exact (Edits.erase_of_not_contains hedit).symm

/-- An edit leaves everything alone but the edits, and of them all but the one that it sets. -/
theorem step_edit {w : World} {op : Op} (hop : op.IsEdit) : (w.step op).base = w.base ∧
    ∀ target, (w.step op).session.edits.get? target =
      (w.setting target op).getD (w.session.edits.get? target) := by
  cases hedit : w.editOf op with
  | some edit =>
    obtain ⟨ordinal, value⟩ := edit
    obtain ⟨hbase, hedits⟩ := updated_edit (update_effect w ordinal value)
    rw [step_of_editOf hedit, hedits]
    refine ⟨hbase, fun target => ?_⟩
    cases htext : w.session.text with
    | none => simp [setting, htext]
    | some text =>
      simp only [setting, htext, hedit]
      by_cases hvalue : w.session.valueAt? ordinal = none
      · simp [hvalue]
      · by_cases htarget : target = .ordinal ordinal
        · simp [hvalue, htarget]
        · simp [hvalue, htarget, Edits.get?_insert_of_ne htarget]
  | none =>
    cases op with
    | updateByKey key value =>
      obtain ⟨notices, hstep⟩ := updateByKey_of_editOf hedit
      rw [hstep]
      refine ⟨rfl, fun target => ?_⟩
      cases htext : w.session.text <;> simp [setting, htext, hedit]
    | reset ordinal =>
      obtain ⟨hbase, hedits⟩ := reset_edit w ordinal
      refine ⟨hbase, fun target => ?_⟩
      rw [step, hedits]
      cases htext : w.session.text with
      | none => simp [setting, htext]
      | some text =>
        simp only [setting, htext, hedit, reduceCtorEq, if_false, Edits.get?_erase]
        split <;> rfl
    | update ordinal value => cases hedit
    | _ => cases hop

/-! ## Runs -/

/-- After edits, what is looked up is the final edit of every target, and nothing else is new. -/
theorem run_edits {w : World} {ops : List Op} (hops : ∀ op ∈ ops, op.IsEdit) :
    (w.run ops).base = w.base ∧
      ∀ target, (w.run ops).session.edits.get? target = w.finalEdit ops target := by
  induction ops generalizing w with
  | nil => exact ⟨rfl, fun _ => rfl⟩
  | cons op ops ih =>
    obtain ⟨hbase, hedits⟩ := step_edit (w := w) (hops op (List.mem_cons_self ..))
    obtain ⟨hbase', hedits'⟩ := ih (w := w.step op) fun op' hmem =>
      hops op' (List.mem_cons_of_mem op hmem)
    refine ⟨hbase'.trans hbase, fun target => ?_⟩
    -- what later operations set does not depend on the edits, only on the values that were found
    have hsetting : (w.step op).setting target = w.setting target :=
      funext fun op' => setting_base hbase target op'
    rw [run_cons, hedits', finalEdit, finalEdit, hsetting, hedits, List.reverse_cons,
      List.findSome?_append]
    cases ops.reverse.findSome? (w.setting target) with
    | some edit => rfl
    | none => cases hop : w.setting target op <;> simp [hop]

end World

theorem codeWith_congr {s s' : Session} (hbase : s.base = s'.base) {edits edits' : Edits}
    (hedits : ∀ target, edits.get? target = edits'.get? target) :
    (s.codeWith edits).result = (s'.codeWith edits').result := by
  have hforget : ∀ (t : Session) (edits : Edits), t.codeWith edits = t.base.codeWith edits :=
    fun _ _ => rfl
  rw [hforget s, hforget s', hbase]
  exact applyEdits_congr hedits _

namespace World

theorem finalEdit_word (w : World) (ops : List Op) (name : String) :
    w.finalEdit ops (.word name) = w.session.edits.get? (.word name) := by
  have hnone : ops.reverse.findSome? (w.setting (.word name)) = none := by
    rw [List.findSome?_eq_none_iff]
    intro op _
    unfold setting
    split <;> simp
  rw [finalEdit, hnone]
  rfl

/-- Take two sequences of edits from one state that leave the same final edit for every ordinal.
The pending edits are the final ones, and both sequences make the same text, which is the snippet
with the final edits applied to it, however these are listed. A commit comes out the same for both:
the document and the calls to it, the tracked text, its range and its values. -/
theorem last_edit_counts {w : World} (hw : w.Reachable) {ops ops' : List Op}
    (hops : ∀ op ∈ ops, op.IsEdit) (hops' : ∀ op ∈ ops', op.IsEdit)
    (hfinal : ∀ ordinal, w.finalEdit ops (.ordinal ordinal) = w.finalEdit ops' (.ordinal ordinal)) :
    (∀ target, (w.run ops).session.edits.get? target = w.finalEdit ops target) ∧
      (w.run ops).session.staticCode.result = (w.run ops').session.staticCode.result ∧
      (∀ edits : Edits, (∀ target, edits.get? target = w.finalEdit ops target) →
        (w.run ops).session.staticCode.result = (w.session.codeWith edits).result) ∧
      (w.run ops).commit.base = (w.run ops').commit.base ∧
      ∀ op op' : Op, op.Commits → op'.Commits → (w.run ops).session.pending ≠ none →
        (w.run ops').session.pending ≠ none →
        ((w.run ops).step op).base = ((w.run ops').step op').base := by
  obtain ⟨hbase, hedits⟩ := run_edits (w := w) hops
  obtain ⟨hbase', hedits'⟩ := run_edits (w := w) hops'
  have htimer := oneTimer_run hw.oneTimer ops
  have htimer' := oneTimer_run hw.oneTimer ops'
  have hlookup : ∀ target, (w.run ops).session.edits.get? target =
      (w.run ops').session.edits.get? target := by
    intro target
    rw [hedits, hedits']
    cases target with
    | ordinal n => exact hfinal n
    | word name => rw [finalEdit_word, finalEdit_word]
  have hsame : (w.run ops).base = (w.run ops').base := hbase.trans hbase'.symm
  generalize w.run ops = v at hbase hedits htimer hlookup hsame
  generalize w.run ops' = v' at htimer' hlookup hsame
  have hcode : v.session.staticCode.result = v'.session.staticCode.result :=
    codeWith_congr (congrArg World.session hsame) hlookup
  have hnil : v.session.edits = [] ↔ v'.session.edits = [] :=
    ⟨Edits.eq_nil_of_get? hlookup, Edits.eq_nil_of_get? fun target => (hlookup target).symm⟩
  refine ⟨hedits, hcode, ?_, commit_base hsame hcode hnil, ?_⟩
  · intro edits hget
    apply codeWith_congr (congrArg World.session hbase)
    exact fun target => (hedits target).trans (hget target).symm
  · intro op op' hop hop' hpending hpending'
    obtain ⟨timers, hstep⟩ := step_commits htimer hop hpending
    obtain ⟨timers', hstep'⟩ := step_commits htimer' hop' hpending'
    rw [hstep, hstep']
    apply commit_base
    · exact hsame
    · exact hcode
    · exact hnil

set_option maxRecDepth 10000 in
/-- Two values edited once, or back and forth with one edit dropped in between. -/
theorem last_edit_counts_back_and_forth :
    let w := (plain "osc(10,20)".toList).run [.begin "osc(10,20)".toList ⟨⟨0, 0⟩, ⟨0, 10⟩⟩]
    let ops : List Op := [.update 0 (.number (.int 30)), .update 1 (.number (.int 40))]
    let ops' : List Op := [.update 1 (.number (.int 50)), .update 0 (.number (.int 60)), .reset 1,
      .update 1 (.number (.int 40)), .update 0 (.number (.int 30))]
    (w.run ops).session.staticCode.result = (w.run ops').session.staticCode.result ∧
      ((w.run ops').step .fire).host.document = "osc(30,40)".toList ∧
      ((w.run ops).step .flush).base = ((w.run ops').step .fire).base := by
  intro w ops ops'
  have hw : w.Reachable := reachable_plain ..
  have hstate : w.session.text.isSome = true ∧ (w.session.valueAt? 0).isSome = true ∧
      (w.session.valueAt? 1).isSome = true ∧ (w.run ops).session.pending.isSome = true ∧
      (w.run ops').session.pending.isSome = true ∧
      ((w.run ops').step .fire).host.document = "osc(30,40)".toList := by
    decide +kernel
  generalize w = w at hw hstate
  obtain ⟨htext, hfirst, hsecond, hpending, hpending', hdocument⟩ := hstate
  obtain ⟨text, htext⟩ := Option.isSome_iff_exists.mp htext
  have hfinal : ∀ ordinal,
      w.finalEdit ops (.ordinal ordinal) = w.finalEdit ops' (.ordinal ordinal) := by
    intro ordinal
    by_cases h0 : ordinal = 0
    · simp [ops, ops', finalEdit, setting, editOf, htext, h0, Option.isSome_iff_ne_none.mp hfirst]
    · by_cases h1 : ordinal = 1
      · simp [ops, ops', finalEdit, setting, editOf, htext, h1, Option.isSome_iff_ne_none.mp hsecond]
      · simp [ops, ops', finalEdit, setting, editOf, htext, h0, h1]
  have hops : ∀ op ∈ ops, op.IsEdit := by simp [ops, Op.IsEdit]
  have hops' : ∀ op ∈ ops', op.IsEdit := by simp [ops', Op.IsEdit]
  obtain ⟨-, hcode, -, -, hcommit⟩ := last_edit_counts hw hops hops' hfinal
  refine ⟨hcode, hdocument, hcommit _ _ (.inl rfl) (.inr rfl) ?_ ?_⟩
  · exact Option.isSome_iff_ne_none.mp hpending
  · exact Option.isSome_iff_ne_none.mp hpending'

end World

end LiveChain.Live
