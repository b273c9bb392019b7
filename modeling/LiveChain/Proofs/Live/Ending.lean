import LiveChain.Proofs.Live.Coherence
import LiveChain.Proofs.Live.Commit
import LiveChain.Proofs.Live.Outcome

/-!
# A preview ends in the snippet itself

A commit puts off one code, the text that the session goes on with, so that the evaluator does not
go on with placeholders. A write that the document refuses is the exception: the edits are dropped
and nothing is put off.
-/

set_option autoImplicit false

namespace LiveChain.Live

open Editor Text

/-- A commit has a text to write, and one of the calls for that fails. -/
def World.Refused (w : World) : Prop :=
  w.session.staticCode.result ≠ [] ∧ w.session.text ≠ some w.session.staticCode.result ∧
    ¬ w.host.Accepts

theorem attempt_effect (h : Host) (range : Range) (code : List Char) :
    ∃ document calls, (h.attempt range code).1 =
      { h with document := document, calls := calls } := by
  simp only [Host.attempt, Host.call]
  cases h.breaks (.opening :: h.calls) with
  | some message => exact ⟨_, _, rfl⟩
  | none =>
    simp only
    cases h.breaks (.replace :: .opening :: h.calls) with
    | some message =>
      simp only
      cases h.breaks (.closing :: .replace :: .opening :: h.calls) <;> exact ⟨_, _, rfl⟩
    | none =>
      simp only
      cases h.breaks (.closing :: .replace :: .opening :: h.calls) <;> exact ⟨_, _, rfl⟩

theorem attempt_eq_ok_iff (h : Host) (range : Range) (code : List Char) :
    (h.attempt range code).2 = .ok () ↔ h.Accepts := by
  constructor
  · intro hok
    simp only [Host.attempt, Host.call] at hok
    cases hopening : h.breaks (.opening :: h.calls) with
    | some message => simp [hopening] at hok
    | none =>
      simp only [hopening] at hok
      cases hreplace : h.breaks (.replace :: .opening :: h.calls) with
      | some message =>
        simp only [hreplace] at hok
        split at hok <;> cases hok
      | none =>
        simp only [hreplace] at hok
        cases hclosing : h.breaks (.closing :: .replace :: .opening :: h.calls) with
        | some message => simp [hclosing] at hok
        | none => exact ⟨hopening, hreplace, hclosing⟩
  · intro hok
    simp [Host.attempt, Host.call, hok.opening, hok.replacing, hok.closing]

theorem Host.Accepts.congr {h h' : Host} (haccepts : h.Accepts) (hbreaks : h'.breaks = h.breaks)
    (hcalls : h'.calls = h.calls) : h'.Accepts := by
  constructor <;> rw [hbreaks, hcalls]
  · exact haccepts.opening
  · exact haccepts.replacing
  · exact haccepts.closing

/-! ## What a commit puts off -/

section Commit

variable {w : World}

theorem commitText_of_refused (h : ¬ w.host.Accepts) (range : Range) (code : List Char) :
    (w.commitText range code).session.text = w.session.text ∧
      (w.commitText range code).host.deferred = w.host.deferred ∧
      (w.commitText range code).host.evaluated = w.host.evaluated := by
  obtain ⟨reports, notices, hcommit⟩ := commitText_attempt w range code
  obtain ⟨document, calls, heffect⟩ := attempt_effect w.host range code
  rw [← attempt_eq_ok_iff w.host range code] at h
  rw [hcommit]
  generalize w.host.attempt range code = outcome at h heffect
  obtain ⟨host, result⟩ := outcome
  subst heffect
  cases result with
  | ok u => exact absurd rfl h
  | error message => exact ⟨rfl, rfl, rfl⟩

theorem commitText_accepted (h : w.host.Accepts) (range : Range) (code : List Char) :
    (w.commitText range code).session.text = some code ∧
      (w.commitText range code).host.deferred = w.host.deferred ++ [code] ∧
      (w.commitText range code).host.evaluated = w.host.evaluated := by
  obtain ⟨notices, hcommit⟩ := commitText_of_accepts h range code
  rw [hcommit]
  exact ⟨rfl, rfl, rfl⟩

/-- A refused commit leaves the text as it is and puts nothing off. -/
theorem commit_of_refused (hcoherent : w.session.Coherent) (hlive : w.session.live ≠ [])
    (h : w.Refused) : w.commit.session.text = w.session.text ∧
      w.commit.host.deferred = w.host.deferred ∧ w.commit.host.evaluated = w.host.evaluated := by
  obtain ⟨text, range, htext, hrange, hedits⟩ := hcoherent.tracked hlive
  obtain ⟨hne, hnew, hrefused⟩ := h
  have hwrites : ¬ (w.session.staticCode.result.isEmpty || w.session.staticCode.result = text) =
      true := by
    rw [Bool.or_eq_true, List.isEmpty_iff, decide_eq_true_eq, not_or]
    exact ⟨hne, fun heq => hnew (by rw [htext, heq])⟩
  rw [World.commit_of_edits htext hrange hedits, if_neg hwrites]
  apply commitText_of_refused
  exact fun haccepts => hrefused (haccepts.congr rfl rfl)

/-- Any other commit from a preview puts off the text that the session goes on with. -/
theorem commit_of_not_refused (hcoherent : w.session.Coherent) (hlive : w.session.live ≠ [])
    (h : ¬ w.Refused) : ∃ text, w.commit.session.text = some text ∧
      w.commit.host.deferred = w.host.deferred ++ [text] ∧
      w.commit.host.evaluated = w.host.evaluated := by
  obtain ⟨text, range, htext, hrange, hedits⟩ := hcoherent.tracked hlive
  by_cases hwrites : (w.session.staticCode.result.isEmpty ||
      w.session.staticCode.result = text) = true
  · rw [World.commit_of_edits htext hrange hedits, if_pos hwrites, if_neg hlive]
    exact ⟨text, htext, rfl, rfl⟩
  · rw [World.commit_of_edits htext hrange hedits, if_neg hwrites]
    rw [Bool.or_eq_true, List.isEmpty_iff, decide_eq_true_eq, not_or] at hwrites
    have hnew : w.session.text ≠ some w.session.staticCode.result := by
      rw [htext]
      exact fun heq => hwrites.2 (Option.some.inj heq).symm
    by_cases haccepts : w.host.Accepts
    · refine ⟨w.session.staticCode.result, ?_⟩
      apply commitText_accepted
      exact haccepts.congr rfl rfl
    · exact absurd ⟨hwrites.1, hnew, haccepts⟩ h

end Commit

/-! ## The last code -/

/-- After a commit from a preview, once all codes put off have been evaluated, the last code is the
text of the session exactly when the document did not refuse the write, or when the codes evaluated
and put off before ended in that text already. -/
theorem last_code_iff {w : World} (hw : w.Reachable) {op : Op} (hop : op.Commits)
    (hlive : w.session.live ≠ []) (hpending : w.session.pending ≠ none) :
    ∃ text, (w.step op).runDeferred.session.text = some text ∧
      ((w.step op).runDeferred.host.evaluated.head? = some text ↔
        ¬ w.Refused ∨ (w.host.deferred.reverse ++ w.host.evaluated).head? = some text) := by
  obtain ⟨timers, hstep⟩ := step_commits hw.oneTimer hop hpending
  obtain ⟨reports, notices, hrun⟩ := runDeferred_effect (w.step op)
  generalize hc : (⟨{ w.session with pending := none }, { w.host with timers := timers }⟩ : World) =
    c at hstep
  have hlive' : c.session.live ≠ [] := by rwa [← hc]
  have hcoherent' : c.session.Coherent := by rw [← hc]; exact { hw.coherent with }
  have hrefused : c.Refused ↔ w.Refused := by
    rw [← hc]
    constructor
    · exact fun h => ⟨h.1, h.2.1, fun haccepts => h.2.2 (haccepts.congr rfl rfl)⟩
    · exact fun h => ⟨h.1, h.2.1, fun haccepts => h.2.2 (haccepts.congr rfl rfl)⟩
  have htext' : (w.step op).runDeferred.session.text = c.commit.session.text := by
    rw [hrun, hstep]
  have hevaluated : (w.step op).runDeferred.host.evaluated =
      c.commit.host.deferred.reverse ++ c.commit.host.evaluated := by
    rw [hrun, hstep]
    rfl
  rw [htext', hevaluated, ← hrefused]
  by_cases h : c.Refused
  · obtain ⟨htext, hdeferred, hrecord⟩ := commit_of_refused hcoherent' hlive' h
    obtain ⟨text, -, hsome, -⟩ := hcoherent'.tracked hlive'
    refine ⟨text, htext.trans hsome, ?_⟩
    have hbefore : c.host.deferred.reverse ++ c.host.evaluated =
        w.host.deferred.reverse ++ w.host.evaluated := by rw [← hc]
    rw [hdeferred, hrecord, hbefore]
    exact ⟨.inr, fun hlast => hlast.resolve_left fun hnot => hnot h⟩
  · obtain ⟨text, htext, hdeferred, -⟩ := commit_of_not_refused hcoherent' hlive' h
    refine ⟨text, htext, ?_⟩
    rw [hdeferred, List.reverse_append]
    exact iff_of_true rfl (.inl h)

set_option maxRecDepth 10000 in
/-- A write of a second live value that goes through. -/
theorem last_code_two_values :
    let w := (World.plain "osc(10,20)".toList).run [.begin "osc(10,20)".toList ⟨⟨0, 0⟩, ⟨0, 10⟩⟩,
      .update 0 (.number (.int 30)), .flush, .update 0 (.number (.int 40)),
      .update 1 (.number (.int 50))]
    w.session.live = [0, 1] ∧ w.session.pending ≠ none ∧ ¬ w.Refused ∧
      (w.step .fire).runDeferred.host.evaluated.head? = some "osc(40,50)".toList := by
  intro w
  have hw : w.Reachable := World.reachable_plain ..
  have hstate : w.session.live = [0, 1] ∧ w.session.pending.isSome = true ∧
      w.host.breaks (.opening :: w.host.calls) = none ∧
      w.host.breaks (.replace :: .opening :: w.host.calls) = none ∧
      w.host.breaks (.closing :: .replace :: .opening :: w.host.calls) = none ∧
      (w.step .fire).runDeferred.session.text = some "osc(40,50)".toList := by
    decide +kernel
  generalize w = w at hw hstate
  obtain ⟨hlive, hpending, hopening, hreplacing, hclosing, htext⟩ := hstate
  have hrefused : ¬ w.Refused := fun h => h.2.2 ⟨hopening, hreplacing, hclosing⟩
  have hsome : w.session.pending ≠ none := Option.isSome_iff_ne_none.mp hpending
  obtain ⟨text, htext', hlast⟩ := last_code_iff hw (.inr rfl) (by simp [hlive]) hsome
  cases htext'.symm.trans htext
  exact ⟨hlive, hsome, hrefused, hlast.mpr (.inl hrefused)⟩

def World.unopened (document : List Char) : World :=
  .opened plainSettings document (fun _ => none)
    (fun record => if record.head? = some .opening then some "begin failed" else none)
    Host.echoReplaced true

set_option maxRecDepth 10000 in
/-- When the document refuses the write, the edit is dropped, and the evaluator is left with the
preview of it. -/
theorem preview_left_running :
    let w := (World.unopened "osc(10)".toList).run
      [.begin "osc(10)".toList ⟨⟨0, 0⟩, ⟨0, 7⟩⟩, .update 0 (.number (.int 20))]
    let w' := (w.step .flush).runDeferred
    w.session.live = [0] ∧ w.session.pending ≠ none ∧ w'.session.edits.isEmpty = true ∧
      w'.session.text = some "osc(10)".toList ∧ w'.host.evaluated.head? =
        some "osc_val1_line0_pos4_value = 20;\nosc(() => osc_val1_line0_pos4_value)".toList := by
  decide +kernel

end LiveChain.Live
