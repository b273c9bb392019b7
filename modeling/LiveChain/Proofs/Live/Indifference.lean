import LiveChain.Proofs.Live.Coherence
import LiveChain.Proofs.Live.Outcome

/-!
# Failures of the evaluator do not reach the document

What an operation does to the document, the edits and the tracked snippet, and what it answers, can
be told without the evaluator: it does the same in the world as it is seen from the document. So two
runs that differ only in which codes are rejected look the same from there.
-/

set_option autoImplicit false

namespace LiveChain.Live

open Editor Text

/-! ## Answers -/

inductive Answer where
  | values (found : List EditableValue)
  | flag (b : Bool)
  | done
  | failed (failure : Failure)

def Answer.ofResult {α : Type} (answer : α → Answer) : Except Failure α → Answer
  | .ok a => answer a
  | .error failure => .failed failure

namespace World

def answer (w : World) : Op → Answer
  | .begin text range => .values (w.begin text range).session.values
  | .edit document first last =>
    .ofResult (fun _ => .done) ((w.typed document).changed first last).2
  | .update ordinal value => .ofResult .flag (w.update ordinal value).2
  | .updateByKey key value => .ofResult .flag (w.updateByKey key value).2
  | .reset ordinal => .flag (w.reset ordinal).2
  | .flush => .done
  | .fire => .done
  | .settle _ => .done

/-! ## Operations as they are seen -/

theorem begin_seen (w : World) (text : List Char) (range : Range) :
    (w.begin text range).seen = (w.seen.begin text range).seen := by
  obtain ⟨notices, hw⟩ := w.begin_effect text range
  obtain ⟨notices', hseen⟩ := w.seen.begin_effect text range
  rw [hw, hseen]
  rfl

section Changed

variable {w : World} {first last : Int} {range : Range}

theorem changed_outside (h : w.session.updating = true ∨ w.session.range = none ∨
    ∃ range, w.session.range = some range ∧ range.containsLines first last = false) :
    w.changed first last = (w, .ok ()) := by
  unfold changed
  split
  · next hupdating hrange =>
    rcases h with h | h | ⟨range', h, houtside⟩
    · cases h.symm.trans hupdating
    · cases h.symm.trans hrange
    · cases h.symm.trans hrange
      simp [houtside]
  · rfl

variable (hupdating : w.session.updating = false) (hrange : w.session.range = some range)
  (hinside : range.containsLines first last = true)
include hupdating hrange hinside

theorem changed_unread {message : String}
    (hbreak : w.host.breaks (.get :: w.host.calls) = some message) :
    w.changed first last = (⟨{ w.session.resetEdits with pending := none },
      { w.host with timers := w.calledOff, calls := .get :: w.host.calls }⟩,
        .error (.host message)) := by
  have hread : (w.cancelCommit.resetEdits.host.getRange range) =
      ({ w.host with timers := w.calledOff, calls := .get :: w.host.calls }, .error message) := by
    rw [cancelCommit_effect]
    simp only [resetEdits, mapSession, Host.getRange, Host.call, hbreak]
  simp only [changed, hupdating, hrange, if_pos hinside, hread]
  rw [cancelCommit_effect]
  rfl

theorem changed_reread (hbreak : w.host.breaks (.get :: w.host.calls) = none) :
    ∃ notices, w.changed first last = (⟨w.session.reread (read w.host.document range),
      ({ w.host with timers := w.calledOff, calls := .get :: w.host.calls } : Host).telling
        w.host.reports notices⟩, .ok ()) := by
  have hread : (w.cancelCommit.resetEdits.host.getRange range) =
      ({ w.host with timers := w.calledOff, calls := .get :: w.host.calls },
        .ok (read w.host.document range)) := by
    rw [cancelCommit_effect]
    simp only [resetEdits, mapSession, Host.getRange, Host.call, hbreak]
  simp only [changed, hupdating, hrange, if_pos hinside, hread]
  rw [cancelCommit_effect]
  obtain ⟨notices, hfound⟩ := rediscover_effect
    ⟨{ w.session.resetEdits with pending := none, text := some (read w.host.document range) },
      { w.host with timers := w.calledOff, calls := .get :: w.host.calls }⟩
  exact ⟨notices, Prod.ext hfound rfl⟩

end Changed

theorem changed_seen (w : World) (first last : Int) :
    ((w.changed first last).1.seen, (w.changed first last).2) =
      ((w.seen.changed first last).1.seen, (w.seen.changed first last).2) := by
  by_cases houtside : w.session.updating = true ∨ w.session.range = none ∨
      ∃ range, w.session.range = some range ∧ range.containsLines first last = false
  · rw [changed_outside houtside, changed_outside (w := w.seen) houtside]
    rfl
  · simp only [not_or, Bool.not_eq_true, not_exists, not_and, Bool.not_eq_false] at houtside
    obtain ⟨hupdating, hsome, hinside⟩ := houtside
    obtain ⟨range, hrange⟩ := Option.ne_none_iff_exists'.mp hsome
    cases hbreak : w.host.breaks (.get :: w.host.calls) with
    | some message =>
      rw [changed_unread hupdating hrange (hinside range hrange) hbreak,
        changed_unread (w := w.seen) hupdating hrange (hinside range hrange) hbreak]
      rfl
    | none =>
      obtain ⟨notices, hw⟩ := changed_reread hupdating hrange (hinside range hrange) hbreak
      obtain ⟨notices', hseen⟩ :=
        changed_reread (w := w.seen) hupdating hrange (hinside range hrange) hbreak
      rw [hw, hseen]
      rfl

/-- What is seen of an edit: it is recorded and the quiet time starts anew, if there is such a
value. -/
def drafted (w : World) (ordinal : Int) (value : Datum) : World × Bool :=
  match w.session.valueAt? ordinal, w.session.text with
  | some _, some _ =>
    ((scheduleCommit ⟨{ w.session with edits := w.session.edits.insert (.ordinal ordinal) value },
      w.host⟩).seen, true)
  | _, _ => (w.seen, false)

end World

theorem Updated.seen {w : World} {ordinal : Int} {value : Datum}
    {outcome : World × Except Failure Bool} (h : Updated w ordinal value outcome)
    (hdone : outcome.2 ≠ .error .unshowable) :
    outcome.1.seen = (w.drafted ordinal value).1 ∧ outcome.2 = .ok (w.drafted ordinal value).2 := by
  have hknown : ∀ {target : EditableValue}, w.session.valueAt? ordinal = some target →
      w.session.text ≠ none → w.drafted ordinal value =
        ((World.scheduleCommit ⟨{ w.session with
          edits := w.session.edits.insert (.ordinal ordinal) value }, w.host⟩).seen, true) := by
    intro target htarget htext
    obtain ⟨text, htext⟩ := Option.ne_none_iff_exists'.mp htext
    simp only [World.drafted, htarget, htext]
  cases h with
  | unknown notices hunknown =>
    have hnone : w.drafted ordinal value = (w.seen, false) := by
      rcases hunknown with hnone | hnone
      · simp only [World.drafted, hnone]
      · cases htarget : w.session.valueAt? ordinal <;> simp only [World.drafted, htarget, hnone]
    rw [hnone]
    exact ⟨rfl, rfl⟩
  | static target s reports notices htarget htext hs hlive =>
    rw [hknown htarget htext, World.scheduleCommit_effect, World.scheduleCommit_effect, hs]
    exact ⟨rfl, rfl⟩
  | previewed target s code notices htarget htext hs hlive hcode haccept =>
    rw [hknown htarget htext, World.scheduleCommit_effect, World.scheduleCommit_effect, hs]
    exact ⟨rfl, rfl⟩
  | fellBack target s host reports notices htarget htext hs hlive hhost =>
    rw [hknown htarget htext, World.scheduleCommit_effect, World.scheduleCommit_effect, hs]
    rcases hhost with ⟨rfl, -⟩ | ⟨code, rfl, -⟩ <;> exact ⟨rfl, rfl⟩
  | halfDone => exact absurd rfl hdone

namespace World

theorem cancelCommit_seen (w : World) : w.cancelCommit.seen = w.seen.cancelCommit := by
  rw [cancelCommit_effect, cancelCommit_effect]
  rfl

theorem scheduleCommit_seen (w : World) : w.scheduleCommit.seen = w.seen.scheduleCommit := by
  rw [scheduleCommit_effect, scheduleCommit_effect]
  rfl

theorem showStatic_seen (w : World) : w.showStatic.seen = w.seen := by
  obtain ⟨reports, notices, hw⟩ := w.showStatic_effect
  rw [hw]
  rfl

theorem reset_seen (w : World) (ordinal : Int) :
    ((w.reset ordinal).1.seen, (w.reset ordinal).2) =
      ((w.seen.reset ordinal).1.seen, (w.seen.reset ordinal).2) := by
  have hquiet : ∀ v : World,
      (if v.session.edits.isEmpty then v.cancelCommit else v.scheduleCommit).seen =
        if v.seen.session.edits.isEmpty then v.seen.cancelCommit else v.seen.scheduleCommit := by
    intro v
    rw [apply_ite seen, cancelCommit_seen, scheduleCommit_seen]
    rfl
  by_cases hedit : (w.session.edits.contains (.ordinal ordinal) && w.session.text.isSome) = true
  · have hedit' : (w.seen.session.edits.contains (.ordinal ordinal) &&
        w.seen.session.text.isSome) = true := hedit
    simp only [reset, if_pos hedit, if_pos hedit', hquiet, showStatic_seen]
    rfl
  · have hedit' : ¬ (w.seen.session.edits.contains (.ordinal ordinal) &&
        w.seen.session.text.isSome) = true := hedit
    simp only [reset, if_neg hedit, if_neg hedit']
    rfl

/-! ## Commits -/

theorem base_of_seen {w w' : World} (h : w.seen = w'.seen) : w.base = w'.base :=
  seen_congr (fun _ => rfl) h

/-- A commit leaves nothing to see besides what edits leave alone and the timers. -/
theorem commit_seen {w w' : World} (h : w.seen = w'.seen) : w.commit.seen = w'.commit.seen := by
  have hedits : w.session.edits = w'.session.edits :=
    seen_congr (f := fun v => v.session.edits) (fun _ => rfl) h
  have hcode : w.session.staticCode.result = w'.session.staticCode.result :=
    seen_congr (f := fun v => v.session.staticCode.result) (fun _ => rfl) h
  have htimers : w.host.timers = w'.host.timers :=
    seen_congr (f := fun v => v.host.timers) (fun _ => rfl) h
  have hbase := commit_base (base_of_seen h) hcode (by rw [hedits])
  -- no edit and no timer is left, so nothing is lost in what edits leave alone
  have hrebuilt : ∀ v : World, v.commit.seen = ⟨v.commit.base.session,
      { v.commit.base.host with timers := v.host.timers }⟩ := by
    intro v
    obtain ⟨hedits, -, -, hpending, htimers⟩ := (commit_effect v).cleared
    rw [← htimers]
    generalize v.commit = v at hedits hpending
    obtain ⟨⟨settings, phase, text, range, program, values, _, live, _, updating⟩, host⟩ := v
    subst hedits hpending
    rfl
  rw [hrebuilt w, hrebuilt w', hbase, htimers]

theorem flush_seen {w w' : World} (h : w.seen = w'.seen) : w.flush.seen = w'.flush.seen := by
  have hpending : w.session.pending = w'.session.pending :=
    seen_congr (f := fun v => v.session.pending) (fun _ => rfl) h
  unfold flush
  rw [← hpending]
  cases w.session.pending with
  | none => exact h
  | some id =>
    apply commit_seen
    rw [cancelCommit_seen, cancelCommit_seen, h]

theorem fireTimer_seen {w w' : World} (h : w.seen = w'.seen) (id : Nat) :
    (w.fireTimer id).seen = (w'.fireTimer id).seen := by
  apply commit_seen
  exact seen_congr (f := fun v => (v.mapHost fun host => host.markFired id).seen) (fun _ => rfl) h

theorem fire_seen {w w' : World} (h : w.seen = w'.seen) : w.fire.seen = w'.fire.seen := by
  have hall : ∀ (ids : List Nat) {v v' : World}, v.seen = v'.seen →
      (ids.foldl fireTimer v).seen = (ids.foldl fireTimer v').seen := by
    intro ids
    induction ids with
    | nil => exact fun h => h
    | cons id ids ih => exact fun h => ih (fireTimer_seen h id)
  have htimers : w.host.timersWhere Timer.isPending = w'.host.timersWhere Timer.isPending :=
    seen_congr (f := fun v => v.host.timersWhere Timer.isPending) (fun _ => rfl) h
  unfold fire
  rw [← htimers]
  exact hall _ h

theorem settle_seen (w : World) (i : Nat) : (w.settle i).seen = w.seen := by
  unfold settle
  cases w.host.deferred[i]? with
  | none => rfl
  | some code =>
    obtain ⟨reports, notices, heffect⟩ := evaluateStatic_effect
      (w.mapHost fun h => { h with deferred := h.deferred.eraseIdx i }) code
    simp only [heffect]
    rfl

/-! ## Steps -/

theorem drafted_seen {w w' : World} (h : w.seen = w'.seen) (ordinal : Int) (value : Datum) :
    w.drafted ordinal value = w'.drafted ordinal value := by
  refine seen_congr (f := fun v => v.drafted ordinal value) (fun v => ?_) h
  have hvalue : v.seen.session.valueAt? ordinal = v.session.valueAt? ordinal := rfl
  have htext : v.seen.session.text = v.session.text := rfl
  simp only [drafted, hvalue, htext, scheduleCommit_seen]
  rfl

/-- An edit of worlds that look the same has the same answer and leaves them looking the same. -/
theorem update_seen {w w' : World} (h : w.seen = w'.seen)
    (hedits : ∀ edit ∈ w.session.edits, edit.2.shown? ≠ none) (ordinal : Int) {value : Datum}
    (hvalue : value.shown? ≠ none) :
    (w.update ordinal value).1.seen = (w'.update ordinal value).1.seen ∧
      (w.update ordinal value).2 = (w'.update ordinal value).2 := by
  have hedits' : ∀ edit ∈ w'.session.edits, edit.2.shown? ≠ none := by
    rwa [← seen_congr (f := fun v => v.session.edits) (fun _ => rfl) h]
  -- whether the preview is accepted or not, what is seen is the draft
  obtain ⟨hseen, hanswer⟩ :=
    (update_effect w ordinal value).seen (update_answers hedits ordinal hvalue)
  obtain ⟨hseen', hanswer'⟩ :=
    (update_effect w' ordinal value).seen (update_answers hedits' ordinal hvalue)
  rw [hseen, hanswer, hseen', hanswer', drafted_seen h]
  exact ⟨rfl, rfl⟩

/-- Worlds that look the same give the same answers and go on looking the same. -/
theorem step_seen {w w' : World} (h : w.seen = w'.seen)
    (hedits : ∀ edit ∈ w.session.edits, edit.2.shown? ≠ none) {op : Op} (hop : op.IsLegible) :
    (w.step op).seen = (w'.step op).seen ∧ w.answer op = w'.answer op := by
  cases op with
  | begin text range =>
    have hbegun := seen_congr (f := fun v => (v.begin text range).seen)
      (fun v => begin_seen v text range) h
    exact ⟨hbegun, congrArg Answer.values
      (seen_congr (f := fun v => v.session.values) (fun _ => rfl) hbegun)⟩
  | edit document first last =>
    have htyped : (w.typed document).seen = (w'.typed document).seen :=
      seen_congr (f := fun v => (v.typed document).seen) (fun _ => rfl) h
    have hchanged := seen_congr
      (f := fun v => ((v.changed first last).1.seen, (v.changed first last).2))
      (fun v => changed_seen v first last) htyped
    rw [Prod.mk.injEq] at hchanged
    exact ⟨hchanged.1, congrArg (Answer.ofResult fun _ => .done) hchanged.2⟩
  | update ordinal value =>
    obtain ⟨hseen, hanswer⟩ := update_seen h hedits ordinal hop
    exact ⟨hseen, congrArg (Answer.ofResult .flag) hanswer⟩
  | updateByKey key value =>
    have hvalues : w.session.values = w'.session.values :=
      seen_congr (f := fun v => v.session.values) (fun _ => rfl) h
    simp only [step, answer, updateByKey, ← hvalues]
    split
    · next target _ =>
      obtain ⟨hseen, hanswer⟩ := update_seen h hedits target.ordinal hop
      exact ⟨hseen, congrArg (Answer.ofResult .flag) hanswer⟩
    · exact ⟨h, rfl⟩
  | reset ordinal =>
    have hreset := seen_congr (f := fun v => ((v.reset ordinal).1.seen, (v.reset ordinal).2))
      (fun v => reset_seen v ordinal) h
    rw [Prod.mk.injEq] at hreset
    exact ⟨hreset.1, congrArg Answer.flag hreset.2⟩
  | flush => exact ⟨flush_seen h, rfl⟩
  | fire => exact ⟨fire_seen h, rfl⟩
  | settle i =>
    refine ⟨?_, rfl⟩
    rw [step, step, settle_seen, settle_seen, h]

end World

/-! ## Runs -/

/-- Whether an operation is the evaluation of a code that was put off. -/
def Op.settles : Op → Bool
  | .settle _ => true
  | _ => false

namespace World

variable {w w' : World} {ops ops' : List Op}

theorem run_seen (h : w.seen = w'.seen) (htimer : w.OneTimer)
    (hedits : ∀ edit ∈ w.session.edits, edit.2.shown? ≠ none)
    (hlegible : ∀ op ∈ ops, op.IsLegible) : (w.run ops).seen = (w'.run ops).seen := by
  induction ops generalizing w w' with
  | nil => exact h
  | cons op ops ih =>
    have hop : op.IsLegible := hlegible op (List.mem_cons_self ..)
    apply ih (step_seen h hedits hop).1 (oneTimer_step w op htimer) (legible_step htimer hedits hop)
    exact fun op' hmem => hlegible op' (List.mem_cons_of_mem op hmem)

/-- When the codes that were put off are evaluated is not seen. -/
theorem run_unsettled (htimer : w.OneTimer)
    (hedits : ∀ edit ∈ w.session.edits, edit.2.shown? ≠ none)
    (hlegible : ∀ op ∈ ops, op.IsLegible) :
    (w.run ops).seen = (w.run (ops.filter (!·.settles))).seen := by
  induction ops generalizing w with
  | nil => rfl
  | cons op ops ih =>
    have hop : op.IsLegible := hlegible op (List.mem_cons_self ..)
    have hrest : ∀ op' ∈ ops, op'.IsLegible := fun op' hmem =>
      hlegible op' (List.mem_cons_of_mem op hmem)
    have hnext := ih (oneTimer_step w op htimer) (legible_step htimer hedits hop) hrest
    rw [run_cons, hnext, List.filter_cons]
    cases op with
    | settle i =>
      apply run_seen (settle_seen w i) (oneTimer_step w (.settle i) htimer)
        (legible_step htimer hedits hop)
      exact fun op' hmem => hrest op' (List.mem_filter.mp hmem).1
    | _ => rfl

/-- The same world with an evaluator that fails on other codes. -/
def rejecting (w : World) (rejects : List (List Char) → Option String) : World :=
  w.mapHost fun h => { h with rejects := rejects }

/-- Two runs from one state whose operations are the same, up to the codes put off, and that differ
in which codes the evaluator fails on: they look the same from the document, their parameters are
the same, and so is the answer to every further operation. -/
theorem rejections_unseen (hw : w.Reachable)
    (hedits : ∀ edit ∈ w.session.edits, edit.2.shown? ≠ none)
    (rejects : List (List Char) → Option String)
    (hops : ops.filter (!·.settles) = ops'.filter (!·.settles))
    (hlegible : ∀ op ∈ ops, op.IsLegible) :
    (w.run ops).seen = ((w.rejecting rejects).run ops').seen ∧
      (w.run ops).session.parameters = ((w.rejecting rejects).run ops').session.parameters ∧
      ∀ op : Op, op.IsLegible →
        (w.run ops).answer op = ((w.rejecting rejects).run ops').answer op := by
  have htimer := hw.oneTimer
  have htimer' : (w.rejecting rejects).OneTimer := htimer.congr rfl rfl
  have hlegible' : ∀ op ∈ ops', op.IsLegible := by
    intro op hmem
    by_cases hsettles : op.settles = true
    · cases op <;> first | exact trivial | cases hsettles
    · have hmem' : op ∈ ops.filter (!·.settles) := by
        rw [hops]
        exact List.mem_filter.mpr ⟨hmem, by simpa using hsettles⟩
      exact hlegible op (List.mem_filter.mp hmem').1
  have hseen : (w.run ops).seen = ((w.rejecting rejects).run ops').seen := by
    rw [run_unsettled htimer hedits hlegible, run_unsettled htimer' hedits hlegible', ← hops]
    have hsame : w.seen = (w.rejecting rejects).seen := rfl
    apply run_seen hsame htimer hedits
    exact fun op hmem => hlegible op (List.mem_filter.mp hmem).1
  refine ⟨hseen, seen_congr (f := fun v => v.session.parameters) (fun _ => rfl) hseen, ?_⟩
  intro op hop
  exact (step_seen hseen (legible_run htimer hedits ops hlegible) hop).2

set_option maxRecDepth 10000 in
/-- An evaluator that takes every code and one that takes none, and codes that are put off and come
at other times: the values that are live differ, the document does not. -/
theorem rejections_unseen_none_all :
    let ops : List Op := [.begin "osc(10,20)".toList ⟨⟨0, 0⟩, ⟨0, 10⟩⟩,
      .update 0 (.number (.int 30)), .flush, .update 1 (.number (.int 40))]
    let ops' : List Op := [.begin "osc(10,20)".toList ⟨⟨0, 0⟩, ⟨0, 10⟩⟩,
      .update 0 (.number (.int 30)), .flush, .settle 0, .update 1 (.number (.int 40))]
    let w := plain "osc(10,20)".toList
    let w' := w.rejecting fun _ => some "rejected"
    (w.run ops).session.live = [1] ∧ (w'.run ops').session.live = [] ∧
      (w.run ops).host.document = "osc(30,20)".toList ∧
      (w.run ops).seen = (w'.run ops').seen := by
  intro ops ops' w w'
  have hw : w.Reachable := reachable_plain _ []
  have hstate : (w.run ops).session.live = [1] ∧ (w'.run ops').session.live = [] ∧
      (w.run ops).host.document = "osc(30,20)".toList := by
    decide +kernel
  have hlegible : ∀ op ∈ ops, op.IsLegible := by
    simp only [ops, List.forall_mem_cons, Op.IsLegible]
    refine ⟨trivial, ?_, trivial, ?_, List.forall_mem_nil _⟩ <;> decide
  have hsame : ops.filter (!·.settles) = ops'.filter (!·.settles) := rfl
  have hedits : ∀ edit ∈ w.session.edits, edit.2.shown? ≠ none := fun _ hmem =>
    absurd hmem List.not_mem_nil
  have hseen := rejections_unseen hw hedits (fun _ => some "rejected") hsame hlegible
  exact ⟨hstate.1, hstate.2.1, hstate.2.2, hseen.1⟩

end World

end LiveChain.Live
