import LiveChain.Proofs.Live.Errors
import LiveChain.Proofs.Live.Run

/-!
# The parts of a session fit together

Between operations the edits are for values that were found, live values are numbers with an edit
that is no text, and the pending commit is there exactly when there is an edit.

One kind of operation breaks this: an edit that ends with an error that cannot be shown, while no
preview is running. A run keeps the invariant exactly as long as no operation is cut short so, and
none is when every integer in the edits can be shown.
-/

set_option autoImplicit false

namespace LiveChain.Live

open Editor Text

/-! ## Live values -/

/-- Every live value is a number with an edit that is no text. -/
def Session.LiveNumbers (s : Session) : Prop :=
  ∀ ordinal ∈ s.live, ∃ v value, s.valueAt? ordinal = some v ∧ v.isNumber = true ∧
    s.edits.get? (.ordinal ordinal) = some value ∧ isText value = false

theorem liveNumbers_of_nil {s : Session} (h : s.live = []) : s.LiveNumbers := by
  intro ordinal hmem
  rw [h] at hmem
  cases hmem

theorem Session.LiveNumbers.recorded {s : Session} (h : s.LiveNumbers) {target : EditableValue}
    {ordinal : Int} (htarget : s.valueAt? ordinal = some target) (value : Datum) :
    (s.recorded target ordinal value).LiveNumbers := by
  intro o ho
  -- a value that was live before and is not the edited one keeps its edit
  have hkept : o ∈ s.live → o ≠ ordinal → ∃ v new, s.valueAt? o = some v ∧ v.isNumber = true ∧
      (s.edits.insert (.ordinal ordinal) value).get? (.ordinal o) = some new ∧
      isText new = false := by
    intro hold hne
    obtain ⟨v, new, hv, hnumber, hget, htext⟩ := h o hold
    refine ⟨v, new, hv, hnumber, ?_, htext⟩
    rw [Edits.get?_insert_of_ne (by simpa using hne)]
    exact hget
  simp only [Session.recorded] at ho ⊢
  by_cases hnew : (target.isNumber && !isText value) = true
  · rw [if_pos hnew] at ho
    rw [Bool.and_eq_true, Bool.not_eq_true'] at hnew
    by_cases hne : o = ordinal
    · subst hne
      exact ⟨target, value, htarget, hnew.1, Edits.get?_insert_self .., hnew.2⟩
    · refine hkept ?_ hne
      split at ho
      · exact ho
      · exact (List.mem_append.mp ho).resolve_right fun hmem => hne (List.mem_singleton.mp hmem)
  · rw [if_neg hnew] at ho
    obtain ⟨hold, hne⟩ := List.mem_filter.mp ho
    exact hkept hold (by simpa using hne)

theorem liveNumbers_step {w : World} (htimer : w.OneTimer) (h : w.session.LiveNumbers) (op : Op) :
    (w.step op).session.LiveNumbers := by
  have heffect := World.step_effect htimer op
  generalize w.step op = w' at heffect
  cases heffect with
  | still => exact h
  | began => exact liveNumbers_of_nil rfl
  | edited document first last outcome hchanged =>
    cases hchanged with
    | ignored => exact h
    | unread => exact liveNumbers_of_nil rfl
    | reread => exact liveNumbers_of_nil rfl
  | updated op ordinal value outcome hedit houtcome hupdated =>
    cases hupdated with
    | unknown => exact h
    | static target s reports notices htarget htext hs hlive =>
      rw [World.scheduleCommit_effect]
      exact liveNumbers_of_nil hlive
    | previewed target s code notices htarget htext hs hlive hcode haccept =>
      rw [World.scheduleCommit_effect, hs]
      exact h.recorded htarget value
    | fellBack =>
      rw [World.scheduleCommit_effect]
      exact liveNumbers_of_nil rfl
    | halfDone target s e notices htarget htext hs hlive hcode hmessage =>
      rw [hs]
      exact h.recorded htarget value
  | noted => exact h
  | reset ordinal outcome hreset =>
    cases hreset with
    | nothing => exact h
    | dropped s reports notices hs hempty =>
      rw [World.cancelCommit_effect, hs]
      exact liveNumbers_of_nil rfl
    | lessened s reports notices hs hleft =>
      rw [World.scheduleCommit_effect, hs]
      exact liveNumbers_of_nil rfl
  | committed op timers w' hop hnone hcommitted => exact liveNumbers_of_nil hcommitted.cleared.2.1
  | settled => exact h

/-! ## The invariant -/

/-- What holds of a session and its timers between operations. -/
structure World.Settled (w : World) : Prop where
  edits_found : ∀ edit ∈ w.session.edits,
    ∃ ordinal v, edit.1 = .ordinal ordinal ∧ w.session.valueAt? ordinal = some v
  live_numbers : w.session.LiveNumbers
  live_bound : w.session.live ≠ [] → w.session.phase = .liveBound
  bound_edits : w.session.phase = .liveBound → w.session.edits ≠ []
  not_committing : w.session.phase ≠ .committing
  not_updating : w.session.updating = false
  pending_iff : w.session.pending ≠ none ↔ w.session.edits ≠ []
  one_timer : w.OneTimer
  found : (w.session.program, w.session.values) = findings w.session.settings w.session.text

namespace World

variable {w w' : World}

/-- A session without edits is settled as soon as nothing is left of them. -/
theorem settled_of_cleared (hedits : w.session.edits = []) (hlive : w.session.live = [])
    (hphase : w.session.phase = .idle) (hpending : w.session.pending = none)
    (hupdating : w.session.updating = false) (htimer : w.OneTimer)
    (hfound : (w.session.program, w.session.values) =
      findings w.session.settings w.session.text) : w.Settled where
  edits_found := by rw [hedits]; exact fun _ h => absurd h List.not_mem_nil
  live_numbers := liveNumbers_of_nil hlive
  live_bound := fun h => absurd hlive h
  bound_edits := fun h => by rw [hphase] at h; cases h
  not_committing := by rw [hphase]; exact nofun
  not_updating := hupdating
  pending_iff := by simp [hpending, hedits]
  one_timer := htimer
  found := hfound

theorem settled_opened (settings : Settings) (document : List Char)
    (rejects : List (List Char) → Option String) (breaks : List BufferCall → Option String)
    (echoes : List BufferCall → Range → List (Int × Int)) (listens : Bool) : (opened settings document rejects breaks echoes listens).Settled :=
  settled_of_cleared rfl rfl rfl rfl rfl (oneTimer_opened _ _ _ _ _ _) rfl

theorem Settled.telling (h : w.Settled) (reports : List String) (notices : List Notice) :
    Settled ⟨w.session, w.host.telling reports notices⟩ :=
  { h with one_timer := h.one_timer.congr rfl rfl }

/-! ## Edits -/

theorem Settled.recorded_found (h : w.Settled) {target : EditableValue} {ordinal : Int}
    (htarget : w.session.valueAt? ordinal = some target) (value : Datum) :
    ∀ edit ∈ (w.session.recorded target ordinal value).edits,
      ∃ o v, edit.1 = .ordinal o ∧ w.session.valueAt? o = some v := by
  intro edit hedit
  rcases Edits.mem_insert hedit with rfl | hold
  · exact ⟨ordinal, target, rfl, htarget⟩
  · exact h.edits_found edit hold

/-- Edits that are recorded, shown and followed by a fresh timer leave the session settled, given
that what is live is bound. -/
theorem settled_scheduled (s : Session) (host : Host)
    (hfound : ∀ edit ∈ s.edits, ∃ o v, edit.1 = .ordinal o ∧ s.valueAt? o = some v)
    (hlive : s.LiveNumbers) (hbound : s.live ≠ [] → s.phase = .liveBound)
    (hphase : s.phase ≠ .committing) (hedits : s.edits ≠ []) (hupdating : s.updating = false)
    (htimer : OneTimer ⟨s, host⟩)
    (hsearched : (s.program, s.values) = findings s.settings s.text) :
    Settled (scheduleCommit ⟨s, host⟩) := by
  have hone := OneTimer.scheduleCommit htimer
  rw [scheduleCommit_effect] at hone ⊢
  exact ⟨hfound, hlive, hbound, fun _ => hedits, hphase, hupdating,
    ⟨fun _ => hedits, fun _ => Option.some_ne_none _⟩, hone, hsearched⟩

/-- An edit leaves the session settled, unless it is left half done while no preview is
running. -/
theorem Settled.updated {ordinal : Int} {value : Datum} {outcome : World × Except Failure Bool}
    (h : w.Settled) (heffect : Updated w ordinal value outcome)
    (hdone : outcome.2 = .error .unshowable → w.session.phase = .liveBound) :
    outcome.1.Settled := by
  cases heffect with
  | unknown notices => exact h.telling _ notices
  | static target s reports notices htarget htext hs hlive =>
    subst hs
    exact settled_scheduled _ _ (h.recorded_found htarget value) (h.live_numbers.recorded htarget value)
      (fun hne => absurd hlive hne) h.not_committing (Edits.insert_ne_nil _ _ _) h.not_updating
      (h.one_timer.congr rfl rfl) h.found
  | previewed target s code notices htarget htext hs hlive hcode haccept =>
    subst hs
    exact settled_scheduled _ _ (h.recorded_found htarget value) (h.live_numbers.recorded htarget value)
      (fun _ => rfl) nofun (Edits.insert_ne_nil _ _ _) h.not_updating
      (h.one_timer.congr rfl rfl) h.found
  | fellBack target s host reports notices htarget htext hs hlive hhost =>
    subst hs
    have htimers : host.timers = w.host.timers := by
      rcases hhost with ⟨rfl, -⟩ | ⟨code, rfl, -⟩ <;> rfl
    exact settled_scheduled _ _ (h.recorded_found htarget value)
      (liveNumbers_of_nil rfl) (fun hne => absurd rfl hne) nofun
      (Edits.insert_ne_nil _ _ _) h.not_updating (h.one_timer.congr rfl htimers) h.found
  | halfDone target s e notices htarget htext hs hlive hcode hmessage =>
    subst hs
    -- the timer of the earlier edits is still there
    have hbound := hdone rfl
    have hpending := h.pending_iff.mpr (h.bound_edits hbound)
    exact ⟨h.recorded_found htarget value, h.live_numbers.recorded htarget value, fun _ => hbound,
      fun _ => Edits.insert_ne_nil _ _ _, h.not_committing, h.not_updating,
      ⟨fun _ => Edits.insert_ne_nil _ _ _, fun _ => hpending⟩, h.one_timer.congr rfl rfl, h.found⟩

/-! ## Steps -/

theorem settled_committed (h : Committed w w') (hupdating : w.session.updating = false)
    (hnone : ∀ t ∈ w.host.timers, t.isPending = false)
    (hfound : (w.session.program, w.session.values) =
      findings w.session.settings w.session.text) : w'.Settled := by
  obtain ⟨hedits, hlive, hphase, hpending, -⟩ := h.cleared
  have htimer := oneTimer_committed h hnone
  cases h with
  | nothing => exact settled_of_cleared rfl rfl rfl rfl hupdating htimer hfound
  | skipped => exact settled_of_cleared rfl rfl rfl rfl hupdating htimer hfound
  | failed => exact settled_of_cleared rfl rfl rfl rfl rfl htimer hfound
  | written => exact settled_of_cleared rfl rfl rfl rfl rfl htimer rfl

/-- An operation is cut short when its edit ends with an error that cannot be shown, while no
preview is running. -/
def CutShort (w : World) (op : Op) : Prop :=
  w.session.phase ≠ .liveBound ∧ ∃ ordinal value, w.editOf op = some (ordinal, value) ∧
    (w.update ordinal value).2 = .error .unshowable

theorem settled_step (h : w.Settled) {op : Op} (hop : ¬ w.CutShort op) : (w.step op).Settled := by
  have heffect := step_effect h.one_timer op
  generalize w.step op = w' at heffect
  cases heffect with
  | still => exact h
  | began =>
    exact settled_of_cleared rfl rfl rfl rfl h.not_updating
      (oneTimer_of_none rfl h.one_timer.calledOff_none) rfl
  | edited document first last outcome hchanged =>
    have htyped : (w.typed document).Settled := { h with one_timer := h.one_timer.congr rfl rfl }
    cases hchanged with
    | ignored => exact htyped
    | unread =>
      exact settled_of_cleared rfl rfl rfl rfl htyped.not_updating
        (oneTimer_of_none rfl htyped.one_timer.calledOff_none) htyped.found
    | reread =>
      exact settled_of_cleared rfl rfl rfl rfl htyped.not_updating
        (oneTimer_of_none rfl htyped.one_timer.calledOff_none) rfl
  | updated op ordinal value outcome hedit houtcome hupdated =>
    refine h.updated hupdated fun hfailed => ?_
    by_cases hbound : w.session.phase = .liveBound
    · exact hbound
    · rw [houtcome] at hfailed
      exact absurd ⟨hbound, ordinal, value, hedit, hfailed⟩ hop
  | noted => exact h.telling _ _
  | reset ordinal outcome hreset =>
    cases hreset with
    | nothing => exact h
    | dropped s reports notices hs hempty =>
      subst hs
      have hone : OneTimer (cancelCommit ⟨w.session.without ordinal, (w.host.handed
          (w.session.without ordinal).staticCode.result).telling reports notices⟩) :=
        OneTimer.cancelCommit (h.one_timer.congr rfl rfl)
      rw [cancelCommit_effect] at hone ⊢
      exact settled_of_cleared hempty rfl rfl rfl h.not_updating hone h.found
    | lessened s reports notices hs hleft =>
      subst hs
      exact settled_scheduled _ _
        (fun edit hmem => h.edits_found edit (List.mem_filter.mp hmem).1)
        (liveNumbers_of_nil rfl) (fun hne => absurd rfl hne) nofun hleft
        h.not_updating (h.one_timer.congr rfl rfl) h.found
  | committed op timers w' hop hnone hcommitted =>
    exact settled_committed hcommitted h.not_updating hnone h.found
  | settled => exact { h with one_timer := h.one_timer.congr rfl rfl }

/-- An operation that is cut short leaves a value live that no preview shows. -/
theorem not_settled_of_cutShort {op : Op} (hop : w.CutShort op) : ¬ (w.step op).Settled := by
  obtain ⟨hphase, ordinal, value, hedit, hfailed⟩ := hop
  rw [step_of_editOf hedit]
  obtain ⟨target, e, hlive, hcode, hmessage, hsession⟩ :=
    (update_effect w ordinal value).of_unshowable hfailed
  intro hsettled
  have hbound := hsettled.live_bound
  rw [hsession] at hbound
  exact hphase (hbound hlive)

/-! ## Runs -/

theorem settled_run (h : w.Settled) (ops : List Op)
    (hops : ∀ done op, done ++ [op] <+: ops → ¬ (w.run done).CutShort op) :
    (w.run ops).Settled := by
  induction ops generalizing w with
  | nil => exact h
  | cons op ops ih =>
    have hfirst : ¬ w.CutShort op := hops [] op (List.prefix_append [op] ops)
    exact ih (settled_step h hfirst) fun done op' hdone =>
      hops (op :: done) op' ((List.prefix_cons_inj op).mpr hdone)

/-! ## Edits that can be shown -/

/-- Every edit is one that was there before or the one that the operation makes. -/
theorem edits_step (h : w.OneTimer) (op : Op) : ∀ edit ∈ (w.step op).session.edits,
    edit ∈ w.session.edits ∨ ∃ ordinal value, w.editOf op = some (ordinal, value) ∧
      edit = (.ordinal ordinal, value) := by
  have heffect := step_effect h op
  generalize w.step op = w' at heffect
  intro edit hmem
  cases heffect with
  | still => exact .inl hmem
  | began => cases hmem
  | edited document first last outcome hchanged =>
    cases hchanged with
    | ignored => exact .inl hmem
    | unread => cases hmem
    | reread => cases hmem
  | updated op ordinal value outcome hedit houtcome hupdated =>
    have hrecorded : edit ∈ w.session.edits ∨
        edit ∈ w.session.edits.insert (.ordinal ordinal) value := by
      cases hupdated with
      | unknown => exact .inl hmem
      | halfDone target s e notices htarget htext hs hlive hcode hmessage =>
        subst hs
        exact .inr hmem
      | _ =>
        subst_vars
        rw [scheduleCommit_effect] at hmem
        exact .inr hmem
    rcases hrecorded with hold | hnew
    · exact .inl hold
    · rcases Edits.mem_insert hnew with rfl | hold
      · exact .inr ⟨ordinal, value, hedit, rfl⟩
      · exact .inl hold
  | noted => exact .inl hmem
  | reset ordinal outcome hreset =>
    cases hreset with
    | nothing => exact .inl hmem
    | dropped s reports notices hs hempty =>
      subst hs
      rw [cancelCommit_effect] at hmem
      exact .inl (List.mem_filter.mp hmem).1
    | lessened s reports notices hs hleft =>
      subst hs
      rw [scheduleCommit_effect] at hmem
      exact .inl (List.mem_filter.mp hmem).1
  | committed op timers w' hop hnone hcommitted =>
    rw [hcommitted.cleared.1] at hmem
    cases hmem
  | settled => exact .inl hmem

end World

def Op.value? : Op → Option Datum
  | .update _ value => some value
  | .updateByKey _ value => some value
  | _ => none

/-- Whether the value of an edit can be shown: it holds no integer with too many digits. -/
def Op.IsLegible : Op → Prop
  | .update _ value => value.shown? ≠ none
  | .updateByKey _ value => value.shown? ≠ none
  | _ => True

theorem Op.isLegible_iff {op : Op} : op.IsLegible ↔ ∀ value ∈ op.value?, ¬ value.Overlong := by
  cases op with
  | update ordinal value => simp [IsLegible, value?, Datum.shown?_eq_none_iff]
  | updateByKey key value => simp [IsLegible, value?, Datum.shown?_eq_none_iff]
  | _ => simp [IsLegible, value?]

namespace World

variable {w : World}

theorem legible_of_editOf {op : Op} {ordinal : Int} {value : Datum} (hop : op.IsLegible)
    (h : w.editOf op = some (ordinal, value)) : value.shown? ≠ none := by
  cases op with
  | update o v =>
    cases h
    exact hop
  | updateByKey key v =>
    simp only [editOf, Option.map_eq_some_iff, Prod.mk.injEq] at h
    obtain ⟨-, -, -, rfl⟩ := h
    exact hop
  | _ => cases h

theorem legible_step {op : Op} (htimer : w.OneTimer)
    (h : ∀ edit ∈ w.session.edits, edit.2.shown? ≠ none) (hop : op.IsLegible) :
    ∀ edit ∈ (w.step op).session.edits, edit.2.shown? ≠ none := by
  intro edit hedit
  rcases edits_step htimer op edit hedit with hold | ⟨ordinal, value, hnew, rfl⟩
  · exact h edit hold
  · exact legible_of_editOf hop hnew

theorem legible_run (htimer : w.OneTimer)
    (h : ∀ edit ∈ w.session.edits, edit.2.shown? ≠ none) (ops : List Op)
    (hops : ∀ op ∈ ops, op.IsLegible) :
    ∀ edit ∈ (w.run ops).session.edits, edit.2.shown? ≠ none := by
  induction ops generalizing w with
  | nil => exact h
  | cons op ops ih =>
    exact ih (oneTimer_step w op htimer) (legible_step htimer h (hops op (List.mem_cons_self ..)))
      fun op' hop' => hops op' (List.mem_cons_of_mem op hop')

/-- An edit ends with an answer when every integer in the edits can be shown. -/
theorem update_answers (hedits : ∀ edit ∈ w.session.edits, edit.2.shown? ≠ none)
    (ordinal : Int) {value : Datum} (hvalue : value.shown? ≠ none) :
    (w.update ordinal value).2 ≠ .error .unshowable := by
  intro hfailed
  obtain ⟨target, e, hlive, hcode, hmessage, -⟩ :=
    (update_effect w ordinal value).of_unshowable hfailed
  obtain ⟨o, -, new, hget, hshown⟩ := unshowable_of_preview hcode hmessage
  rcases Edits.mem_insert (Edits.mem_of_get? hget) with heq | hold
  · cases heq
    exact hvalue hshown
  · exact hedits _ hold hshown

theorem not_cutShort_of_legible {op : Op} (h : ∀ edit ∈ w.session.edits, edit.2.shown? ≠ none)
    (hop : op.IsLegible) : ¬ w.CutShort op := by
  rintro ⟨-, ordinal, value, hedit, hfailed⟩
  exact update_answers h ordinal (legible_of_editOf hop hedit) hfailed

/-- Along every run of a session, whatever its host refuses and reports, every state is settled exactly
when no operation is cut short; and none is cut short when no integer in the values of the edits has
too many digits. -/
theorem settled_along_iff (settings : Settings) (document : List Char)
    (rejects : List (List Char) → Option String) (breaks : List BufferCall → Option String)
    (echoes : List BufferCall → Range → List (Int × Int)) (listens : Bool) (ops : List Op) :
    let start := opened settings document rejects breaks echoes listens
    ((∀ done, done <+: ops → (start.run done).Settled) ↔
      ∀ done op, done ++ [op] <+: ops → ¬ (start.run done).CutShort op) ∧
    ((∀ op ∈ ops, ∀ value ∈ op.value?, ¬ value.Overlong) →
      ∀ done, done <+: ops → (start.run done).Settled) := by
  intro start
  have hsettled : start.Settled := settled_opened ..
  have hnoEdits : ∀ edit ∈ start.session.edits, edit.2.shown? ≠ none :=
    fun _ hmem => absurd hmem List.not_mem_nil
  have hback : (∀ done op, done ++ [op] <+: ops → ¬ (start.run done).CutShort op) →
      ∀ done, done <+: ops → (start.run done).Settled := fun hops done hdone =>
    settled_run hsettled done fun earlier op hearlier => hops earlier op (hearlier.trans hdone)
  refine ⟨⟨fun hall done op hdone hcut => ?_, hback⟩, fun hshort => hback fun done op hdone => ?_⟩
  · have hnext := hall (done ++ [op]) hdone
    rw [run_append] at hnext
    exact not_settled_of_cutShort hcut hnext
  · have hdone' : ∀ op' ∈ done ++ [op], op'.IsLegible := fun op' hmem =>
      Op.isLegible_iff.mpr (hshort op' (hdone.subset hmem))
    have hedits := legible_run hsettled.one_timer hnoEdits done fun op' hmem =>
      hdone' op' (List.mem_append_left [op] hmem)
    exact not_cutShort_of_legible hedits
      (hdone' op (List.mem_append_right done (List.mem_singleton.mpr rfl)))

/-- Edits with a list, with an integer of as many digits as there may be, which is too large to be
written, and with a text, in a host whose evaluator fails every time, and whose document fails at the
second commit. -/
theorem settled_along_failing :
    let start := opened plainSettings "osc(10,20)".toList (fun _ => some "eval failed")
      (fun record => if record.length = 4 then some "begin failed" else none) Host.echoReplaced true
    let ops : List Op := [.begin "osc(10,20)".toList ⟨⟨0, 0⟩, ⟨0, 10⟩⟩, .update 0 (.list [.null]),
      .update 1 (.number (.int (10 ^ digitLimit - 1))), .fire, .update 1 (.text "s0"), .flush,
      .settle 0, .updateByKey "osc_val1_line0_pos4_value" (.number (.float .nan)), .fire]
    (∀ op ∈ ops, ∀ value ∈ op.value?, ¬ value.Overlong) ∧
      ∀ done, done <+: ops → (start.run done).Settled := by
  intro start ops
  have hshown : ∀ value : Datum, value.shown? ≠ none → ¬ value.Overlong := fun value =>
    (not_congr (Datum.shown?_eq_none_iff value)).mp
  have hlimit : ¬ (Datum.number (.int (10 ^ digitLimit - 1))).Overlong := by
    have hpositive : (0 : Int) < 10 ^ digitLimit := Int.pow_pos (by decide)
    have habs := natAbs_ten_pow digitLimit
    rw [Datum.Overlong, Datum.holds_int]
    omega
  have hshort : ∀ op ∈ ops, ∀ value ∈ op.value?, ¬ value.Overlong := by
    simp only [ops, List.forall_mem_cons, List.not_mem_nil, false_imp_iff, implies_true, and_true,
      Op.value?, Option.mem_def, reduceCtorEq, Option.some.injEq, forall_eq']
    exact ⟨trivial, hshown _ (by decide), hlimit, trivial, hshown _ (by decide), trivial, trivial,
      hshown _ (by decide)⟩
  exact ⟨hshort, (settled_along_iff _ _ _ _ _ _ ops).2 hshort⟩

set_option maxRecDepth 10000 in
/-- The first edit of the number of a call, made with a value that can be neither written nor shown. -/
theorem update_begun_unshowable {value : Datum} (hwritable : ¬ value.IsWritable)
    (hshown : value.shown? = none) :
    (((plain "osc(10)".toList).run [.begin "osc(10)".toList ⟨⟨0, 0⟩, ⟨0, 7⟩⟩]).update 0 value).2 =
      .error .unshowable := by
  generalize hw : (plain "osc(10)".toList).run [.begin "osc(10)".toList ⟨⟨0, 0⟩, ⟨0, 7⟩⟩] = w
  have hbegun : w.session.text = some "osc(10)".toList ∧ w.session.edits.isEmpty = true ∧
      w.session.live = [] := by
    rw [← hw]
    decide +kernel
  obtain ⟨htext, hedits, hlive⟩ := hbegun
  have hnumber : (w.session.valueAt? 0).any (fun target => target.isNumber &&
      decide ((w.session.codeWith [(.ordinal 0,
        .text (w.session.settings.placeholder target.key))]).result ≠ "osc(10)".toList)) = true := by
    rw [← hw]
    decide +kernel
  obtain ⟨target, htarget, htargets⟩ := (Option.any_eq_true _ _).mp hnumber
  rw [Bool.and_eq_true, decide_eq_true_eq] at htargets
  exact update_unshowable htarget htargets.1 htext (List.isEmpty_iff.mp hedits) hlive hwritable
    hshown htargets.2

end World

end LiveChain.Live
