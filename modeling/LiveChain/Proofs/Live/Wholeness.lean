import LiveChain.Proofs.Live.Coherence
import LiveChain.Proofs.Sorting

/-!
# Edits are made as a whole

An edit of a value is recorded, shown and given a timer, or nothing happens because there is no such
value. There is one way out of this: a preview ends where the edit of a live value can be neither
written nor shown.
-/

set_option autoImplicit false

namespace LiveChain.Live

open Editor Text

/-! ## Previews that end with an error -/

namespace Session

variable {s : Session}

/-- Among the edits of the live values, the first by ordinal that cannot be written cannot be shown
either. -/
def Unsayable (s : Session) : Prop :=
  ∃ ordinal ∈ s.live, ∃ value, s.edits.get? (.ordinal ordinal) = some value ∧
    ¬ value.IsWritable ∧ value.shown? = none ∧
    ∀ earlier ∈ s.live, earlier < ordinal →
      ∀ v, s.edits.get? (.ordinal earlier) = some v → v.IsWritable

def Replaceable (s : Session) : Prop :=
  ∃ marked, s.placeholders = .ok marked ∧ s.text ≠ some (s.codeWith marked).result

theorem LiveNumbers.assignment_eq (h : s.LiveNumbers) {ordinal : Int} (hlive : ordinal ∈ s.live) :
    ∃ (v : EditableValue) (value : Datum),
      s.edits.get? (.ordinal ordinal) = some value ∧ s.assignment ordinal =
      match replacement value with
      | .ok text => .ok (v.key.toList ++ " = ".toList ++ text)
      | .error e => .error (.edit e) := by
  obtain ⟨v, value, hv, -, hedit, -⟩ := h ordinal hlive
  refine ⟨v, value, hedit, ?_⟩
  simp only [assignment, variableOf, hv, hedit, Option.getD_some]
  cases replacement value <;> rfl

theorem LiveNumbers.assignment_isOk (h : s.LiveNumbers) {ordinal : Int}
    (hlive : ordinal ∈ s.live) : (∃ text, s.assignment ordinal = .ok text) ↔
      ∀ value, s.edits.get? (.ordinal ordinal) = some value → value.IsWritable := by
  obtain ⟨v, value, hedit, hassignment⟩ := h.assignment_eq hlive
  simp only [hassignment, hedit, Option.some.injEq, forall_eq', ← replacement_isOk]
  cases replacement value <;> simp

theorem LiveNumbers.assignment_unshowable (h : s.LiveNumbers) {ordinal : Int}
    (hlive : ordinal ∈ s.live) : (∃ e, s.assignment ordinal = .error e ∧ e.message? = none) ↔
      ∃ value, s.edits.get? (.ordinal ordinal) = some value ∧ ¬ value.IsWritable ∧
        value.shown? = none := by
  obtain ⟨v, value, hedit, hassignment⟩ := h.assignment_eq hlive
  simp only [hassignment, hedit, Option.some.injEq, exists_eq_left', ← replacement_isOk]
  cases hnew : replacement value with
  | ok new => simp
  | error e => simp [LiveError.message?, message?_of_replacement hnew]

theorem assignments_eq_error {e : LiveError} : s.assignments = .error e ↔
    (sortBy (fun a b => decide (a ≤ b)) s.live).mapM s.assignment = .error e := by
  unfold assignments
  cases (sortBy (fun a b => decide (a ≤ b)) s.live).mapM s.assignment <;>
    simp [bind, Except.bind, pure, Except.pure]

/-- The assignments are made in the order of the ordinals, so the first edit that cannot be written
decides which error there is. -/
theorem LiveNumbers.assignments_unshowable_iff (h : s.LiveNumbers) :
    (∃ e, s.assignments = .error e ∧ e.message? = none) ↔ s.Unsayable := by
  have hsorted : (sortBy (fun a b => decide (a ≤ b)) s.live).Pairwise (· ≤ ·) := by
    rw [sortBy_eq_insertionSort]
    exact List.pairwise_insertionSort (α := Int) (· ≤ ·) s.live
  have hmem : ∀ {o}, o ∈ sortBy (fun a b => decide (a ≤ b)) s.live ↔ o ∈ s.live := mem_sortBy
  simp only [assignments_eq_error, mapM_eq_error_iff]
  generalize sortBy (fun a b => decide (a ≤ b)) s.live = sorted at hsorted hmem
  constructor
  · rintro ⟨e, ⟨before, ordinal, behind, rfl, hbefore, hfailed⟩, hmessage⟩
    have hlive : ordinal ∈ s.live := hmem.mp (by simp)
    obtain ⟨value, hedit, hwritable, hshown⟩ :=
      (h.assignment_unshowable hlive).mp ⟨e, hfailed, hmessage⟩
    refine ⟨ordinal, hlive, value, hedit, hwritable, hshown, fun earlier hearlier hlt => ?_⟩
    -- what is less than the failing ordinal stands before it
    have hplace : earlier ∈ before := by
      rcases List.mem_append.mp (hmem.mpr hearlier) with hin | hin
      · exact hin
      · have hle := (List.pairwise_append.mp hsorted).2.1
        rcases List.mem_cons.mp hin with rfl | hin
        · omega
        · have := (List.pairwise_cons.mp hle).1 earlier hin
          omega
    exact (h.assignment_isOk hearlier).mp (hbefore earlier hplace)
  · rintro ⟨ordinal, hlive, value, hedit, hwritable, hshown, hearlier⟩
    obtain ⟨e, hfailed, hmessage⟩ :=
      (h.assignment_unshowable hlive).mpr ⟨value, hedit, hwritable, hshown⟩
    obtain ⟨before, behind, rfl, hfirst⟩ := List.eq_append_cons_of_mem (hmem.mpr hlive)
    refine ⟨e, ⟨before, ordinal, behind, rfl, fun o ho => ?_, hfailed⟩, hmessage⟩
    have hle := (List.pairwise_append.mp hsorted).2.2 o ho ordinal List.mem_cons_self
    have hne : o ≠ ordinal := fun heq => hfirst (heq ▸ ho)
    have ho' : o ∈ s.live := hmem.mp (List.mem_append_left _ ho)
    exact (h.assignment_isOk ho').mpr (hearlier o ho' (by omega))

theorem LiveNumbers.exists_placeholders (h : s.LiveNumbers) :
    ∃ marked, s.placeholders = .ok marked := by
  have hall : ∀ (live : List Int) (edits : Edits), (∀ o ∈ live, o ∈ s.live) →
      ∃ marked, live.foldlM (fun edits ordinal => do
        let name ← s.variableOf ordinal
        return edits.insert (.ordinal ordinal) (.text (s.settings.placeholder name))) edits =
          (.ok marked : Except LiveError Edits) := by
    intro live
    induction live with
    | nil => exact fun edits _ => ⟨edits, rfl⟩
    | cons ordinal live ih =>
      intro edits hsub
      obtain ⟨v, -, hv, -⟩ := h ordinal (hsub ordinal List.mem_cons_self)
      obtain ⟨marked, hmarked⟩ := ih (edits.insert (.ordinal ordinal)
        (.text (s.settings.placeholder v.key))) fun o ho => hsub o (List.mem_cons_of_mem _ ho)
      refine ⟨marked, ?_⟩
      rw [List.foldlM_cons, variableOf, hv]
      exact hmarked
  exact hall s.live s.edits fun _ ho => ho

/-- A preview ends with an error that cannot be shown exactly when some edit is the first that
cannot be written and cannot be shown, unless placeholders were to be put and make no new text. -/
theorem LiveNumbers.preview_unshowable_iff (h : s.LiveNumbers) (assignmentsOnly : Bool) :
    (∃ e, s.preview assignmentsOnly = .error e ∧ e.message? = none) ↔
      s.Unsayable ∧ (assignmentsOnly = false → s.Replaceable) := by
  rw [← h.assignments_unshowable_iff]
  cases assignmentsOnly with
  | true => simp [preview]
  | false =>
    obtain ⟨marked, hmarked⟩ := h.exists_placeholders
    simp only [preview, Bool.false_eq_true, if_false, liveCode_result, hmarked, Replaceable,
      Except.ok.injEq, exists_eq_left', forall_const]
    split
    · next hsame => simp [hsame, LiveError.message?]
    · next hnew =>
      simp only [hnew, ne_eq, not_false_eq_true, and_true]
      cases s.assignments <;> simp [Except.map]

end Session

/-! ## Edits as a whole -/

/-- The edit of a value has been made: it is recorded beside the others, a timer for its commit is
running, and if anything is live a preview is bound. -/
structure World.Whole (w : World) (ordinal : Int) (value : Datum) (w' : World) : Prop where
  edits : w'.session.edits = w.session.edits.insert (.ordinal ordinal) value
  pending : ∃ id t, w'.session.pending = some id ∧ w'.host.timers[id]? = some t ∧
    t.isPending = true
  bound : w'.session.live ≠ [] → w'.session.phase = .liveBound

/-- Nothing has happened: the session is as it was, and so is the host but for a notice. -/
def World.Untouched (w w' : World) : Prop :=
  w'.session = w.session ∧ ∃ notices, w'.host = { w.host with notices := notices }

theorem whole_scheduled {w : World} {ordinal : Int} {value : Datum} {s : Session} {host : Host}
    (hedits : s.edits = w.session.edits.insert (.ordinal ordinal) value)
    (hbound : s.live ≠ [] → s.phase = .liveBound) :
    w.Whole ordinal value (World.scheduleCommit ⟨s, host⟩) := by
  rw [World.scheduleCommit_effect]
  exact ⟨hedits, ⟨_, _, rfl, List.getElem?_concat_length, rfl⟩, hbound⟩

section Outcomes

variable {w : World} {ordinal : Int} {value : Datum} {outcome : World × Except Failure Bool}

theorem Updated.whole (h : Updated w ordinal value outcome) (hdone : outcome.2 = .ok true) :
    w.Whole ordinal value outcome.1 := by
  cases h with
  | unknown => cases hdone
  | static target s reports notices htarget htext hs hlive =>
    exact whole_scheduled (by rw [hs]; rfl) fun hne => absurd hlive hne
  | previewed target s code notices htarget htext hs hlive hcode haccept =>
    exact whole_scheduled (by rw [hs]; rfl) fun _ => rfl
  | fellBack target s host reports notices htarget htext hs hlive hhost =>
    exact whole_scheduled (by rw [hs]; rfl) fun hne => absurd rfl hne
  | halfDone => cases hdone

theorem Updated.untouched (h : Updated w ordinal value outcome) (hnone : outcome.2 = .ok false) :
    w.Untouched outcome.1 := by
  cases h with
  | unknown notices => exact ⟨rfl, notices, rfl⟩
  | static => cases hnone
  | previewed => cases hnone
  | fellBack => cases hnone
  | halfDone => cases hnone

theorem Updated.none_iff (hcoherent : w.session.Coherent) (h : Updated w ordinal value outcome) :
    outcome.2 = .ok false ↔ w.session.valueAt? ordinal = none := by
  cases h with
  | unknown notices hnone =>
    refine iff_of_true rfl ?_
    rcases hnone with hnone | htext
    · exact hnone
    · rw [Option.eq_none_iff_forall_ne_some]
      intro v hv
      obtain ⟨-, text, -, hsome, -, -⟩ := hcoherent.snippet hv
      rw [htext] at hsome
      cases hsome
  | static target s reports notices htarget => simp [htarget]
  | previewed target s code notices htarget => simp [htarget]
  | fellBack target s host reports notices htarget => simp [htarget]
  | halfDone target s e notices htarget => simp [htarget]

/-- An edit ends with a failure exactly when the preview of the session with the edit does. -/
theorem Updated.error_iff (hcoherent : w.session.Coherent) (h : Updated w ordinal value outcome) :
    (∃ failure, outcome.2 = .error failure) ↔
      ∃ target, w.session.valueAt? ordinal = some target ∧
        (w.session.recorded target ordinal value).live ≠ [] ∧
        ∃ e, (w.session.recorded target ordinal value).preview (w.session.assignsOnly ordinal) =
          .error e ∧ e.message? = none := by
  have hfailure : (∃ failure, outcome.2 = .error failure) ↔ outcome.2 = .error .unshowable := by
    cases h <;> simp
  rw [hfailure, h.unshowable_iff]
  refine exists_congr fun target => and_congr_right fun htarget => ?_
  obtain ⟨-, text, -, htext, -, -⟩ := hcoherent.snippet htarget
  simp [htext]

end Outcomes

/-- In a world that a run leads to, an edit that is answered is made as a whole, or nothing happens
and there is no such value. It ends with a failure exactly when an edit of a live value can be
neither written nor shown, and no edit before it stops the preview in another way. -/
theorem update_whole {w : World} (h : w.Reachable) (ordinal : Int) (value : Datum) :
    ((w.update ordinal value).2 = .ok true → w.Whole ordinal value (w.update ordinal value).1) ∧
    ((w.update ordinal value).2 = .ok false → w.Untouched (w.update ordinal value).1) ∧
    ((w.update ordinal value).2 = .ok false ↔ w.session.valueAt? ordinal = none) ∧
    ((∃ failure, (w.update ordinal value).2 = .error failure) ↔
      ∃ target, w.session.valueAt? ordinal = some target ∧
        (w.session.recorded target ordinal value).Unsayable ∧
        (w.session.assignsOnly ordinal = false →
          (w.session.recorded target ordinal value).Replaceable)) := by
  have heffect := update_effect w ordinal value
  refine ⟨heffect.whole, heffect.untouched, heffect.none_iff h.coherent, ?_⟩
  rw [heffect.error_iff h.coherent]
  refine exists_congr fun target => and_congr_right fun htarget => ?_
  have hnumbers := (h.coherent.recorded htarget value).live_numbers
  rw [hnumbers.preview_unshowable_iff, and_iff_right_iff_imp]
  rintro ⟨⟨live, hmem, -⟩, -⟩
  exact List.ne_nil_of_mem hmem

/-- A number of a call is edited as a whole, and another ordinal is not touched. -/
theorem update_whole_number :
    let w := (World.plain "osc(10)".toList).run [.begin "osc(10)".toList ⟨⟨0, 0⟩, ⟨0, 7⟩⟩]
    w.Reachable ∧ w.Whole 0 (.number (.int 20)) (w.update 0 (.number (.int 20))).1 ∧
      w.Untouched (w.update 1 (.number (.int 20))).1 := by
  have hreachable := World.reachable_plain "osc(10)".toList
    [.begin "osc(10)".toList ⟨⟨0, 0⟩, ⟨0, 7⟩⟩]
  exact ⟨hreachable, (update_whole hreachable 0 (.number (.int 20))).1 (by decide +kernel),
    (update_whole hreachable 1 (.number (.int 20))).2.1 (by decide +kernel)⟩

/-! ## The way out -/

theorem not_isWritable_long_integer : ¬ (Datum.number (.int (10 ^ digitLimit))).IsWritable := by
  have hsign : ¬ (10 : Int) ^ digitLimit < 0 := Int.not_lt.mpr (Int.pow_nonneg (by decide))
  have hinfinite : Binary64.ofInt (10 ^ digitLimit) = .infinite false := by
    rw [Binary64.ofInt, natAbs_ten_pow, decide_eq_false hsign]
    decide +kernel
  rintro ⟨x, hx⟩
  rw [hinfinite] at hx
  cases hx

theorem shown_long_integer : (Datum.number (.int (10 ^ digitLimit))).shown? = none := by
  rw [Datum.shown?, showInt?_long]

theorem World.update_of_unshowable {w : World} {ordinal : Int} {value : Datum}
    (h : (w.update ordinal value).2 = .error .unshowable) :
    (w.update ordinal value).1.session.edits ≠ [] ∧
      (w.update ordinal value).1.session.pending = w.session.pending := by
  obtain ⟨target, -, -, -, -, hsession⟩ := (update_effect w ordinal value).of_unshowable h
  rw [hsession]
  exact ⟨Edits.insert_ne_nil _ _ _, rfl⟩

set_option maxRecDepth 10000 in
/-- An integer with too many digits is too large to be written, and saying so takes showing it. Its
edit is left recorded and live without a preview and without a timer. -/
theorem update_fails_long_integer :
    ∃ w : World, w.Reachable ∧
      (w.update 0 (.number (.int (10 ^ digitLimit)))).2 = .error .unshowable ∧
      ¬ w.Untouched (w.update 0 (.number (.int (10 ^ digitLimit)))).1 ∧
      ¬ w.Whole 0 (.number (.int (10 ^ digitLimit)))
        (w.update 0 (.number (.int (10 ^ digitLimit)))).1 := by
  have hreachable := World.reachable_plain "osc(10)".toList
    [.begin "osc(10)".toList ⟨⟨0, 0⟩, ⟨0, 7⟩⟩]
  generalize hw : (World.plain "osc(10)".toList).run
    [.begin "osc(10)".toList ⟨⟨0, 0⟩, ⟨0, 7⟩⟩] = w at hreachable
  have hbegun : w.session.pending = none ∧ w.session.edits.isEmpty = true := by
    rw [← hw]
    decide +kernel
  obtain ⟨hpending, hedits⟩ := hbegun
  have hfailed : (w.update 0 (.number (.int (10 ^ digitLimit)))).2 = .error .unshowable := by
    rw [← hw]
    exact World.update_begun_unshowable not_isWritable_long_integer shown_long_integer
  obtain ⟨hrecorded, htimer⟩ := World.update_of_unshowable hfailed
  refine ⟨w, hreachable, hfailed, fun huntouched => ?_, fun hwhole => ?_⟩
  · rw [huntouched.1] at hrecorded
    exact hrecorded (List.isEmpty_iff.mp hedits)
  · obtain ⟨id, -, hid, -⟩ := hwhole.pending
    rw [htimer, hpending] at hid
    cases hid

end LiveChain.Live
