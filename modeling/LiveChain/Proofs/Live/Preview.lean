import LiveChain.Proofs.Live.Consistency

/-!
# Previews that are kept up by assignments

While a preview is running, a further edit of a live value sends only the assignments to the
variables. That shows all edits as long as the running program is still the preview of the current
text for the current edits and live values.

A run is watched for the newest program that its evaluator accepted, and for what may come between
that program and the preview: a deferred code, a text for a live value, or an edit left half done.
-/

set_option autoImplicit false

namespace LiveChain.Live

open Editor Text

/-! ## Previews -/

namespace Session

/-- A program that shows the edits of a session: it assigns earlier values to the variables and
runs the snippet in which placeholders read them and all other edits are written out. -/
def Shows (s : Session) (code : List Char) : Prop :=
  ∃ edits earlier head, s.placeholders = .ok edits ∧
    ({ s with edits := earlier } : Session).assignments = .ok head ∧
    code = head ++ ";\n".toList ++ (s.codeWith edits).result

variable {s : Session}

theorem shows_of_liveCode {code : List Char} (h : s.liveCode.result = .ok code) : s.Shows code := by
  obtain ⟨edits, head, hplaceholders, hhead, -, hcode⟩ := liveCode_eq_ok h
  exact ⟨edits, s.edits, head, hplaceholders, hhead, hcode⟩

/-- The placeholder of a live value takes the place of its edit, whatever the edit is. -/
theorem placeholders_insert {ordinal : Int} (hlive : ordinal ∈ s.live)
    (hedit : (s.edits.get? (.ordinal ordinal)).isSome = true) (value : Datum) :
    ({ s with edits := s.edits.insert (.ordinal ordinal) value } : Session).placeholders =
      s.placeholders := by
  simp only [placeholders]
  -- both sides run over the same live values; the edit moves on until its placeholder is set
  have hfold : ∀ (live : List Int) (edits : Edits), ordinal ∈ live →
      (edits.get? (.ordinal ordinal)).isSome = true →
      live.foldlM (fun edits o => do
        let name ← s.variableOf o
        return edits.insert (.ordinal o) (.text (s.settings.placeholder name)))
          (edits.insert (.ordinal ordinal) value) =
      live.foldlM (fun edits o => do
        let name ← s.variableOf o
        return edits.insert (.ordinal o) (.text (s.settings.placeholder name))) edits := by
    intro live
    induction live with
    | nil => intro edits hmem; cases hmem
    | cons o rest ih =>
      intro edits hmem hsome
      rw [List.foldlM_cons, List.foldlM_cons]
      cases hname : s.variableOf o with
      | error e => rfl
      | ok name =>
        by_cases ho : o = ordinal
        · subst ho
          have hself := Edits.insert_insert_self edits (.ordinal o) value
            (.text (s.settings.placeholder name))
          exact congrArg (fun edits => rest.foldlM _ edits) hself
        · have hrest : ordinal ∈ rest := (List.mem_cons.mp hmem).resolve_left fun h => ho h.symm
          have hne : EditTarget.ordinal o ≠ .ordinal ordinal := by simpa using ho
          have hcomm := Edits.insert_comm hsome hne value (.text (s.settings.placeholder name))
          have hnext := ih (edits.insert (.ordinal o) (.text (s.settings.placeholder name))) hrest
            (Edits.isSome_get?_insert hsome _ _)
          rw [← hcomm] at hnext
          exact hnext
  exact hfold s.live s.edits hlive hedit

theorem live_recorded {target : EditableValue} {ordinal : Int} {value : Datum}
    (hlive : ordinal ∈ s.live) (hnumber : target.isNumber = true) (hvalue : isText value = false) :
    s.recorded target ordinal value =
      { s with edits := s.edits.insert (.ordinal ordinal) value } := by
  have hcontains : s.live.contains ordinal = true := by simpa using hlive
  simp only [recorded, hnumber, hvalue, hcontains, Bool.not_false, Bool.and_true, if_true]

theorem Shows.recorded {code : List Char} {target : EditableValue} {ordinal : Int}
    (h : s.Shows code) (hnumbers : s.LiveNumbers) (hlive : ordinal ∈ s.live)
    (htarget : s.valueAt? ordinal = some target) {value : Datum} (hvalue : isText value = false) :
    (s.recorded target ordinal value).Shows code := by
  obtain ⟨edits, earlier, head, hplaceholders, hhead, hcode⟩ := h
  obtain ⟨v, old, hv, hnumber, hold, -⟩ := hnumbers ordinal hlive
  rw [htarget, Option.some.injEq] at hv
  subst hv
  rw [live_recorded hlive hnumber hvalue]
  refine ⟨edits, earlier, head, ?_, hhead, hcode⟩
  rw [placeholders_insert hlive (by rw [hold]; rfl)]
  exact hplaceholders

end Session

/-! ## What is sent and what is running -/

namespace World

/-- The assignments that an edit sends in place of a program. -/
def assigned? (w : World) (ordinal : Int) (value : Datum) : Option (List Char) :=
  match w.session.valueAt? ordinal, w.session.text with
  | some target, some _ =>
    let s := w.session.recorded target ordinal value
    if s.live.isEmpty || !w.session.assignsOnly ordinal then none else s.assignments.toOption
  | _, _ => none

def assignedBy? (w : World) (op : Op) : Option (List Char) :=
  match w.editOf op with
  | some (ordinal, value) => w.assigned? ordinal value
  | none => none

/-- Whether an operation starts a new preview that is accepted. -/
def previews (w : World) (op : Op) : Bool :=
  match w.editOf op with
  | some (ordinal, value) =>
    match w.update ordinal value with
    | (w', .ok true) => !w'.session.live.isEmpty && (w.assigned? ordinal value).isNone
    | _ => false
  | none => false

/-- Whether an operation comes between the running program and the preview: a deferred code is
accepted, a live value is set to a text while assignments are sent, or an edit is left half
done. -/
def disturbs (w : World) (op : Op) : Bool :=
  match w.editOf op, op with
  | some (ordinal, value), _ =>
    match w.update ordinal value with
    | (_, .error _) => true
    | _ => (w.assigned? ordinal value).isSome && isText value
  | none, .settle i =>
    match w.host.deferred[i]? with
    | some code => (w.host.rejects (code :: w.host.evaluated)).isNone
    | none => false
  | none, _ => false

end World

/-- The newest of the `n` newest codes that was accepted. -/
def newestAccepted (rejects : List (List Char) → Option String) :
    Nat → List (List Char) → Option (List Char)
  | n + 1, code :: earlier =>
    if (rejects (code :: earlier)).isNone then some code else newestAccepted rejects n earlier
  | _, _ => none

@[simp] theorem newestAccepted_zero (rejects : List (List Char) → Option String)
    (record : List (List Char)) : newestAccepted rejects 0 record = none := by
  cases record <;> rfl

/-- The newest program that is accepted during an operation. Assignments that are sent in place of
a program are the oldest code of their operation. -/
def World.accepted? (w : World) (op : Op) : Option (List Char) :=
  let handed := (w.step op).host.evaluated.length - w.host.evaluated.length
  newestAccepted w.host.rejects (if (w.assignedBy? op).isSome then handed - 1 else handed)
    (w.step op).host.evaluated

/-- A world, the newest program that its evaluator accepted, and whether nothing has come between
that program and the preview since the preview started. -/
structure Watch where
  world : World
  running : Option (List Char)
  steady : Bool

namespace Watch

def start (w : World) : Watch := ⟨w, none, false⟩

def step (v : Watch) (op : Op) : Watch :=
  ⟨v.world.step op, (v.world.accepted? op).or v.running,
    v.world.previews op || (v.steady && !v.world.disturbs op)⟩

def run (v : Watch) (ops : List Op) : Watch := ops.foldl step v

@[simp] theorem run_cons (v : Watch) (op : Op) (ops : List Op) :
    v.run (op :: ops) = (v.step op).run ops := rfl

theorem run_world (v : Watch) (ops : List Op) : (v.run ops).world = v.world.run ops := by
  induction ops generalizing v with
  | nil => rfl
  | cons op ops ih => exact ih (v.step op)

/-- While a preview is running and nothing has come between, the running program is the preview. -/
def Shown (v : Watch) : Prop :=
  v.steady = true → v.world.session.phase = .liveBound → v.world.session.live ≠ [] →
    ∃ code, v.running = some code ∧ v.world.session.Shows code

end Watch

/-! ## Steps -/

section Steps

variable {w : World} {op : Op} {ordinal : Int} {value : Datum}

theorem assigned?_of_target {target : EditableValue} {s : Session}
    (htarget : w.session.valueAt? ordinal = some target) (htext : w.session.text ≠ none)
    (hs : s = w.session.recorded target ordinal value) (hlive : s.live ≠ []) :
    w.assigned? ordinal value =
      if w.session.assignsOnly ordinal then s.assignments.toOption else none := by
  obtain ⟨text, htext⟩ := Option.ne_none_iff_exists'.mp htext
  have hfull : s.live.isEmpty = false := by simpa using hlive
  simp only [World.assigned?, htarget, htext, ← hs, hfull, Bool.false_or, Bool.not_eq_true']
  cases w.session.assignsOnly ordinal <;> rfl

theorem assigned?_eq_some {code : List Char} (h : w.assigned? ordinal value = some code) :
    ∃ target, w.session.valueAt? ordinal = some target ∧ w.session.text ≠ none ∧
      (w.session.recorded target ordinal value).live ≠ [] ∧
      w.session.assignsOnly ordinal = true ∧
      (w.session.recorded target ordinal value).assignments = .ok code := by
  unfold World.assigned? at h
  split at h
  · next target text htarget htext =>
    simp only at h
    split at h
    · cases h
    · next hsends =>
      simp only [Bool.or_eq_true, List.isEmpty_iff, Bool.not_eq_true', not_or,
        Bool.not_eq_false] at hsends
      cases hassignments : (w.session.recorded target ordinal value).assignments with
      | error e =>
        rw [hassignments] at h
        cases h
      | ok all =>
        rw [hassignments] at h
        cases h
        exact ⟨target, htarget, by simp [htext], hsends.1, hsends.2, hassignments⟩
  · cases h

/-- The assignments are handed to the evaluator, before anything else that the edit hands over. -/
theorem handed_of_assigned? {code : List Char} (h : w.assigned? ordinal value = some code) :
    code :: w.host.evaluated <:+ (w.update ordinal value).1.host.evaluated := by
  obtain ⟨target, htarget, htext, hlive, honly, hassignments⟩ := assigned?_eq_some h
  have hpreview : (w.session.recorded target ordinal value).preview
      (w.session.assignsOnly ordinal) = .ok code := by
    rw [honly]
    exact hassignments
  have hsame : ∀ {target' : EditableValue}, w.session.valueAt? ordinal = some target' →
      target' = target := fun htarget' => Option.some.inj (htarget'.symm.trans htarget)
  have heffect := update_effect w ordinal value
  generalize w.update ordinal value = outcome at heffect ⊢
  cases heffect with
  | unknown notices hunknown => simp [htarget, htext] at hunknown
  | static target' s reports notices htarget' htext' hs hlive' =>
    rw [hs, hsame htarget'] at hlive'
    exact absurd hlive' hlive
  | previewed target' s code' notices htarget' htext' hs hlive' hcode haccept =>
    rw [hs, hsame htarget', hpreview] at hcode
    cases hcode
    rw [World.scheduleCommit_effect]
    exact List.suffix_refl _
  | fellBack target' s host reports notices htarget' htext' hs hlive' hhost =>
    rw [hs, hsame htarget', hpreview] at hhost
    rcases hhost with ⟨-, e, he, -⟩ | ⟨code', rfl, hcode, -⟩
    · cases he
    · cases hcode
      rw [World.scheduleCommit_effect]
      exact List.suffix_cons _ _
  | halfDone target' s e notices htarget' htext' hs hlive' hcode hmessage =>
    rw [hs, hsame htarget', hpreview] at hcode
    cases hcode

theorem previews_of_none (h : w.editOf op = none) : w.previews op = false := by
  simp only [World.previews, h]

theorem accepted?_of_same (h : (w.step op).host.evaluated = w.host.evaluated) :
    w.accepted? op = none := by
  simp only [World.accepted?, h, Nat.sub_self, Nat.zero_sub, ite_self, newestAccepted_zero]

end Steps

namespace Watch

variable {v : Watch} {op : Op}

theorem Shown.of_same (h : v.Shown) (hedit : v.world.editOf op = none)
    (hsession : (v.world.step op).session = v.world.session)
    (hevaluated : (v.world.step op).host.evaluated = v.world.host.evaluated) :
    (v.step op).Shown := by
  intro hsteady hphase hlive
  simp only [step, previews_of_none hedit, Bool.false_or, Bool.and_eq_true] at hsteady
  simp only [step, hsession] at hphase hlive ⊢
  rw [accepted?_of_same hevaluated, Option.none_or]
  exact h hsteady.1 hphase hlive

/-- An edit keeps the running program the preview, as long as nothing comes between. -/
theorem Shown.updated {ordinal : Int} {value : Datum} {outcome : World × Except Failure Bool}
    (h : v.Shown) (hnumbers : v.world.session.LiveNumbers)
    (hedit : v.world.editOf op = some (ordinal, value))
    (houtcome : outcome = v.world.update ordinal value)
    (heffect : Updated v.world ordinal value outcome) : (v.step op).Shown := by
  have hstep : v.world.step op = outcome.1 := by rw [World.step_of_editOf hedit, houtcome]
  intro hsteady hphase hlive'
  have hassignedBy : v.world.assignedBy? op = v.world.assigned? ordinal value := by
    simp only [World.assignedBy?, hedit]
  simp only [step, World.previews, World.disturbs, World.accepted?, hedit, hassignedBy, ← houtcome,
    hstep] at hsteady hphase hlive' ⊢
  cases heffect with
  | unknown notices hunknown =>
    simp only [Bool.false_or, Bool.and_eq_true] at hsteady
    simp only [Host.telling_evaluated, Nat.sub_self, Nat.zero_sub, ite_self, newestAccepted_zero,
      Option.none_or]
    exact h hsteady.1 hphase hlive'
  | static target s reports notices htarget htext hs hlive =>
    rw [World.scheduleCommit_effect] at hlive'
    exact absurd hlive hlive'
  | previewed target s code notices htarget htext hs hlive hcode haccept =>
    have hassigned := assigned?_of_target htarget htext hs hlive
    have hlength : (code :: v.world.host.evaluated).length - v.world.host.evaluated.length = 1 :=
      Nat.add_sub_cancel_left _ 1
    rw [World.scheduleCommit_effect] at hsteady hphase hlive' ⊢
    simp only [Host.telling_evaluated, Host.handed, hlength, hassigned] at hsteady ⊢
    cases honly : v.world.session.assignsOnly ordinal with
    | false =>
      -- a new preview is accepted, and it is the running program
      rw [honly] at hcode
      refine ⟨code, ?_, Session.shows_of_liveCode hcode⟩
      simp [newestAccepted, haccept]
    | true =>
      -- the preview goes on, and the edit of a live value does not change it
      rw [honly] at hcode
      replace hcode : s.assignments = .ok code := hcode
      simp only [honly, hcode, if_true, Except.toOption, Option.isNone_some, Bool.and_false,
        Bool.false_or, Option.isSome_some, Bool.true_and, Bool.and_eq_true, Bool.not_eq_true']
        at hsteady
      simp only [Session.assignsOnly, Bool.and_eq_true, List.contains_iff_mem, beq_iff_eq] at honly
      simp only [hcode, Except.toOption]
      obtain ⟨running, hrunning, hshows⟩ :=
        h hsteady.1 honly.2 (List.ne_nil_of_mem honly.1)
      have hrecorded := hshows.recorded hnumbers honly.1 htarget hsteady.2
      rw [← hs] at hrecorded
      exact ⟨running, hrunning, hrecorded⟩
  | fellBack =>
    rw [World.scheduleCommit_effect] at hlive'
    exact absurd rfl hlive'
  | halfDone => simp at hsteady

theorem shown_step (h : v.Shown) (htimer : v.world.OneTimer)
    (hnumbers : v.world.session.LiveNumbers) (op : Op) : (v.step op).Shown := by
  have heffect := World.step_effect htimer op
  generalize hstep : v.world.step op = w' at heffect
  -- where nothing is live afterwards there is no preview to speak of
  have hnil : w'.session.live = [] → (v.step op).Shown := by
    intro hlive _ _ hne
    rw [step, hstep] at hne
    exact absurd hlive hne
  cases heffect with
  | still op hedit => exact h.of_same hedit (by rw [hstep]) (by rw [hstep])
  | began => exact hnil rfl
  | edited document first last outcome hchanged =>
    cases hchanged with
    | ignored => exact h.of_same rfl (by rw [hstep]; rfl) (by rw [hstep]; rfl)
    | unread => exact hnil rfl
    | reread => exact hnil rfl
  | updated op ordinal value outcome hedit houtcome hupdated =>
    exact h.updated hnumbers hedit houtcome hupdated
  | noted key value notices hedit =>
    exact h.of_same hedit (by rw [hstep]) (by rw [hstep]; rfl)
  | reset ordinal outcome hreset =>
    cases hreset with
    | nothing => exact h.of_same rfl (by rw [hstep]) (by rw [hstep])
    | dropped s reports notices hs hempty =>
      apply hnil
      rw [World.cancelCommit_effect, hs]
      rfl
    | lessened s reports notices hs hleft =>
      apply hnil
      rw [World.scheduleCommit_effect, hs]
      rfl
  | committed op timers w' hop hnone hcommitted => exact hnil hcommitted.cleared.2.1
  | settled i code reports notices hcode =>
    intro hsteady hphase hlive
    -- an accepted code would disturb the preview, so this one was rejected
    have hedit : v.world.editOf (.settle i) = none := rfl
    simp only [step, previews_of_none hedit, World.disturbs, hedit, hcode, Bool.false_or,
      Bool.and_eq_true, Bool.not_eq_true'] at hsteady
    have hlength : (code :: v.world.host.evaluated).length - v.world.host.evaluated.length = 1 :=
      Nat.add_sub_cancel_left _ 1
    have haccepted : v.world.accepted? (.settle i) = none := by
      simp only [World.accepted?, World.assignedBy?, hedit, hstep, Host.telling_evaluated,
        Host.handed, hlength, newestAccepted, hsteady.2, Option.isSome_none, Bool.false_eq_true,
        if_false]
    simp only [step, hstep, haccepted, Option.none_or] at hphase hlive ⊢
    exact h hsteady.1 hphase hlive

theorem shown_run (h : v.Shown) (htimer : v.world.OneTimer)
    (hnumbers : v.world.session.LiveNumbers) (ops : List Op) :
    (v.run ops).Shown ∧ (v.run ops).world.session.LiveNumbers := by
  induction ops generalizing v with
  | nil => exact ⟨h, hnumbers⟩
  | cons op ops ih =>
    exact ih (shown_step h htimer hnumbers op) (World.oneTimer_step _ op htimer)
      (liveNumbers_step htimer hnumbers op)

end Watch

/-! ## Assignments show every edit -/

/-- Whenever an edit to a number sends only assignments, they are handed to the evaluator; and when
nothing has come between, the running program is the preview of the current text for the edits and
the live values that there are with that edit. -/
theorem running_shows_edits (settings : Settings) (document : List Char)
    (rejects : List (List Char) → Option String) (breaks : List BufferCall → Option String)
    (echoes : List BufferCall → Range → List (Int × Int)) (listens : Bool) (ops : List Op)
    (ordinal : Int) (value : Datum) (code : List Char) :
    let opened := World.opened settings document rejects breaks echoes listens
    let w := opened.run ops
    let v := (Watch.start opened).run ops
    w.assigned? ordinal value = some code → v.steady = true → isText value = false →
      code :: w.host.evaluated <:+ (w.update ordinal value).1.host.evaluated ∧
      ∃ target running, w.session.valueAt? ordinal = some target ∧ v.running = some running ∧
        (w.session.recorded target ordinal value).Shows running := by
  intro opened w v hsent hsteady hvalue
  have hworld : v.world = w := Watch.run_world (Watch.start opened) ops
  have hrun : v.Shown ∧ v.world.session.LiveNumbers :=
    Watch.shown_run (fun h => absurd h Bool.false_ne_true) (World.oneTimer_opened _ _ _ _ _ _)
      (liveNumbers_of_nil rfl) ops
  rw [Watch.Shown, hworld] at hrun
  obtain ⟨target, htarget, -, -, honly, -⟩ := assigned?_eq_some hsent
  simp only [Session.assignsOnly, Bool.and_eq_true, List.contains_iff_mem, beq_iff_eq] at honly
  obtain ⟨running, hrunning, hshows⟩ :=
    hrun.1 hsteady honly.2 (List.ne_nil_of_mem honly.1)
  exact ⟨handed_of_assigned? hsent, target, running, htarget, hrunning,
    hshows.recorded hrun.2 honly.1 htarget hvalue⟩

set_option maxRecDepth 10000 in
theorem running_shows_second_edit :
    let opened := World.plain "osc(10,20)".toList
    let ops := [.begin "osc(10,20)".toList ⟨⟨0, 0⟩, ⟨0, 10⟩⟩, .update 0 (.number (.int 30))]
    let w := opened.run ops
    let v := (Watch.start opened).run ops
    w.assigned? 0 (.number (.int 40)) = some "osc_val1_line0_pos4_value = 40".toList ∧
      v.steady = true ∧ ∃ target running, w.session.valueAt? 0 = some target ∧
        v.running = some running ∧
        (w.session.recorded target 0 (.number (.int 40))).Shows running := by
  intro opened ops w v
  have hsent : w.assigned? 0 (.number (.int 40)) =
      some "osc_val1_line0_pos4_value = 40".toList := by decide +kernel
  have hsteady : v.steady = true := by decide +kernel
  exact ⟨hsent, hsteady, (running_shows_edits World.plainSettings "osc(10,20)".toList
    (fun _ => none) (fun _ => none) Host.echoReplaced true ops 0 (.number (.int 40)) _ hsent
    hsteady rfl).2⟩

/-- Whether a code ends with the snippet of the preview. -/
def Session.endsPreview (s : Session) (code : List Char) : Bool :=
  match s.placeholders with
  | .ok edits => (s.codeWith edits).result.isSuffixOf code
  | .error _ => false

theorem Session.Shows.endsPreview {s : Session} {code : List Char} (h : s.Shows code) :
    s.endsPreview code = true := by
  obtain ⟨edits, earlier, head, hplaceholders, -, rfl⟩ := h
  simp only [Session.endsPreview, hplaceholders, List.isSuffixOf_iff_suffix]
  exact List.suffix_append _ _

/-- Whether an edit sends assignments to a program that is not the preview. -/
def Watch.loses (v : Watch) (ordinal : Int) (value : Datum) : Bool :=
  match v.world.assigned? ordinal value, v.running, v.world.session.valueAt? ordinal with
  | some _, some running, some target =>
    !(v.world.session.recorded target ordinal value).endsPreview running
  | _, _, _ => false

theorem Watch.exists_of_loses {v : Watch} {ordinal : Int} {value : Datum}
    (h : v.loses ordinal value = true) :
    ∃ code target running, v.world.assigned? ordinal value = some code ∧
      v.world.session.valueAt? ordinal = some target ∧ v.running = some running ∧
      ¬ (v.world.session.recorded target ordinal value).Shows running := by
  unfold Watch.loses at h
  split at h
  · next code running target hsent hrunning htarget =>
    refine ⟨code, target, running, hsent, htarget, hrunning, fun hshows => ?_⟩
    rw [hshows.endsPreview] at h
    cases h
  · cases h

set_option maxRecDepth 10000 in
/-- Assignments are lost when the code that an earlier commit deferred is evaluated after a new
preview has started, and when a live value is set to a text while another one stays live. -/
theorem assignments_lost :
    (let v := (Watch.start (World.plain "osc(10,20)".toList)).run
      [.begin "osc(10,20)".toList ⟨⟨0, 0⟩, ⟨0, 10⟩⟩, .update 0 (.number (.int 30)), .flush,
        .update 0 (.number (.int 40)), .settle 0]
    ∃ code target running, v.world.assigned? 0 (.number (.int 50)) = some code ∧
      v.world.session.valueAt? 0 = some target ∧ v.running = some running ∧
      ¬ (v.world.session.recorded target 0 (.number (.int 50))).Shows running) ∧
    (let v := (Watch.start (World.plain "osc(10,20)".toList)).run
      [.begin "osc(10,20)".toList ⟨⟨0, 0⟩, ⟨0, 10⟩⟩, .update 0 (.number (.int 30)),
        .update 1 (.number (.int 40))]
    ∃ code target running, v.world.assigned? 1 (.text "s0") = some code ∧
      v.world.session.valueAt? 1 = some target ∧ v.running = some running ∧
      ¬ (v.world.session.recorded target 1 (.text "s0")).Shows running) :=
  ⟨Watch.exists_of_loses (by decide +kernel), Watch.exists_of_loses (by decide +kernel)⟩

end LiveChain.Live
