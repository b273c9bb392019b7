import LiveChain.Proofs.Live.Effects

/-!
# Runs of a session

A run is any order of snippets, edits, changes of the document by its user, timers and deferred
codes.

* `Op`, `World.step`, `World.run`: what can happen, one step and a whole run.
* `World.OneTimer`: the pending commit is the only timer that is still to fire; `oneTimer_run`.
* `Stepped`: what a step can do; `step_effect`.
-/

set_option autoImplicit false

namespace LiveChain.Live

open Editor Text

/-- What can happen to a session. In `edit` the user makes the document a new text, and the host
tells the session about the changed lines; in `settle` one of the deferred codes is evaluated. -/
inductive Op where
  | begin (text : List Char) (range : Range)
  | edit (document : List Char) (first last : Int)
  | update (ordinal : Int) (value : Datum)
  | updateByKey (key : String) (value : Datum)
  | reset (ordinal : Int)
  | flush
  | fire
  | settle (i : Nat)

namespace World

/-- The world after the user has made the document a new text. -/
def typed (w : World) (document : List Char) : World :=
  w.mapHost fun h => { h with document := document }

def settle (w : World) (i : Nat) : World :=
  match w.host.deferred[i]? with
  | none => w
  | some code =>
    (w.mapHost fun h => { h with deferred := h.deferred.eraseIdx i }).evaluateStatic code

def step (w : World) : Op → World
  | .begin text range => w.begin text range
  | .edit document first last => ((w.typed document).changed first last).1
  | .update ordinal value => (w.update ordinal value).1
  | .updateByKey key value => (w.updateByKey key value).1
  | .reset ordinal => (w.reset ordinal).1
  | .flush => w.flush
  | .fire => w.fire
  | .settle i => w.settle i

def run (w : World) (ops : List Op) : World := ops.foldl step w

/-- A session before its first snippet, in a host in which nothing has happened. -/
def opened (settings : Settings) (document : List Char)
    (rejects : List (List Char) → Option String) (breaks : List BufferCall → Option String)
    (echoes : List BufferCall → Range → List (Int × Int)) (listens : Bool) : World :=
  ⟨.fresh settings, { Host.opened document rejects breaks listens with echoes := echoes }⟩

def plainSettings : Settings :=
  ⟨.standard, .ofCalls [], standardKeywords, fun name => "() => " ++ name, .ofInt 2⟩

/-- A session with the usual settings in a host that never fails. -/
def plain (document : List Char) : World :=
  opened plainSettings document (fun _ => none) (fun _ => none) Host.echoReplaced true

@[simp] theorem run_nil (w : World) : w.run [] = w := rfl

@[simp] theorem run_cons (w : World) (op : Op) (ops : List Op) :
    w.run (op :: ops) = (w.step op).run ops := rfl

@[simp] theorem run_append (w : World) (before after : List Op) :
    w.run (before ++ after) = (w.run before).run after := List.foldl_append

/-- What holds of a world and is kept by every step holds after every run. -/
theorem run_induction {P : World → Prop} (hstep : ∀ w op, P w → P (w.step op)) {w : World}
    (ops : List Op) (h : P w) : P (w.run ops) := by
  induction ops generalizing w with
  | nil => exact h
  | cons op ops ih => exact ih (hstep w op h)

/-! ## Edits -/

def editOf (w : World) : Op → Option (Int × Datum)
  | .update ordinal value => some (ordinal, value)
  | .updateByKey key value =>
    (w.session.values.find? fun v => v.key == key).map fun v => ((v.ordinal : Int), value)
  | _ => none

theorem step_of_editOf {w : World} {op : Op} {ordinal : Int} {value : Datum}
    (h : w.editOf op = some (ordinal, value)) : w.step op = (w.update ordinal value).1 := by
  cases op with
  | update o v =>
    cases h
    rfl
  | updateByKey key v =>
    simp only [editOf, Option.map_eq_some_iff, Prod.mk.injEq] at h
    obtain ⟨target, hfind, rfl, rfl⟩ := h
    simp only [step, updateByKey, hfind]
  | _ => cases h

theorem updateByKey_of_editOf {w : World} {key : String} {value : Datum}
    (h : w.editOf (.updateByKey key value) = none) :
    ∃ notices, w.step (.updateByKey key value) =
      ⟨w.session, w.host.telling w.host.reports notices⟩ := by
  simp only [editOf, Option.map_eq_none_iff] at h
  simp only [step, updateByKey, h]
  exact ⟨_, rfl⟩

/-! ## The only timer -/

/-- The pending commit is the only timer that has neither been cancelled nor fired. -/
def OneTimer (w : World) : Prop :=
  ∀ id, (∃ t, w.host.timers[id]? = some t ∧ t.isPending = true) ↔ w.session.pending = some id

section OneTimer

variable {w w' : World}

theorem OneTimer.congr (h : w.OneTimer) (hpending : w'.session.pending = w.session.pending)
    (htimers : w'.host.timers = w.host.timers) : w'.OneTimer := by
  intro id
  rw [hpending, htimers]
  exact h id

theorem oneTimer_of_none (hpending : w.session.pending = none)
    (hnone : ∀ t ∈ w.host.timers, t.isPending = false) : w.OneTimer := by
  intro id
  rw [hpending]
  constructor
  · rintro ⟨t, ht, htpending⟩
    have hfalse := hnone t (List.mem_of_getElem? ht)
    rw [htpending] at hfalse
    cases hfalse
  · intro h
    cases h

/-- Once its timer is changed into one that is not to fire, no timer is to fire. -/
theorem OneTimer.modify_none {id : Nat} {f : Timer → Timer} (h : w.OneTimer)
    (hpending : w.session.pending = some id) (hf : ∀ t, (f t).isPending = false) :
    ∀ t ∈ w.host.timers.modify id f, t.isPending = false := by
  intro t ht
  obtain ⟨i, hi⟩ := List.getElem?_of_mem ht
  rw [List.getElem?_modify] at hi
  cases hold : w.host.timers[i]? with
  | none =>
    rw [hold] at hi
    cases hi
  | some old =>
    rw [hold, Option.map_eq_map, Option.map_some, Option.some.injEq] at hi
    by_cases hid : id = i
    · rw [if_pos hid] at hi
      rw [← hi]
      exact hf old
    · rw [if_neg hid] at hi
      subst hi
      cases htpending : old.isPending with
      | false => rfl
      | true =>
        have hsome := (h i).mp ⟨old, hold, htpending⟩
        rw [hpending, Option.some.injEq] at hsome
        exact absurd hsome hid

theorem OneTimer.calledOff_none (h : w.OneTimer) : ∀ t ∈ w.calledOff, t.isPending = false := by
  unfold calledOff
  cases hpending : w.session.pending with
  | none =>
    intro t ht
    obtain ⟨i, hi⟩ := List.getElem?_of_mem ht
    cases htpending : t.isPending with
    | false => rfl
    | true =>
      have hsome := (h i).mp ⟨t, hi, htpending⟩
      rw [hpending] at hsome
      cases hsome
  | some id => exact h.modify_none hpending fun t => by simp [Timer.isPending]

theorem OneTimer.cancelCommit (h : w.OneTimer) : w.cancelCommit.OneTimer := by
  rw [cancelCommit_effect]
  exact oneTimer_of_none rfl h.calledOff_none

theorem OneTimer.scheduleCommit (h : w.OneTimer) : w.scheduleCommit.OneTimer := by
  rw [scheduleCommit_effect]
  intro id
  simp only [Option.some.injEq]
  constructor
  · rintro ⟨t, ht, htpending⟩
    rw [List.getElem?_append] at ht
    split at ht
    · have hfalse := h.calledOff_none t (List.mem_of_getElem? ht)
      rw [htpending] at hfalse
      cases hfalse
    · next hge =>
      have hlt := (List.getElem?_eq_some_iff.mp ht).1
      simp only [List.length_cons, List.length_nil] at hlt
      omega
  · rintro rfl
    exact ⟨_, List.getElem?_concat_length, rfl⟩

theorem oneTimer_committed (h : Committed w w') (hnone : ∀ t ∈ w.host.timers, t.isPending = false) :
    w'.OneTimer := by
  obtain ⟨-, -, -, hpending, htimers⟩ := h.cleared
  refine oneTimer_of_none hpending ?_
  rw [htimers]
  exact hnone

/-- The timers that are to fire are the pending commit, if there is one. -/
theorem OneTimer.timersWhere (h : w.OneTimer) :
    w.host.timersWhere Timer.isPending = w.session.pending.toList := by
  cases hpending : w.session.pending with
  | none =>
    rw [Option.toList_none, Host.timersWhere, List.filter_eq_nil_iff]
    intro id _ hid
    split at hid
    · next t ht =>
      have hsome := (h id).mp ⟨t, ht, hid⟩
      rw [hpending] at hsome
      cases hsome
    · cases hid
  | some id =>
    obtain ⟨t, ht, htpending⟩ := (h id).mpr hpending
    have hlt : id < w.host.timers.length := (List.getElem?_eq_some_iff.mp ht).1
    have hsame : w.host.timersWhere Timer.isPending =
        (List.range w.host.timers.length).filter (· == id) := by
      apply List.filter_congr
      intro i _
      rw [Bool.eq_iff_iff, beq_iff_eq]
      constructor
      · intro hi
        split at hi
        · next t' ht' =>
          have hsome := (h i).mp ⟨t', ht', hi⟩
          rw [hpending, Option.some.injEq] at hsome
          exact hsome.symm
        · cases hi
      · rintro rfl
        simp only [ht, htpending]
    rw [hsame, List.filter_beq, List.count_range, if_pos hlt]
    rfl

theorem fire_of_oneTimer (h : w.OneTimer) :
    w.fire = match w.session.pending with
      | none => w
      | some id => w.fireTimer id := by
  rw [fire, h.timersWhere]
  cases w.session.pending <;> rfl

end OneTimer

end World

/-! ## Steps -/

/-- What a step can do, given that at most the pending commit is to fire: nothing; or what the
operation says. A flush and a firing are commits whose timer has been taken out. -/
inductive Stepped (w : World) : Op → World → Prop
  | still (op : Op) (hedit : w.editOf op = none) : Stepped w op w
  | began (text : List Char) (range : Range) (notices : List Notice) :
    Stepped w (.begin text range)
      ⟨({ w.session with pending := none, text := some text, range := some range } :
          Session).resetEdits.searched,
        ({ w.host with timers := w.calledOff } : Host).telling w.host.reports notices⟩
  | edited (document : List Char) (first last : Int) (outcome : World × Except Failure Unit)
      (h : Changed (w.typed document) first last outcome) :
    Stepped w (.edit document first last) outcome.1
  | updated (op : Op) (ordinal : Int) (value : Datum) (outcome : World × Except Failure Bool)
      (hedit : w.editOf op = some (ordinal, value)) (houtcome : outcome = w.update ordinal value)
      (h : Updated w ordinal value outcome) :
    Stepped w op outcome.1
  | noted (key : String) (value : Datum) (notices : List Notice)
      (hedit : w.editOf (.updateByKey key value) = none) :
    Stepped w (.updateByKey key value) ⟨w.session, w.host.telling w.host.reports notices⟩
  | reset (ordinal : Int) (outcome : World × Bool) (h : Reset w ordinal outcome) :
    Stepped w (.reset ordinal) outcome.1
  | committed (op : Op) (timers : List Timer) (w' : World) (hop : op = .flush ∨ op = .fire)
      (hnone : ∀ t ∈ timers, t.isPending = false)
      (h : Committed ⟨{ w.session with pending := none }, { w.host with timers := timers }⟩ w') :
    Stepped w op w'
  | settled (i : Nat) (code : List Char) (reports : List String) (notices : List Notice)
      (hcode : w.host.deferred[i]? = some code) :
    Stepped w (.settle i)
      ⟨w.session, (({ w.host with deferred := w.host.deferred.eraseIdx i } :
        Host).handed code).telling reports notices⟩

namespace World

variable {w w' : World}

theorem step_effect (h : w.OneTimer) (op : Op) : Stepped w op (w.step op) := by
  cases hedit : w.editOf op with
  | some edit =>
    rw [step_of_editOf hedit]
    exact .updated op edit.1 edit.2 _ hedit rfl (update_effect w edit.1 edit.2)
  | none =>
    cases op with
    | begin text range =>
      obtain ⟨notices, hbegin⟩ := begin_effect w text range
      rw [step, hbegin]
      exact .began text range notices
    | edit document first last =>
      exact .edited document first last _ (changed_effect (w.typed document) first last)
    | update ordinal value => cases hedit
    | updateByKey key value =>
      obtain ⟨notices, hstep⟩ := updateByKey_of_editOf hedit
      rw [hstep]
      exact .noted key value notices hedit
    | reset ordinal => exact .reset ordinal _ (reset_effect w ordinal)
    | flush =>
      rw [step, flush]
      cases hpending : w.session.pending with
      | none => exact .still .flush hedit
      | some id =>
        simp only
        rw [cancelCommit_effect]
        exact .committed .flush w.calledOff _ (.inl rfl) h.calledOff_none (commit_effect _)
    | fire =>
      rw [step, fire_of_oneTimer h]
      cases hpending : w.session.pending with
      | none => exact .still .fire hedit
      | some id =>
        -- a commit forgets the pending one before anything else
        exact .committed .fire (w.host.timers.modify id fun t => { t with fired := true }) _
          (.inr rfl) (h.modify_none hpending fun t => by simp [Timer.isPending]) (commit_effect
            ⟨{ w.session with pending := none }, { w.host with
              timers := w.host.timers.modify id fun t => { t with fired := true } }⟩)
    | settle i =>
      rw [step, settle]
      cases hcode : w.host.deferred[i]? with
      | none => exact .still (.settle i) hedit
      | some code =>
        obtain ⟨reports, notices, heffect⟩ := evaluateStatic_effect
          ⟨w.session, { w.host with deferred := w.host.deferred.eraseIdx i }⟩ code
        simp only [mapHost, heffect]
        exact .settled i code reports notices hcode

theorem OneTimer.updated {ordinal : Int} {value : Datum} {outcome : World × Except Failure Bool}
    (h : w.OneTimer) (heffect : Updated w ordinal value outcome) : outcome.1.OneTimer := by
  cases heffect with
  | unknown => exact h.congr rfl rfl
  | static target s reports notices htarget htext hs hlive =>
    subst hs
    exact OneTimer.scheduleCommit (h.congr rfl rfl)
  | previewed target s code notices htarget htext hs hlive hcode haccept =>
    subst hs
    exact OneTimer.scheduleCommit (h.congr rfl rfl)
  | fellBack target s host reports notices htarget htext hs hlive hhost =>
    subst hs
    have htimers : host.timers = w.host.timers := by
      rcases hhost with ⟨rfl, -⟩ | ⟨code, rfl, -⟩ <;> rfl
    exact OneTimer.scheduleCommit (h.congr rfl htimers)
  | halfDone target s e notices htarget htext hs hlive hcode hmessage =>
    subst hs
    exact h.congr rfl rfl

theorem oneTimer_step (w : World) (op : Op) (h : w.OneTimer) : (w.step op).OneTimer := by
  have heffect := step_effect h op
  generalize w.step op = w' at heffect
  cases heffect with
  | still => exact h
  | began => exact oneTimer_of_none rfl h.calledOff_none
  | edited document first last outcome hchanged =>
    have htyped : (w.typed document).OneTimer := h.congr rfl rfl
    cases hchanged with
    | ignored => exact htyped
    | unread => exact oneTimer_of_none rfl htyped.calledOff_none
    | reread => exact oneTimer_of_none rfl htyped.calledOff_none
  | updated op ordinal value outcome hedit houtcome hupdated => exact h.updated hupdated
  | noted => exact h.congr rfl rfl
  | reset ordinal outcome hreset =>
    cases hreset with
    | nothing => exact h
    | dropped s reports notices hs hempty =>
      subst hs
      exact OneTimer.cancelCommit (h.congr rfl rfl)
    | lessened s reports notices hs hleft =>
      subst hs
      exact OneTimer.scheduleCommit (h.congr rfl rfl)
  | committed op timers w' hop hnone hcommitted => exact oneTimer_committed hcommitted hnone
  | settled => exact h.congr rfl rfl

theorem oneTimer_run (h : w.OneTimer) (ops : List Op) : (w.run ops).OneTimer :=
  run_induction oneTimer_step ops h

theorem oneTimer_opened (settings : Settings) (document : List Char)
    (rejects : List (List Char) → Option String) (breaks : List BufferCall → Option String)
    (echoes : List BufferCall → Range → List (Int × Int)) (listens : Bool) :
    (opened settings document rejects breaks echoes listens).OneTimer :=
  oneTimer_of_none rfl fun _ ht => absurd ht List.not_mem_nil

end World

end LiveChain.Live
