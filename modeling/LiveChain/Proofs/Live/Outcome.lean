import LiveChain.Proofs.Live.Run

/-!
# How a commit comes out

A commit is decided by the code that the edits make and by the calls to the document. What the
evaluator did before, and in which order the edits were given, does not show in it. So worlds are
compared without their evaluators, live values and reports.
-/

set_option autoImplicit false

namespace LiveChain.Live

open Editor Text

/-! ## Writing -/

/-- The host after the calls of a write, and whether one of them failed. A failed replacement is
followed by the end of the undo step, and a failure of that is the one that counts. -/
def Host.attempt (h : Host) (range : Range) (code : List Char) : Host × Except String Unit :=
  match h.call .opening with
  | (h, some message) => (h, .error message)
  | (h, none) =>
    match h.call .replace with
    | (h, some message) =>
      match h.call .closing with
      | (h, some later) => (h, .error later)
      | (h, none) => (h, .error message)
    | (h, none) =>
      match Host.call { h with document := write h.document range code } .closing with
      | (h, some message) => (h, .error message)
      | (h, none) => (h, .ok ())

theorem writeBuffer_attempt {s : Session} (hupdating : s.updating = true) (host : Host)
    (range : Range) (code : List Char) :
    World.writeBuffer ⟨s, host⟩ range code =
      (⟨s, (host.attempt range code).1⟩, (host.attempt range code).2) := by
  simp only [World.writeBuffer, Host.attempt, Host.call, writeCall_effect hupdating]
  cases host.breaks (.opening :: host.calls) with
  | some message => rfl
  | none =>
    simp only [writeCall_effect hupdating]
    cases host.breaks (.replace :: .opening :: host.calls) with
    | some message =>
      simp only [writeCall_effect hupdating]
      cases host.breaks (.closing :: .replace :: .opening :: host.calls) <;> rfl
    | none =>
      simp only [writeCall_effect hupdating]
      cases host.breaks (.closing :: .replace :: .opening :: host.calls) <;> rfl

/-- The session that goes on with a text that it has written over a range. -/
def Session.movedTo (s : Session) (range : Range) (code : List Char) : Session :=
  ({ s.resetEdits with
    range := some ⟨range.start, range.start.after code⟩
    text := some code
    updating := false } : Session).searched

theorem commitText_attempt (w : World) (range : Range) (code : List Char) :
    ∃ reports notices, w.commitText range code =
      match w.host.attempt range code with
      | (host, .ok ()) => ⟨w.session.movedTo range code, (host.defer code).telling reports notices⟩
      | (host, .error _) =>
        ⟨{ w.session.resetEdits with updating := false }, host.telling reports notices⟩ := by
  have hwrite := writeBuffer_attempt (s := { w.session with updating := true }) rfl w.host range code
  simp only [World.commitText, World.mapSession, World.mapHost, World.resetEdits, World.note, hwrite]
  generalize w.host.attempt range code = outcome
  obtain ⟨host, result⟩ := outcome
  cases result with
  | error message =>
    obtain ⟨reports, hreport⟩ := Host.report_effect
      (host.note ⟨.error, .live, "Error updating editor"⟩) ("Error updating editor: " ++ message)
    simp only [hreport]
    exact ⟨reports, _, rfl⟩
  | ok u =>
    obtain ⟨notices, hfound⟩ := World.rediscover_effect
      ⟨({ w.session with
          range := some ⟨range.start, range.start.after code⟩
          text := some code
          updating := false } : Session).resetEdits, host⟩
    simp only
    refine ⟨host.reports, notices, ?_⟩
    exact congrArg (fun w' : World => { w' with host := w'.host.defer code }) hfound

/-! ## What is seen from the document -/

def Session.seen (s : Session) : Session := { s with live := [], phase := .idle }

/-- A host without its evaluator, the codes for it and the reports. -/
def Host.seen (h : Host) : Host :=
  { h with rejects := fun _ => none, deferred := [], evaluated := [], reports := [], notices := [] }

/-- A world without what belongs to the evaluator: what there is to see from the document. -/
def World.seen (w : World) : World := ⟨w.session.seen, w.host.seen⟩

/-- What is seen of a session besides its edits and their timer. -/
def Session.base (s : Session) : Session := { s.seen with edits := [], pending := none }

def Host.base (h : Host) : Host := { h.seen with timers := [] }

/-- What edits leave alone until they are committed. -/
def World.base (w : World) : World := ⟨w.session.base, w.host.base⟩

section Congr

variable {w w' : World} {α : Type} {f : World → α}

/-- What only depends on how a world is seen is the same for worlds that look the same. -/
theorem World.seen_congr (hf : ∀ v, f v = f v.seen) (h : w.seen = w'.seen) : f w = f w' := by
  rw [hf w, h, ← hf w']

theorem World.base_congr (hf : ∀ v, f v = f v.base) (h : w.base = w'.base) : f w = f w' := by
  rw [hf w, h, ← hf w']

end Congr

theorem attempt_base (h : Host) (range : Range) (code : List Char) :
    h.base.attempt range code = ((h.attempt range code).1.base, (h.attempt range code).2) := by
  obtain ⟨document, rejects, breaks, echoes, listens, timers, deferred, evaluated, calls, reports,
    notices⟩ := h
  simp only [Host.attempt, Host.call, Host.base, Host.seen]
  cases breaks (.opening :: calls) with
  | some message => rfl
  | none =>
    simp only
    cases breaks (.replace :: .opening :: calls) with
    | some message =>
      simp only
      cases breaks (.closing :: .replace :: .opening :: calls) <;> rfl
    | none =>
      simp only
      cases breaks (.closing :: .replace :: .opening :: calls) <;> rfl

theorem commitText_base {w w' : World} (hbase : w.base = w'.base) (range : Range)
    (code : List Char) : (w.commitText range code).base = (w'.commitText range code).base := by
  refine World.base_congr (f := fun v => (v.commitText range code).base) (fun v => ?_) hbase
  obtain ⟨reports, notices, hv⟩ := commitText_attempt v range code
  obtain ⟨reports', notices', hvbase⟩ := commitText_attempt v.base range code
  have hattempt : v.base.host.attempt range code =
      ((v.host.attempt range code).1.base, (v.host.attempt range code).2) := attempt_base ..
  rw [hv, hvbase, hattempt]
  generalize v.host.attempt range code = outcome
  obtain ⟨host, result⟩ := outcome
  cases result <;> rfl

/-- A commit comes out by what edits leave alone and by the code that they make, if any. -/
theorem commit_base {w w' : World} (hbase : w.base = w'.base)
    (hcode : w.session.staticCode.result = w'.session.staticCode.result)
    (hedits : w.session.edits = [] ↔ w'.session.edits = []) : w.commit.base = w'.commit.base := by
  have htext : w.session.text = w'.session.text :=
    World.base_congr (f := fun v => v.session.text) (fun _ => rfl) hbase
  have hrange : w.session.range = w'.session.range :=
    World.base_congr (f := fun v => v.session.range) (fun _ => rfl) hbase
  by_cases hidle : w.session.edits = [] ∨ w.session.text = none ∨ w.session.range = none
  · have hidle' : w'.session.edits = [] ∨ w'.session.text = none ∨ w'.session.range = none := by
      rwa [← hedits, ← htext, ← hrange]
    rw [World.commit_idle hidle, World.commit_idle hidle']
    exact hbase
  · rw [not_or, not_or] at hidle
    obtain ⟨hne, htext', hrange'⟩ := hidle
    obtain ⟨text, hsome⟩ := Option.ne_none_iff_exists'.mp htext'
    obtain ⟨range, hsome'⟩ := Option.ne_none_iff_exists'.mp hrange'
    rw [World.commit_of_edits hsome hsome' hne, World.commit_of_edits (htext.symm.trans hsome)
      (hrange.symm.trans hsome') (fun h => hne (hedits.mpr h)), ← hcode]
    generalize w.session.staticCode.result = code
    split
    · exact hbase
    · apply commitText_base
      exact hbase

/-! ## Operations that commit -/

def Op.Commits (op : Op) : Prop := op = .flush ∨ op = .fire

theorem step_commits {w : World} (htimer : w.OneTimer) {op : Op} (hop : op.Commits)
    (hpending : w.session.pending ≠ none) :
    ∃ timers, w.step op =
      World.commit ⟨{ w.session with pending := none }, { w.host with timers := timers }⟩ := by
  obtain ⟨id, hid⟩ := Option.ne_none_iff_exists'.mp hpending
  rcases hop with rfl | rfl
  · refine ⟨w.calledOff, ?_⟩
    rw [World.step, World.flush, hid]
    simp only [World.cancelCommit_effect]
  · -- a commit forgets the pending one before anything else
    refine ⟨w.host.timers.modify id fun t => { t with fired := true }, ?_⟩
    rw [World.step, World.fire_of_oneTimer htimer, hid]
    rfl

theorem runDeferred_effect (w : World) :
    ∃ reports notices, w.runDeferred = ⟨w.session, ({ w.host with
      deferred := []
      evaluated := w.host.deferred.reverse ++ w.host.evaluated } : Host).telling
        reports notices⟩ := by
  have hall : ∀ (codes : List (List Char)) (v : World), ∃ reports notices,
      codes.foldl World.evaluateStatic v = ⟨v.session,
        ({ v.host with evaluated := codes.reverse ++ v.host.evaluated } : Host).telling
          reports notices⟩ := by
    intro codes
    induction codes with
    | nil => exact fun v => ⟨v.host.reports, v.host.notices, rfl⟩
    | cons code codes ih =>
      intro v
      obtain ⟨reports, notices, hfirst⟩ := v.evaluateStatic_effect code
      obtain ⟨reports', notices', hrest⟩ := ih (v.evaluateStatic code)
      refine ⟨reports', notices', ?_⟩
      rw [List.foldl_cons, hrest, hfirst, List.reverse_cons, List.append_assoc]
      rfl
  exact hall w.host.deferred (w.mapHost fun h => { h with deferred := [] })

end LiveChain.Live
