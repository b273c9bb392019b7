import LiveChain.Live.Update

/-!
# What the operations of a session do

For every operation on the world one statement says all it can do to the session and to the host, up
to what is reported. Later proofs take the operations apart with these statements only.
-/

set_option autoImplicit false

namespace LiveChain.Live

open Editor Text

/-! ## Reports -/

def Host.telling (h : Host) (reports : List String) (notices : List Notice) : Host :=
  { h with reports := reports, notices := notices }

section Telling

variable (h : Host) (reports : List String) (notices : List Notice)

@[simp] theorem Host.telling_rejects : (h.telling reports notices).rejects = h.rejects := rfl
@[simp] theorem Host.telling_evaluated : (h.telling reports notices).evaluated = h.evaluated := rfl

end Telling

theorem Host.noteAll_effect (h : Host) (ns : List Notice) :
    h.noteAll ns = h.telling h.reports (ns.reverse ++ h.notices) := by
  induction ns generalizing h with
  | nil => rfl
  | cons n ns ih =>
    have hstep : h.noteAll (n :: ns) = (h.note n).noteAll ns := rfl
    rw [hstep, ih, List.reverse_cons, List.append_assoc]
    rfl

theorem Host.report_effect (h : Host) (message : String) :
    ∃ reports, h.report message = h.telling reports h.notices := by
  unfold Host.report
  split
  · exact ⟨message :: h.reports, rfl⟩
  · exact ⟨h.reports, rfl⟩

/-! ## Timers -/

/-- The timers of a world once its pending commit is called off. -/
def World.calledOff (w : World) : List Timer :=
  match w.session.pending with
  | none => w.host.timers
  | some id => w.host.timers.modify id fun t => { t with cancelled := true }

theorem World.cancelCommit_effect (w : World) : w.cancelCommit =
    ⟨{ w.session with pending := none }, { w.host with timers := w.calledOff }⟩ := by
  obtain ⟨⟨settings, phase, text, range, program, values, edits, live, pending, updating⟩, host⟩ := w
  cases pending <;> rfl

theorem World.scheduleCommit_effect (w : World) : w.scheduleCommit =
    ⟨{ w.session with pending := some w.calledOff.length },
      { w.host with timers := w.calledOff ++ [⟨w.session.settings.delay, false, false⟩] }⟩ := by
  rw [World.scheduleCommit, World.cancelCommit_effect]
  rfl

/-! ## Snippets -/

/-- The program that a text is and the values in it; none where there is no text or no program. -/
def findings (settings : Settings) (text : Option (List Char)) :
    Option Program × List EditableValue :=
  let text := text.getD []
  if text.isEmpty then (none, [])
  else match parseProgram text with
    | .error _ => (none, [])
    | .ok p =>
      (some p,
        (locate settings.names (some settings.registry) settings.keywords (some p) text).result)

def Session.searched (s : Session) : Session :=
  { s with program := (findings s.settings s.text).1, values := (findings s.settings s.text).2 }

theorem World.rediscover_effect (w : World) :
    ∃ notices, w.rediscover = ⟨w.session.searched, w.host.telling w.host.reports notices⟩ := by
  obtain ⟨⟨settings, phase, text, range, program, values, edits, live, pending, updating⟩, host⟩ := w
  simp only [World.rediscover, World.mapSession, World.mapHost, World.note, Session.searched,
    findings]
  by_cases hempty : (text.getD []).isEmpty = true
  · simp only [hempty, if_true]
    exact ⟨host.notices, rfl⟩
  · simp only [hempty]
    cases hparse : parseProgram (text.getD []) with
    | error e => exact ⟨_, rfl⟩
    | ok p =>
      simp only [Host.noteAll_effect]
      exact ⟨_, rfl⟩

theorem World.begin_effect (w : World) (text : List Char) (range : Range) :
    ∃ notices, w.begin text range =
      ⟨({ w.session with pending := none, text := some text, range := some range } :
          Session).resetEdits.searched,
        ({ w.host with timers := w.calledOff } : Host).telling w.host.reports notices⟩ := by
  rw [World.begin, World.cancelCommit_effect]
  exact World.rediscover_effect _

/-- The session that has dropped its edits and reads its range anew. -/
def Session.reread (s : Session) (text : List Char) : Session :=
  ({ s.resetEdits with pending := none, text := some text } : Session).searched

/-- What a change of the document can do: nothing, when it is not in the snippet or the session
makes it; drop the edits, when the document cannot be read; or read the snippet anew. -/
inductive Changed (w : World) (first last : Int) : World × Except Failure Unit → Prop
  | ignored (h : w.session.updating = true ∨ w.session.range = none ∨
      ∃ range, w.session.range = some range ∧ range.containsLines first last = false) :
    Changed w first last (w, .ok ())
  | unread (range : Range) (message : String) (hupdating : w.session.updating = false)
      (hrange : w.session.range = some range) (hinside : range.containsLines first last = true)
      (hbreak : w.host.breaks (.get :: w.host.calls) = some message) :
    Changed w first last
      (⟨{ w.session.resetEdits with pending := none },
        { w.host with timers := w.calledOff, calls := .get :: w.host.calls }⟩,
        .error (.host message))
  | reread (range : Range) (notices : List Notice) (hupdating : w.session.updating = false)
      (hrange : w.session.range = some range) (hinside : range.containsLines first last = true) :
    Changed w first last
      (⟨w.session.reread (read w.host.document range),
        ({ w.host with timers := w.calledOff, calls := .get :: w.host.calls } : Host).telling
          w.host.reports notices⟩, .ok ())

theorem changed_effect (w : World) (first last : Int) : Changed w first last (w.changed first last) := by
  unfold World.changed
  split
  · next range hupdating hrange =>
    split
    · next hinside =>
      simp only [World.cancelCommit_effect, World.resetEdits, World.mapSession, Host.getRange,
        Host.call]
      cases hbreak : w.host.breaks (.get :: w.host.calls) with
      | some message => exact .unread range message hupdating hrange hinside hbreak
      | none =>
        obtain ⟨notices, hfound⟩ := World.rediscover_effect
          ⟨{ ({ w.session with pending := none } : Session).resetEdits with
              text := some (read w.host.document range) },
            { w.host with timers := w.calledOff, calls := .get :: w.host.calls }⟩
        simp only [hfound]
        exact .reread range notices hupdating hrange hinside
    · next hinside =>
      exact .ignored (.inr (.inr ⟨range, hrange, by simpa using hinside⟩))
  · next hne =>
    apply Changed.ignored
    cases hupdating : w.session.updating with
    | true => exact .inl rfl
    | false =>
      cases hrange : w.session.range with
      | none => exact .inr (.inl rfl)
      | some range => exact absurd hrange (hne range hupdating)

/-! ## Showing edits -/

def Host.handed (h : Host) (code : List Char) : Host := { h with evaluated := code :: h.evaluated }

theorem World.evaluateStatic_effect (w : World) (code : List Char) :
    ∃ reports notices,
      w.evaluateStatic code = ⟨w.session, (w.host.handed code).telling reports notices⟩ := by
  simp only [World.evaluateStatic, Host.evaluate]
  cases w.host.rejects (code :: w.host.evaluated) with
  | none => exact ⟨w.host.reports, w.host.notices, rfl⟩
  | some message =>
    simp only [World.note, World.mapHost]
    obtain ⟨reports, hreport⟩ := Host.report_effect
      (Host.note { w.host with evaluated := code :: w.host.evaluated }
        ⟨.error, .live, "Static eval failed: " ++ message⟩) ("Static eval failed: " ++ message)
    rw [hreport]
    exact ⟨_, _, rfl⟩

theorem World.showStatic_effect (w : World) :
    ∃ reports notices, w.showStatic =
      ⟨w.session, (w.host.handed w.session.staticCode.result).telling reports notices⟩ := by
  simp only [World.showStatic, World.staticCode, World.mapHost, Host.noteAll_effect]
  obtain ⟨reports, notices, h⟩ := World.evaluateStatic_effect
    ⟨w.session, w.host.telling w.host.reports (w.session.staticCode.notices.reverse ++ w.host.notices)⟩
    w.session.staticCode.result
  exact ⟨reports, notices, h⟩

/-- The code that a session shows its live values with. -/
def Session.preview (s : Session) (assignmentsOnly : Bool) : Except LiveError (List Char) :=
  if assignmentsOnly then s.assignments else s.liveCode.result

theorem World.previewCode_effect (w : World) (assignmentsOnly : Bool) :
    ∃ notices, w.previewCode assignmentsOnly =
      (⟨w.session, w.host.telling w.host.reports notices⟩, w.session.preview assignmentsOnly) := by
  cases assignmentsOnly with
  | true => exact ⟨w.host.notices, rfl⟩
  | false =>
    simp only [World.previewCode, World.mapHost, Host.noteAll_effect]
    exact ⟨_, rfl⟩

/-- What showing the live values can do: fail outright, when an error cannot be shown; give up,
when there is no code or the code is rejected; or succeed. -/
inductive Previewed (w : World) (assignmentsOnly : Bool) : World × Except Failure Bool → Prop
  | failed (e : LiveError) (notices : List Notice)
      (hcode : w.session.preview assignmentsOnly = .error e) (hmessage : e.message? = none) :
    Previewed w assignmentsOnly
      (⟨w.session, w.host.telling w.host.reports notices⟩, .error .unshowable)
  | impossible (e : LiveError) (notices : List Notice)
      (hcode : w.session.preview assignmentsOnly = .error e) (hmessage : e.message? ≠ none) :
    Previewed w assignmentsOnly (⟨w.session, w.host.telling w.host.reports notices⟩, .ok false)
  | rejected (code : List Char) (notices : List Notice)
      (hcode : w.session.preview assignmentsOnly = .ok code)
      (hreject : w.host.rejects (code :: w.host.evaluated) ≠ none) :
    Previewed w assignmentsOnly
      (⟨w.session, (w.host.handed code).telling w.host.reports notices⟩, .ok false)
  | accepted (code : List Char) (notices : List Notice)
      (hcode : w.session.preview assignmentsOnly = .ok code)
      (haccept : w.host.rejects (code :: w.host.evaluated) = none) :
    Previewed w assignmentsOnly
      (⟨w.session, (w.host.handed code).telling w.host.reports notices⟩, .ok true)

theorem evaluateLive_effect (w : World) (assignmentsOnly : Bool) :
    Previewed w assignmentsOnly (w.evaluateLive assignmentsOnly) := by
  obtain ⟨notices, hpreview⟩ := w.previewCode_effect assignmentsOnly
  simp only [World.evaluateLive, hpreview]
  cases hcode : w.session.preview assignmentsOnly with
  | error e =>
    simp only
    cases hmessage : e.message? with
    | none => exact .failed e notices hcode hmessage
    | some message => exact .impossible e _ hcode (by rw [hmessage]; exact Option.some_ne_none _)
  | ok code =>
    simp only [Host.evaluate, Host.telling_rejects, Host.telling_evaluated]
    cases hreject : w.host.rejects (code :: w.host.evaluated) with
    | none => exact .accepted code notices hcode hreject
    | some message =>
      exact .rejected code _ hcode (by rw [hreject]; exact Option.some_ne_none _)

/-! ## Edits -/

def isText : Datum → Bool
  | .text _ => true
  | _ => false

def Session.recorded (s : Session) (target : EditableValue) (ordinal : Int) (value : Datum) :
    Session :=
  { s with
    edits := s.edits.insert (.ordinal ordinal) value
    live :=
      if target.isNumber && !isText value then
        (if s.live.contains ordinal then s.live else s.live ++ [ordinal])
      else s.live.filter (· ≠ ordinal) }

theorem World.recordEdit_effect (w : World) (target : EditableValue) (ordinal : Int)
    (value : Datum) :
    w.recordEdit target ordinal value = ⟨w.session.recorded target ordinal value, w.host⟩ := by
  cases value <;> rfl

/-- Whether an edit of a value is shown by assignments alone. -/
def Session.assignsOnly (s : Session) (ordinal : Int) : Bool :=
  s.live.contains ordinal && s.phase == .liveBound

/-- What an edit can do: nothing, when there is no such value; or record the edit, show it by a
code without placeholders or by a preview, and start the quiet time anew. An error that cannot be
shown leaves it half done. -/
inductive Updated (w : World) (ordinal : Int) (value : Datum) : World × Except Failure Bool → Prop
  | unknown (notices : List Notice)
      (h : w.session.valueAt? ordinal = none ∨ w.session.text = none) :
    Updated w ordinal value (⟨w.session, w.host.telling w.host.reports notices⟩, .ok false)
  | static (target : EditableValue) (s : Session) (reports : List String) (notices : List Notice)
      (htarget : w.session.valueAt? ordinal = some target) (htext : w.session.text ≠ none)
      (hs : s = w.session.recorded target ordinal value) (hlive : s.live = []) :
    Updated w ordinal value
      (World.scheduleCommit ⟨s, (w.host.handed s.staticCode.result).telling reports notices⟩,
        .ok true)
  | previewed (target : EditableValue) (s : Session) (code : List Char) (notices : List Notice)
      (htarget : w.session.valueAt? ordinal = some target) (htext : w.session.text ≠ none)
      (hs : s = w.session.recorded target ordinal value) (hlive : s.live ≠ [])
      (hcode : s.preview (w.session.assignsOnly ordinal) = .ok code)
      (haccept : w.host.rejects (code :: w.host.evaluated) = none) :
    Updated w ordinal value
      (World.scheduleCommit
        ⟨{ s with phase := .liveBound }, (w.host.handed code).telling w.host.reports notices⟩,
        .ok true)
  | fellBack (target : EditableValue) (s : Session) (host : Host) (reports : List String)
      (notices : List Notice)
      (htarget : w.session.valueAt? ordinal = some target) (htext : w.session.text ≠ none)
      (hs : s = w.session.recorded target ordinal value) (hlive : s.live ≠ [])
      (hhost : (host = w.host ∧ ∃ e, s.preview (w.session.assignsOnly ordinal) = .error e ∧
          e.message? ≠ none) ∨ ∃ code, host = w.host.handed code ∧
          s.preview (w.session.assignsOnly ordinal) = .ok code ∧
          w.host.rejects (code :: w.host.evaluated) ≠ none) :
    Updated w ordinal value
      (World.scheduleCommit ⟨{ s with live := [], phase := .idle },
        (host.handed s.staticCode.result).telling reports notices⟩, .ok true)
  | halfDone (target : EditableValue) (s : Session) (e : LiveError) (notices : List Notice)
      (htarget : w.session.valueAt? ordinal = some target) (htext : w.session.text ≠ none)
      (hs : s = w.session.recorded target ordinal value) (hlive : s.live ≠ [])
      (hcode : s.preview (w.session.assignsOnly ordinal) = .error e)
      (hmessage : e.message? = none) :
    Updated w ordinal value
      (⟨s, w.host.telling w.host.reports notices⟩, .error .unshowable)

theorem World.fallBack_effect (w : World) :
    ∃ reports notices, w.fallBack = ⟨{ w.session with live := [], phase := .idle },
      (w.host.handed w.session.staticCode.result).telling reports notices⟩ :=
  World.showStatic_effect ⟨{ w.session with live := [], phase := .idle }, w.host⟩

theorem update_effect (w : World) (ordinal : Int) (value : Datum) :
    Updated w ordinal value (w.update ordinal value) := by
  unfold World.update
  split
  · next target text htarget htext =>
    have htext' : w.session.text ≠ none := by rw [htext]; exact Option.some_ne_none _
    simp only [World.recordEdit_effect]
    generalize hs : w.session.recorded target ordinal value = s
    have hphase : s.phase = w.session.phase := by rw [← hs]; rfl
    simp only [World.showEdits, hphase]
    by_cases hlive : s.live = []
    · obtain ⟨reports, notices, hstatic⟩ := World.showStatic_effect ⟨s, w.host⟩
      simp only [hlive, List.isEmpty_nil, if_true, hstatic]
      exact .static target s reports notices htarget htext' hs.symm hlive
    · have hfull : s.live.isEmpty = false := by simpa using hlive
      simp only [hfull, Bool.false_eq_true, if_false]
      have heffect := evaluateLive_effect ⟨s, w.host⟩ (w.session.assignsOnly ordinal)
      unfold Session.assignsOnly at heffect
      generalize houtcome : World.evaluateLive ⟨s, w.host⟩
        (w.session.live.contains ordinal && w.session.phase == .liveBound) = outcome at heffect
      cases heffect with
      | failed e notices hcode hmessage =>
        exact .halfDone target s e notices htarget htext' hs.symm hlive hcode hmessage
      | impossible e notices hcode hmessage =>
        obtain ⟨reports, notices', hback⟩ :=
          World.fallBack_effect ⟨s, w.host.telling w.host.reports notices⟩
        simp only [hback]
        exact .fellBack target s w.host reports notices' htarget htext' hs.symm hlive
          (.inl ⟨rfl, e, hcode, hmessage⟩)
      | rejected code notices hcode hreject =>
        obtain ⟨reports, notices', hback⟩ := World.fallBack_effect
          ⟨s, (w.host.handed code).telling w.host.reports notices⟩
        simp only [hback]
        exact .fellBack target s (w.host.handed code) reports notices' htarget htext' hs.symm
          hlive (.inr ⟨code, rfl, hcode, hreject⟩)
      | accepted code notices hcode haccept =>
        exact .previewed target s code notices htarget htext' hs.symm hlive hcode haccept
  · next hne =>
    refine .unknown _ ?_
    cases htarget : w.session.valueAt? ordinal with
    | none => exact .inl rfl
    | some target =>
      cases htext : w.session.text with
      | none => exact .inr rfl
      | some text => exact absurd htext (hne target text htarget)

/-- An edit that ends with an error that cannot be shown has been recorded, and its preview could
not be built. -/
theorem Updated.of_unshowable {w : World} {ordinal : Int} {value : Datum}
    {outcome : World × Except Failure Bool} (h : Updated w ordinal value outcome)
    (hfailed : outcome.2 = .error .unshowable) :
    ∃ target e, (w.session.recorded target ordinal value).live ≠ [] ∧
      (w.session.recorded target ordinal value).preview (w.session.assignsOnly ordinal) =
        .error e ∧ e.message? = none ∧
      outcome.1.session = w.session.recorded target ordinal value := by
  cases h with
  | unknown => cases hfailed
  | static => cases hfailed
  | previewed => cases hfailed
  | fellBack => cases hfailed
  | halfDone target s e notices htarget htext hs hlive hcode hmessage =>
    subst hs
    exact ⟨target, e, hlive, hcode, hmessage, rfl⟩

/-- The session without the edit of a value, and with nothing live. -/
def Session.without (s : Session) (ordinal : Int) : Session :=
  { s with edits := s.edits.erase (.ordinal ordinal), live := [], phase := .idle }

/-- What dropping an edit can do: nothing, when there is none; or show the other edits and start
the quiet time anew, unless no edit is left. -/
inductive Reset (w : World) (ordinal : Int) : World × Bool → Prop
  | nothing : Reset w ordinal (w, false)
  | dropped (s : Session) (reports : List String) (notices : List Notice)
      (hs : s = w.session.without ordinal) (hempty : s.edits = []) :
    Reset w ordinal
      (World.cancelCommit ⟨s, (w.host.handed s.staticCode.result).telling reports notices⟩, true)
  | lessened (s : Session) (reports : List String) (notices : List Notice)
      (hs : s = w.session.without ordinal) (hleft : s.edits ≠ []) :
    Reset w ordinal
      (World.scheduleCommit ⟨s, (w.host.handed s.staticCode.result).telling reports notices⟩, true)

theorem reset_effect (w : World) (ordinal : Int) : Reset w ordinal (w.reset ordinal) := by
  unfold World.reset
  split
  · obtain ⟨reports, notices, hstatic⟩ :=
      World.showStatic_effect ⟨w.session.without ordinal, w.host⟩
    have hstatic' : (w.mapSession fun s =>
        { s with edits := s.edits.erase (.ordinal ordinal), live := [], phase := .idle }).showStatic =
          ⟨w.session.without ordinal, (w.host.handed
            (w.session.without ordinal).staticCode.result).telling reports notices⟩ := hstatic
    simp only [hstatic']
    split
    · next h => exact .dropped _ reports notices rfl (List.isEmpty_iff.mp h)
    · next h => exact .lessened _ reports notices rfl (by simpa using h)
  · exact .nothing

/-! ## Commits -/

/-- The session after a commit that wrote nothing. -/
def Session.dropped (s : Session) : Session := { s.resetEdits with pending := none }

/-- The session after a commit that wrote `code` over `range`. -/
def Session.advanced (s : Session) (range : Range) (code : List Char) : Session :=
  ({ s.dropped with range := some ⟨range.start, range.start.after code⟩, text := some code } :
    Session).searched

/-- The host whose document has been changed between the two ends of an undo step. -/
def Host.rewritten (h : Host) (range : Range) (code : List Char) : Host :=
  { h with
    document := write h.document range code
    calls := .closing :: .replace :: .opening :: h.calls }

/-- What a commit can do: nothing, without edits or without a snippet; drop the edits, when they
make no new text; fail on the document; or write the new text and go on with it. -/
inductive Committed (w : World) : World → Prop
  | nothing (h : w.session.edits = [] ∨ w.session.text = none ∨ w.session.range = none) :
    Committed w ⟨w.session.dropped, w.host⟩
  | skipped (text : List Char) (range : Range) (notices : List Notice)
      (htext : w.session.text = some text) (hrange : w.session.range = some range)
      (hedits : w.session.edits ≠ [])
      (hsame : w.session.staticCode.result = [] ∨ w.session.staticCode.result = text) :
    Committed w ⟨w.session.dropped,
      ({ w.host with
        deferred := if w.session.live = [] then w.host.deferred
          else w.host.deferred ++ [text] } : Host).telling w.host.reports notices⟩
  | failed (text : List Char) (range : Range) (document : List Char) (calls : List BufferCall)
      (reports : List String) (notices : List Notice)
      (htext : w.session.text = some text) (hrange : w.session.range = some range)
      (hedits : w.session.edits ≠ []) (hbreak : ∃ record, w.host.breaks record ≠ none) :
    Committed w ⟨{ w.session.dropped with updating := false },
      ({ w.host with document := document, calls := calls } : Host).telling reports notices⟩
  | written (text : List Char) (range : Range) (code : List Char) (notices : List Notice)
      (htext : w.session.text = some text) (hrange : w.session.range = some range)
      (hedits : w.session.edits ≠ []) (hcode : w.session.staticCode.result = code)
      (hne : code ≠ []) (hnew : code ≠ text) :
    Committed w ⟨{ w.session.advanced range code with updating := false },
      ({ w.host.rewritten range code with deferred := w.host.deferred ++ [code] } : Host).telling
        w.host.reports notices⟩

/-- While the session writes, the document's notice of the change is ignored. -/
theorem changed_while_updating {s : Session} (h : s.updating = true) (host : Host)
    (first last : Int) : World.changed ⟨s, host⟩ first last = (⟨s, host⟩, .ok ()) := by
  unfold World.changed
  split
  · next hupdating _ =>
    simp only [h] at hupdating
    cases hupdating
  · rfl

theorem hear_while_updating {s : Session} (h : s.updating = true) (host : Host)
    (lines : List (Int × Int)) : World.hear ⟨s, host⟩ lines = (⟨s, host⟩, .ok ()) := by
  induction lines with
  | nil => rfl
  | cons line rest ih =>
    rw [World.hear, changed_while_updating h]
    exact ih

/-- While the session writes, a call comes out the same whatever lines the document reports. -/
theorem writeCall_effect {s : Session} (h : s.updating = true) (host : Host) (c : BufferCall)
    (range : Range) (change : List Char → List Char) :
    World.writeCall ⟨s, host⟩ c range change =
      match host.breaks (c :: host.calls) with
      | some message => (⟨s, { host with calls := c :: host.calls }⟩, .error message)
      | none =>
        (⟨s, { host with
          document := change host.document
          calls := c :: host.calls }⟩, .ok ()) := by
  simp only [World.writeCall, Host.call]
  cases host.breaks (c :: host.calls) with
  | some message => rfl
  | none =>
    simp only
    rw [hear_while_updating h]

theorem writeBuffer_effect (w : World) (range : Range) (code : List Char)
    (hupdating : w.session.updating = true) :
    w.writeBuffer range code = (⟨w.session, w.host.rewritten range code⟩, .ok ()) ∨
      (∃ record, w.host.breaks record ≠ none) ∧ ∃ document calls message,
        w.writeBuffer range code =
          (⟨w.session, { w.host with document := document, calls := calls }⟩, .error message) := by
  simp only [World.writeBuffer, writeCall_effect hupdating]
  cases hopen : w.host.breaks (.opening :: w.host.calls) with
  | some message =>
    refine .inr ⟨⟨_, by rw [hopen]; exact Option.some_ne_none _⟩, ?_⟩
    exact ⟨w.host.document, _, message, rfl⟩
  | none =>
    simp only [writeCall_effect hupdating]
    cases hreplace : w.host.breaks (.replace :: .opening :: w.host.calls) with
    | some message =>
      refine .inr ⟨⟨_, by rw [hreplace]; exact Option.some_ne_none _⟩, ?_⟩
      simp only [writeCall_effect hupdating]
      cases w.host.breaks (.closing :: .replace :: .opening :: w.host.calls) with
      | some message' => exact ⟨w.host.document, _, message', rfl⟩
      | none => exact ⟨w.host.document, _, message, rfl⟩
    | none =>
      simp only [writeCall_effect hupdating]
      cases hclose : w.host.breaks (.closing :: .replace :: .opening :: w.host.calls) with
      | some message =>
        refine .inr ⟨⟨_, by rw [hclose]; exact Option.some_ne_none _⟩, ?_⟩
        exact ⟨_, _, message, rfl⟩
      | none => exact .inl rfl

theorem commitText_effect (w : World) (range : Range) (code : List Char) :
    (∃ notices, w.commitText range code =
      ⟨({ w.session.resetEdits with
          range := some ⟨range.start, range.start.after code⟩
          text := some code
          updating := false } : Session).searched,
        ({ w.host.rewritten range code with deferred := w.host.deferred ++ [code] } :
          Host).telling w.host.reports notices⟩) ∨
      (∃ record, w.host.breaks record ≠ none) ∧ ∃ document calls reports notices,
        w.commitText range code =
          ⟨{ w.session.resetEdits with updating := false },
            ({ w.host with document := document, calls := calls } : Host).telling
              reports notices⟩ := by
  simp only [World.commitText]
  rcases writeBuffer_effect (w.mapSession fun s => { s with updating := true }) range code rfl with
    hwrite | ⟨hbreak, document, calls, message, hwrite⟩
  · left
    rw [hwrite]
    simp only [World.mapSession, World.mapHost, World.resetEdits]
    obtain ⟨notices, hfound⟩ := World.rediscover_effect
      ⟨({ w.session with
          range := some ⟨range.start, range.start.after code⟩
          text := some code
          updating := false } : Session).resetEdits, w.host.rewritten range code⟩
    exact ⟨notices, congrArg (fun w' : World => { w' with host := w'.host.defer code }) hfound⟩
  · refine .inr ⟨hbreak, ?_⟩
    rw [hwrite]
    simp only [World.mapSession, World.mapHost, World.resetEdits, World.note]
    obtain ⟨reports, hreport⟩ := Host.report_effect
      (Host.note { w.host with document := document, calls := calls }
        ⟨.error, .live, "Error updating editor"⟩) ("Error updating editor: " ++ message)
    rw [hreport]
    exact ⟨document, calls, reports, _, rfl⟩

/-- A commit with edits, written out. The phase and the pending commit do not show in the code. -/
theorem World.commit_of_edits {w : World} {text : List Char} {range : Range}
    (htext : w.session.text = some text) (hrange : w.session.range = some range)
    (hedits : w.session.edits ≠ []) :
    w.commit =
      if w.session.staticCode.result.isEmpty || w.session.staticCode.result = text then
        ⟨w.session.dropped,
          ({ w.host with
            deferred := if w.session.live = [] then w.host.deferred
              else w.host.deferred ++ [text] } : Host).telling w.host.reports
            (⟨.info, .live, "Commit skipped, rewrite produced no new text"⟩ ::
              (w.session.staticCode.notices.reverse ++ w.host.notices))⟩
      else World.commitText
        ⟨{ w.session with pending := none, phase := .committing },
          w.host.telling w.host.reports
            (w.session.staticCode.notices.reverse ++ w.host.notices)⟩
        range w.session.staticCode.result := by
  obtain ⟨⟨settings, phase, _, _, program, values, edits, live, pending, updating⟩, host⟩ := w
  subst htext hrange
  cases edits with
  | nil => exact absurd rfl hedits
  | cons edit edits =>
    simp only [World.commit, World.mapSession, World.staticCode, World.mapHost,
      Host.noteAll_effect]
    cases live <;> rfl

theorem World.commit_idle {w : World}
    (h : w.session.edits = [] ∨ w.session.text = none ∨ w.session.range = none) :
    w.commit = ⟨w.session.dropped, w.host⟩ := by
  obtain ⟨⟨settings, phase, text, range, program, values, edits, live, pending, updating⟩, host⟩ := w
  rcases h with rfl | rfl | rfl
  · cases text <;> cases range <;> rfl
  · rfl
  · cases text <;> rfl

theorem commit_effect (w : World) : Committed w w.commit := by
  by_cases h : w.session.edits = [] ∨ w.session.text = none ∨ w.session.range = none
  · rw [World.commit_idle h]
    exact .nothing h
  · rw [not_or, not_or] at h
    obtain ⟨hedits, htext, hrange⟩ := h
    obtain ⟨text, htext⟩ := Option.ne_none_iff_exists'.mp htext
    obtain ⟨range, hrange⟩ := Option.ne_none_iff_exists'.mp hrange
    rw [World.commit_of_edits htext hrange hedits]
    split
    · next hsame =>
      rw [Bool.or_eq_true, List.isEmpty_iff, decide_eq_true_eq] at hsame
      exact .skipped text range _ htext hrange hedits hsame
    · next hnew =>
      rw [Bool.or_eq_true, List.isEmpty_iff, decide_eq_true_eq, not_or] at hnew
      rcases commitText_effect
        ⟨{ w.session with pending := none, phase := .committing },
          w.host.telling w.host.reports
            (w.session.staticCode.notices.reverse ++ w.host.notices)⟩
        range w.session.staticCode.result with
        ⟨notices, hwritten⟩ | ⟨hbreak, document, calls, reports, notices, hfailed⟩
      · rw [hwritten]
        exact .written text range _ notices htext hrange hedits rfl hnew.1 hnew.2
      · rw [hfailed]
        exact .failed text range document calls reports notices htext hrange hedits hbreak

/-- A commit leaves no edit, nothing live and no pending commit, and touches no timer. -/
theorem Committed.cleared {w w' : World} (h : Committed w w') :
    w'.session.edits = [] ∧ w'.session.live = [] ∧ w'.session.phase = .idle ∧
      w'.session.pending = none ∧ w'.host.timers = w.host.timers := by
  cases h <;> exact ⟨rfl, rfl, rfl, rfl, rfl⟩

end LiveChain.Live
