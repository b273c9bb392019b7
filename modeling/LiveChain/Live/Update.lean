import LiveChain.Live.Session

/-!
# Updating a live session

An edit is shown at once and committed to the document after a quiet time. All operations are
functions on the world; they end with a result or with a failure of the host.

* `World.begin`: tracks a snippet.
* `World.changed`: a change of the document outside the session.
* `World.update`, `World.updateByKey`, `World.reset`: edits.
* `World.commit`: writes the pending edits into the document.
* `World.flush`, `World.fire`, `World.fireCancelled`, `World.runDeferred`: the clock.
-/

set_option autoImplicit false

namespace LiveChain.Live

open Editor Text

/-- A failure that leaves an operation: the host broke, or an integer cannot be shown. -/
inductive Failure where
  | host (message : String)
  | unshowable
deriving DecidableEq, Repr

namespace World

def mapSession (w : World) (f : Session → Session) : World := { w with session := f w.session }

def mapHost (w : World) (f : Host → Host) : World := { w with host := f w.host }

def note (w : World) (level : Level) (message : String) : World :=
  w.mapHost fun h => h.note ⟨level, .live, message⟩

/-! ## The pending commit -/

def cancelCommit (w : World) : World :=
  match w.session.pending with
  | none => w
  | some id =>
    (w.mapHost fun h => h.cancelTimer id).mapSession fun s => { s with pending := none }

/-- Starts the quiet time before a commit anew. -/
def scheduleCommit (w : World) : World :=
  let w := w.cancelCommit
  let (host, id) := w.host.callLater w.session.settings.delay
  ⟨{ w.session with pending := some id }, host⟩

def resetEdits (w : World) : World := w.mapSession Session.resetEdits

/-! ## Snippets -/

/-- Finds the program and the values of the tracked text. -/
def rediscover (w : World) : World :=
  let w := w.mapSession fun s => { s with program := none, values := [] }
  let text := w.session.text.getD []
  if text.isEmpty then w
  else match parseProgram text with
    | .error e => w.note .info ("Snippet did not parse, no editable values: " ++ e.message)
    | .ok p =>
      let settings := w.session.settings
      let found := locate settings.names (some settings.registry) settings.keywords (some p) text
      (w.mapHost fun h => h.noteAll found.notices).mapSession fun s =>
        { s with program := some p, values := found.result }

def begin (w : World) (text : List Char) (range : Range) : World :=
  let w := w.cancelCommit.mapSession fun s => { s with text := some text, range := some range }
  w.resetEdits.rediscover

/-- A change of some lines of the document. Inside the snippet it drops the edits and reads the
snippet anew; a change by the session itself is ignored. -/
def changed (w : World) (first last : Int) : World × Except Failure Unit :=
  match w.session.updating, w.session.range with
  | false, some range =>
    if range.containsLines first last then
      let w := w.cancelCommit.resetEdits
      match w.host.getRange range with
      | (host, .error message) => (⟨w.session, host⟩, .error (.host message))
      | (host, .ok text) =>
        (rediscover ⟨{ w.session with text := some text }, host⟩, .ok ())
    else (w, .ok ())
  | _, _ => (w, .ok ())

/-! ## Showing edits -/

/-- The snippet with every pending edit written into it. -/
def staticCode (w : World) : World × List Char :=
  let code := w.session.staticCode
  (w.mapHost fun h => h.noteAll code.notices, code.result)

/-- Evaluates a code without placeholders and reports a failure. -/
def evaluateStatic (w : World) (code : List Char) : World :=
  match w.host.evaluate code with
  | (host, none) => { w with host := host }
  | (host, some message) =>
    let w := { w with host := host }
    (w.note .error ("Static eval failed: " ++ message)).mapHost fun h =>
      h.report ("Static eval failed: " ++ message)

/-- Shows all edits as written into the snippet. -/
def showStatic (w : World) : World :=
  let (w, code) := w.staticCode
  w.evaluateStatic code

/-- The code that shows the live values: only the assignments when the placeholders are in place
already. -/
def previewCode (w : World) (assignmentsOnly : Bool) : World × Except LiveError (List Char) :=
  if assignmentsOnly then (w, w.session.assignments)
  else
    let code := w.session.liveCode
    (w.mapHost fun h => h.noteAll code.notices, code.result)

/-- Evaluates the code that shows the live values, and says whether that went well. -/
def evaluateLive (w : World) (assignmentsOnly : Bool) : World × Except Failure Bool :=
  match w.previewCode assignmentsOnly with
  | (w, .error e) =>
    match e.message? with
    | none => (w, .error .unshowable)
    | some message => (w.note .warning ("Could not build live code: " ++ message), .ok false)
  | (w, .ok code) =>
    match w.host.evaluate code with
    | (host, none) => ({ w with host := host }, .ok true)
    | (host, some message) =>
      (({ w with host := host } : World).note .warning ("Live eval failed: " ++ message),
        .ok false)

/-- Gives up the live values and shows all edits as written into the snippet. -/
def fallBack (w : World) : World :=
  (w.mapSession fun s => { s with live := [], phase := .idle }).showStatic

/-- Records an edit. A number edited to anything but a text becomes live. -/
def recordEdit (w : World) (target : EditableValue) (ordinal : Int) (value : Datum) : World :=
  let becomesLive := target.isNumber && match value with
    | .text _ => false
    | _ => true
  w.mapSession fun s =>
    { s with
      edits := s.edits.insert (.ordinal ordinal) value
      live :=
        if becomesLive then (if s.live.contains ordinal then s.live else s.live ++ [ordinal])
        else s.live.filter (· ≠ ordinal) }

/-- Shows the pending edits after an edit of a value that was live or not. -/
def showEdits (w : World) (wasLive : Bool) : World × Except Failure Unit :=
  if w.session.live.isEmpty then (w.showStatic, .ok ())
  else
    match w.evaluateLive (wasLive && w.session.phase == .liveBound) with
    | (w, .error failure) => (w, .error failure)
    | (w, .ok true) => (w.mapSession fun s => { s with phase := .liveBound }, .ok ())
    | (w, .ok false) => (w.fallBack, .ok ())

/-- Edits the value with an ordinal, shows it and starts the quiet time before the commit. Says
whether there is such a value. -/
def update (w : World) (ordinal : Int) (value : Datum) : World × Except Failure Bool :=
  match w.session.valueAt? ordinal, w.session.text with
  | some target, some _ =>
    let wasLive := w.session.live.contains ordinal
    match (w.recordEdit target ordinal value).showEdits wasLive with
    | (w, .error failure) => (w, .error failure)
    | (w, .ok ()) => (w.scheduleCommit, .ok true)
  | _, _ => (w.note .info ("No editable value with ordinal " ++ toString ordinal), .ok false)

def updateByKey (w : World) (key : String) (value : Datum) : World × Except Failure Bool :=
  match w.session.values.find? fun v => v.key == key with
  | some v => w.update v.ordinal value
  | none => (w.note .info ("Parameter not found for key: " ++ key), .ok false)

/-- Drops the edit of a value and shows the others. Says whether there was such an edit. -/
def reset (w : World) (ordinal : Int) : World × Bool :=
  if w.session.edits.contains (.ordinal ordinal) && w.session.text.isSome then
    let w := w.mapSession fun s =>
      { s with edits := s.edits.erase (.ordinal ordinal), live := [], phase := .idle }
    let w := w.showStatic
    (if w.session.edits.isEmpty then w.cancelCommit else w.scheduleCommit, true)
  else (w, false)

/-! ## Committing edits -/

/-- Tells the session about changed lines, one report after the other. -/
def hear (w : World) : List (Int × Int) → World × Except String Unit
  | [] => (w, .ok ())
  | (first, last) :: rest =>
    match w.changed first last with
    | (w, .ok ()) => w.hear rest
    | (w, .error (.host message)) => (w, .error message)
    | (w, .error .unshowable) => (w, .error "")

/-- One call of a write over a range. The document tells the session which lines have changed. -/
def writeCall (w : World) (c : BufferCall) (r : Range) (change : List Char → List Char) :
    World × Except String Unit :=
  match w.host.call c with
  | (host, some message) => ({ w with host := host }, .error message)
  | (host, none) =>
    ({ w with host := { host with document := change host.document } } : World).hear
      (host.echoes host.calls r)

/-- Replaces a range of the document as one undo step. The step is closed also when the
replacement fails. -/
def writeBuffer (w : World) (r : Range) (new : List Char) : World × Except String Unit :=
  match w.writeCall .opening r id with
  | (w, .error message) => (w, .error message)
  | (w, .ok ()) =>
    let (w, outcome) := w.writeCall .replace r fun document => write document r new
    match w.writeCall .closing r id with
    | (w, .error message) => (w, .error message)
    | (w, .ok ()) => (w, outcome)

/-- Writes a new text of the snippet into the document and goes on with it. -/
def commitText (w : World) (r : Range) (code : List Char) : World :=
  let w := w.mapSession fun s => { s with updating := true }
  let (w, outcome) := w.writeBuffer r code
  let w := w.mapSession fun s => { s with updating := false }
  match outcome with
  | .error message =>
    (w.note .error "Error updating editor").resetEdits.mapHost fun h =>
      h.report ("Error updating editor: " ++ message)
  | .ok () =>
    let w := w.mapSession fun s =>
      { s with range := some ⟨r.start, r.start.after code⟩, text := some code }
    w.resetEdits.rediscover.mapHost fun h => h.defer code

/-- Writes the pending edits into the document. When nothing would change, the edits are dropped
and a running preview is replaced by the snippet itself. -/
def commit (w : World) : World :=
  let w := w.mapSession fun s => { s with pending := none }
  match w.session.text, w.session.range with
  | some text, some range =>
    if w.session.edits.isEmpty then w.resetEdits
    else
      let w := w.mapSession fun s => { s with phase := .committing }
      let wasLive := !w.session.live.isEmpty
      let (w, code) := w.staticCode
      if code.isEmpty || code = text then
        let w := (w.note .info "Commit skipped, rewrite produced no new text").resetEdits
        if wasLive then w.mapHost fun h => h.defer text else w
      else w.commitText range code
  | _, _ => w.resetEdits

def flush (w : World) : World :=
  match w.session.pending with
  | none => w
  | some _ => w.cancelCommit.commit

/-! ## The clock -/

def fireTimer (w : World) (id : Nat) : World := (w.mapHost fun h => h.markFired id).commit

def fire (w : World) : World :=
  (w.host.timersWhere Timer.isPending).foldl fireTimer w

/-- Fires every timer that was cancelled before it could fire, once. -/
def fireCancelled (w : World) : World :=
  (w.host.timersWhere fun t => t.cancelled && !t.fired).foldl fireTimer w

def runDeferred (w : World) : World :=
  let codes := w.host.deferred
  codes.foldl evaluateStatic (w.mapHost fun h => { h with deferred := [] })

end World

end LiveChain.Live
