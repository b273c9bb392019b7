import LiveChain.Editor.Document
import LiveChain.Notice
import LiveChain.Number.Binary64

/-!
# The host of a live session

A live session runs inside an editor that has a document, something that evaluates code, and a
clock. The host is a value: what it has been asked to do is recorded, and what it refuses is
decided by two functions of that record, so every pattern of failures is some host.
-/

set_option autoImplicit false

namespace LiveChain.Live

open Editor

/-- A call to the document: reading a range, replacing one, and the two ends of an undo step. -/
inductive BufferCall where
  | get
  | replace
  | opening
  | closing
deriving DecidableEq, Repr

def BufferCall.name : BufferCall → String
  | .get => "get"
  | .replace => "replace"
  | .opening => "begin"
  | .closing => "end"

/-- A request to be called after a delay: it may be cancelled or have fired, and a cancelled one
may have been called all the same. -/
structure Timer where
  delay : Binary64
  cancelled : Bool
  fired : Bool

/-- Whether a timer has neither been cancelled nor fired. -/
def Timer.isPending (t : Timer) : Bool := !t.cancelled && !t.fired

/-- The host of a session. `rejects` says whether the newest of the evaluated codes fails, and
`breaks` whether the newest of the calls to the document does, each with a message; `echoes` says
which lines the document calls changed during the newest call of a write over a range. All three see
the whole record, newest first. -/
structure Host where
  document : List Char
  rejects : List (List Char) → Option String
  breaks : List BufferCall → Option String
  echoes : List BufferCall → Range → List (Int × Int)
  listens : Bool
  timers : List Timer
  deferred : List (List Char)
  evaluated : List (List Char)
  calls : List BufferCall
  reports : List String
  notices : List Notice

namespace Host

/-- A replacement changes the lines of its range. -/
def echoReplaced : List BufferCall → Range → List (Int × Int)
  | .replace :: _, r => [(r.start.line, r.stop.line)]
  | _, _ => []

/-- A host with a document, before anything has happened. -/
def opened (document : List Char) (rejects : List (List Char) → Option String)
    (breaks : List BufferCall → Option String) (listens : Bool) : Host :=
  ⟨document, rejects, breaks, echoReplaced, listens, [], [], [], [], [], []⟩

/-- Evaluates a code; the result is the message of a failure. -/
def evaluate (h : Host) (code : List Char) : Host × Option String :=
  let record := code :: h.evaluated
  ({ h with evaluated := record }, h.rejects record)

/-- Records a call to the document; the result is the message of a failure. -/
def call (h : Host) (c : BufferCall) : Host × Option String :=
  let record := c :: h.calls
  ({ h with calls := record }, h.breaks record)

def getRange (h : Host) (r : Range) : Host × Except String (List Char) :=
  match h.call .get with
  | (h, some message) => (h, .error message)
  | (h, none) => (h, .ok (read h.document r))

/-- Starts a timer and gives its number. -/
def callLater (h : Host) (delay : Binary64) : Host × Nat :=
  ({ h with timers := h.timers ++ [⟨delay, false, false⟩] }, h.timers.length)

def modifyTimer (h : Host) (id : Nat) (f : Timer → Timer) : Host :=
  { h with timers := h.timers.modify id f }

def cancelTimer (h : Host) (id : Nat) : Host :=
  h.modifyTimer id fun t => { t with cancelled := true }

def markFired (h : Host) (id : Nat) : Host :=
  h.modifyTimer id fun t => { t with fired := true }

/-- The numbers of the timers that satisfy a condition, oldest first. -/
def timersWhere (h : Host) (p : Timer → Bool) : List Nat :=
  (List.range h.timers.length).filter fun id =>
    match h.timers[id]? with
    | some t => p t
    | none => false

/-- The delays of the timers that are still to fire. -/
def pendingDelays (h : Host) : List Binary64 :=
  (h.timers.filter Timer.isPending).map (·.delay)

def defer (h : Host) (code : List Char) : Host := { h with deferred := h.deferred ++ [code] }

/-- Tells the user something, if anybody listens. -/
def report (h : Host) (message : String) : Host :=
  if h.listens then { h with reports := message :: h.reports } else h

def note (h : Host) (n : Notice) : Host := { h with notices := n :: h.notices }

def noteAll (h : Host) (ns : List Notice) : Host := ns.foldl note h

/-- Forgets the record of past calls, reports and notices. -/
def forget (h : Host) : Host :=
  { h with evaluated := [], calls := [], reports := [], notices := [] }

end Host

end LiveChain.Live
