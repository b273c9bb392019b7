import LiveChain.Edit.Apply
import LiveChain.Live.Host
import LiveChain.Locate.Discover
import LiveChain.Sorted

/-!
# Live sessions

A session tracks one snippet of the document, the values found in it and the edits that are
pending. A value is live when the running code reads it from a variable.
-/

set_option autoImplicit false

namespace LiveChain.Live

open Editor Text

/-- What a session is set up with: names, declared parameters, directive keywords, the expression
that stands for a live value, and the quiet time before a commit. -/
structure Settings where
  names : SlotNames
  registry : Registry
  keywords : List String
  placeholder : String → String
  delay : Binary64

inductive Phase where
  | idle
  | liveBound
  | committing
deriving DecidableEq, Repr

def Phase.name : Phase → String
  | .idle => "idle"
  | .liveBound => "live_bound"
  | .committing => "committing"

/-- The state of a session. The pending commit is the number of its timer. -/
structure Session where
  settings : Settings
  phase : Phase
  text : Option (List Char)
  range : Option Range
  program : Option Program
  values : List EditableValue
  edits : Edits
  live : List Int
  pending : Option Nat
  updating : Bool

def Session.fresh (settings : Settings) : Session :=
  ⟨settings, .idle, none, none, none, [], [], [], none, false⟩

structure World where
  session : Session
  host : Host

namespace Session

def valueAt? (s : Session) (ordinal : Int) : Option EditableValue :=
  s.values.find? fun v => (v.ordinal : Int) = ordinal

/-- The found values with the pending edits in place. -/
def parameters (s : Session) : List EditableValue :=
  s.values.map fun v =>
    match s.edits.get? (.ordinal v.ordinal) with
    | some value => { v with value := value }
    | none => v

def resetEdits (s : Session) : Session := { s with edits := [], live := [], phase := .idle }

/-! ## Code -/

def codeWith (s : Session) (edits : Edits) : Noted (List Char) :=
  applyEdits s.settings.names s.settings.keywords s.program (s.text.getD []) edits

/-- The snippet with every pending edit written into it. -/
def staticCode (s : Session) : Noted (List Char) := s.codeWith s.edits

end Session

/-- Why there is no live code. -/
inductive LiveError where
  | unchanged
  | noValue (ordinal : Int)
  | edit (e : EditError)

/-- The text of an error; none when an integer in it is too long to be shown. -/
def LiveError.message? : LiveError → Option String
  | .unchanged => some "placeholder rewrite left the snippet unchanged"
  | .noValue ordinal => some ("no editable value with ordinal " ++ toString ordinal)
  | .edit e => e.message?

namespace Session

/-- The variable that a live value is read from. -/
def variableOf (s : Session) (ordinal : Int) : Except LiveError String :=
  match s.valueAt? ordinal with
  | some v => .ok v.key
  | none => .error (.noValue ordinal)

def assignment (s : Session) (ordinal : Int) : Except LiveError (List Char) := do
  let name ← s.variableOf ordinal
  let value := (s.edits.get? (.ordinal ordinal)).getD .null
  let text ← (replacement value).mapError .edit
  return name.toList ++ " = ".toList ++ text

/-- The assignments to the variables of all live values, by ordinal. -/
def assignments (s : Session) : Except LiveError (List Char) := do
  let all ← (sortBy (fun a b => a ≤ b) s.live).mapM s.assignment
  return (all.intersperse ";\n".toList).flatten

/-- The pending edits with placeholders for the live values. -/
def placeholders (s : Session) : Except LiveError Edits :=
  s.live.foldlM (fun edits ordinal => do
    let name ← s.variableOf ordinal
    return edits.insert (.ordinal ordinal) (.text (s.settings.placeholder name))) s.edits

/-- The assignments to the live values' variables, then the snippet in which placeholders read
them and all other edits are written out. -/
def liveCode (s : Session) : Noted (Except LiveError (List Char)) :=
  match s.placeholders with
  | .error e => ⟨.error e, []⟩
  | .ok edits =>
    let code := s.codeWith edits
    if s.text = some code.result then ⟨.error .unchanged, code.notices⟩
    else
      ⟨s.assignments.map fun head => head ++ ";\n".toList ++ code.result, code.notices⟩

end Session

end LiveChain.Live
