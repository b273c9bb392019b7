import LiveChain.Edit.Edits
import LiveChain.Number.Literal

/-!
# Assignments on the command line

An assignment is the ordinal of a value, an equality sign and its new value. What reads as a
number, perhaps with a minus sign, is a number; anything else is a text.
-/

set_option autoImplicit false

namespace LiveChain.Cli

open Text

/-- Why a text is no assignment: it has no equality sign, or what stands before it is no ordinal
or one of too many digits. -/
inductive AssignmentError where
  | noValue (raw : String)
  | badOrdinal (ordinal : List Char)
  | longOrdinal (digits : Nat)
deriving DecidableEq

/-- A bad ordinal is shown up to this many characters. -/
def shownOrdinalLength : Nat := 200

def AssignmentError.message : AssignmentError → String
  | .noValue raw => "expected ORDINAL=VALUE, got " ++ Datum.shownText raw
  | .badOrdinal ordinal =>
    "invalid literal for int() with base 10: " ++
      String.ofList ((quoted ordinal).take shownOrdinalLength)
  | .longOrdinal digits => tooManyDigits digits

/-- The new value that a text stands for: the number that it reads as, or else the text. -/
def assignedValue (cs : List Char) : Datum :=
  let number := match cs with
    | '-' :: rest => (NumberLiteral.read rest).map Number.neg
    | _ => NumberLiteral.read cs
  match number with
  | .ok n => .number n
  | .error _ => .text (String.ofList cs)

def readAssignment (raw : String) : Except AssignmentError (Int × Datum) :=
  let cs := raw.toList
  match cs.dropWhile (· ≠ '=') with
  | [] => .error (.noValue raw)
  | _ :: value =>
    let ordinal := strip (cs.takeWhile (· ≠ '='))
    match readInt ordinal with
    | .ok n => .ok (n, assignedValue (strip value))
    | .error .malformed => .error (.badOrdinal ordinal)
    | .error (.tooLong digits) => .error (.longOrdinal digits)

/-- The edits that assignments make, up to the first that is none. Of two for one value the later
counts. -/
def readAssignments (raws : List String) : Except AssignmentError Edits := do
  let pairs ← raws.mapM readAssignment
  return .ofList (pairs.map fun (n, value) => (.ordinal n, value))

end LiveChain.Cli
