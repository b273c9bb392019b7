/-!
# Setting up reports

Reports go out from a certain severity on. They are set up once; later requests change nothing,
not even when the first one failed.
-/

set_option autoImplicit false

namespace LiveChain

/-- A letter as a capital. The dotless i and the long s have ASCII capitals, too. -/
def capital (c : Char) : Char :=
  if c == 'ı' then 'I' else if c == 'ſ' then 'S' else c.toUpper

/-- The number of a named severity; case does not matter. -/
def severity? (name : String) : Option Nat :=
  match String.ofList (name.toList.map capital) with
  | "NOTSET" => some 0
  | "DEBUG" => some 10
  | "INFO" => some 20
  | "WARNING" => some 30
  | "WARN" => some 30
  | "ERROR" => some 40
  | "CRITICAL" => some 50
  | "FATAL" => some 50
  | _ => none

/-- How reports are set up: whether a request was made, from which severity on they go out, to
how many outlets, and from which severity on those of the parser do. -/
structure Reporting where
  requested : Bool
  threshold : Nat
  outlets : Nat
  parserThreshold : Nat
deriving DecidableEq, Repr

namespace Reporting

def initial : Reporting := ⟨false, 30, 0, 0⟩

/-- A request for a severity. The first one counts, and it fails when there is no such
severity; the second part says whether the request was in order. -/
def setUp (r : Reporting) (name : String) : Reporting × Bool :=
  if r.requested then (r, true)
  else match severity? name with
    | none => ({ r with requested := true }, false)
    | some n => (⟨true, n, r.outlets + 1, 30⟩, true)

end Reporting

end LiveChain
