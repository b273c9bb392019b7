/-!
# Notices

What the library reports besides its results. A notice is data: nothing is printed here.
-/

set_option autoImplicit false

namespace LiveChain

inductive Level where
  | info
  | warning
  | error
deriving DecidableEq, Repr

def Level.name : Level → String
  | .info => "INFO"
  | .warning => "WARNING"
  | .error => "ERROR"

/-- The part of the library that a notice comes from. -/
inductive Area where
  | locating
  | parameters
  | editing
  | live
deriving DecidableEq, Repr

def Area.name : Area → String
  | .locating => "locate.locator"
  | .parameters => "locate.params"
  | .editing => "rewrite.rewriter"
  | .live => "live.orchestrator"

structure Notice where
  level : Level
  area : Area
  message : String
deriving DecidableEq, Repr

/-- A notice on one line: level, area and message. -/
def Notice.line (n : Notice) : String := n.level.name ++ " " ++ n.area.name ++ ": " ++ n.message

/-- A result together with the notices on the way to it, in order. -/
structure Noted (α : Type) where
  result : α
  notices : List Notice

end LiveChain
