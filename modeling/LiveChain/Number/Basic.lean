import LiveChain.Number.Binary64

/-!
# Numbers

Integers of any size and doubles are told apart: `10` and `10.0` are different numbers.
-/

set_option autoImplicit false

namespace LiveChain

/-- An integer of any size or a double. -/
inductive Number where
  | int (n : Int)
  | float (x : Binary64)
deriving DecidableEq, Inhabited

def Number.neg : Number → Number
  | .int n => .int (-n)
  | .float x => .float x.neg

def Number.toBinary64 : Number → Binary64
  | .int n => .ofInt n
  | .float x => x

end LiveChain
