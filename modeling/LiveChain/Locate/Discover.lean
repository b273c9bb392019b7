import LiveChain.Locate.Values
import LiveChain.Syntax.Parse

/-!
# Discovering editable values

Parsing and locating in one step.
-/

set_option autoImplicit false

namespace LiveChain

/-- The editable values of a text. A text that is no program has none. -/
def discover (names : SlotNames) (registry : Option Registry) (keywords : List String)
    (text : List Char) : Noted (List EditableValue) :=
  if text.isEmpty then ⟨[], []⟩
  else match parseProgram text with
    | .ok p => locate names registry keywords (some p) text
    | .error _ => ⟨[], []⟩

end LiveChain
