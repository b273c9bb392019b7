import LiveChain.Text.Basic

/-!
# Directive lines

A line that contains a directive keyword loads something. No editable value starts there.
-/

set_option autoImplicit false

namespace LiveChain

open Text

/-- The directive keywords used when none are configured. -/
def standardKeywords : List String := ["loadScript"]

/-- Whether a line contains one of the directive keywords. -/
def isDirective (keywords : List String) (line : List Char) : Bool :=
  keywords.any fun keyword => occursIn keyword.toList line

def lineNumber (text : List Char) (offset : Nat) : Nat := (text.take offset).count '\n'

/-- Whether an offset of a text lies on a directive line. -/
def onDirective (keywords : List String) (text : List Char) (offset : Nat) : Bool :=
  match (lines text)[lineNumber text offset]? with
  | some line => isDirective keywords line
  | none => false

end LiveChain
