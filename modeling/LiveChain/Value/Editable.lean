import LiveChain.Value.Slots

/-!
# Editable values

What is known of a number or a reference in a snippet, with the parameter that it is for.
-/

set_option autoImplicit false

namespace LiveChain

/-- A number or a reference found in a snippet. Its ordinal counts the values in text order. -/
structure EditableValue where
  value : Datum
  kind : ValueKind
  line : Int
  column : Int
  length : Int
  ordinal : Nat
  callName : String
  callAnchorColumn : Int
  parameterIndex : Nat
  parameterName : String
  parameterType : String
  parameterDefault : Datum
  key : String
  callSiteId : String
  options : List String

def EditableValue.isNumber (v : EditableValue) : Bool := v.kind == .number

end LiveChain
