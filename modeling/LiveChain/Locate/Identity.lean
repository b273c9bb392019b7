/-!
# Keys of values and calls

A value is known by a key made of its call, its parameter and its place; all values of one call
share a call-site id.
-/

set_option autoImplicit false

namespace LiveChain

/-- What is missing to make a key, with what is known of the place. -/
inductive IdentityError where
  | noCallName (line column : Option Int)
  | noPosition (callName : String) (line : Option Int)
  | noLine (callName : String) (column : Option Int)
deriving DecidableEq, Repr

/-- A number, or the word for a missing one. -/
def shownInt : Option Int → String
  | some n => toString n
  | none => "None"

def IdentityError.message : IdentityError → String
  | .noCallName line column => text "Missing function name" "unknown" line column
  | .noPosition callName line => text "Missing position information" callName line none
  | .noLine callName column => text "Missing line number" callName none column
where
  text (what call : String) (line column : Option Int) : String :=
    "Key generation error: " ++ what ++ " (at " ++ call ++ ", line " ++ shownInt line ++
      ", col " ++ shownInt column ++ ")"

/-- The key of a value: call, parameter (its name, or its number when it has no name), line and
column. -/
def valueKey (callName parameterName : Option String) (parameterIndex line column : Option Int) :
    Except IdentityError String :=
  let call := callName.getD ""
  if call.isEmpty then .error (.noCallName line column)
  else match line, column with
    | some l, some c =>
      let name := parameterName.getD ""
      let parameter := if name.isEmpty then "param" ++ shownInt parameterIndex else name
      .ok (call ++ "_" ++ parameter ++ "_line" ++ toString l ++ "_pos" ++ toString c ++ "_value")
    | _, _ => .error (.noPosition call none)

/-- The id shared by all values of one call: the call's name, line and column. -/
def callSiteId (callName : Option String) (line anchorColumn : Option Int) :
    Except IdentityError String :=
  let call := callName.getD ""
  if call.isEmpty then .error (.noCallName line anchorColumn)
  else match line, anchorColumn with
    | some l, some c => .ok (call ++ "_line" ++ toString l ++ "_pos" ++ toString c)
    | some l, none => .error (.noPosition call (some l))
    | none, c => .error (.noLine call c)

end LiveChain
