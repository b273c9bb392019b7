import LiveChain.Datum
import LiveChain.Notice

/-!
# Declared parameters

A registry tells which parameters a call declares. A lookup may fail; then, and where nothing is
declared, a parameter gets a name made from its position.
-/

set_option autoImplicit false

namespace LiveChain

/-- Name, type and default of one declared parameter. -/
structure ParameterInfo where
  name : String
  type : String
  default : Datum
deriving Inhabited

inductive Lookup where
  | undeclared
  | inputs (infos : List ParameterInfo)
  | failure

/-- A source of declared parameters per call name. -/
structure Registry where
  lookup : String → Lookup

/-- The registry of fixed declarations; the last one of a name counts. -/
def Registry.ofCalls (calls : List (String × List ParameterInfo)) : Registry where
  lookup name :=
    match calls.reverse.find? fun call => call.1 == name with
    | some (_, infos) => .inputs infos
    | none => .undeclared

def Registry.failing : Registry := ⟨fun _ => .failure⟩

def Registry.declares (registry : Registry) (name : String) : Bool :=
  match registry.lookup name with
  | .inputs _ => true
  | _ => false

/-- The name of the parameter at a position that has no declared one. -/
def positionName (index : Int) : String := "val" ++ toString (index + 1)

/-- The parameter at a position that nothing is declared for. -/
def undeclaredParameter (index : Int) : ParameterInfo := ⟨positionName index, "number", .null⟩

def declaredAt? (infos : List ParameterInfo) (index : Int) : Option ParameterInfo :=
  if index < 0 then none else infos[index.toNat]?

/-- What is known of an argument position. A failed lookup is reported and counts as nothing
declared; a declared parameter without a name is named after its position. -/
def resolveParameter (registry : Option Registry) (callName : String) (index : Int) :
    Noted ParameterInfo :=
  match registry with
  | none => ⟨undeclaredParameter index, []⟩
  | some r =>
    match r.lookup callName with
    | .failure =>
      ⟨undeclaredParameter index,
        [⟨.warning, .parameters, "Parameter registry lookup failed for " ++ callName⟩]⟩
    | .undeclared => ⟨undeclaredParameter index, []⟩
    | .inputs infos =>
      match declaredAt? infos index with
      | none => ⟨undeclaredParameter index, []⟩
      | some info =>
        ⟨if info.name.isEmpty then { info with name := positionName index } else info, []⟩

end LiveChain
