import LiveChain.Config.Checked
import LiveChain.Locate.Parameters
import LiveChain.Value.Slots

/-!
# Declarations from plain data

Parameters of calls and labels of slots may come as plain data. They are checked entry by entry.
-/

set_option autoImplicit false

namespace LiveChain

/-- A declared parameter: a table with a name and possibly a type and a default. Other fields do
not matter. -/
def ParameterInfo.ofDatum : Datum → Checked ParameterInfo
  | .table fields =>
    ((checkRequired fields "name" checkText).map ParameterInfo.mk).seq
        (checkField fields "type" "number" checkText)
      |>.map fun make => make ((Datum.field? fields "default").getD .null)
  | _ => .fail .notRecord

/-! ## Declarations per call -/

/-- Why a table is no set of declarations: a parameter has issues, or there is no list of
parameters to go through. -/
inductive DeclarationError where
  | invalid (issues : List Issue)
  | unlisted

/-- The parts of a datum that can be gone through: the items of a list, the characters of a text,
the names of a table's fields. -/
def Datum.parts? : Datum → Option (List Datum)
  | .list items => some items
  | .text s => some (s.toList.map fun c => .text (String.singleton c))
  | .table fields => some (fields.map fun f => .text f.1)
  | _ => none

/-- The parameters of one call, up to the first that has issues. -/
def declaredInputs : List Datum → Except DeclarationError (List ParameterInfo)
  | [] => .ok []
  | item :: rest =>
    match ParameterInfo.ofDatum item with
    | .invalid issues => .error (.invalid issues)
    | .valid info => (declaredInputs rest).map fun infos => info :: infos

/-- The parameters that the entry of a call lists, in its `inputs` or by itself. -/
def declaredEntry (entry : Datum) : Except DeclarationError (List ParameterInfo) :=
  let listed := match entry with
    | .table fields => (Datum.field? fields "inputs").getD (.list [])
    | other => other
  match listed.parts? with
  | some items => declaredInputs items
  | none => .error .unlisted

def declarations : List (String × Datum) →
    Except DeclarationError (List (String × List ParameterInfo))
  | [] => .ok []
  | (name, entry) :: rest =>
    match declaredEntry entry with
    | .error e => .error e
    | .ok infos => (declarations rest).map fun calls => (name, infos) :: calls

/-! ## Slot names -/

def labelOf (d : Datum) : Checked (Option String) :=
  if d.isBlankLabel then .valid none
  else match d with
    | .text s => .valid (some s)
    | _ => .fail .notText

/-- The labels of the slots; further data are ignored. -/
def labelsOf (data : List Datum) : Checked (List (Option String)) :=
  checkList labelOf (.list (data.take slotCount))

/-- Slot names from labels that may be any data. Blank data give the default name. -/
def SlotNames.ofData (sources outputs : List Datum) : Checked SlotNames :=
  (((labelsOf sources).within (.field "sources")).map SlotNames.ofLabels).seq
    ((labelsOf outputs).within (.field "outputs"))

end LiveChain
