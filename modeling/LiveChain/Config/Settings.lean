import LiveChain.Config.Declared
import LiveChain.Live.Session
import LiveChain.Scan.Directive

/-!
# Configuration

What a user can configure: the quiet time before a commit, directive keywords, the placeholder
for live values, labels of the slots, and the declared parameters of calls.
-/

set_option autoImplicit false

namespace LiveChain

open Text

structure Config where
  quietTime : Binary64
  directiveKeywords : List String
  placeholderTemplate : String
  sourceLabels : List (Option String)
  outputLabels : List (Option String)
  parameters : List (String × List ParameterInfo)

/-- The part of a placeholder template that stands for the variable. -/
def placeholderField : String := "\x7bname\x7d"

namespace Config

/-- The configuration used when nothing is set. -/
def standard : Config where
  quietTime := .ofInt 2
  directiveKeywords := standardKeywords
  placeholderTemplate := "() => " ++ placeholderField
  sourceLabels := []
  outputLabels := []
  parameters := []

def names (c : Config) : SlotNames := .ofLabels c.sourceLabels c.outputLabels

/-- The declared parameters by the name of their call. -/
def registry (c : Config) : Registry := .ofCalls c.parameters

def placeholder (c : Config) (name : String) : String :=
  String.ofList (replaceAll placeholderField.toList name.toList c.placeholderTemplate.toList)

def settings (c : Config) : Live.Settings :=
  ⟨c.names, c.registry, c.directiveKeywords, c.placeholder, c.quietTime⟩

/-! ## Checks of the fields -/

/-- A text that is a number: padding around it, or single underscores inside it. -/
def numberOfText? (s : String) : Option Binary64 :=
  let cs := s.toList
  let unseparated :=
    if wellSeparated cs then readSigned? (cs.filter (· ≠ '_')) else none
  (readSigned? (stripPadding cs)).or unseparated

/-- A number, a truth value, or a text that is a number. Integers beyond the doubles are no
numbers here. -/
def checkNumber : Datum → Checked Binary64
  | .bool b => .valid (.ofInt (if b then 1 else 0))
  | .number (.float x) => .valid x
  | .number (.int n) =>
    match Binary64.ofInt n with
    | .finite x => .valid (.finite x)
    | _ => .fail .notNumber
  | .text s =>
    match numberOfText? s with
    | some x => .valid x
    | none => .fail .unreadableNumber
  | _ => .fail .notNumber

def checkQuietTime (d : Datum) : Checked Binary64 :=
  (checkNumber d).bind fun x => if x.isPositive then .valid x else .fail .notPositive

def checkTemplate (d : Datum) : Checked String :=
  (checkText d).bind fun s =>
    if occursIn placeholderField.toList s.toList then .valid s else .fail .unacceptable

def checkLabels (d : Datum) : Checked (List (Option String)) :=
  (checkList checkOptionalText d).bind fun labels =>
    if labels.length ≤ slotCount then .valid labels else .fail .unacceptable

/-- The declared parameters of one call: a table with nothing but `inputs`. -/
def checkCall : Datum → Checked (List ParameterInfo)
  | .table fields =>
    (checkField fields "inputs" [] (checkList ParameterInfo.ofDatum)).also
      (checkKnown ["inputs"] fields)
  | _ => .fail .notRecord

def checkParameters : Datum → Checked (List (String × List ParameterInfo))
  | .table fields =>
    .all (fields.map fun (name, entry) =>
      ((checkCall entry).within (.field name)).map fun infos => (name, infos))
  | _ => .fail .notTable

def fieldNames : List String :=
  ["debounce_seconds", "directive_keywords", "placeholder_template", "source_labels",
    "output_labels", "parameters"]

/-- A configuration from plain data. Fields that are left out have their standard values, other
fields are issues. -/
def ofDatum : Datum → Checked Config
  | .table fields =>
    ((checkField fields "debounce_seconds" standard.quietTime checkQuietTime).map Config.mk)
      |>.seq (checkField fields "directive_keywords" standard.directiveKeywords
        (checkList checkText))
      |>.seq (checkField fields "placeholder_template" standard.placeholderTemplate checkTemplate)
      |>.seq (checkField fields "source_labels" [] checkLabels)
      |>.seq (checkField fields "output_labels" [] checkLabels)
      |>.seq (checkField fields "parameters" [] checkParameters)
      |>.also (checkKnown fieldNames fields)
  | _ => .fail .notRecord

end Config

end LiveChain
