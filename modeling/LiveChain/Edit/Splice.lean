import LiveChain.Edit.Edits
import LiveChain.Number.Precision
import LiveChain.Scan.Spans
import LiveChain.Sorted

/-!
# Splicing edits into a text

An edit is written as a text: a number with the precision that fits it, a text as it is. The
texts replace the spans of the edited values.
-/

set_option autoImplicit false

namespace LiveChain

open Text

/-- Start and end of a value, or the word for a missing one. -/
def shownPlace : Option (Int × Int) → String
  | some (start, stop) => "(" ++ toString start ++ ", " ++ toString stop ++ ")"
  | none => "None"

inductive EditError where
  | unsupported (value : Datum)
  | tooLarge (n : Int)
  | misaligned (ordinal : Int) (inText inTree : Option (Int × Int))
  | notCode (result : List Char)
  | mixedTargets

/-- The text of an edit error; none when it would have to show an integer that is too long, or
has no text. -/
def EditError.message? : EditError → Option String
  | .unsupported value => value.shown?.map fun s => "unsupported substitution value " ++ s
  | .tooLarge n => (showInt? n).map fun s => "number too large to write back: " ++ s
  | .misaligned ordinal inText inTree =>
    some ("value " ++ toString ordinal ++ " spans " ++ shownPlace inText ++
      " in the text but " ++ shownPlace inTree ++ " in the syntax tree")
  | .notCode result =>
    some ("Invalid generated code: " ++ String.ofList (quoted result))
  | .mixedTargets => none

/-- The text of an edit: numbers with the precision that fits them, texts as they are. -/
def replacement : Datum → Except EditError (List Char)
  | .text s => .ok s.toList
  | .number n =>
    match n.written?, n with
    | some cs, _ => .ok cs
    | none, .int k => .error (.tooLarge k)
    | none, n => .error (.unsupported (.number n))
  | value => .error (.unsupported value)

/-- A text being spliced: what it is so far, and by how much the later spans have moved. -/
structure Spliced where
  text : List Char
  shift : Int

def Spliced.replace (s : Spliced) (span : ValueSpan) (new : List Char) : Spliced :=
  ⟨upTo s.text (span.start + s.shift) ++ new ++ fromOn s.text (span.stop + s.shift),
    s.shift + new.length - (span.stop - span.start)⟩

/-- Replaces the edited ones among spans in text order. -/
def spliceFrom (edits : Edits) : List ValueSpan → Spliced → Except EditError Spliced
  | [], s => .ok s
  | span :: rest, s =>
    match edits.get? (.ordinal span.index) with
    | none => spliceFrom edits rest s
    | some value =>
      match replacement value with
      | .ok new => spliceFrom edits rest (s.replace span new)
      | .error e => .error e

/-- Whether some edits without a span are for ordinals and some for words. -/
def strayMixture (spans : List ValueSpan) (edits : Edits) : Bool :=
  let stray := edits.filter fun e => match e.1 with
    | .ordinal n => !spans.any fun span => span.index = n
    | .word _ => true
  let words := stray.filter fun e => match e.1 with
    | .ordinal _ => false
    | .word _ => true
  !words.isEmpty && words.length < stray.length

/-- The text with the edited spans replaced, from left to right. -/
def splice (text : List Char) (spans : List ValueSpan) (edits : Edits) :
    Except EditError (List Char) :=
  match spliceFrom edits (sortBy (fun a b => a.start ≤ b.start) spans) ⟨text, 0⟩ with
  | .error e => .error e
  | .ok s => if strayMixture spans edits then .error .mixedTargets else .ok s.text

end LiveChain
