import LiveChain.Syntax.Convert
import LiveChain.Syntax.Cursor
import LiveChain.Syntax.Ending
import LiveChain.Syntax.Token

/-!
# Grammar rules

A rule reads a construct at a cursor and leaves the cursor right behind its last token. White
space and comments before a token belong to nobody.

* `Rule`: a rule that may fail.
* `Rule.iterate`: repetition, bounded by the length of the text.
* `peekPunctuator`, `peekWord`: the next token, without passing it.
* `punct`, `keyword`, `word`: tokens.
* `place`, `node`: where a construct starts, and the node it becomes.
* `endsHere`, `endStatement`: the end of a statement.
-/

set_option autoImplicit false

namespace LiveChain.Syntax

/-- A grammar rule: reads at a cursor, or fails. -/
abbrev Rule (α : Type) := StateT Cursor Option α

inductive Round (σ α : Type) where
  | again (state : σ)
  | done (result : α)

def Rule.repeatUpTo {σ α : Type} (round : σ → Rule (Round σ α)) : Nat → σ → Rule α
  | 0, _ => failure
  | fuel + 1, state => do
    match ← round state with
    | .again next => Rule.repeatUpTo round fuel next
    | .done result => pure result

/-- Repeats a round until it is done. Rounds pass at least one character, so the length of what
is left bounds their number. -/
def Rule.iterate {σ α : Type} (round : σ → Rule (Round σ α)) (state : σ) : Rule α := do
  let c ← get
  Rule.repeatUpTo round (c.rest.length + 1) state

/-! ## Looking ahead -/

/-- The text behind the white space and comments at the cursor. -/
def upcoming : Rule (List Char) := do
  let c ← get
  return c.rest.drop (triviaLength c.rest)

/-- The next token when it is a punctuator, else the empty text. -/
def peekPunctuator : Rule String := return punctuator (← upcoming)

/-- The word at the start of a text, or the empty text. -/
def wordOf (cs : List Char) : String := String.ofList (cs.take (wordLength cs))

/-- The next token when it is a word, else the empty text. -/
def peekWord : Rule String := return wordOf (← upcoming)

def behindWord : Rule (List Char) := do
  let cs ← upcoming
  return cs.drop (wordLength cs)

/-- The text behind the next word and the white space and comments after it. -/
def upcomingAfterWord : Rule (List Char) := do
  let rest ← behindWord
  return rest.drop (triviaLength rest)

/-- The punctuator behind the next word, or the empty text. -/
def punctuatorAfterWord : Rule String := return punctuator (← upcomingAfterWord)

/-! ## Passing tokens -/

def passTrivia : Rule Unit := modify fun c => c.skip (triviaLength c.rest)

/-- Passes white space and comments and gives the place of the next token. -/
def place : Rule Place := do
  passTrivia
  return (← get).place

def pass (n : Nat) : Rule String := do
  let c ← get
  set (c.skip n)
  return String.ofList (c.rest.take n)

def spanFrom (start : Place) : Rule Span := return Span.between start (← get).place

def punct (p : String) : Rule Unit := do
  passTrivia
  let c ← get
  if punctuator c.rest == p then
    set (c.skip p.length)
  else failure

def word : Rule String := do
  passTrivia
  let c ← get
  let n := wordLength c.rest
  if n = 0 then failure else pass n

def keyword (k : String) : Rule Unit := do
  if (← word) == k then pure () else failure

/-- Reads a punctuator if it comes next, and says whether it did. -/
def optionalPunct (p : String) : Rule Bool := do
  if (← peekPunctuator) == p then
    punct p
    return true
  else return false

/-- Reads a word if it comes next, and says whether it did. -/
def optionalKeyword (k : String) : Rule Bool := do
  if (← peekWord) == k then
    keyword k
    return true
  else return false

/-- A node of another kind from a place to the cursor. -/
def node (start : Place) (kind : String) (nodes : List Node) : Rule Node :=
  return .other (← spanFrom start) kind nodes

/-- A word as a node without parts. -/
def wordNode (kind : String) : Rule Node := do
  let start ← place
  let _ ← word
  node start kind []

def identifier : Rule Node := do
  let start ← place
  let name ← word
  if isIdentifier name then return .identifier (← spanFrom start) name else failure

/-! ## Leaves -/

def numberLiteral : Rule Node := do
  let start ← place
  match numberToken? (← get).rest with
  | none => failure
  | some n =>
    let raw ← pass n
    match NumberLiteral.value? raw.toList with
    | some value => return .literal (← spanFrom start) (.number value) raw
    | none => failure

/-- A string literal: its value is the text between the quotes, escapes as written. -/
def stringLiteral : Rule Node := do
  let start ← place
  match stringToken? (← get).rest with
  | none => failure
  | some n =>
    let raw ← pass n
    return .literal (← spanFrom start) (.text (unquoted raw)) raw

def regexLiteral : Rule Node := do
  let start ← place
  let _ ← pass 1
  match regexBody? (← get).rest with
  | none => failure
  | some n =>
    let bodyStart := (← get).place
    let _ ← pass n
    let body ← node bodyStart "regex_pattern" []
    let _ ← pass 1
    let flagStart := (← get).place
    let count := regexFlags (← get).rest
    if count = 0 then node start "regex" [body]
    else
      let _ ← pass count
      let flags ← node flagStart "regex_flags" []
      node start "regex" [body, flags]

/-! ## Ends of statements -/

/-- Whether the statement ends here without a semicolon. -/
def endsHere (early : Bool) : Rule Bool := return statementEnds early (← get).rest

/-- Passes the comments before the place where the statement ends by itself, if it does. -/
def passToEnd (early : Bool) : Rule Unit := do
  match statementEnd? early (← get).rest with
  | some n => modify fun c => c.skip n
  | none => pure ()

/-- Passes the end of a statement: a place where it ends by itself, or a semicolon. -/
def endStatement (early : Bool) : Rule Unit := do
  if ← endsHere early then pure () else punct ";"

end LiveChain.Syntax
