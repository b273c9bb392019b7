import LiveChain.Number.Reading
import LiveChain.Toml.Reader

/-!
# Texts in a TOML document

A basic text stands between double quotes and may have escapes; a literal text stands between
single quotes and has none. Each can run over several lines between three quotes.
-/

set_option autoImplicit false

namespace LiveChain.Toml

/-! ## Where a text ends -/

/-- Whether a character may not stand in a text of one or of several lines. -/
def isForbiddenIn (multiline : Bool) (c : Char) : Bool :=
  isForbidden c && !(multiline && c == '\n')

/-- Splits a text at the first `close`; no forbidden character may come before it. -/
def splitLiteral? (multiline : Bool) (close : List Char) :
    List Char → Option (List Char × List Char)
  | [] => none
  | c :: cs =>
    if close.isPrefixOf (c :: cs) then some ([], (c :: cs).drop close.length)
    else if isForbiddenIn multiline c then none
    else (splitLiteral? multiline close cs).map fun (body, rest) => (c :: body, rest)

/-- Splits a text at the first `close` that no backslash escapes. -/
def splitBasic? (multiline : Bool) (close : List Char) :
    List Char → Option (List Char × List Char)
  | [] => none
  | '\\' :: [] => none
  | '\\' :: c :: cs =>
    (splitBasic? multiline close cs).map fun (body, rest) => ('\\' :: c :: body, rest)
  | c :: cs =>
    if close.isPrefixOf (c :: cs) then some ([], (c :: cs).drop close.length)
    else if isForbiddenIn multiline c then none
    else (splitBasic? multiline close cs).map fun (body, rest) => (c :: body, rest)

/-! ## Escapes -/

/-- The character that a one-letter escape stands for. -/
def escaped? : Char → Option Char
  | 'b' => some '\x08'
  | 't' => some '\t'
  | 'n' => some '\n'
  | 'f' => some '\x0c'
  | 'r' => some '\r'
  | '"' => some '"'
  | '\\' => some '\\'
  | _ => none

/-- Whether a character is an ASCII hexadecimal digit. -/
def isHexDigit (c : Char) : Bool :=
  c.isDigit || ('a' ≤ c && c ≤ 'f') || ('A' ≤ c && c ≤ 'F')

/-- The character with a code point in hexadecimal digits. -/
def codePoint? (digits : List Char) : Option Char :=
  if digits.all isHexDigit then
    (positional? 16 digits).bind fun n =>
      if n.isValidChar then some (Char.ofNat n) else none
  else none

/-- What follows a backslash at the end of a line: the blanks up to the line break, which must
come, and all white space after it. -/
def afterLineEnd? (cs : List Char) : Option (List Char) :=
  match cs.dropWhile isGap with
  | '\n' :: rest => some (rest.dropWhile isGapOrBreak)
  | _ => none

/-- A line end takes at least one character. -/
theorem length_afterLineEnd? {cs rest : List Char} (h : afterLineEnd? cs = some rest) :
    rest.length < cs.length := by
  unfold afterLineEnd? at h
  split at h
  · next body heq =>
    cases h
    have h1 := (List.dropWhile_suffix (l := body) isGapOrBreak).length_le
    have h2 := (List.dropWhile_suffix (l := cs) isGap).length_le
    rw [heq, List.length_cons] at h2
    omega
  · cases h

/-- The characters that the body of a basic text stands for. Only a text of several lines may
have a backslash at the end of a line. -/
def unescape (multiline : Bool) (cs : List Char) : Option (List Char) :=
  match cs with
  | [] => some []
  | '\\' :: 'u' :: a :: b :: c :: d :: rest => do
    let x ← codePoint? [a, b, c, d]
    return x :: (← unescape multiline rest)
  | '\\' :: 'U' :: a :: b :: c :: d :: e :: f :: g :: h :: rest => do
    let x ← codePoint? [a, b, c, d, e, f, g, h]
    return x :: (← unescape multiline rest)
  | '\\' :: rest =>
    match rest with
    | [] => none
    | e :: more =>
      match escaped? e with
      | some x => (unescape multiline more).map fun xs => x :: xs
      | none =>
        if multiline && isGapOrBreak e then
          match _hmore : afterLineEnd? (e :: more) with
          | some after => unescape multiline after
          | none => none
        else none
  | c :: rest => (unescape multiline rest).map fun xs => c :: xs
termination_by cs.length
decreasing_by
  all_goals simp_wf
  all_goals try omega
  have := length_afterLineEnd? _hmore
  simp only [List.length_cons] at this ⊢
  omega

/-! ## Readers -/

def basicText : Reader String := do
  expect ['"']
  let body ← requireRest (splitBasic? false ['"'] (← get))
  return String.ofList (← require (unescape false body))

def literalText : Reader String := do
  expect ['\'']
  return String.ofList (← requireRest (splitLiteral? false ['\''] (← get)))

/-- Up to two quotes directly behind the closing ones belong to the text. -/
def trailingQuotes (quote : Char) : Reader (List Char) := do
  if ← optional [quote] then
    if ← optional [quote] then return [quote, quote] else return [quote]
  else return []

/-- A text of several lines between three quotes. A line break right behind the opening quotes
does not count. -/
def multilineText (quote : Char) : Reader String := do
  let fence := [quote, quote, quote]
  expect fence
  let _ ← optional ['\n']
  let body ←
    if quote == '"' then
      let raw ← requireRest (splitBasic? true fence (← get))
      require (unescape true raw)
    else requireRest (splitLiteral? true fence (← get))
  return String.ofList (body ++ (← trailingQuotes quote))

def anyText (quote : Char) : Reader String := do
  let cs ← get
  if [quote, quote, quote].isPrefixOf cs then multilineText quote
  else if quote == '"' then basicText
  else literalText

end LiveChain.Toml
