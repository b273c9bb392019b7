import LiveChain.Text.Basic

/-!
# Characters, words and punctuators of the snippet language

What separates tokens, and how far words and punctuators reach. A word may have characters of any
script, and escapes; whether it is a name is decided afterwards.
-/

set_option autoImplicit false

namespace LiveChain.Syntax

/-! ## White space and comments -/

/-- Code points of white space between tokens: ASCII blanks, the Unicode spaces and separators,
and the invisible characters U+200B, U+2060 and U+FEFF. -/
def spaceRanges : List (Nat × Nat) :=
  [(9, 13), (32, 32), (160, 160), (5760, 5760), (8192, 8203), (8232, 8233), (8239, 8239),
   (8287, 8288), (12288, 12288), (65279, 65279)]

def isSpace (c : Char) : Bool := Text.inRanges spaceRanges c.toNat

/-- Characters after which a statement may end without a semicolon. -/
def isLineBreak (c : Char) : Bool := c == '\n' || c.toNat == 0x2028 || c.toNat == 0x2029

/-- The length of the rest of a comment that ends with its line. -/
def lineCommentTail (cs : List Char) : Nat :=
  (cs.takeWhile fun c => !isLineBreak c && c != '\r').length

/-- The length of a block comment after its opening, through its end. -/
def blockCommentTail? : List Char → Option Nat
  | [] => none
  | '*' :: '/' :: _ => some 2
  | _ :: cs => (blockCommentTail? cs).map (· + 1)

/-- The length of the closed comment that a text starts with, or zero. -/
def commentLength : List Char → Nat
  | '/' :: '/' :: cs => 2 + lineCommentTail cs
  | '/' :: '*' :: cs =>
    match blockCommentTail? cs with
    | some n => 2 + n
    | none => 0
  | _ => 0

/-- Counts white space and comments; the first argument is what is left of a comment. -/
def triviaFrom : Nat → List Char → Nat
  | _, [] => 0
  | skip + 1, _ :: cs => 1 + triviaFrom skip cs
  | 0, c :: cs =>
    if isSpace c then 1 + triviaFrom 0 cs
    else
      let n := commentLength (c :: cs)
      if n = 0 then 0 else 1 + triviaFrom (n - 1) cs

/-- The length of the white space and closed comments that a text starts with. -/
def triviaLength (cs : List Char) : Nat := triviaFrom 0 cs

/-! ## Words -/

def punctuationChars : List Char := ":;`\"'@#.,|^&<=>+-*/\\%?!~()[]\x7b\x7d".toList

/-- A word starts with any character but white space, controls, digits and ASCII punctuation. -/
def isWordStart (c : Char) : Bool :=
  !isSpace c && 32 ≤ c.toNat && !c.isDigit && !punctuationChars.contains c

def isWordPart (c : Char) : Bool := isWordStart c || c.isDigit

def isHex (c : Char) : Bool := c.isDigit || ('a' ≤ c && c ≤ 'f') || ('A' ≤ c && c ≤ 'F')

/-- The length of a Unicode escape that can stand in a word, or zero. -/
def wordEscape : List Char → Nat
  | '\\' :: 'u' :: '{' :: cs =>
    let digits := (cs.takeWhile isHex).length
    match cs.drop digits with
    | '}' :: _ => if digits = 0 then 0 else digits + 4
    | _ => 0
  | '\\' :: 'u' :: cs =>
    if (cs.take 4).length = 4 && (cs.take 4).all isHex then 6 else 0
  | _ => 0

/-- Counts the characters of a word; the first argument is what is left of an escape. -/
def wordFrom : Nat → List Char → Nat
  | _, [] => 0
  | skip + 1, _ :: cs => 1 + wordFrom skip cs
  | 0, c :: cs =>
    if isWordPart c then 1 + wordFrom 0 cs
    else
      let n := wordEscape (c :: cs)
      if n = 0 then 0 else 1 + wordFrom (n - 1) cs

/-- The length of the word that a text starts with, or zero. -/
def wordLength : List Char → Nat
  | [] => 0
  | c :: cs => if c.isDigit then 0 else wordFrom 0 (c :: cs)

def reservedWords : List String :=
  ["break", "case", "catch", "class", "const", "continue", "debugger", "default", "delete", "do",
   "else", "export", "extends", "false", "finally", "for", "function", "if", "import", "in",
   "instanceof", "new", "null", "return", "super", "switch", "this", "throw", "true", "try",
   "typeof", "var", "void", "while", "with"]

/-- Words that can be declared as names. -/
def isIdentifier (word : String) : Bool := !word.isEmpty && !reservedWords.contains word

/-- Words that start an expression of their own kind where an expression may start. -/
def operatorWords : List String := ["await", "yield", "undefined"]

/-- Words that are names where an expression may start. -/
def isName (word : String) : Bool := isIdentifier word && !operatorWords.contains word

/-- Words that mean something else than a name or an operator at the start of a statement, or in
the middle of one. -/
def inertWords : List String :=
  ["case", "catch", "default", "else", "extends", "finally", "in", "instanceof"]

/-! ## Punctuators -/

/-- All punctuators, longer ones first. -/
def punctuators : List String :=
  [">>>=", "...", "===", "!==", "**=", "<<=", ">>=", ">>>", "&&=", "||=", "??=", "=>", "==", "!=",
   "<=", ">=", "&&", "||", "??", "?.", "++", "--", "+=", "-=", "*=", "/=", "%=", "&=", "|=", "^=",
   "<<", ">>", "**", "\x7b", "\x7d", "(", ")", "[", "]", ".", ";", ",", "<", ">", "+", "-", "*",
   "/", "%", "&", "|", "^", "!", "~", "?", ":", "=", "`", "#"]

/-- The longest punctuator that a text starts with, or the empty text. A point before a digit
belongs to a number. -/
def punctuator (cs : List Char) : String :=
  match punctuators.find? fun p => p.toList.isPrefixOf cs with
  | some p =>
    let beforeDigit := (cs.drop p.length).head?.any Char.isDigit
    if p == "." && beforeDigit then ""
    else if p == "?." && beforeDigit then "?"
    else p
  | none => ""

end LiveChain.Syntax
