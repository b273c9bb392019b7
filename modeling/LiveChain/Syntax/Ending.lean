import LiveChain.Syntax.Words
import LiveChain.Text.CharClass

/-!
# Where statements end

Without a semicolon a statement ends before a closing brace, at the end of the text, or at a line
break before something that does not go on with it. A comment may stand in between; a line break
inside a comment counts only early in a statement, where no operator could follow.
-/

set_option autoImplicit false

namespace LiveChain.Syntax

/-! ## Looking past white space and comments -/

/-- Code points of the white space that is looked past: less than may separate tokens, since
blanks that do not break and blanks without width count as something. -/
def gapRanges : List (Nat × Nat) :=
  [(9, 13), (32, 32), (0x1680, 0x1680), (0x2000, 0x2006), (0x2008, 0x200A), (0x2028, 0x2029),
   (0x205F, 0x205F), (0x3000, 0x3000)]

/-- White space that is looked past. -/
def isGap (c : Char) : Bool := Text.inRanges gapRanges c.toNat

/-- What follows a block comment whose opening has been passed, and whether a line break has been
passed. -/
def afterBlock (broken : Bool) : List Char → Bool × List Char
  | [] => (broken, [])
  | '*' :: '/' :: rest => (broken, rest)
  | c :: rest => afterBlock (broken || isLineBreak c) rest

/-- Looks past white space and comments, at most `fuel` of them. Unless `all` is to be passed, it
stops right behind a block comment that no slash follows, and says whether a line break stands in
the comments so far; otherwise it counts as broken. A slash that starts no comment ends the look
without a result. -/
def lookPastFrom (all : Bool) : Nat → Bool → List Char → Option (Bool × List Char)
  | 0, _, cs => some (true, cs)
  | fuel + 1, broken, cs =>
    match cs.dropWhile isGap with
    | '/' :: '/' :: rest =>
      lookPastFrom all fuel broken (rest.dropWhile fun c => !isLineBreak c)
    | '/' :: '*' :: rest =>
      let (broken, rest) := afterBlock broken rest
      if all || rest.head? == some '/' then lookPastFrom all fuel broken rest
      else some (broken, rest)
    | '/' :: _ => none
    | rest => some (true, rest)

def lookPast (all : Bool) (cs : List Char) : Option (Bool × List Char) :=
  lookPastFrom all (cs.length + 1) false cs

/-! ## Going on -/

def isLetter (c : Char) : Bool := Text.isWord c && c != '_' && !c.isDigit

/-- Whether a text starts with the operator `in` or `instanceof`, which no letter follows. -/
def startsWordOperator : List Char → Bool
  | 'i' :: 'n' :: rest =>
    let ends (cs : List Char) := !cs.head?.any isLetter
    ends rest || ("stanceof".toList.isPrefixOf rest && ends (rest.drop 8))
  | _ => false

/-- Whether a text goes on with the statement on the line before it. -/
def goesOn (cs : List Char) : Bool :=
  match cs with
  | '.' :: rest => !rest.head?.any Char.isDigit
  | '+' :: rest => rest.head? != some '+'
  | '-' :: rest => rest.head? != some '-'
  | '!' :: rest => rest.head? == some '='
  | c :: _ => "`,:;*%><=[(?^|&/".toList.contains c || startsWordOperator cs
  | [] => false

/-- Whether the question mark of a choice starts a text, behind comments or white space that is
looked past. -/
def startsChoiceFrom : Nat → List Char → Bool
  | 0, _ => false
  | fuel + 1, cs =>
    punctuator (cs.dropWhile isGap) == "?" ||
      (let blank := cs.dropWhile isSpace
       let n := commentLength blank
       n != 0 && startsChoiceFrom fuel (blank.drop n))

/-- Whether a text goes on with a choice between two expressions. -/
def startsChoice (cs : List Char) : Bool := startsChoiceFrom (cs.length + 1) cs

/-! ## Ends of statements -/

def endsAfterBreak (cs : List Char) : Bool :=
  match lookPast true cs with
  | some (_, rest) => !goesOn rest
  | none => false

def startsWithSeparator (cs : List Char) : Bool :=
  cs.head? == some ',' || cs.head? == some '='

/-- Whether a statement ends before a text, as far as white space reaches. `early` says that no
operator could follow. -/
def endsBefore (early : Bool) : Nat → List Char → Bool
  | 0, _ => false
  | _ + 1, [] => true
  | fuel + 1, c :: cs =>
    if c == '\x7d' then true
    else if c == '/' then
      match lookPast false (c :: cs) with
      | none => false
      | some (broken, rest) =>
        (early && broken && !startsWithSeparator rest) ||
          (!rest.isEmpty && endsBefore early fuel rest)
    else if isLineBreak c then endsAfterBreak cs
    else isGap c && endsBefore early fuel cs

/-- The place where a statement ends before a text, right there or behind one of the comments that
the text starts with. -/
def statementEndFrom? (early : Bool) : Nat → List Char → Option Nat
  | 0, _ => none
  | fuel + 1, cs =>
    if endsBefore early (cs.length + 1) cs then some 0
    else
      let blanks := (cs.takeWhile isSpace).length
      let comment := commentLength (cs.drop blanks)
      if comment = 0 then none
      else (statementEndFrom? early fuel (cs.drop (blanks + comment))).map (blanks + comment + ·)

/-- The place where a statement ends before a text without a semicolon, if it does: so many
characters of white space and comments belong to it. `early` says that no operator could follow,
as directly behind a keyword or a declared name. -/
def statementEnd? (early : Bool) (cs : List Char) : Option Nat :=
  statementEndFrom? early (cs.length + 1) cs

def statementEnds (early : Bool) (cs : List Char) : Bool := (statementEnd? early cs).isSome

end LiveChain.Syntax
