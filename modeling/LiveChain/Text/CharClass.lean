import LiveChain.Text.WordRanges
import LiveChain.Text.PrintableRanges

/-!
# Character classes

The Unicode classes that scanning, number reading and quoting rest on. Each is a predicate on
`Char`, decided by code-point ranges.
-/

set_option autoImplicit false

namespace LiveChain.Text

/-- Whether a code point lies in one of the inclusive ranges. -/
def inRanges (ranges : List (Nat × Nat)) (n : Nat) : Bool :=
  ranges.any fun r => r.1 ≤ n && n ≤ r.2

/-! ## White space -/

/-- Code points of white space: the ASCII blanks and separators, next line, and the Unicode
space, line and paragraph separators. -/
def blankRanges : List (Nat × Nat) :=
  [(9, 13), (28, 32), (133, 133), (160, 160), (5760, 5760), (8192, 8202), (8232, 8233),
   (8239, 8239), (8287, 8287), (12288, 12288)]

def isBlank (c : Char) : Bool := inRanges blankRanges c.toNat

/-- White space that may surround a number read from text: all blanks but the four ASCII
information separators. -/
def isPadding (c : Char) : Bool := isBlank c && !(28 ≤ c.toNat && c.toNat ≤ 31)

/-! ## Digits -/

/-- The zero of every script's block of ten consecutive decimal digits. -/
def digitZeros : List Nat :=
  [48, 1632, 1776, 1984, 2406, 2534, 2662, 2790, 2918, 3046, 3174, 3302, 3430, 3558, 3664, 3792,
   3872, 4160, 4240, 6112, 6160, 6470, 6608, 6784, 6800, 6992, 7088, 7232, 7248, 42528, 43216,
   43264, 43472, 43504, 43600, 44016, 65296, 66720, 68912, 69734, 69872, 69942, 70096, 70384,
   70736, 70864, 71248, 71360, 71472, 71904, 72016, 72784, 73040, 73120, 92768, 92864, 93008,
   120782, 120792, 120802, 120812, 120822, 123200, 123632, 125264, 130032]

/-- The value of a decimal digit of any script. -/
def digitValue? (c : Char) : Option Nat :=
  (digitZeros.find? fun z => z ≤ c.toNat && c.toNat < z + 10).map (c.toNat - ·)

/-- Digits of base ten, in any script. -/
def isDecimal (c : Char) : Bool := (digitValue? c).isSome

/-- Digits in a special form (superscript, subscript, circled, ...): digits without being
decimal digits. -/
def specialDigitRanges : List (Nat × Nat) :=
  [(178, 179), (185, 185), (4969, 4977), (6618, 6618), (8304, 8304), (8308, 8313), (8320, 8329),
   (9312, 9320), (9332, 9340), (9352, 9360), (9450, 9450), (9461, 9469), (9471, 9471),
   (10102, 10110), (10112, 10120), (10122, 10130), (68160, 68163), (69216, 69224),
   (69714, 69722), (127232, 127242)]

/-- Digits, those included that have no decimal value of their own, such as superscripts. -/
def isDigitLike (c : Char) : Bool := isDecimal c || inRanges specialDigitRanges c.toNat

/-! ## Names -/

/-- Letters, numeric characters and the underscore. -/
def isWord (c : Char) : Bool :=
  if c.toNat < 128 then c.isAlphanum || c == '_' else inRanges wordRanges c.toNat

/-- A name starts with `$` or with a word character that is not a decimal digit. -/
def isNameStart (c : Char) : Bool := c == '$' || (isWord c && !isDecimal c)

def isNamePart (c : Char) : Bool := c == '$' || isWord c

/-! ## Printing -/

def isPrintable (c : Char) : Bool :=
  if c.toNat < 128 then 32 ≤ c.toNat && c.toNat < 127 else inRanges printableRanges c.toNat

end LiveChain.Text
