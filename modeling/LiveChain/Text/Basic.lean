import LiveChain.Text.CharClass

/-!
# Texts as lists of characters

A snippet is a list of characters; offsets, columns and lengths count characters.

* `lines`: the pieces between line feeds, never empty.
* `lineFeeds`: a text in which all line breaks are line feeds.
* `strip`: a text without the white space at its ends.
* `cut`, `upTo`, `fromOn`: signed positions, counted from the end when negative, clipped to the
  text.
* `occursIn`: whether one text occurs inside another.
* `replaceAll`: every occurrence of a text, from left to right, replaced by another.
-/

set_option autoImplicit false

namespace LiveChain.Text

/-! ## Lines -/

/-- The pieces of a text between its line feeds: one more than there are line feeds. -/
def lines : List Char → List (List Char)
  | [] => [[]]
  | c :: cs =>
    if c = '\n' then [] :: lines cs
    else match lines cs with
      | [] => [[c]]
      | line :: rest => (c :: line) :: rest

/-- Even the empty text has a line. -/
theorem lines_ne_nil (cs : List Char) : lines cs ≠ [] := by
  cases cs with
  | nil => simp [lines]
  | cons c cs =>
    rw [lines]
    split
    · simp
    · split <;> simp

/-- A text with every line break as a line feed: carriage returns, alone or before a line feed,
are line breaks. -/
def lineFeeds : List Char → List Char
  | '\r' :: '\n' :: rest => '\n' :: lineFeeds rest
  | '\r' :: rest => '\n' :: lineFeeds rest
  | c :: rest => c :: lineFeeds rest
  | [] => []

def strip (cs : List Char) : List Char :=
  ((cs.dropWhile isBlank).reverse.dropWhile isBlank).reverse

/-! ## Signed positions -/

/-- The offset that a signed position names in a text of length `n`: a negative one counts from
the end, and one beyond either end is moved to that end. -/
def cut (n : Nat) (i : Int) : Nat :=
  if i < 0 then (n + i).toNat else min i.toNat n

def upTo (cs : List Char) (i : Int) : List Char := cs.take (cut cs.length i)

def fromOn (cs : List Char) (i : Int) : List Char := cs.drop (cut cs.length i)

theorem cut_of_nonneg {n : Nat} {i : Int} (h : 0 ≤ i) : cut n i = min i.toNat n :=
  if_neg (by omega)

theorem upTo_of_nonneg {cs : List Char} {i : Int} (h : 0 ≤ i) : upTo cs i = cs.take i.toNat := by
  rw [upTo, cut_of_nonneg h, ← List.take_eq_take_min]

theorem fromOn_of_nonneg {cs : List Char} {i : Int} (h : 0 ≤ i) :
    fromOn cs i = cs.drop i.toNat := by
  rw [fromOn, cut_of_nonneg h, ← List.drop_eq_drop_min]

/-- The entry at a signed index, counted from the end when negative. -/
def entry? {α : Type} (xs : List α) (i : Int) : Option α :=
  if i < 0 then (if (-i).toNat ≤ xs.length then xs[xs.length - (-i).toNat]? else none)
  else xs[i.toNat]?

theorem entry?_of_nonneg {α : Type} {xs : List α} {i : Int} (h : 0 ≤ i) :
    entry? xs i = xs[i.toNat]? :=
  if_neg (by omega)

/-! ## Occurrences -/

/-- Whether `needle` occurs in a text; the empty text occurs everywhere. -/
def occursIn (needle : List Char) : List Char → Bool
  | [] => needle.isEmpty
  | c :: cs => needle.isPrefixOf (c :: cs) || occursIn needle cs

/-- Replaces every occurrence of `old`, found from left to right, by `new`. The first argument
counts the characters of a found occurrence that are still to be dropped. -/
def replaceFrom (old new : List Char) : Nat → List Char → List Char
  | _, [] => []
  | skip + 1, _ :: cs => replaceFrom old new skip cs
  | 0, c :: cs =>
    if old.isPrefixOf (c :: cs) then new ++ replaceFrom old new (old.length - 1) cs
    else c :: replaceFrom old new 0 cs

/-- Every occurrence of the non-empty text `old`, from left to right, replaced by `new`. -/
def replaceAll (old new cs : List Char) : List Char := replaceFrom old new 0 cs

end LiveChain.Text
