import LiveChain.Number.Reading
import LiveChain.Number.Shortest

/-!
# Dates and times in a TOML document

Dates, times of day, and both together with or without an offset. They keep their standard text form.
-/

set_option autoImplicit false

namespace LiveChain.Toml

/-- A time of day; fractions of a second count in millionths. -/
structure TimeOfDay where
  hour : Nat
  minute : Nat
  second : Nat
  micros : Nat

structure Date where
  year : Nat
  month : Nat
  day : Nat

/-- A date, a time, or both; the offset from universal time counts in minutes. -/
inductive Moment where
  | date (d : Date)
  | time (t : TimeOfDay)
  | both (d : Date) (t : TimeOfDay) (offset : Option Int)

/-! ## Text form -/

def TimeOfDay.text (t : TimeOfDay) : List Char :=
  padded 2 t.hour ++ ':' :: padded 2 t.minute ++ ':' :: padded 2 t.second ++
    (if t.micros = 0 then [] else '.' :: padded 6 t.micros)

def Date.text (d : Date) : List Char :=
  padded 4 d.year ++ '-' :: padded 2 d.month ++ '-' :: padded 2 d.day

/-- An offset; universal time itself is a letter. -/
def offsetText (offset : Int) : List Char :=
  if offset = 0 then ['Z']
  else (if offset < 0 then '-' else '+') ::
    (padded 2 (offset.natAbs / 60) ++ ':' :: padded 2 (offset.natAbs % 60))

def Moment.text : Moment → List Char
  | .date d => d.text
  | .time t => t.text
  | .both d t offset => d.text ++ 'T' :: t.text ++ (offset.map offsetText).getD []

/-! ## Reading -/

/-- The number that the first `width` characters of a text are as ASCII digits, and the rest. -/
def fixedDigits? (width : Nat) (cs : List Char) : Option (Nat × List Char) :=
  let digits := cs.take width
  if digits.length = width && digits.all Char.isDigit then
    (positional? 10 digits).map fun n => (n, cs.drop width)
  else none

def digitsIn? (width lo hi : Nat) (cs : List Char) : Option (Nat × List Char) :=
  (fixedDigits? width cs).filter fun (n, _) => lo ≤ n && n ≤ hi

def char? (c : Char) : List Char → Option (List Char)
  | [] => none
  | d :: rest => if d == c then some rest else none

/-- Millionths from the digits of a fraction; further digits are dropped. -/
def microsOf (digits : List Char) : Nat :=
  let kept := digits.take 6
  ((positional? 10 kept).getD 0) * Nat.pow 10 (6 - kept.length)

/-- The fraction of a second at the start of a text, if there is one. -/
def fraction (cs : List Char) : Nat × List Char :=
  match cs with
  | '.' :: rest =>
    let digits := rest.takeWhile Char.isDigit
    if digits.isEmpty then (0, cs) else (microsOf digits, rest.dropWhile Char.isDigit)
  | _ => (0, cs)

def timeOfDay? (cs : List Char) : Option (TimeOfDay × List Char) := do
  let (hour, cs) ← digitsIn? 2 0 23 cs
  let cs ← char? ':' cs
  let (minute, cs) ← digitsIn? 2 0 59 cs
  let cs ← char? ':' cs
  let (second, cs) ← digitsIn? 2 0 59 cs
  let (micros, cs) := fraction cs
  return (⟨hour, minute, second, micros⟩, cs)

/-- The date at the start of a text, whether or not its month has that day. -/
def date? (cs : List Char) : Option (Date × List Char) := do
  let (year, cs) ← fixedDigits? 4 cs
  let cs ← char? '-' cs
  let (month, cs) ← digitsIn? 2 1 12 cs
  let cs ← char? '-' cs
  let (day, cs) ← digitsIn? 2 1 31 cs
  return (⟨year, month, day⟩, cs)

/-- The offset at the start of a text, if there is one. -/
def offset (cs : List Char) : Option Int × List Char :=
  match cs with
  | 'Z' :: rest => (some 0, rest)
  | 'z' :: rest => (some 0, rest)
  | c :: rest =>
    let found : Option (Nat × List Char) := do
      let (hour, rest) ← digitsIn? 2 0 23 rest
      let rest ← char? ':' rest
      let (minute, rest) ← digitsIn? 2 0 59 rest
      return (hour * 60 + minute, rest)
    match found with
    | some (minutes, rest) =>
      if c == '+' then (some minutes, rest)
      else if c == '-' then (some (-(minutes : Int)), rest)
      else (none, cs)
    | none => (none, cs)
  | [] => (none, cs)

/-- Every fourth year is a leap year, but of the hundredth ones only every fourth. -/
def isLeapYear (year : Nat) : Bool := year % 4 == 0 && (year % 100 != 0 || year % 400 == 0)

def daysInMonth (year month : Nat) : Nat :=
  if month = 2 then (if isLeapYear year then 29 else 28)
  else if [4, 6, 9, 11].contains month then 30
  else 31

/-- Whether a date is in the calendar, which starts with year one. -/
def Date.isValid (d : Date) : Bool := 1 ≤ d.year && d.day ≤ daysInMonth d.year d.month

/-- Whether a character can stand between a date and a time. -/
def isDateTimeMark (c : Char) : Bool := c == 'T' || c == 't' || c == ' '

/-- The date at the start of a text together with the time that follows it, if one does. -/
def withTime (d : Date) (cs : List Char) : Moment × List Char :=
  match cs with
  | mark :: rest =>
    if isDateTimeMark mark then
      match timeOfDay? rest with
      | some (t, rest) =>
        let (found, rest) := offset rest
        (.both d t found, rest)
      | none => (.date d, cs)
    else (.date d, cs)
  | [] => (.date d, cs)

/-- What a text starts with: a date or time and the rest, a date that is not in the calendar, or
neither. -/
inductive MomentAhead where
  | found (m : Moment) (rest : List Char)
  | notInCalendar
  | absent

def momentAhead (cs : List Char) : MomentAhead :=
  match date? cs with
  | some (d, rest) =>
    if d.isValid then
      let (m, rest) := withTime d rest
      .found m rest
    else .notInCalendar
  | none =>
    match timeOfDay? cs with
    | some (t, rest) => .found (.time t) rest
    | none => .absent

end LiveChain.Toml
