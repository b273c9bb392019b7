import LiveChain.Proofs.Scan.Exchange

/-!
# Values among symbols

A text that is written as symbols with white space and comments between them has the values that can
be read off the symbols: its numbers, with a minus sign that is no subtraction, and its names of
slots that are no properties.
-/

set_option autoImplicit false

namespace LiveChain.Scan

open Text

/-! ## Symbols and how they are written -/

/-- A symbol. A doubled sign is an increment or a decrement. -/
inductive Symbol where
  | name (word : List Char)
  | number (digits : List Char)
  | quoted (quote : Char) (body : List Char)
  | double (sign : Char)
  | spread
  | mark (c : Char)

def Symbol.text : Symbol → List Char
  | .name word => word
  | .number digits => digits
  | .quoted quote body => quote :: (body ++ [quote])
  | .double sign => [sign, sign]
  | .spread => ['.', '.', '.']
  | .mark c => [c]

/-- The punctuation marks of ASCII but quotes, slash, backslash, and the dollar sign and underscore,
which are names. -/
def markChars : List Char :=
  ['!', '#', '%', '&', '(', ')', '*', '+', ',', '-', '.', ':', ';', '<', '=', '>', '?', '@', '[',
   ']', '^', '{', '|', '}', '~']

/-- The marks that separate what stands before and behind them. -/
def delimiters : List Char := ['(', ')', '[', ']', '{', '}', ',', ';']

inductive Symbol.IsValid : Symbol → Prop
  | name {word : List Char} (hne : word ≠ []) (h : nameLength word = word.length) :
    IsValid (.name word)
  | number {digits : List Char} (h : numberLength? digits = some digits.length) :
    IsValid (.number digits)
  | quoted {quote : Char} {body : List Char} (hquote : quote = '\'' ∨ quote = '"')
      (h : Enclosed quote body) : IsValid (.quoted quote body)
  | double {sign : Char} (h : sign = '+' ∨ sign = '-') : IsValid (.double sign)
  | spread : IsValid .spread
  | mark {c : Char} (h : c ∈ markChars) : IsValid (.mark c)

/-- Symbols that may stand side by side with nothing between them. -/
inductive MayTouch : Symbol → Symbol → Prop
  | behind {c : Char} (h : c ∈ delimiters) (s : Symbol) : MayTouch (.mark c) s
  | before (s : Symbol) {c : Char} (h : c ∈ delimiters) : MayTouch s (.mark c)
  | minus (digits : List Char) : MayTouch (.mark '-') (.number digits)
  | subtraction (digits : List Char) : MayTouch (.number digits) (.mark '-')
  | property (word : List Char) : MayTouch (.mark '.') (.name word)
  | object (word : List Char) : MayTouch (.name word) (.mark '.')

abbrev Layout := List (List Char × Symbol)

def laidOut (layout : Layout) : List Char := layout.flatMap fun p => p.1 ++ p.2.text

@[simp] theorem laidOut_nil : laidOut [] = [] := rfl

@[simp] theorem laidOut_cons (gap : List Char) (s : Symbol) (layout : Layout) :
    laidOut ((gap, s) :: layout) = gap ++ (s.text ++ laidOut layout) := by
  simp [laidOut]

/-- Valid symbols behind `previous` with white space and closed comments between them, and with
nothing only between symbols that may touch. -/
inductive Spaced : Option Symbol → Layout → Prop
  | nil (previous : Option Symbol) : Spaced previous []
  | cons {previous : Option Symbol} {gap : List Char} {s : Symbol} {layout : Layout}
      (hgap : Gap gap) (hs : s.IsValid) (htouch : gap = [] → ∀ p ∈ previous, MayTouch p s)
      (hrest : Spaced (some s) layout) : Spaced previous ((gap, s) :: layout)

/-! ## Values of symbols -/

structure Placed where
  symbol : Symbol
  start : Nat

def Placed.stop (p : Placed) : Nat := p.start + p.symbol.text.length

/-- The symbols of a layout that starts at an offset, each at its place. -/
def placed : Nat → Layout → List Placed
  | _, [] => []
  | offset, (gap, s) :: layout =>
    ⟨s, offset + gap.length⟩ :: placed (offset + gap.length + s.text.length) layout

/-- Whether the last of some symbols, given last first, ends an operand. A doubled sign does so
behind an operand. -/
def endsOperand : List Placed → Bool
  | [] => false
  | p :: earlier =>
    match p.symbol with
    | .name word => !expressionKeywords.contains (String.ofList word)
    | .number _ => true
    | .quoted _ _ => true
    | .double _ => endsOperand earlier
    | .spread => false
    | .mark c => c == ')' || c == ']' || c == '}'

/-- Whether the last of some symbols, given last first, is a certain mark. -/
def endsWith (c : Char) : List Placed → Bool
  | [] => false
  | p :: _ =>
    match p.symbol with
    | .mark d => d == c
    | _ => false

/-- The minus sign that the last of some symbols, given last first, is, unless it subtracts from an
operand. -/
def signBefore? : List Placed → Option Placed
  | [] => none
  | p :: earlier => if endsWith '-' [p] && !endsOperand earlier then some p else none

/-- The value that a symbol is behind others, given last first. -/
def Placed.value? (names : SlotNames) (past : List Placed) (p : Placed) : Option Found :=
  match p.symbol with
  | .number _ => some ⟨((signBefore? past).getD p).start, p.stop, .number⟩
  | .name word =>
    if endsWith '.' past then none
    else (names.kindOf? (String.ofList word)).map fun kind => ⟨p.start, p.stop, kind⟩
  | _ => none

/-- The values of symbols behind others, given last first. -/
def placedValues (names : SlotNames) : List Placed → List Placed → List Found
  | _, [] => []
  | past, p :: rest => (p.value? names past).toList ++ placedValues names (p :: past) rest

/-! ## What stands behind a symbol -/

/-- A character that no name, number or sign runs on into. -/
structure Apart (c : Char) : Prop where
  name : isNamePart c = false
  mark : c ∉ ['.', '+', '-']

theorem Apart.not_decimal {c : Char} (h : Apart c) : isDecimal c = false := by
  rw [Bool.eq_false_iff]
  intro hdecimal
  have hname := h.name
  rw [isNamePart_of_isDecimal hdecimal] at hname
  cases hname

theorem apart_of_blank {c : Char} (h : isBlank c = true) : Apart c := by
  have hmarks : ∀ d ∈ ['$', '.', '+', '-'], isBlank d = false := forall_mem_of_all (by decide)
  have hne : c ∉ ['$', '.', '+', '-'] := by
    intro hmem
    rw [hmarks c hmem] at h
    cases h
  refine ⟨?_, fun hmem => hne (List.mem_cons_of_mem _ hmem)⟩
  rw [isNamePart, isWord_of_isBlank h, Bool.or_false, beq_eq_false_iff_ne]
  rintro rfl
  exact hne List.mem_cons_self

theorem apart_of_delimiter {c : Char} (h : c ∈ delimiters) : Apart c := by
  have hall : ∀ c ∈ delimiters, isNamePart c = false ∧ c ∉ ['.', '+', '-'] :=
    forall_mem_of_all (by decide)
  exact ⟨(hall c h).1, (hall c h).2⟩

theorem Gap.apart {gap : List Char} (h : Gap gap) {c : Char} (hc : c ∈ gap.head?) : Apart c := by
  have hslash : Apart '/' := ⟨by decide, by decide⟩
  cases h with
  | nil => cases hc
  | blank hblank =>
    obtain rfl := Option.some.inj hc
    exact apart_of_blank hblank
  | block =>
    obtain rfl := Option.some.inj hc
    exact hslash
  | line =>
    obtain rfl := Option.some.inj hc
    exact hslash

theorem Symbol.IsValid.exists_cons {s : Symbol} (h : s.IsValid) : ∃ c cs, s.text = c :: cs := by
  cases h with
  | name hne => exact List.exists_cons_of_ne_nil hne
  | @number digits h =>
    cases digits with
    | nil => cases h
    | cons c cs => exact ⟨c, cs, rfl⟩
  | _ => exact ⟨_, _, rfl⟩

/-- Behind a symbol stands nothing that it could run on into, or a symbol that may touch it. -/
theorem Spaced.next {s : Symbol} {layout : Layout} (h : Spaced (some s) layout) {last : List Char}
    (hlast : Gap last) {c : Char} (hc : c ∈ (laidOut layout ++ last).head?) :
    Apart c ∨ ∃ t, t.IsValid ∧ MayTouch s t ∧ t.text.head? = some c := by
  cases h with
  | nil => exact .inl (hlast.apart hc)
  | @cons _ gap t layout hgap ht htouch hrest =>
    cases gap with
    | nil =>
      obtain ⟨d, ds, htext⟩ := ht.exists_cons
      rw [laidOut_cons, htext] at hc
      exact .inr ⟨t, ht, htouch rfl s rfl, by rw [htext]; exact hc⟩
    | cons d gap => exact .inl (hgap.apart (by simpa using hc))

section Behind

variable {layout : Layout} {last : List Char}

theorem Spaced.behind_name {word : List Char} (h : Spaced (some (.name word)) layout)
    (hlast : Gap last) : ∀ c ∈ (laidOut layout ++ last).head?, isNamePart c = false := by
  intro c hc
  rcases h.next hlast hc with hapart | ⟨t, -, htouch, htext⟩
  · exact hapart.name
  · cases htouch with
    | before _ hd =>
      obtain rfl := Option.some.inj htext
      exact (apart_of_delimiter hd).name
    | object =>
      obtain rfl := Option.some.inj htext
      decide

theorem Spaced.behind_number {digits : List Char} (h : Spaced (some (.number digits)) layout)
    (hlast : Gap last) : Clear (laidOut layout ++ last) := by
  have hclear : ∀ {c}, Apart c → isNamePart c = false ∧ c ≠ '.' := fun hapart =>
    ⟨hapart.name, fun hdot => hapart.mark (by simp [hdot])⟩
  intro c hc
  rcases h.next hlast hc with hapart | ⟨t, -, htouch, htext⟩
  · exact hclear hapart
  · cases htouch with
    | before _ hd =>
      obtain rfl := Option.some.inj htext
      exact hclear (apart_of_delimiter hd)
    | subtraction =>
      obtain rfl := Option.some.inj htext
      decide

theorem Spaced.behind_point (h : Spaced (some (.mark '.')) layout) (hlast : Gap last) :
    ∀ c ∈ (laidOut layout ++ last).head?, isDecimal c = false ∧ c ≠ '.' := by
  have hapart : ∀ {c}, Apart c → isDecimal c = false ∧ c ≠ '.' := fun hapart =>
    ⟨hapart.not_decimal, fun hdot => hapart.mark (by simp [hdot])⟩
  intro c hc
  rcases h.next hlast hc with hc' | ⟨t, ht, htouch, htext⟩
  · exact hapart hc'
  · cases htouch with
    | behind hd => exact absurd hd (by decide)
    | before _ hd =>
      obtain rfl := Option.some.inj htext
      exact hapart (apart_of_delimiter hd)
    | property word =>
      cases ht with
      | name hne hlength =>
        obtain ⟨d, ds, rfl⟩ := List.exists_cons_of_ne_nil hne
        obtain rfl := Option.some.inj htext
        have hstart : isNameStart d = true := by
          by_contra hstart
          simp [nameLength, hstart] at hlength
        refine ⟨?_, ?_⟩
        · rw [Bool.eq_false_iff]
          intro hdecimal
          rw [isNameStart_of_isDecimal hdecimal] at hstart
          cases hstart
        · rintro rfl
          revert hstart
          decide

theorem Spaced.behind_sign {c : Char} (hsign : c = '+' ∨ c = '-') (h : Spaced (some (.mark c)) layout)
    (hlast : Gap last) : (laidOut layout ++ last).head? ≠ some c := by
  intro hc
  have hplain : c ∉ delimiters ∧ c ≠ '.' := by
    rcases hsign with rfl | rfl <;> decide
  rcases h.next hlast hc with hapart | ⟨t, ht, htouch, htext⟩
  · exact hapart.mark (by rcases hsign with rfl | rfl <;> decide)
  · cases htouch with
    | behind hd => exact absurd hd hplain.1
    | before _ hd =>
      obtain rfl := Option.some.inj htext
      exact absurd hd hplain.1
    | minus digits =>
      cases ht with
      | number hlength =>
        obtain ⟨ds, rfl⟩ := List.head?_eq_some_iff.mp htext
        rw [← numberAt?_eq_numberLength?] at hlength
        rcases numberAt?_start hlength with hstart | hstart <;> revert hstart <;> decide
    | property => exact absurd rfl hplain.2

end Behind

/-! ## Symbols as lexemes -/

section Reads

variable {names : SlotNames} {mode : Mode} {layout : Layout} {last : List Char}

theorem Spaced.reads_name {word : List Char} (hvalid : (Symbol.name word).IsValid)
    (h : Spaced (some (.name word)) layout) (hlast : Gap last) :
    Reads names mode word (laidOut layout ++ last)
      (if mode.afterDot then none else names.kindOf? (String.ofList word))
      (if expressionKeywords.contains (String.ofList word) then mode.operator
        else mode.operand) := by
  cases hvalid with
  | name hne hlength =>
    obtain ⟨c, cs, rfl⟩ := List.exists_cons_of_ne_nil hne
    have hword : nameLength (c :: cs ++ []) = (c :: cs).length ↔ _ := nameLength_cons
    rw [List.append_nil] at hword
    obtain ⟨hstart, hpart, -⟩ := hword.mp hlength
    exact .name hne (nameLength_cons.mpr ⟨hstart, hpart, h.behind_name hlast⟩)

theorem Spaced.numberAt? {digits : List Char} (hvalid : (Symbol.number digits).IsValid)
    (h : Spaced (some (.number digits)) layout) (hlast : Gap last) :
    numberAt? (digits ++ (laidOut layout ++ last)) = some digits.length := by
  cases hvalid with
  | number hlength =>
    have hclear : Clear [] := by simp [Clear]
    have hstops : StopsAlike [] (laidOut layout ++ last) :=
      .of_clear hclear (h.behind_number hlast)
    refine numberAt?_stable hstops ?_
    rwa [List.append_nil, numberAt?_eq_numberLength?]

theorem reads_quoted {quote : Char} {body : List Char} (h : (Symbol.quoted quote body).IsValid)
    (rest : List Char) :
    Reads names mode (Symbol.quoted quote body).text rest none mode.operand := by
  cases h with
  | quoted hquote hbody => exact .string hquote (.of_always (stringTail_enclosed hquote hbody) rest)

theorem markChars_plain : ∀ c ∈ markChars, isBlank c = false ∧
    (c ≠ '\'' ∧ c ≠ '"' ∧ c ≠ '`') ∧ isNameStart c = false ∧ isDecimal c = false ∧ c ≠ '/' :=
  forall_mem_of_all (by decide)

/-- A mark is a lexeme by itself, unless it is a minus sign before its number. -/
theorem Spaced.isMark {c : Char} (hvalid : (Symbol.mark c).IsValid)
    (h : Spaced (some (.mark c)) layout) (hlast : Gap last) (hmode : mode.templates = [])
    (hminus : c = '-' →
      mode.afterOperand = true ∨ signedNumber? (laidOut layout ++ last) = none) :
    IsMark mode c (laidOut layout ++ last) := by
  cases hvalid with
  | mark hc =>
    obtain ⟨hblank, hquote, hname, hdecimal, hslash⟩ := markChars_plain c hc
    exact {
      blank := hblank
      quote := hquote
      name := hname
      number := by
        refine numberAt?_eq_none_iff.mpr ⟨hdecimal, ?_⟩
        rintro rfl d hd
        exact (h.behind_point hlast d hd).1
      slash := fun heq => absurd heq hslash
      plus := by
        rintro rfl
        exact h.behind_sign (.inl rfl) hlast
      minus := by
        rintro rfl
        exact ⟨h.behind_sign (.inr rfl) hlast, hminus rfl⟩
      point := by
        rintro rfl more heq
        exact (h.behind_point hlast '.' (by rw [heq]; rfl)).2 rfl
      brace := by
        rw [hmode]
        exact fun _ => nofun }

/-- A symbol that is no number does not start like one, and none starts like a gap. -/
theorem Spaced.numberAt?_eq_none {s : Symbol} (hvalid : s.IsValid)
    (hs : ∀ digits, s ≠ .number digits) (h : Spaced (some s) layout) (hlast : Gap last) :
    Scan.numberAt? (s.text ++ (laidOut layout ++ last)) = none := by
  cases hvalid with
  | name hne hlength =>
    obtain ⟨c, cs, rfl⟩ := List.exists_cons_of_ne_nil hne
    refine numberAt?_of_nameStart ?_
    by_contra hstart
    simp [nameLength, hstart] at hlength
  | number => exact absurd rfl (hs _)
  | quoted hquote =>
    refine numberAt?_of_not_digitLike ?_ ?_ <;> rcases hquote with rfl | rfl <;> decide
  | double hsign =>
    refine numberAt?_of_not_digitLike ?_ ?_ <;> rcases hsign with rfl | rfl <;> decide
  | spread => rfl
  | mark hc =>
    refine numberAt?_eq_none_iff.mpr ⟨(markChars_plain _ hc).2.2.2.1, ?_⟩
    rintro rfl d hd
    exact (h.behind_point hlast d hd).1

theorem gapLength?_symbol {s : Symbol} (hvalid : s.IsValid) (rest : List Char) :
    gapLength? (s.text ++ rest) = some 0 := by
  cases hvalid with
  | name hne hlength =>
    obtain ⟨c, cs, rfl⟩ := List.exists_cons_of_ne_nil hne
    have hstart : isNameStart c = true := by
      by_contra hstart
      simp [nameLength, hstart] at hlength
    exact gapLength?_nameStart hstart
  | @number digits hlength =>
    have hnumber : numberAt? (digits ++ []) = some digits.length := by
      rw [List.append_nil, numberAt?_eq_numberLength?, hlength]
    exact gapLength?_number hnumber rest
  | quoted hquote => exact gapLength?_quote hquote
  | double hsign => exact gapLength?_sign hsign
  | spread => exact gapLength?_plain (by decide) (by decide)
  | mark hc =>
    obtain ⟨hblank, -, -, -, hslash⟩ := markChars_plain _ hc
    exact gapLength?_plain hblank hslash

/-- Over a gap, a sign finds no number where no number comes next. -/
theorem Spaced.signedNumber?_eq_none {previous : Option Symbol} (h : Spaced previous layout)
    (hlast : Gap last) (hnext : ∀ gap digits rest, layout ≠ (gap, .number digits) :: rest) :
    signedNumber? (laidOut layout ++ last) = none := by
  cases h with
  | nil =>
    have hlength := hlast.length []
    rw [List.append_nil, show gapLength? [] = some 0 from rfl] at hlength
    rw [laidOut_nil, List.nil_append, signedNumber?, hlength]
    simp [Scan.numberAt?]
  | @cons _ gap s layout hgap hs htouch hrest =>
    have hnone := hrest.numberAt?_eq_none hs
      (fun digits heq => hnext gap digits layout (by rw [heq])) hlast
    rw [laidOut_cons, List.append_assoc, List.append_assoc, signedNumber?, hgap.length,
      gapLength?_symbol hs]
    simp only [Option.map_some, Nat.zero_add, List.drop_left, hnone, Option.map_none]

end Reads

/-! ## A scan over symbols -/

/-- What a scan remembers behind symbols, given last first. -/
structure Remembers (mode : Mode) (past : List Placed) : Prop where
  operand : mode.afterOperand = endsOperand past
  dot : mode.afterDot = endsWith '.' past
  templates : mode.templates = []

section Scan

variable {names : SlotNames} {mode : Mode} {past : List Placed} {layout : Layout}
  {last : List Char}

theorem Remembers.mark (h : Remembers mode past) (c : Char) (start : Nat) :
    Remembers (mode.afterMark c) (⟨.mark c, start⟩ :: past) := by
  unfold Mode.afterMark
  constructor
  · simp only [endsOperand]
    split
    · next hc => subst hc; rfl
    · split
      · next hc => subst hc; rfl
      · split
        · next hc => subst hc; rfl
        · next hbrace =>
          split
          · next hc => rcases hc with rfl | rfl <;> rfl
          · next hc =>
            rw [not_or] at hc
            simp [Mode.operator, hc, hbrace]
  · simp only [endsWith]
    split
    · next hc => subst hc; rfl
    · next hpoint =>
      rw [beq_eq_false_iff_ne.mpr hpoint]
      split
      · rfl
      · split
        · rfl
        · split <;> rfl
  · have hkept := h.templates
    split
    · exact hkept
    · split
      · exact hkept
      · split
        · exact hkept
        · split <;> exact hkept

theorem Remembers.name (h : Remembers mode past) (word : List Char) (start : Nat) :
    Remembers (if expressionKeywords.contains (String.ofList word) then mode.operator
      else mode.operand) (⟨.name word, start⟩ :: past) := by
  split
  · next hkeyword => exact ⟨(congrArg not hkeyword).symm, rfl, h.templates⟩
  · next hkeyword =>
    rw [Bool.not_eq_true] at hkeyword
    exact ⟨(congrArg not hkeyword).symm, rfl, h.templates⟩

variable (names) in
/-- One symbol: it is a lexeme of the scan, it is the value that the symbols before it make of it,
and it is remembered. A minus sign with a number behind it is not among these, and neither is the
number. -/
theorem Remembers.step (h : Remembers mode past) {s : Symbol} (hvalid : s.IsValid)
    (hrest : Spaced (some s) layout) (hlast : Gap last)
    (hminus : s = .mark '-' → endsOperand past = true ∨
      ∀ gap digits rest, layout ≠ (gap, .number digits) :: rest)
    (hnumber : ∀ digits, s = .number digits → signBefore? past = none) (start : Nat) :
    ∃ kind next, Reads names mode s.text (laidOut layout ++ last) kind next ∧
      (kind.map fun kind => ⟨start, start + s.text.length, kind⟩) =
        Placed.value? names past ⟨s, start⟩ ∧
      Remembers next (⟨s, start⟩ :: past) := by
  cases s with
  | name word =>
    refine ⟨_, _, hrest.reads_name hvalid hlast, ?_, h.name word start⟩
    rw [Placed.value?, h.dot]
    cases endsWith '.' past <;> rfl
  | number digits =>
    refine ⟨_, _, .number (hrest.numberAt? hvalid hlast), ?_, rfl, rfl, h.templates⟩
    rw [Placed.value?, hnumber digits rfl]
    rfl
  | quoted quote body => exact ⟨_, _, reads_quoted hvalid _, rfl, rfl, rfl, h.templates⟩
  | double sign =>
    cases hvalid with
    | double hsign => exact ⟨_, _, .double hsign _, rfl, h.operand, rfl, h.templates⟩
  | spread => exact ⟨_, _, .spread _, rfl, rfl, rfl, h.templates⟩
  | mark c =>
    refine ⟨_, _, .mark (hrest.isMark hvalid hlast h.templates ?_), rfl, h.mark c start⟩
    rintro rfl
    rw [h.operand]
    exact (hminus rfl).imp_right (hrest.signedNumber?_eq_none hlast)

theorem signBefore?_eq_some_iff {p sign : Placed} : signBefore? (p :: past) = some sign ↔
    (p.symbol = .mark '-' ∧ endsOperand past = false) ∧ p = sign := by
  obtain ⟨s, start⟩ := p
  cases s <;> simp [signBefore?, endsWith]

/-- A minus sign that subtracts from nothing is passed together with the number behind it. -/
theorem Remembers.signed (h : Remembers mode past) (hpast : endsOperand past = false)
    {gap digits : List Char} (hgap : Gap gap) (hvalid : (Symbol.number digits).IsValid)
    (hrest : Spaced (some (.number digits)) layout) (hlast : Gap last) (start : Nat) :
    foundFrom names mode 0 start
        ((Symbol.mark '-').text ++ (laidOut ((gap, .number digits) :: layout) ++ last)) =
      ⟨start, start + 1 + gap.length + digits.length, .number⟩ ::
        foundFrom names mode.operand 0 (start + 1 + gap.length + digits.length)
          (laidOut layout ++ last) := by
  have hread : Reads names mode ('-' :: gap ++ digits) (laidOut layout ++ last) (some .number)
      mode.operand := .signed (h.operand.trans hpast) hgap (hrest.numberAt? hvalid hlast)
  have hlength : start + ('-' :: gap ++ digits).length =
      start + 1 + gap.length + digits.length := by
    simp only [List.length_append, List.length_cons]
    omega
  have hfound := foundFrom_reads hread start
  rw [hlength] at hfound
  rw [laidOut_cons]
  simpa [Symbol.text] using hfound

end Scan

/-- A scan that remembers the symbols before it finds the values of those behind. A number comes
first only where the symbols before are no sign of it: a sign is passed together with its number. -/
theorem foundFrom_symbols (names : SlotNames) {mode : Mode} {past : List Placed}
    (h : Remembers mode past) {previous : Option Symbol} {layout : Layout}
    (hspaced : Spaced previous layout) {last : List Char} (hlast : Gap last)
    (hfirst : ∀ gap digits rest, layout = (gap, .number digits) :: rest →
      signBefore? past = none) (offset : Nat) :
    foundFrom names mode 0 offset (laidOut layout ++ last) =
      placedValues names past (placed offset layout) := by
  match layout, hspaced with
  | [], _ =>
    have hgap := foundFrom_gap hlast names mode offset []
    rw [List.append_nil, foundFrom] at hgap
    exact hgap
  | (gap, s) :: layout, .cons hgap hvalid _ hrest =>
    rw [laidOut_cons, List.append_assoc, List.append_assoc, foundFrom_gap hgap, placed,
      placedValues]
    by_cases hsign : (s = .mark '-' ∧ endsOperand past = false) ∧
        ∃ gap digits rest, layout = (gap, .number digits) :: rest
    · obtain ⟨⟨rfl, hpast⟩, gap', digits, rest, rfl⟩ := hsign
      cases hrest with
      | cons hgap' hvalid' _ hrest =>
        have hnext : Remembers mode.operand (⟨.number digits, offset + gap.length + 1 + gap'.length⟩ ::
            ⟨.mark '-', offset + gap.length⟩ :: past) := ⟨rfl, rfl, h.templates⟩
        have hsigned : signBefore? (⟨.mark '-', offset + gap.length⟩ :: past) =
            some ⟨.mark '-', offset + gap.length⟩ :=
          signBefore?_eq_some_iff.mpr ⟨⟨rfl, hpast⟩, rfl⟩
        have hother : signBefore? (⟨.number digits, offset + gap.length + 1 + gap'.length⟩ ::
            ⟨.mark '-', offset + gap.length⟩ :: past) = none := rfl
        rw [h.signed hpast hgap' hvalid' hrest hlast,
          foundFrom_symbols names hnext hrest hlast fun _ _ _ _ => hother]
        simp only [placed, placedValues, Placed.value?, hsigned]
        rfl
    · rw [not_and] at hsign
      have hminus : s = .mark '-' → endsOperand past = true ∨
          ∀ gap digits rest, layout ≠ (gap, .number digits) :: rest := by
        intro hs
        cases hpast : endsOperand past with
        | true => exact .inl rfl
        | false =>
          exact .inr fun gap digits rest heq => hsign ⟨hs, hpast⟩ ⟨gap, digits, rest, heq⟩
      obtain ⟨kind, next, hread, hvalue, hnext⟩ := h.step names hvalid hrest hlast hminus
        (fun digits hs => hfirst gap digits layout (by rw [hs])) (offset + gap.length)
      rw [foundFrom_reads hread, hvalue, foundFrom_symbols names hnext hrest hlast]
      intro gap' digits rest heq
      rw [Option.eq_none_iff_forall_ne_some]
      intro sign hsome
      exact hsign (signBefore?_eq_some_iff.mp hsome).1 ⟨gap', digits, rest, heq⟩
termination_by layout.length

/-- Without directives, the spans of a text that is written as spaced symbols are the values of the
symbols: one for each number, from its sign on where it has one, and one for each name of a slot
that no point stands before. -/
theorem valueSpans_symbols (names : SlotNames) {layout : Layout} (h : Spaced none layout)
    {last : List Char} (hlast : Gap last) :
    valueSpans names [] (laidOut layout ++ last) =
      (placedValues names [] (placed 0 layout)).mapIdx
        fun index f => f.numbered (laidOut layout ++ last) index := by
  have hfound : found names (laidOut layout ++ last) = placedValues names [] (placed 0 layout) :=
    foundFrom_symbols names ⟨rfl, rfl, rfl⟩ h hlast (fun _ _ _ _ => rfl) 0
  have hkept : ∀ f ∈ found names (laidOut layout ++ last),
      (!onDirective [] (laidOut layout ++ last) f.start) = true := by
    intro f _
    unfold onDirective isDirective
    split <;> rfl
  rw [valueSpans, List.filter_eq_self.mpr hkept, hfound]

/-- A sign behind a word that an expression follows, a subtraction behind an increment, a property
with the name of a slot, a reference and a quoted text with an escape. -/
theorem valueSpans_symbols_mixed :
    let layout : Layout := [([], .name "return".toList), ([' '], .mark '-'),
      (['/', '*', 'a', '*', '/'], .number ['1']), ([], .mark ';'), (['\n'], .name ['x']),
      ([' '], .double '+'), ([' '], .mark '-'), ([], .number ['2', '.', 'e', '3']),
      ([], .mark ','), ([], .name ['a']), ([], .mark '.'), ([], .name ['s', '0']),
      ([], .mark '('), ([], .name ['o', '0']), ([], .mark ','), ([], .quoted '\'' ['\\', '\'']),
      ([], .mark ')')]
    laidOut layout = "return -/*a*/1;\nx ++ -2.e3,a.s0(o0,'\\'')".toList ∧
      Spaced none layout ∧ Gap ['\n'] ∧
      valueSpans .standard [] (laidOut layout ++ ['\n']) =
        (placedValues .standard [] (placed 0 layout)).mapIdx
          (fun index f => f.numbered (laidOut layout ++ ['\n']) index) ∧
      (placedValues .standard [] (placed 0 layout)).map (fun f => (f.start, f.stop)) =
        [(7, 14), (22, 26), (32, 34)] := by
  intro layout
  have hblank : Gap [' '] := .blank (by decide) .nil
  have hline : Gap ['\n'] := .blank (by decide) .nil
  have hcomment : Gap ('/' :: '*' :: ['a', '*', '/'] ++ []) := .block rfl .nil
  have htouch : ∀ {gap : List Char} {s t : Symbol}, MayTouch s t →
      gap = [] → ∀ p ∈ some s, MayTouch p t := by
    intro gap s t hst _ p hp
    exact Option.some.inj hp ▸ hst
  have hspaced : Spaced none layout :=
    .cons .nil (.name (by decide) (by decide)) nofun <|
    .cons hblank (.mark (by decide)) nofun <|
    .cons hcomment (.number (by decide)) nofun <|
    .cons .nil (.mark (by decide)) (htouch (.before _ (by decide))) <|
    .cons hline (.name (by decide) (by decide)) nofun <|
    .cons hblank (.double (.inl rfl)) nofun <|
    .cons hblank (.mark (by decide)) nofun <|
    .cons .nil (.number (by decide)) (htouch (.minus _)) <|
    .cons .nil (.mark (by decide)) (htouch (.before _ (by decide))) <|
    .cons .nil (.name (by decide) (by decide)) (htouch (.behind (by decide) _)) <|
    .cons .nil (.mark (by decide)) (htouch (.object _)) <|
    .cons .nil (.name (by decide) (by decide)) (htouch (.property _)) <|
    .cons .nil (.mark (by decide)) (htouch (.before _ (by decide))) <|
    .cons .nil (.name (by decide) (by decide)) (htouch (.behind (by decide) _)) <|
    .cons .nil (.mark (by decide)) (htouch (.before _ (by decide))) <|
    .cons .nil (.quoted (.inl rfl) (.escape _ .nil)) (htouch (.behind (by decide) _)) <|
    .cons .nil (.mark (by decide)) (htouch (.before _ (by decide))) (.nil _)
  exact ⟨by decide, hspaced, hline, valueSpans_symbols .standard hspaced hline, by decide⟩

end LiveChain.Scan
