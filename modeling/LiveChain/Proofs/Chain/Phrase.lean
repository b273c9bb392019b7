import LiveChain.Proofs.Syntax.NumeralValue
import LiveChain.Proofs.Syntax.Rule

/-!
# Method chains

A method chain is a name followed by properties and calls. Its arguments are numbers, signed
numbers, quoted texts and chains again. White space and comments may stand between all tokens.
-/

set_option autoImplicit false

namespace LiveChain.Chain

open Text Syntax

/-! ## Names, numbers and quoted texts -/

/-- Letters, digits, the underscore and the dollar sign. -/
def isNameChar (c : Char) : Bool := c.isAlphanum || c == '_' || c == '$'

/-- A name of ASCII characters that neither the grammar nor the scan takes for anything else. -/
structure ChainName (w : List Char) : Prop where
  start : ∃ c rest, w = c :: rest ∧ c.isDigit = false
  chars : ∀ c ∈ w, isNameChar c = true
  name : isName (String.ofList w) = true
  plain : String.ofList w ≠ "async" ∧ String.ofList w ≠ "let"
  operand : Scan.expressionKeywords.contains (String.ofList w) = false

theorem chainName_iff (w : List Char) : ChainName w ↔
    (w.head?.any fun c => !c.isDigit) = true ∧ w.all isNameChar = true ∧
      isName (String.ofList w) = true ∧
      (String.ofList w ≠ "async" ∧ String.ofList w ≠ "let") ∧
      Scan.expressionKeywords.contains (String.ofList w) = false := by
  constructor
  · rintro ⟨⟨c, rest, rfl, hc⟩, hchars, hname, hplain, hoperand⟩
    exact ⟨by simp [hc], List.all_eq_true.mpr hchars, hname, hplain, hoperand⟩
  · rintro ⟨hstart, hchars, hname, hplain, hoperand⟩
    cases w with
    | nil => cases hstart
    | cons c rest =>
      exact ⟨⟨c, rest, rfl, by simpa using hstart⟩, List.all_eq_true.mp hchars, hname, hplain, hoperand⟩

instance (w : List Char) : Decidable (ChainName w) := decidable_of_iff _ (chainName_iff w).symm

/-- What stands before the digits of a number: nothing, or a minus sign and perhaps a gap. -/
inductive Sign : List Char → Prop
  | none : Sign []
  | minus {gap : List Char} (h : Trivia gap) : Sign ('-' :: gap)

/-- A quoted text without backslashes and line breaks. -/
inductive Quoted : List Char → Prop
  | mk {quote : Char} {body : List Char} (hquote : quote = '\'' ∨ quote = '"')
      (h : ∀ c ∈ body, c ≠ quote ∧ c ≠ '\\' ∧ c ≠ '\n' ∧ c ≠ '\r') :
    Quoted (quote :: (body ++ [quote]))

/-! ## Phrases -/

/-- A piece of a chain: a gap between tokens, a name, the name of a property, a number with its
sign, a quoted text or a punctuation mark. -/
inductive Piece where
  | gap (text : List Char)
  | name (word : List Char)
  | property (word : List Char)
  | number (sign digits : List Char)
  | quoted (text : List Char)
  | mark (c : Char)

/-- The characters of a piece. -/
def Piece.text : Piece → List Char
  | .gap text => text
  | .name word => word
  | .property word => word
  | .number sign digits => sign ++ digits
  | .quoted text => text
  | .mark c => [c]

def spelled (pieces : List Piece) : List Char := pieces.flatMap Piece.text

@[simp] theorem spelled_nil : spelled [] = [] := rfl

@[simp] theorem spelled_cons (p : Piece) (pieces : List Piece) :
    spelled (p :: pieces) = p.text ++ spelled pieces := rfl

@[simp] theorem spelled_append (pieces pieces' : List Piece) :
    spelled (pieces ++ pieces') = spelled pieces ++ spelled pieces' :=
  List.flatMap_append

def numerals (pieces : List Piece) : List (List Char) :=
  pieces.filterMap fun
    | .number _ digits => some digits
    | _ => none

/-- What a phrase is: a chain, an argument, or arguments through the closing parenthesis. -/
inductive Part where
  | chain
  | argument
  | arguments

/-- The phrases of a method chain. -/
inductive Phrase : Part → List Piece → Prop
  | name {w : List Char} (h : ChainName w) : Phrase .chain [.name w]
  | property {object : List Piece} {before after w : List Char} (hobject : Phrase .chain object)
      (hbefore : Trivia before) (hafter : Trivia after) (h : ChainName w) :
    Phrase .chain (object ++ [.gap before, .mark '.', .gap after, .property w])
  | call {callee list : List Piece} {before : List Char} (hcallee : Phrase .chain callee)
      (hbefore : Trivia before) (hlist : Phrase .arguments list) :
    Phrase .chain (callee ++ .gap before :: .mark '(' :: list)
  | number {sign digits : List Char} (hsign : Sign sign)
      (h : numberToken? digits = some digits.length) : Phrase .argument [.number sign digits]
  | quoted {text : List Char} (h : Quoted text) : Phrase .argument [.quoted text]
  | nested {pieces : List Piece} (h : Phrase .chain pieces) : Phrase .argument pieces
  | none {gap : List Char} (h : Trivia gap) : Phrase .arguments [.gap gap, .mark ')']
  | last {argument : List Piece} {before after : List Char} (hbefore : Trivia before)
      (hargument : Phrase .argument argument) (hafter : Trivia after) :
    Phrase .arguments (.gap before :: (argument ++ [.gap after, .mark ')']))
  | more {argument list : List Piece} {before after : List Char} (hbefore : Trivia before)
      (hargument : Phrase .argument argument) (hafter : Trivia after)
      (hlist : Phrase .arguments list) :
    Phrase .arguments (.gap before :: (argument ++ .gap after :: .mark ',' :: list))

/-- A chain with white space and comments around it. A line comment at the end needs no line
feed. -/
inductive MethodChain : List Piece → Prop
  | mk {before after : List Char} {pieces : List Piece} (hbefore : Trivia before)
      (h : Phrase .chain pieces) (hafter : Ending after) :
    MethodChain (.gap before :: (pieces ++ [.gap after]))

/-! ## What stands behind a phrase -/

/-- A text that starts with a point, a parenthesis or a comma, or is empty. -/
def Stop (stop : List Char) : Prop := ∀ c ∈ stop.head?, c ∈ ['.', '(', ',', ')']

/-- What may stand behind a phrase. A list of arguments is closed by itself. -/
def Part.Before : Part → List Char → Prop
  | .chain, behind =>
    (∃ gap stop, behind = gap ++ stop ∧ Trivia gap ∧ Stop stop) ∨ Ending behind
  | .argument, behind => ∃ gap stop, behind = gap ++ stop ∧ Trivia gap ∧ Closer stop
  | .arguments, _ => True

theorem stop_of_link {stop : List Char} (h : Link stop) : Stop stop := by
  obtain ⟨c, rest, rfl, hc, -⟩ := h.exists_cons
  intro d hd
  obtain rfl := Option.some.inj hd
  rcases hc with rfl | rfl <;> decide

theorem stop_of_closer {stop : List Char} (h : Closer stop) : Stop stop := by
  obtain ⟨c, rest, rfl, hc⟩ := h.exists_cons
  intro d hd
  obtain rfl := Option.some.inj hd
  rcases hc with rfl | rfl <;> decide

theorem Stop.solid {stop : List Char} (h : Stop stop) : Solid stop := by
  have hsolid : ∀ c ∈ ['.', '(', ',', ')'], isSpace c = false ∧ c ≠ '/' :=
    forall_mem_of_all (by decide)
  exact fun c hc => hsolid c (h c hc)

theorem before_chain {behind : List Char} (h : Part.Before .argument behind) :
    Part.Before .chain behind := by
  obtain ⟨gap, stop, rfl, hgap, hstop⟩ := h
  exact .inl ⟨gap, stop, rfl, hgap, stop_of_closer hstop⟩

/-- Behind the white space and comments behind a chain stands a point, a parenthesis, a comma or
nothing. -/
theorem stop_chain {behind : List Char} (h : Part.Before .chain behind) :
    Stop (behind.drop (triviaLength behind)) := by
  rcases h with ⟨gap, stop, rfl, hgap, hstop⟩ | hending
  · rw [drop_triviaLength hgap hstop.solid]
    exact hstop
  · rw [hending.drop_triviaLength]
    simp [Stop]

theorem head_trivia {gap stop : List Char} (h : Trivia gap) {p : Char → Prop}
    (hgap : ∀ c ∈ [' ', '\t', '\n', '/'], p c) (hstop : ∀ c ∈ stop.head?, p c) :
    ∀ c ∈ (gap ++ stop).head?, p c := by
  cases h with
  | nil => exact hstop
  | blank hblank =>
    intro c hc
    obtain rfl := Option.some.inj hc
    rcases hblank with rfl | rfl | rfl <;> exact hgap _ (by decide)
  | comment hcomment =>
    obtain ⟨d, ds, rfl⟩ := hcomment.exists_cons
    intro c hc
    obtain rfl := Option.some.inj hc
    exact hgap '/' (by decide)

theorem head_chain {behind : List Char} (h : Part.Before .chain behind) :
    ∀ c ∈ behind.head?, c ∈ [' ', '\t', '\n', '/', '.', '(', ',', ')'] := by
  rcases h with ⟨gap, stop, rfl, hgap, hstop⟩ | ⟨hgap, hlast⟩
  · refine head_trivia hgap (forall_mem_of_all (by decide)) fun c hc => ?_
    have hin : ∀ c ∈ ['.', '(', ',', ')'], c ∈ [' ', '\t', '\n', '/', '.', '(', ',', ')'] :=
      forall_mem_of_all (by decide)
    exact hin c (hstop c hc)
  · refine head_trivia hgap (forall_mem_of_all (by decide)) fun c hc => ?_
    cases hlast with
    | none => cases hc
    | comment =>
      obtain rfl := Option.some.inj hc
      decide

theorem stops_argument {behind : List Char} (h : Part.Before .argument behind) : Stops behind := by
  obtain ⟨gap, stop, rfl, hgap, hstop⟩ := h
  refine head_trivia hgap (forall_mem_of_all (by decide)) fun c hc => ?_
  obtain ⟨d, rest, rfl, hd⟩ := hstop.exists_cons
  obtain rfl := Option.some.inj hc
  rcases hd with rfl | rfl <;> decide

/-! ## Names -/

/-- The characters of names, in the eyes of every reader. -/
theorem isNameChar_classes {c : Char} (h : isNameChar c = true) :
    isWordPart c = true ∧ isNamePart c = true ∧ isSpace c = false ∧ c ∉ punctuationChars ∧
      (c.isDigit = false → isNameStart c = true) := by
  have hascii : c.toNat < 128 := by
    simp only [isNameChar, Bool.or_eq_true, beq_iff_eq] at h
    rcases h with (h | rfl) | rfl
    · have := isAlphanum_iff.mp h
      omega
    · decide
    · decide
  have htable : ∀ n < 128, isNameChar (Char.ofNat n) = true →
      isWordPart (Char.ofNat n) = true ∧ isNamePart (Char.ofNat n) = true ∧
        isSpace (Char.ofNat n) = false ∧ Char.ofNat n ∉ punctuationChars ∧
        ((Char.ofNat n).isDigit = false → isNameStart (Char.ofNat n) = true) := by
    decide +kernel
  have hc := htable c.toNat hascii
  rw [Char.ofNat_toNat] at hc
  exact hc h

theorem wordFrom_append {w rest : List Char} (h : ∀ c ∈ w, isWordPart c = true)
    (hrest : ∀ c ∈ rest.head?, isWordPart c = false ∧ c ≠ '\\') :
    wordFrom 0 (w ++ rest) = w.length := by
  induction w with
  | nil =>
    cases rest with
    | nil => rfl
    | cons c rest =>
      obtain ⟨hc, hne⟩ := hrest c rfl
      have hescape : wordEscape (c :: rest) = 0 := by
        unfold wordEscape
        split
        · next heq => exact absurd (List.cons.inj heq).1 hne
        · next heq => exact absurd (List.cons.inj heq).1 hne
        · rfl
      simp [wordFrom, hc, hescape]
  | cons c w ih =>
    rw [List.cons_append, wordFrom, if_pos (h c List.mem_cons_self),
      ih fun d hd => h d (List.mem_cons_of_mem _ hd), List.length_cons, Nat.add_comm]

section Name

variable {w rest : List Char} (h : ChainName w)
  (hrest : ∀ c ∈ rest.head?, c ∈ [' ', '\t', '\n', '/', '.', '(', ',', ')'])

include h

theorem ChainName.ne_nil : w ≠ [] := by
  obtain ⟨c, more, rfl, -⟩ := h.start
  exact List.cons_ne_nil c more

theorem ChainName.solid (rest : List Char) : Solid (w ++ rest) := by
  obtain ⟨c, more, rfl, -⟩ := h.start
  intro d hd
  obtain rfl := Option.some.inj hd
  obtain ⟨-, -, hspace, hmark, -⟩ := isNameChar_classes (h.chars c List.mem_cons_self)
  refine ⟨hspace, ?_⟩
  rintro rfl
  exact hmark (by decide)

include hrest

theorem ChainName.wordLength_eq : wordLength (w ++ rest) = w.length := by
  have hstop : ∀ c ∈ [' ', '\t', '\n', '/', '.', '(', ',', ')'],
      isWordPart c = false ∧ c ≠ '\\' := forall_mem_of_all (by decide)
  have hword := wordFrom_append (fun c hc => (isNameChar_classes (h.chars c hc)).1)
    fun c hc => hstop c (hrest c hc)
  obtain ⟨c, more, rfl, hdigit⟩ := h.start
  rw [List.cons_append] at hword ⊢
  rw [wordLength, if_neg (by simp [hdigit]), hword]

theorem ChainName.wordOf_eq : wordOf (w ++ rest) = String.ofList w := by
  rw [wordOf, h.wordLength_eq hrest, List.take_left]

theorem ChainName.nameLength_eq : Scan.nameLength (w ++ rest) = w.length := by
  have hstop : ∀ c ∈ [' ', '\t', '\n', '/', '.', '(', ',', ')'], isNamePart c = false :=
    forall_mem_of_all (by decide)
  obtain ⟨c, more, rfl, hdigit⟩ := h.start
  refine Scan.nameLength_cons.mpr
    ⟨(isNameChar_classes (h.chars c List.mem_cons_self)).2.2.2.2 hdigit, fun d hd => ?_,
      fun d hd => hstop d (hrest d hd)⟩
  exact (isNameChar_classes (h.chars d (List.mem_cons_of_mem _ hd))).2.1

end Name

theorem ChainName.head_plain {w : List Char} (h : ChainName w) (rest : List Char) :
    ∀ c ∈ (w ++ rest).head?, isDecimal c = false ∧ c.isDigit = false ∧ c ≠ '.' := by
  obtain ⟨c, more, rfl, hdigit⟩ := h.start
  intro d hd
  obtain rfl := Option.some.inj hd
  obtain ⟨-, -, -, hmark, hstart⟩ := isNameChar_classes (h.chars c List.mem_cons_self)
  refine ⟨?_, hdigit, ?_⟩
  · rw [Bool.eq_false_iff]
    intro hdecimal
    exact absurd (hstart hdigit) (by simp [isNameStart_of_isDecimal hdecimal])
  · rintro rfl
    exact hmark (by decide)

/-- Behind the point of a property, no digit and no second point can stand. -/
theorem head_property {after w : List Char} (hafter : Trivia after) (h : ChainName w)
    (rest : List Char) :
    ∀ c ∈ (after ++ (w ++ rest)).head?, isDecimal c = false ∧ c.isDigit = false ∧ c ≠ '.' :=
  head_trivia hafter (forall_mem_of_all (by decide)) (h.head_plain rest)

theorem link_property {after w : List Char} (hafter : Trivia after) (h : ChainName w)
    (rest : List Char) : Link ('.' :: (after ++ (w ++ rest))) := by
  refine .inr ⟨_, rfl, ?_⟩
  rw [Option.any_eq_false]
  intro c hc
  exact (head_property hafter h rest c hc).2.1

end LiveChain.Chain
