import LiveChain.Proofs.Scan.Closing
import LiveChain.Proofs.Scan.Rescan
import LiveChain.Proofs.Scan.Symbols

/-!
# Interpolations are scanned as code

Blocks, objects and templates nest. A scan counts the open braces and remembers the counts at which
interpolations were opened; that is enough to tell which of them a closing brace closes, however
deep. So code in which everything is closed is cut into the same lexemes wherever it stands.
-/

set_option autoImplicit false

namespace LiveChain.Scan

open Text

/-! ## Template text -/

/-- Characters and whole escapes, without a backtick or the opening of an interpolation that is not
escaped. -/
inductive TemplateText : List Char → Prop
  | nil : TemplateText []
  | escape (c : Char) {text : List Char} (htext : TemplateText text) :
    TemplateText ('\\' :: c :: text)
  | plain {c : Char} {text : List Char} (hc : c ≠ '\\' ∧ c ≠ '`')
      (hopen : c = '$' → text.head? ≠ some '{') (htext : TemplateText text) :
    TemplateText (c :: text)

/-- Template text is passed over, unless its last character opens an interpolation with what is
behind it. -/
theorem TemplateText.templateTail_append {text cs : List Char} (h : TemplateText text)
    (hcs : cs.head? ≠ some '{') {n : Nat} {ending : TemplateEnd}
    (htail : templateTail cs = (n, ending)) :
    templateTail (text ++ cs) = (text.length + n, ending) := by
  induction h with
  | nil => simp [htail]
  | escape c _ ih =>
    simp only [List.cons_append, templateTail, ih, List.length_cons, Prod.mk.injEq, and_true]
    omega
  | @plain c text hc hopen _ ih =>
    have hbrace : c = '$' → (text ++ cs).head? ≠ some '{' := by
      intro hdollar
      cases text with
      | nil => exact hcs
      | cons d ds => exact hopen hdollar
    rw [List.cons_append, templateTail, ih]
    · simp only [List.length_cons, Prod.mk.injEq, and_true]
      omega
    · rintro d ds rfl
      exact absurd rfl hc.1
    · exact fun heq => hc.2 heq
    · intro ds hdollar heq
      exact hbrace hdollar (by rw [heq]; rfl)

theorem TemplateText.closed {text : List Char} (h : TemplateText text) (rest : List Char) :
    Settles templateTail (text ++ ['`']) rest ((text ++ ['`']).length, .closed) := by
  refine .of_always (fun rest => ?_) rest
  rw [List.append_assoc, List.length_append]
  exact h.templateTail_append (by simp) rfl

theorem TemplateText.interpolation {text : List Char} (h : TemplateText text) (rest : List Char) :
    Settles templateTail (text ++ ['$', '{']) rest
      ((text ++ ['$', '{']).length, .interpolation) := by
  refine .of_always (fun rest => ?_) rest
  rw [List.append_assoc, List.length_append]
  exact h.templateTail_append (by simp) rfl

/-! ## Nested code -/

/-- Whether a text is read as code, or is inside a template at first. -/
inductive Part where
  | code
  | template

/-- A text that goes on with `rest` is code, or the rest of a template and code behind it, in which
every brace, literal and comment that is opened is closed and none is closed that is not opened. -/
inductive Nested : Part → Mode → List Char → List Char → Mode → Prop
  | nil (mode : Mode) (rest : List Char) : Nested .code mode [] rest mode
  | single {mode next last : Mode} {front text rest : List Char}
      (h : Single mode front (text ++ rest) next) (hmore : Nested .code next text rest last) :
    Nested .code mode (front ++ text) rest last
  | braces {mode inside last : Mode} {inner text rest : List Char}
      (hinner : Nested .code mode.operator inner ('}' :: (text ++ rest)) inside)
      (hmore : Nested .code mode.operand text rest last) :
    Nested .code mode ('{' :: (inner ++ '}' :: text)) rest last
  | backtick {mode last : Mode} {text rest : List Char}
      (hmore : Nested .template mode text rest last) :
    Nested .code mode ('`' :: text) rest last
  | close {mode last : Mode} {body text rest : List Char} (hbody : TemplateText body)
      (hmore : Nested .code mode.operand text rest last) :
    Nested .template mode (body ++ '`' :: text) rest last
  | interpolation {mode inside last : Mode} {body inner text rest : List Char}
      (hbody : TemplateText body)
      (hinner : Nested .code mode.operator inner ('}' :: (text ++ rest)) inside)
      (hmore : Nested .template mode text rest last) :
    Nested .template mode (body ++ '$' :: '{' :: (inner ++ '}' :: text)) rest last

theorem Nested.signedNumber?_eq_none {mode last : Mode} {text rest more : List Char}
    (h : Nested .code mode text rest last) (hrest : Closes rest) (hmore : Closes more)
    (hnone : signedNumber? (text ++ rest) = none) :
    signedNumber? (text ++ rest ++ more) = none := by
  generalize hpart : Part.code = part at h
  -- comments behind the sign end within the code, and so does the search for a number
  have hsolid : ∀ {c : Char}, c = '{' ∨ c = '`' → ∀ cs, signedNumber? (c :: cs) = none := by
    rintro c (rfl | rfl) cs <;>
      rw [signedNumber?_solid (gapLength?_plain (by decide) (by decide))] <;>
      exact numberAt?_of_not_digitLike (by decide) (by decide)
  induction h with
  | nil => exact (hrest.append hmore).signedNumber?_eq_none
  | @single _ _ _ front text rest h _ ih =>
    rw [List.append_assoc] at hnone
    rw [List.append_assoc, List.append_assoc, ← List.append_assoc text]
    exact h.signedNumber?_eq_none hmore (fun hbehind => ih hrest hbehind rfl) hnone
  | braces => exact hsolid (.inl rfl) _
  | backtick => exact hsolid (.inr rfl) _
  | close => cases hpart
  | interpolation => cases hpart

/-! ## Among open braces and templates -/

/-- No interpolation was opened at a greater depth than the present one. -/
def Mode.Upright (mode : Mode) : Prop := ∀ opened ∈ mode.templates.head?, opened ≤ mode.depth

def Mode.inBraces (mode : Mode) : Mode := { mode with depth := mode.depth + 1 }

def Mode.inInterpolation (mode : Mode) : Mode :=
  { mode with templates := mode.depth :: mode.templates }

theorem Mode.Upright.inBraces {mode : Mode} (h : mode.Upright) : mode.inBraces.Upright := by
  intro opened hopened
  have hle := h opened hopened
  show opened ≤ mode.depth + 1
  omega

theorem Mode.inInterpolation_upright (mode : Mode) : mode.inInterpolation.Upright := by
  simp [Upright, inInterpolation]

/-- Behind the character `c`, template text is read with the memory `inside`. -/
def Enters (names : SlotNames) (mode : Mode) (c : Char) (inside : Mode) : Prop :=
  ∀ body rest ending, ending ≠ .unfinished → Settles templateTail body rest (body.length, ending) →
    Reads names mode (c :: body) rest none (inside.afterTemplate ending)

section Marks

variable {names : SlotNames} {mode inside around : Mode} {rest : List Char}

theorem enters_backtick (names : SlotNames) (mode : Mode) : Enters names mode '`' mode :=
  fun _ _ _ _ h => .template h

theorem enters_brace (names : SlotNames) (inside mode around : Mode) :
    Enters names (inside.within around.inInterpolation) '}' (mode.within around) := by
  intro body rest ending hending h
  -- what the interpolation leaves behind of operands is forgotten with the template text
  have hread : Reads names (inside.within around.inInterpolation) ('}' :: body) rest none
      ((inside.within around).afterTemplate ending) := .resume rfl h
  have hsame : (inside.within around).afterTemplate ending =
      (mode.within around).afterTemplate ending := by
    cases ending with
    | unfinished => exact absurd rfl hending
    | _ => rfl
  rwa [← hsame]

theorem isMark_of_mem {c : Char} (hc : c ∈ markChars) (hne : c ≠ '+' ∧ c ≠ '-' ∧ c ≠ '.')
    (hbrace : c = '}' → mode.templates.head? ≠ some mode.depth) : IsMark mode c rest := by
  obtain ⟨hblank, hquote, hname, hdecimal, hslash⟩ := markChars_plain c hc
  exact {
    blank := hblank
    quote := hquote
    name := hname
    number := numberAt?_eq_none_iff.mpr ⟨hdecimal, fun h => absurd h hne.2.2⟩
    slash := fun h => absurd h hslash
    plus := fun h => absurd h hne.1
    minus := fun h => absurd h hne.2.1
    point := fun h => absurd h hne.2.2
    brace := hbrace }

theorem reads_open (names : SlotNames) (mode around : Mode) (rest : List Char) :
    Reads names (mode.within around) ['{'] rest none (mode.operator.within around.inBraces) :=
  .mark (isMark_of_mem (by decide) (by decide) fun hc => absurd hc (by decide))

theorem reads_close (names : SlotNames) (inside mode : Mode) (h : around.Upright)
    (rest : List Char) :
    Reads names (inside.within around.inBraces) ['}'] rest none (mode.operand.within around) := by
  -- interpolations around the brace were opened at a smaller depth, so it closes none of them
  have hbrace : (inside.within around.inBraces).templates.head? ≠
      some (inside.within around.inBraces).depth := by
    intro hhead
    have hle := h _ hhead
    have hdepth : (inside.within around.inBraces).depth = around.depth + 1 := rfl
    omega
  have hread : Reads names (inside.within around.inBraces) ['}'] rest none _ :=
    .mark (isMark_of_mem (by decide) (by decide) fun _ => hbrace)
  have hnext : (inside.within around.inBraces).afterMark '}' = mode.operand.within around := by
    simp [Mode.afterMark, Mode.within, Mode.inBraces, Mode.operand]
  rwa [hnext] at hread

end Marks

/-! ## The lexemes of nested code -/

/-- The text is cut into the same tokens among all open braces and templates and before a closing
brace; of the rest of a template the first token lacks the character that leads into it. -/
def Cut (names : SlotNames) : Part → Mode → List Char → List Char → Mode → Prop
  | .code, mode, text, rest, last => ∃ tokens, written tokens = text ∧
    ∀ more around, Closes more → around.Upright →
      Lexed names (mode.within around) tokens (rest ++ more) (last.within around)
  | .template, mode, text, rest, last => ∃ body tokens, body ++ written tokens = text ∧
    ∀ more around entered c, Closes more → around.Upright →
      Enters names entered c (mode.within around) →
      Lexed names entered (⟨c :: body, none⟩ :: tokens) (rest ++ more) (last.within around)

theorem Nested.cut (names : SlotNames) {part : Part} {mode last : Mode} {text rest : List Char}
    (h : Nested part mode text rest last) (hrest : Closes rest) :
    Cut names part mode text rest last := by
  induction h with
  | nil mode rest => exact ⟨[], rfl, fun _ _ _ _ => .nil _ _⟩
  | @single mode next last front text rest h hnested ih =>
    obtain ⟨tokens, rfl, htokens⟩ := ih hrest
    obtain ⟨kind, hreads⟩ := h.reads names
    refine ⟨⟨front, kind⟩ :: tokens, rfl, fun more around hmore haround => ?_⟩
    refine .cons ?_ (htokens more around hmore haround)
    rw [← List.append_assoc]
    exact hreads more around hmore (hnested.signedNumber?_eq_none hrest hmore)
  | @braces mode inside last inner text rest _ _ ihInner ih =>
    obtain ⟨tokens, rfl, htokens⟩ := ih hrest
    obtain ⟨inner, rfl, hinner⟩ := ihInner (.brace _)
    refine ⟨⟨['{'], none⟩ :: (inner ++ ⟨['}'], none⟩ :: tokens), by simp, ?_⟩
    intro more around hmore haround
    refine .cons (reads_open names mode around _) ?_
    have hlast : Lexed names (inside.within around.inBraces) (⟨['}'], none⟩ :: tokens)
        (rest ++ more) (last.within around) :=
      .cons (reads_close names inside mode haround _) (htokens more around hmore haround)
    refine Lexed.append ?_ hlast
    have hread := hinner more around.inBraces hmore haround.inBraces
    simpa using hread
  | @backtick mode last text rest _ ih =>
    obtain ⟨body, tokens, rfl, htokens⟩ := ih hrest
    refine ⟨⟨'`' :: body, none⟩ :: tokens, rfl, fun more around hmore haround => ?_⟩
    exact htokens more around _ _ hmore haround (enters_backtick names _)
  | @close mode last body text rest hbody _ ih =>
    obtain ⟨tokens, rfl, htokens⟩ := ih hrest
    refine ⟨body ++ ['`'], tokens, by simp, ?_⟩
    intro more around entered c hmore haround henters
    exact .cons (henters _ _ .closed nofun (hbody.closed _)) (htokens more around hmore haround)
  | @interpolation mode inside last body inner text rest hbody _ _ ihInner ih =>
    obtain ⟨behind, tokens, rfl, htokens⟩ := ih hrest
    obtain ⟨inner, rfl, hinner⟩ := ihInner (.brace _)
    refine ⟨body ++ ['$', '{'], inner ++ ⟨'}' :: behind, none⟩ :: tokens, by simp, ?_⟩
    intro more around entered c hmore haround henters
    refine .cons (henters _ _ .interpolation nofun (hbody.interpolation _)) ?_
    have hlast := htokens more around _ _ hmore haround (enters_brace names inside mode around)
    refine Lexed.append ?_ hlast
    have hread := hinner more around.inInterpolation hmore around.inInterpolation_upright
    show Lexed names (mode.operator.within around.inInterpolation) inner _ _
    simpa using hread

end LiveChain.Scan

namespace LiveChain

open Text Scan

def ValueSpan.moved (n : Nat) (span : ValueSpan) : ValueSpan :=
  { span with start := span.start + n, stop := span.stop + n }

theorem tokenSpans_moved (n index offset : Nat) (tokens : List Token) :
    tokenSpans index (n + offset) tokens = (tokenSpans index offset tokens).map (.moved n) := by
  induction tokens generalizing index offset with
  | nil => rfl
  | cons t tokens ih =>
    simp only [tokenSpans, Nat.add_assoc n offset, ih]
    cases t.kind with
    | none => rfl
    | some kind =>
      simp only [List.map_cons, List.cons.injEq, and_true, ValueSpan.moved, ValueSpan.mk.injEq,
        true_and]
      omega

theorem tokenSpans_concat_none (index offset : Nat) (tokens : List Token) (text : List Char) :
    tokenSpans index offset (tokens ++ [⟨text, none⟩]) = tokenSpans index offset tokens := by
  induction tokens generalizing index offset with
  | nil => rfl
  | cons t tokens ih => simp only [List.cons_append, tokenSpans, ih]

/-- The values of a template with one interpolation are those of the interpolated code, as a scan of the
code alone finds them. The template text around it holds none. -/
theorem valueSpans_interpolation (names : SlotNames) {before code after : List Char} {last : Mode}
    (hbefore : TemplateText before) (hcode : Nested .code Mode.initial code [] last)
    (hafter : TemplateText after) :
    valueSpans names [] ('`' :: (before ++ '$' :: '{' :: (code ++ '}' :: (after ++ ['`'])))) =
      (valueSpans names [] code).map (.moved (before.length + 3)) := by
  obtain ⟨tokens, rfl, htokens⟩ := hcode.cut names .nil
  have halone : Lexed names Mode.initial tokens [] (last.within Mode.initial) :=
    htokens [] Mode.initial .nil nofun
  have hinside : Lexed names (Mode.initial.afterTemplate .interpolation) tokens
      ([] ++ '}' :: (after ++ ['`'])) (last.within Mode.initial.inInterpolation) :=
    htokens _ Mode.initial.inInterpolation (.brace _) (Mode.inInterpolation_upright _)
  have hlast : Lexed names (last.within Mode.initial.inInterpolation)
      [⟨'}' :: (after ++ ['`']), none⟩] [] Mode.initial.operand :=
    .cons (enters_brace names last Mode.initial Mode.initial _ _ .closed nofun (hafter.closed _))
      (.nil _ _)
  have hwhole : Lexed names Mode.initial
      (⟨'`' :: (before ++ ['$', '{']), none⟩ :: (tokens ++ [⟨'}' :: (after ++ ['`']), none⟩])) []
      Mode.initial.operand := by
    refine .cons (.template (hbefore.interpolation _)) (Lexed.append ?_ hlast)
    simpa using hinside
  have htext : '`' :: (before ++ '$' :: '{' :: (written tokens ++ '}' :: (after ++ ['`']))) =
      written (⟨'`' :: (before ++ ['$', '{']), none⟩ ::
        (tokens ++ [⟨'}' :: (after ++ ['`']), none⟩])) := by simp
  rw [htext, valueSpans_lexed hwhole, valueSpans_lexed halone, ← tokenSpans_moved]
  simp only [tokenSpans, tokenSpans_concat_none]
  congr 1
  simp

/-- An object with a template in it, which holds a number behind a minus sign. -/
theorem valueSpans_interpolation_object :
    let before := ['8', '\\', '`', '$']
    let code := ['{', 'a', ':', '1', ',', 'b', ':', '`', '3', '$', '{', '-', '2', '}', '`', '}']
    let after := ['}', '9']
    TemplateText before ∧ (∃ last, Nested .code Mode.initial code [] last) ∧ TemplateText after ∧
    valueSpans .standard [] ('`' :: (before ++ '$' :: '{' :: (code ++ '}' :: (after ++ ['`'])))) =
      (valueSpans .standard [] code).map (.moved 7) ∧
    (valueSpans .standard [] code).map (·.text) = ["1", "-2"] := by
  intro before code after
  have hbefore : TemplateText before :=
    .plain (by decide) (by decide) (.escape _ (.plain (by decide) (by decide) .nil))
  have hafter : TemplateText after :=
    .plain (by decide) (by decide) (.plain (by decide) (by decide) .nil)
  have hmark : ∀ {c : Char} {rest : List Char}, c = ':' ∨ c = ',' →
      Single Mode.initial.operand [c] rest Mode.initial.operator := by
    rintro c rest (rfl | rfl) <;>
      exact .mark (by decide) (by decide)
        (isMark_of_mem (by decide) (by decide) fun hc => absurd hc (by decide))
        fun hc => absurd hc (by decide)
  have hword : ∀ {c : Char} {rest : List Char}, c = 'a' ∨ c = 'b' → Clear rest →
      Single Mode.initial.operator [c] rest Mode.initial.operand := by
    rintro c rest (rfl | rfl) hclear <;>
      exact .name (by decide) (nameLength_cons.mpr ⟨by decide, nofun, fun d hd => (hclear d hd).1⟩)
  have hsigned : Single Mode.initial.operator ('-' :: [] ++ ['2']) ['}', '`', '}']
      Mode.initial.operand := .signed rfl .nil (by decide)
  have hthree : TemplateText ['3'] := .plain (by decide) (by decide) .nil
  have htemplate : Nested .code Mode.initial.operator
      ['`', '3', '$', '{', '-', '2', '}', '`'] ['}'] Mode.initial.operand :=
    .backtick (.interpolation hthree (.single hsigned (.nil _ _)) (.close .nil (.nil _ _)))
  have hone : Single Mode.initial.operator ['1'] (',' :: 'b' :: ':' ::
      (['`', '3', '$', '{', '-', '2', '}', '`'] ++ ['}'])) Mode.initial.operand :=
    .number (by decide)
  have hobject : Nested .code Mode.initial.operator
      ['a', ':', '1', ',', 'b', ':', '`', '3', '$', '{', '-', '2', '}', '`'] ['}']
      Mode.initial.operand :=
    .single (hword (.inl rfl) (by decide)) <| .single (hmark (.inl rfl)) <| .single hone <|
      .single (hmark (.inr rfl)) <| .single (hword (.inr rfl) (by decide)) <|
      .single (hmark (.inl rfl)) htemplate
  have hcode : Nested .code Mode.initial code [] _ := .braces hobject (.nil _ _)
  exact ⟨hbefore, ⟨_, hcode⟩, hafter, valueSpans_interpolation .standard hbefore hcode hafter,
    by decide +kernel⟩

end LiveChain
