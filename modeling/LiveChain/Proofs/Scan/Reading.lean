import LiveChain.Proofs.Scan.Literal

/-!
# What the lexemes of a text are

Every lexeme with what may follow it, stated apart from the order in which a scan tries them. A
lexeme is judged together with the text that is left behind it, so reading can go on there.
-/

set_option autoImplicit false

namespace LiveChain.Scan

open Text

/-! ## Lexemes and what may follow them -/

def Mode.afterTemplate (mode : Mode) : TemplateEnd → Mode
  | .closed => mode.operand
  | .interpolation => { mode.operator with templates := mode.depth :: mode.templates }
  | .unfinished => { mode with afterDot := false }

/-- The memory behind a single character that is no part of a longer lexeme. -/
def Mode.afterMark (mode : Mode) (c : Char) : Mode :=
  if c = '.' then { mode.operator with afterDot := true }
  else if c = '{' then { mode.operator with depth := mode.depth + 1 }
  else if c = '}' then { mode.operand with depth := mode.depth - 1 }
  else if c = ')' ∨ c = ']' then mode.operand
  else mode.operator

/-- A character before `rest` that is a lexeme by itself: it starts no comment, literal or name,
and no number, sign or spread together with what follows; and if it is a brace, it does not close
an interpolation. -/
structure IsMark (mode : Mode) (c : Char) (rest : List Char) : Prop where
  blank : isBlank c = false
  quote : c ≠ '\'' ∧ c ≠ '"' ∧ c ≠ '`'
  name : isNameStart c = false
  number : numberAt? (c :: rest) = none
  slash : c = '/' → rest.head? ≠ some '/' ∧ rest.head? ≠ some '*' ∧
    (mode.afterOperand = true ∨ regexTail? false rest = none)
  plus : c = '+' → rest.head? ≠ some '+'
  minus : c = '-' → rest.head? ≠ some '-' ∧
    (mode.afterOperand = true ∨ signedNumber? rest = none)
  point : c = '.' → ∀ more, rest ≠ '.' :: '.' :: more
  brace : c = '}' → mode.templates.head? ≠ some mode.depth

/-- In a mode, a text that starts with `front` and goes on with `rest` starts with the lexeme
`front`; it is a value of a kind or none, and something is remembered behind it. -/
inductive Reads (names : SlotNames) (mode : Mode) :
    List Char → List Char → Option ValueKind → Mode → Prop
  | blank {c : Char} (h : isBlank c = true) (rest : List Char) : Reads names mode [c] rest none mode
  | lineComment {body rest : List Char} (hbody : '\n' ∉ body) (hrest : ∀ c ∈ rest.head?, c = '\n') :
    Reads names mode ('/' :: '/' :: body) rest none mode
  | blockComment {body : List Char} (h : blockTail? body = some body.length) (rest : List Char) :
    Reads names mode ('/' :: '*' :: body) rest none mode
  | openComment {body : List Char} (h : blockTail? body = none) :
    Reads names mode ('/' :: '*' :: body) [] none mode
  | string {quote : Char} {body rest : List Char} (hquote : quote = '\'' ∨ quote = '"')
      (h : Settles (stringTail quote) body rest body.length) :
    Reads names mode (quote :: body) rest none mode.operand
  | template {body rest : List Char} {ending : TemplateEnd}
      (h : Settles templateTail body rest (body.length, ending)) :
    Reads names mode ('`' :: body) rest none (mode.afterTemplate ending)
  | regex {body flags rest : List Char} (hmode : mode.afterOperand = false)
      (hfirst : body.head? ≠ some '/' ∧ body.head? ≠ some '*')
      (hbody : regexTail? false body = some body.length)
      (hflags : nameLength (flags ++ rest) = flags.length) :
    Reads names mode ('/' :: body ++ flags) rest none mode.operand
  | number {front rest : List Char} (h : numberAt? (front ++ rest) = some front.length) :
    Reads names mode front rest (some .number) mode.operand
  | double {c : Char} (h : c = '+' ∨ c = '-') (rest : List Char) :
    Reads names mode [c, c] rest none { mode with afterDot := false }
  | signed {gap digits rest : List Char} (hmode : mode.afterOperand = false) (hgap : Gap gap)
      (h : numberAt? (digits ++ rest) = some digits.length) :
    Reads names mode ('-' :: gap ++ digits) rest (some .number) mode.operand
  | name {front rest : List Char} (hne : front ≠ [])
      (h : nameLength (front ++ rest) = front.length) :
    Reads names mode front rest
      (if mode.afterDot then none else names.kindOf? (String.ofList front))
      (if expressionKeywords.contains (String.ofList front) then mode.operator else mode.operand)
  | spread (rest : List Char) : Reads names mode ['.', '.', '.'] rest none mode.operator
  | mark {c : Char} {rest : List Char} (h : IsMark mode c rest) :
    Reads names mode [c] rest none (mode.afterMark c)
  | resume {body rest : List Char} {ending : TemplateEnd} {outer : List Int}
      (hmode : mode.templates = mode.depth :: outer)
      (h : Settles templateTail body rest (body.length, ending)) :
    Reads names mode ('}' :: body) rest none
      (({ mode with templates := outer } : Mode).afterTemplate ending)

/-! ## Every lexeme is one of these -/

/-- A text starts with a lexeme that is read as described. -/
def Lexeme.IsRead (names : SlotNames) (mode : Mode) (text : List Char) (l : Lexeme) : Prop :=
  ∃ front rest, text = front ++ rest ∧ front.length = l.length ∧
    Reads names mode front rest l.kind l.next

theorem templateLexeme_eq (mode : Mode) (before : Nat) {cs : List Char} {n : Nat}
    {ending : TemplateEnd} (h : templateTail cs = (n, ending)) :
    templateLexeme mode before cs = ⟨before + n, none, mode.afterTemplate ending⟩ := by
  simp only [templateLexeme, h]
  cases ending <;> rfl

theorem punctuation_of_brace {mode : Mode} {c : Char} {cs : List Char}
    (h : c = '}' → mode.templates.head? ≠ some mode.depth) :
    punctuation mode c cs = ⟨1, none, mode.afterMark c⟩ := by
  unfold punctuation Mode.afterMark
  simp only [beq_iff_eq, Bool.or_eq_true]
  split
  · rfl
  · split
    · rfl
    · split
      · next hbrace =>
        have hhead := h hbrace
        split
        · next opened outer htemplates =>
          rw [htemplates, List.head?_cons] at hhead
          rw [if_neg fun heq => hhead (by rw [heq])]
        · rfl
      · split <;> rfl

theorem punctuation_of_resume {mode : Mode} {outer : List Int}
    (h : mode.templates = mode.depth :: outer) (cs : List Char) :
    punctuation mode '}' cs = templateLexeme { mode with templates := outer } 1 cs := by
  simp [punctuation, h]

section Reads

variable {names : SlotNames} {mode : Mode} {c : Char} {cs : List Char}

theorem punctuation_isRead (hmark : (c = '}' → mode.templates.head? ≠ some mode.depth) →
    IsMark mode c cs) : (punctuation mode c cs).IsRead names mode (c :: cs) := by
  by_cases hbrace : c = '}' ∧ mode.templates.head? = some mode.depth
  · obtain ⟨rfl, hhead⟩ := hbrace
    obtain ⟨outer, htemplates⟩ : ∃ outer, mode.templates = mode.depth :: outer := by
      cases h : mode.templates with
      | nil => simp [h] at hhead
      | cons opened outer =>
        rw [h, List.head?_cons, Option.some.injEq] at hhead
        exact ⟨outer, by rw [hhead]⟩
    obtain ⟨body, rest, ending, rfl, hbody⟩ := templateTail_settles cs
    rw [punctuation_of_resume htemplates, templateLexeme_eq _ _ hbody.here]
    exact ⟨'}' :: body, rest, rfl, Nat.add_comm _ _, .resume htemplates hbody⟩
  · have hbrace' : c = '}' → mode.templates.head? ≠ some mode.depth :=
      fun hc hhead => hbrace ⟨hc, hhead⟩
    rw [punctuation_of_brace hbrace']
    exact ⟨[c], cs, rfl, rfl, .mark (hmark hbrace')⟩

theorem nameLexeme_append (names : SlotNames) (mode : Mode) (word rest : List Char) :
    nameLexeme names mode word.length (word ++ rest) =
      ⟨word.length, if mode.afterDot then none else names.kindOf? (String.ofList word),
        if expressionKeywords.contains (String.ofList word) then mode.operator
        else mode.operand⟩ := by
  simp only [nameLexeme, List.take_left]

theorem wordLexeme_isRead (hmark : isNameStart c = false →
    (c = '.' → ∀ more, cs ≠ '.' :: '.' :: more) →
    (c = '}' → mode.templates.head? ≠ some mode.depth) → IsMark mode c cs) :
    (wordLexeme names mode c cs).IsRead names mode (c :: cs) := by
  simp only [wordLexeme]
  split
  · next hn =>
    obtain ⟨word, rest, hsplit, hlength⟩ := nameLength_split (c :: cs)
    rw [hsplit, hlength] at hn ⊢
    rw [nameLexeme_append]
    exact ⟨word, rest, rfl, rfl, .name (List.length_pos_iff.mp (Nat.pos_of_ne_zero hn)) hlength⟩
  · next hn =>
    have hname : isNameStart c = false := by
      cases hstart : isNameStart c with
      | false => rfl
      | true =>
        simp only [nameLength, hstart, if_true] at hn
        omega
    split
    · next rest => exact ⟨['.', '.', '.'], rest, rfl, rfl, .spread rest⟩
    · next hne => exact punctuation_isRead (hmark hname fun hc more hcs => hne more hc hcs)

theorem signLexeme_isRead (hmark : (c = '+' → cs.head? ≠ some '+') →
    (c = '-' → cs.head? ≠ some '-' ∧ (mode.afterOperand = true ∨ signedNumber? cs = none)) →
    isNameStart c = false → (c = '.' → ∀ more, cs ≠ '.' :: '.' :: more) →
    (c = '}' → mode.templates.head? ≠ some mode.depth) → IsMark mode c cs) :
    (signLexeme names mode c cs).IsRead names mode (c :: cs) := by
  unfold signLexeme
  split
  · next rest => exact ⟨['+', '+'], rest, rfl, rfl, .double (.inl rfl) rest⟩
  · next rest => exact ⟨['-', '-'], rest, rfl, rfl, .double (.inr rfl) rest⟩
  · next hne =>
    have hhead : cs.head? ≠ some '-' := by
      intro hhead
      obtain ⟨more, rfl⟩ := List.head?_eq_some_iff.mp hhead
      exact hne more rfl
    split
    · next n hmode hnumber =>
      obtain ⟨gap, digits, rest, rfl, rfl, hgap, hdigits⟩ := signedNumber?_split hnumber
      refine ⟨'-' :: gap ++ digits, rest, rfl, ?_, .signed hmode hgap hdigits⟩
      simp only [List.length_append, List.length_cons]
      omega
    · next hplain =>
      refine wordLexeme_isRead (hmark nofun fun _ => ⟨hhead, ?_⟩)
      cases hmode : mode.afterOperand with
      | true => exact .inl rfl
      | false =>
        refine .inr (Option.eq_none_iff_forall_ne_some.mpr fun n hnumber => ?_)
        exact hplain n hmode hnumber
  · next hminus hplus _ =>
    refine wordLexeme_isRead (hmark (fun hc hhead => ?_) fun hc => absurd hc hminus)
    obtain ⟨more, rfl⟩ := List.head?_eq_some_iff.mp hhead
    exact hplus more hc rfl

theorem regexLength?_split {n : Nat} (h : regexLength? mode c cs = some n) :
    (c = '/' ∧ mode.afterOperand = false) ∧ ∃ body flags rest, cs = body ++ (flags ++ rest) ∧
      1 + body.length + flags.length = n ∧ regexTail? false body = some body.length ∧
      nameLength (flags ++ rest) = flags.length := by
  rw [regexLength?] at h
  split at h
  · next hmode =>
    obtain ⟨m, hm, rfl⟩ := Option.map_eq_some_iff.mp h
    obtain ⟨body, behind, rfl, rfl, hbody⟩ := regexTail?_split hm
    obtain ⟨flags, rest, rfl, hflags⟩ := nameLength_split behind
    refine ⟨by simpa using hmode, body, flags, rest, rfl, ?_, hbody, hflags⟩
    rw [List.drop_left, hflags]
  · cases h

theorem regexLength?_append (hmode : mode.afterOperand = false) {body flags rest : List Char}
    (hbody : regexTail? false body = some body.length)
    (hflags : nameLength (flags ++ rest) = flags.length) :
    regexLength? mode '/' (body ++ (flags ++ rest)) = some (1 + body.length + flags.length) := by
  rw [regexLength?, if_pos (by simp [hmode]), regexTail?_append hbody, Option.map_some,
    List.drop_left, hflags]

theorem regexLength?_eq_none (hslash : c = '/' → mode.afterOperand = true ∨ regexTail? false cs = none) :
    regexLength? mode c cs = none := by
  rw [regexLength?]
  split
  · next h =>
    obtain ⟨hc, hmode⟩ : c = '/' ∧ mode.afterOperand = false := by simpa using h
    simpa [hmode] using hslash hc
  · rfl

theorem solidLexeme_isRead (hblank : isBlank c = false)
    (hslash : c = '/' → cs.head? ≠ some '/' ∧ cs.head? ≠ some '*') :
    (solidLexeme names mode c cs).IsRead names mode (c :: cs) := by
  unfold solidLexeme
  split
  · next hquote =>
    obtain ⟨body, rest, rfl, hbody⟩ := stringTail_settles c cs
    refine ⟨c :: body, rest, rfl, ?_, .string (by simpa using hquote) hbody⟩
    rw [hbody.here, List.length_cons, Nat.add_comm]
  · next hquote =>
    split
    · next htick =>
      obtain rfl : c = '`' := by simpa using htick
      obtain ⟨body, rest, ending, rfl, hbody⟩ := templateTail_settles cs
      rw [templateLexeme_eq _ _ hbody.here]
      exact ⟨'`' :: body, rest, rfl, Nat.add_comm _ _, .template hbody⟩
    · next htick =>
      split
      · next n hregex =>
        obtain ⟨⟨rfl, hoperand⟩, body, flags, rest, rfl, rfl, hbody, hflags⟩ :=
          regexLength?_split hregex
        refine ⟨'/' :: body ++ flags, rest, by simp, ?_, .regex hoperand ?_ hbody hflags⟩
        · rw [List.length_append, List.length_cons, Nat.add_comm 1]
        · obtain ⟨d, ds, rfl⟩ := exists_cons_of_regex hbody
          exact hslash rfl
      · next hregex =>
        split
        · next n hnumber =>
          obtain ⟨digits, rest, hsplit, rfl, hdigits⟩ := numberAt?_split hnumber
          exact ⟨digits, rest, hsplit, rfl, .number hdigits⟩
        · next hnumber =>
          refine signLexeme_isRead fun hplus hminus hname hpoint hbrace => ?_
          have hquotes : c ≠ '\'' ∧ c ≠ '"' := by simpa using hquote
          refine ⟨hblank, ⟨hquotes.1, hquotes.2, by simpa using htick⟩, hname, hnumber, ?_, hplus,
            hminus, hpoint, hbrace⟩
          rintro rfl
          refine ⟨(hslash rfl).1, (hslash rfl).2, ?_⟩
          cases hmode : mode.afterOperand with
          | true => exact .inl rfl
          | false => exact .inr (by simpa [regexLength?, hmode] using hregex)

theorem lexeme_isRead (names : SlotNames) (mode : Mode) (c : Char) (cs : List Char) :
    (lexeme names mode c cs).IsRead names mode (c :: cs) := by
  unfold lexeme
  split
  · next hblank => exact ⟨[c], cs, rfl, rfl, .blank hblank cs⟩
  · next hblank =>
    split
    · next rest =>
      refine ⟨'/' :: '/' :: rest.takeWhile (· ≠ '\n'), rest.dropWhile (· ≠ '\n'), ?_, ?_,
        .lineComment ?_ ?_⟩
      · rw [List.cons_append, List.cons_append, List.takeWhile_append_dropWhile]
      · simp only [List.length_cons, lineCommentLength]
        omega
      · intro hmem
        simpa using List.mem_takeWhile_imp hmem
      · intro d hd
        have hstop := List.head?_dropWhile_not (fun d => decide (d ≠ '\n')) rest
        rw [Option.mem_def.mp hd] at hstop
        simpa using hstop
    · next rest =>
      cases htail : blockTail? rest with
      | none => exact ⟨'/' :: '*' :: rest, [], by simp, by simp; omega, .openComment htail⟩
      | some n =>
        obtain ⟨body, rest, rfl, rfl, hbody⟩ := blockTail?_split htail
        exact ⟨'/' :: '*' :: body, rest, rfl, by simp; omega, .blockComment hbody rest⟩
    · next hline hblock =>
      refine solidLexeme_isRead (by simpa using hblank) fun hc => ⟨fun hhead => ?_, fun hhead => ?_⟩
      · obtain ⟨more, rfl⟩ := List.head?_eq_some_iff.mp hhead
        exact hline more hc rfl
      · obtain ⟨more, rfl⟩ := List.head?_eq_some_iff.mp hhead
        exact hblock more hc rfl

/-! ## Reading them back -/

theorem lexeme_of_solid (hblank : isBlank c = false)
    (hslash : c = '/' → cs.head? ≠ some '/' ∧ cs.head? ≠ some '*') :
    lexeme names mode c cs = solidLexeme names mode c cs := by
  unfold lexeme
  rw [if_neg (by simp [hblank])]
  split
  · next rest => exact absurd rfl (hslash rfl).1
  · next rest => exact absurd rfl (hslash rfl).2
  · rfl

theorem solidLexeme_of_number (hquote : c ≠ '\'' ∧ c ≠ '"' ∧ c ≠ '`') (hslash : c ≠ '/') {n : Nat}
    (hnumber : numberAt? (c :: cs) = some n) :
    solidLexeme names mode c cs = ⟨n, some .number, mode.operand⟩ := by
  simp [solidLexeme, regexLength?, hquote, hslash, hnumber]

theorem solidLexeme_of_regex (hmode : mode.afterOperand = false) {body flags rest : List Char}
    (hbody : regexTail? false body = some body.length)
    (hflags : nameLength (flags ++ rest) = flags.length) :
    solidLexeme names mode '/' (body ++ (flags ++ rest)) =
      ⟨1 + body.length + flags.length, none, mode.operand⟩ := by
  simp [solidLexeme, regexLength?_append hmode hbody hflags]

theorem solidLexeme_of_sign (hquote : c ≠ '\'' ∧ c ≠ '"' ∧ c ≠ '`')
    (hslash : c = '/' → mode.afterOperand = true ∨ regexTail? false cs = none)
    (hnumber : numberAt? (c :: cs) = none) :
    solidLexeme names mode c cs = signLexeme names mode c cs := by
  simp [solidLexeme, hquote, regexLength?_eq_none hslash, hnumber]

theorem signLexeme_of_word (hplus : c = '+' → cs.head? ≠ some '+')
    (hminus : c = '-' → cs.head? ≠ some '-' ∧
      (mode.afterOperand = true ∨ signedNumber? cs = none)) :
    signLexeme names mode c cs = wordLexeme names mode c cs := by
  unfold signLexeme
  split
  · exact absurd rfl (hplus rfl)
  · exact absurd rfl (hminus rfl).1
  · split
    · next hmode hnumber => simp [hmode, hnumber] at hminus
    · rfl
  · rfl

theorem signLexeme_of_number (hmode : mode.afterOperand = false) {n : Nat}
    (h : signedNumber? cs = some n) :
    signLexeme names mode '-' cs = ⟨n, some .number, mode.operand⟩ := by
  unfold signLexeme
  split
  · next heq => exact absurd heq (by decide)
  · -- a second sign is no blank, comment or digit
    next rest _ =>
    have hnone : signedNumber? ('-' :: rest) = none := by
      have hgap : gapLength? ('-' :: rest) = some 0 := rfl
      rw [signedNumber?, hgap]
      simp only [List.drop_zero]
      rw [numberAt?_of_not_digitLike (by decide) (by decide), Option.map_none]
    rw [hnone] at h
    cases h
  · simp [hmode, h]
  · next hne _ _ => exact absurd rfl hne

theorem nameStart_plain (h : isNameStart c = true) :
    (c ≠ '\'' ∧ c ≠ '"' ∧ c ≠ '`') ∧ c ≠ '/' ∧ c ≠ '+' ∧ c ≠ '-' := by
  refine ⟨⟨?_, ?_, ?_⟩, ?_, ?_, ?_⟩ <;> rintro rfl <;> revert h <;> decide

theorem gapLength?_nameStart (h : isNameStart c = true) : gapLength? (c :: cs) = some 0 :=
  gapLength?_plain (isBlank_of_isNameStart h) (nameStart_plain h).2.1

theorem gapLength?_quote (h : c = '\'' ∨ c = '"') : gapLength? (c :: cs) = some 0 := by
  rcases h with rfl | rfl <;> exact gapLength?_plain (by decide) (by decide)

theorem gapLength?_sign (h : c = '+' ∨ c = '-') : gapLength? (c :: cs) = some 0 := by
  rcases h with rfl | rfl <;> exact gapLength?_plain (by decide) (by decide)

theorem wordLexeme_of_name {n : Nat} (h : nameLength (c :: cs) = n) (hn : n ≠ 0) :
    wordLexeme names mode c cs = nameLexeme names mode n (c :: cs) := by
  simp only [wordLexeme, h, if_pos hn]

theorem wordLexeme_of_mark (hname : isNameStart c = false)
    (hpoint : c = '.' → ∀ more, cs ≠ '.' :: '.' :: more) :
    wordLexeme names mode c cs = punctuation mode c cs := by
  have hlength : nameLength (c :: cs) = 0 := by simp [nameLength, hname]
  simp only [wordLexeme, hlength, ne_eq, not_true_eq_false, if_false]
  split
  · exact absurd rfl (hpoint rfl _)
  · rfl

/-- A character that starts no comment, literal or sign starts a name, a spread or a mark. -/
theorem lexeme_of_word (hblank : isBlank c = false) (hquote : c ≠ '\'' ∧ c ≠ '"' ∧ c ≠ '`')
    (hslash : c = '/' → cs.head? ≠ some '/' ∧ cs.head? ≠ some '*' ∧
      (mode.afterOperand = true ∨ regexTail? false cs = none))
    (hnumber : numberAt? (c :: cs) = none) (hplus : c = '+' → cs.head? ≠ some '+')
    (hminus : c = '-' → cs.head? ≠ some '-' ∧
      (mode.afterOperand = true ∨ signedNumber? cs = none)) :
    lexeme names mode c cs = wordLexeme names mode c cs := by
  rw [lexeme_of_solid hblank fun hc => ⟨(hslash hc).1, (hslash hc).2.1⟩,
    solidLexeme_of_sign hquote (fun hc => (hslash hc).2.2) hnumber, signLexeme_of_word hplus hminus]

theorem lexeme_of_name (hstart : isNameStart c = true) {n : Nat} (h : nameLength (c :: cs) = n + 1) :
    lexeme names mode c cs = nameLexeme names mode (n + 1) (c :: cs) := by
  obtain ⟨hquote, hslash, hplus, hminus⟩ := nameStart_plain hstart
  rw [lexeme_of_word (isBlank_of_isNameStart hstart) hquote (fun hc => absurd hc hslash)
    (numberAt?_of_nameStart hstart) (fun hc => absurd hc hplus) (fun hc => absurd hc hminus),
    wordLexeme_of_name h (Nat.succ_ne_zero n)]

theorem IsMark.lexeme_eq {rest : List Char} (h : IsMark mode c rest) :
    lexeme names mode c rest = ⟨1, none, mode.afterMark c⟩ := by
  rw [lexeme_of_word h.blank h.quote h.slash h.number h.plus h.minus,
    wordLexeme_of_mark h.name h.point, punctuation_of_brace h.brace]

/-- The end of an interpolation goes on with template text. -/
theorem lexeme_of_resume {outer : List Int} (h : mode.templates = mode.depth :: outer)
    (cs : List Char) :
    lexeme names mode '}' cs = templateLexeme { mode with templates := outer } 1 cs := by
  rw [lexeme_of_word (by decide) (by decide) (fun hc => absurd hc (by decide))
    (numberAt?_of_not_digitLike (by decide) (by decide)) (fun hc => absurd hc (by decide))
    (fun hc => absurd hc (by decide)), wordLexeme_of_mark (by decide) (fun hc => absurd hc (by decide)),
    punctuation_of_resume h]

/-- A lexeme that is read as described is the one that the scan takes. -/
theorem Reads.lexeme_eq {front rest : List Char} {kind : Option ValueKind} {next : Mode}
    (h : Reads names mode front rest kind next) : ∃ c cs, front = c :: cs ∧
      lexeme names mode c (cs ++ rest) = ⟨front.length, kind, next⟩ := by
  cases h with
  | @blank c h =>
    refine ⟨c, [], rfl, ?_⟩
    unfold lexeme
    rw [if_pos h]
    rfl
  | @lineComment body _ hbody hrest =>
    refine ⟨'/', '/' :: body, rfl, ?_⟩
    have hlength := lineCommentLength_append hbody hrest
    simp [lexeme, hlength, show isBlank '/' = false from rfl]
    omega
  | @blockComment body h =>
    refine ⟨'/', '*' :: body, rfl, ?_⟩
    simp [lexeme, blockTail?_append h rest, show isBlank '/' = false from rfl]
    omega
  | @openComment body h =>
    refine ⟨'/', '*' :: body, rfl, ?_⟩
    simp [lexeme, h, show isBlank '/' = false from rfl]
    omega
  | @string quote body _ hquote h =>
    refine ⟨quote, body, rfl, ?_⟩
    have hslash : quote ≠ '/' := by rcases hquote with rfl | rfl <;> decide
    have hblank : isBlank quote = false := by rcases hquote with rfl | rfl <;> decide
    rw [lexeme_of_solid hblank fun hc => absurd hc hslash, solidLexeme, if_pos (by simpa using hquote),
      h.here, List.length_cons, Nat.add_comm]
  | @template body _ ending h =>
    refine ⟨'`', body, rfl, ?_⟩
    rw [lexeme_of_solid rfl fun hc => absurd hc (by decide), solidLexeme, if_neg (by decide),
      if_pos (by decide), templateLexeme_eq _ _ h.here, List.length_cons, Nat.add_comm]
  | @regex body flags rest hmode hfirst hbody hflags =>
    refine ⟨'/', body ++ flags, rfl, ?_⟩
    have hhead : (body ++ (flags ++ rest)).head? ≠ some '/' ∧
        (body ++ (flags ++ rest)).head? ≠ some '*' := by
      obtain ⟨d, ds, rfl⟩ := exists_cons_of_regex hbody
      exact hfirst
    rw [List.append_assoc, lexeme_of_solid rfl fun _ => hhead, solidLexeme_of_regex hmode hbody hflags]
    simp only [List.cons_append, List.length_append, List.length_cons, Lexeme.mk.injEq, and_true]
    omega
  | number h =>
    obtain ⟨c, cs, rfl⟩ := exists_cons_of_number h
    rw [List.cons_append] at h
    obtain ⟨hblank, hquote, hslash⟩ := number_start_plain h
    refine ⟨c, cs, rfl, ?_⟩
    rw [lexeme_of_solid hblank fun hc => absurd hc hslash, solidLexeme_of_number hquote hslash h]
  | @double c h =>
    refine ⟨c, [c], rfl, ?_⟩
    rcases h with rfl | rfl <;> rfl
  | @signed gap digits _ hmode hgap h =>
    refine ⟨'-', gap ++ digits, rfl, ?_⟩
    rw [lexeme_of_solid rfl fun hc => absurd hc (by decide),
      solidLexeme_of_sign (by decide) (fun hc => absurd hc (by decide))
        (numberAt?_of_not_digitLike (by decide) (by decide)),
      signLexeme_of_number hmode (signedNumber?_gap hgap h)]
    simp only [List.length_append, List.length_cons, Lexeme.mk.injEq, and_true]
    omega
  | name hne h =>
    obtain ⟨c, cs, rfl⟩ := List.exists_cons_of_ne_nil hne
    rw [List.cons_append] at h
    have hstart : isNameStart c = true := by
      by_contra hstart
      simp [nameLength, hstart] at h
    refine ⟨c, cs, rfl, ?_⟩
    rw [lexeme_of_name hstart h]
    exact nameLexeme_append names mode (c :: cs) _
  | spread => exact ⟨'.', ['.', '.'], rfl, rfl⟩
  | @mark c _ h => exact ⟨c, [], rfl, h.lexeme_eq⟩
  | @resume body _ ending outer hmode h =>
    refine ⟨'}', body, rfl, ?_⟩
    rw [lexeme_of_resume hmode, templateLexeme_eq _ _ h.here, List.length_cons, Nat.add_comm]

end Reads

/-! ## A text cut into its lexemes -/

/-- The characters of a lexeme, and the kind of value that it is, if any. -/
structure Token where
  text : List Char
  kind : Option ValueKind

def written (tokens : List Token) : List Char := tokens.flatMap (·.text)

@[simp] theorem written_nil : written [] = [] := rfl

@[simp] theorem written_cons (t : Token) (tokens : List Token) :
    written (t :: tokens) = t.text ++ written tokens := rfl

@[simp] theorem written_append (tokens tokens' : List Token) :
    written (tokens ++ tokens') = written tokens ++ written tokens' :=
  List.flatMap_append

def tokenValues : Nat → List Token → List Found
  | _, [] => []
  | offset, t :: tokens =>
    (t.kind.map fun kind => ⟨offset, offset + t.text.length, kind⟩).toList ++
      tokenValues (offset + t.text.length) tokens

theorem tokenValues_append (offset : Nat) (tokens tokens' : List Token) :
    tokenValues offset (tokens ++ tokens') =
      tokenValues offset tokens ++ tokenValues (offset + (written tokens).length) tokens' := by
  induction tokens generalizing offset with
  | nil => rfl
  | cons t tokens ih =>
    rw [List.cons_append, tokenValues, tokenValues, ih, List.append_assoc, written_cons,
      List.length_append, Nat.add_assoc]

/-- From a mode to a mode, a text that goes on with `rest` is cut into tokens. -/
inductive Lexed (names : SlotNames) : Mode → List Token → List Char → Mode → Prop
  | nil (mode : Mode) (rest : List Char) : Lexed names mode [] rest mode
  | cons {mode next last : Mode} {t : Token} {tokens : List Token} {rest : List Char}
      (first : Reads names mode t.text (written tokens ++ rest) t.kind next)
      (others : Lexed names next tokens rest last) : Lexed names mode (t :: tokens) rest last

section Lexed

variable {names : SlotNames} {mode next last : Mode} {tokens tokens' : List Token}
  {rest : List Char}

theorem Lexed.append (h : Lexed names mode tokens (written tokens' ++ rest) next)
    (h' : Lexed names next tokens' rest last) : Lexed names mode (tokens ++ tokens') rest last := by
  generalize hbehind : written tokens' ++ rest = behind at h
  induction h with
  | nil => exact h'
  | cons first _ ih =>
    rw [List.cons_append]
    refine .cons ?_ (ih h' hbehind)
    rwa [written_append, List.append_assoc, hbehind]

theorem Reads.ne_nil {front : List Char} {kind : Option ValueKind}
    (h : Reads names mode front rest kind next) : front ≠ [] := by
  obtain ⟨c, cs, rfl, -⟩ := h.lexeme_eq
  exact List.cons_ne_nil c cs

theorem exists_lexed (names : SlotNames) (mode : Mode) (cs : List Char) :
    ∃ tokens last, written tokens = cs ∧ Lexed names mode tokens [] last := by
  match cs with
  | [] => exact ⟨[], mode, rfl, .nil mode []⟩
  | c :: cs =>
    obtain ⟨front, behind, hsplit, -, hfront⟩ := lexeme_isRead names mode c cs
    have hshorter : behind.length < (c :: cs).length := by
      have := List.length_pos_iff.mpr hfront.ne_nil
      rw [hsplit, List.length_append]
      omega
    obtain ⟨tokens, last, rfl, htokens⟩ := exists_lexed names (lexeme names mode c cs).next behind
    refine ⟨⟨front, (lexeme names mode c cs).kind⟩ :: tokens, last, hsplit.symm, .cons ?_ htokens⟩
    rwa [List.append_nil]
termination_by cs.length
decreasing_by exact hshorter

theorem foundFrom_skip (names : SlotNames) (mode : Mode) (offset : Nat) (cs rest : List Char) :
    foundFrom names mode cs.length offset (cs ++ rest) =
      foundFrom names mode 0 (offset + cs.length) rest := by
  induction cs generalizing offset with
  | nil => rfl
  | cons c cs ih =>
    rw [List.length_cons, List.cons_append, foundFrom, ih]
    congr 1
    omega

theorem foundFrom_reads {front : List Char} {kind : Option ValueKind}
    (h : Reads names mode front rest kind next) (offset : Nat) :
    foundFrom names mode 0 offset (front ++ rest) =
      (kind.map fun kind => ⟨offset, offset + front.length, kind⟩).toList ++
        foundFrom names next 0 (offset + front.length) rest := by
  obtain ⟨c, cs, rfl, hlexeme⟩ := h.lexeme_eq
  have hskip := foundFrom_skip names next (offset + 1) cs rest
  rw [List.cons_append, foundFrom, hlexeme]
  simp only [List.length_cons, Nat.add_sub_cancel, hskip,
    show offset + 1 + cs.length = offset + (cs.length + 1) by omega]
  cases kind <;> rfl

/-- White space and closed comments hold no values and leave the memory as it is. -/
theorem foundFrom_gap {gap : List Char} (h : Gap gap) (names : SlotNames) (mode : Mode)
    (offset : Nat) (rest : List Char) :
    foundFrom names mode 0 offset (gap ++ rest) =
      foundFrom names mode 0 (offset + gap.length) rest := by
  have hstep : ∀ {front behind : List Char}, Reads names mode front (behind ++ rest) none mode →
      (∀ offset, foundFrom names mode 0 offset (behind ++ rest) =
        foundFrom names mode 0 (offset + behind.length) rest) →
      ∀ offset, foundFrom names mode 0 offset (front ++ behind ++ rest) =
        foundFrom names mode 0 (offset + (front ++ behind).length) rest := by
    intro front behind hread hbehind offset
    rw [List.append_assoc, foundFrom_reads hread, hbehind, List.length_append, Nat.add_assoc]
    rfl
  induction h generalizing offset with
  | nil => rfl
  | blank hblank _ ih => exact hstep (.blank hblank _) ih offset
  | block hbody _ ih => exact hstep (.blockComment hbody _) ih offset
  | line hbody _ ih => exact hstep (.lineComment hbody (by simp)) ih offset

/-- The values of a text are the tokens that are values. -/
theorem foundFrom_lexed (h : Lexed names mode tokens rest last) (offset : Nat) :
    foundFrom names mode 0 offset (written tokens ++ rest) =
      tokenValues offset tokens ++
        foundFrom names last 0 (offset + (written tokens).length) rest := by
  induction h generalizing offset with
  | nil => rfl
  | cons first _ ih =>
    rw [written_cons, List.append_assoc, foundFrom_reads first, ih, tokenValues, List.append_assoc,
      List.length_append, Nat.add_assoc]

theorem found_lexed (h : Lexed names Mode.initial tokens [] last) :
    found names (written tokens) = tokenValues 0 tokens := by
  have hfound := foundFrom_lexed h 0
  rwa [List.append_nil, foundFrom, List.append_nil] at hfound

end Lexed

end LiveChain.Scan
