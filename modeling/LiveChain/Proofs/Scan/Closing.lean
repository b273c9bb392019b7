import LiveChain.Proofs.Scan.Exchange

/-!
# Lexemes before a closing brace

A text may end, or a closing brace may come where it ends. To a lexeme that is closed within the
text this is all the same, and so are the braces and templates that were open before the text.
-/

set_option autoImplicit false

namespace LiveChain.Scan

open Text

/-! ## Texts that end or go on with a closing brace -/

/-- Nothing, or a closing brace and what is behind it. -/
def Closes (cs : List Char) : Prop := ∀ c ∈ cs.head?, c = '}'

section Closes

variable {rest more : List Char}

theorem Closes.nil : Closes [] := by simp [Closes]

theorem Closes.brace (cs : List Char) : Closes ('}' :: cs) := by simp [Closes]

theorem Closes.head (hmore : Closes more) {p : Char → Prop} (hp : p '}')
    (h : ∀ c ∈ rest.head?, p c) : ∀ c ∈ (rest ++ more).head?, p c := by
  cases rest with
  | nil =>
    intro c hc
    rw [hmore c hc]
    exact hp
  | cons d ds => exact h

theorem Closes.append (h : Closes rest) (hmore : Closes more) : Closes (rest ++ more) :=
  hmore.head rfl h

theorem Closes.head_ne (hmore : Closes more) {c : Char} (hc : c ≠ '}') (h : rest.head? ≠ some c) :
    (rest ++ more).head? ≠ some c := by
  intro hhead
  refine hmore.head (p := (· ≠ c)) hc.symm ?_ c hhead rfl
  rintro d hd rfl
  exact h hd

theorem Closes.clear (hmore : Closes more) : Clear more := by
  intro c hc
  rw [hmore c hc]
  decide

theorem Closes.signLength_eq (hmore : Closes more) (rest : List Char) :
    signLength (rest ++ more) = signLength rest := by
  cases rest with
  | nil =>
    cases more with
    | nil => rfl
    | cons c cs =>
      obtain rfl := hmore c rfl
      rfl
  | cons c cs => rw [List.cons_append, signLength_cons, ← signLength_cons c cs]

theorem Closes.stopsAlike (hmore : Closes more) (rest : List Char) :
    StopsAlike rest (rest ++ more) := by
  cases rest with
  | nil => exact .of_clear (by simp [Clear]) hmore.clear
  | cons c cs =>
    refine ⟨.inl rfl, fun hnone => ?_, fun hzero => ?_⟩
    · rw [Option.eq_none_iff_forall_ne_some]
      intro n hn
      obtain ⟨letter, digit, behind, hsplit, hdigit, hrun, -⟩ := prefixedLength?_split hn
      obtain ⟨rfl, rfl⟩ := List.cons.inj (List.cons.inj hsplit).2
      rw [prefixedLength?_base hdigit] at hnone
      split at hnone
      · next hstop =>
        have hbrace : (digit '}' || '}' == '_') = false := by
          rw [Bool.eq_false_iff]
          exact fun h => absurd (isNamePart_of_baseDigits hdigit _ h) (by decide)
        apply hrun
        rw [runLength_eq_zero] at hstop ⊢
        exact hmore.head hbrace hstop
      · cases hnone
    · by_cases hc : (c == 'e' || c == 'E') = true
      · have hdigits : digitsLength (cs.drop (signLength cs)) = 0 := by
          rw [exponentLength_cons hc] at hzero
          split at hzero
          · assumption
          · omega
        rw [digitsLength_eq_zero] at hdigits
        have hdigits' : digitsLength ((cs ++ more).drop (signLength (cs ++ more))) = 0 := by
          rw [hmore.signLength_eq, List.drop_append_of_le_length (signLength_le cs),
            digitsLength_eq_zero]
          exact hmore.head (by decide) hdigits
        rw [List.cons_append, exponentLength_cons hc, if_pos hdigits']
      · exact exponentLength_of_ne hc _

theorem Closes.number_eq (hmore : Closes more) {front : List Char}
    (h : numberAt? (front ++ rest) = some front.length) :
    numberAt? (front ++ (rest ++ more)) = some front.length :=
  numberAt?_stable (hmore.stopsAlike rest) h

theorem Closes.nameLength_eq (hmore : Closes more) {front : List Char}
    (h : nameLength (front ++ rest) = front.length) :
    nameLength (front ++ (rest ++ more)) = front.length := by
  cases front with
  | nil =>
    rw [List.nil_append, List.length_nil, nameLength_eq_zero] at h ⊢
    exact hmore.head (by decide) h
  | cons c cs =>
    obtain ⟨hstart, hparts, hstop⟩ := nameLength_cons.mp h
    exact nameLength_cons.mpr ⟨hstart, hparts, hmore.head (by decide) hstop⟩

theorem Closes.signedNumber?_eq_none (hmore : Closes more) : signedNumber? more = none := by
  cases more with
  | nil => rfl
  | cons c cs =>
    obtain rfl := hmore c rfl
    rw [signedNumber?_solid (gapLength?_plain (by decide) (by decide))]
    exact numberAt?_of_not_digitLike (by decide) (by decide)

end Closes

/-! ## Open braces and templates -/

/-- What a mode says of operands, among the open braces and templates of another mode. -/
def Mode.within (mode around : Mode) : Mode :=
  { mode with depth := around.depth, templates := around.templates }

section Within

variable {mode around : Mode} {c : Char} {rest more : List Char}

theorem Mode.afterMark_within (hopen : c ≠ '{') (hclose : c ≠ '}') :
    (mode.afterMark c).within around = (mode.within around).afterMark c := by
  unfold afterMark
  rw [if_neg hopen, if_neg hopen, if_neg hclose, if_neg hclose]
  split
  · rfl
  · split <;> rfl

/-- A mark other than a brace stays one among other braces, and before a closing one, if a slash and a
minus sign do. -/
theorem IsMark.within (h : IsMark mode c rest) (hclose : c ≠ '}') (hmore : Closes more)
    (hslash : c = '/' → mode.afterOperand = true ∨ regexTail? false (rest ++ more) = none)
    (hsigned : signedNumber? rest = none → signedNumber? (rest ++ more) = none) :
    IsMark (mode.within around) c (rest ++ more) where
  blank := h.blank
  quote := h.quote
  name := h.name
  number := by
    obtain ⟨hc, hpoint⟩ := numberAt?_eq_none_iff.mp h.number
    exact numberAt?_eq_none_iff.mpr ⟨hc, fun hdot => hmore.head (by decide) (hpoint hdot)⟩
  slash := fun hc =>
    ⟨hmore.head_ne (by decide) (h.slash hc).1, hmore.head_ne (by decide) (h.slash hc).2.1, hslash hc⟩
  plus := fun hc => hmore.head_ne (by decide) (h.plus hc)
  minus := fun hc =>
    ⟨hmore.head_ne (by decide) (h.minus hc).1, (h.minus hc).2.imp_right hsigned⟩
  point := by
    intro hc behind heq
    match rest with
    | [] => exact absurd (hmore '.' (by rw [List.nil_append] at heq; rw [heq]; rfl)) (by decide)
    | [d] =>
      have hmore' : more = '.' :: behind := (List.cons.inj heq).2
      exact absurd (hmore '.' (by rw [hmore']; rfl)) (by decide)
    | d :: e :: rest =>
      simp only [List.cons_append, List.cons.injEq] at heq
      obtain ⟨rfl, rfl, -⟩ := heq
      exact h.point hc rest rfl
  brace := fun hc => absurd hc hclose

end Within

/-! ## Closed lexemes -/

/-- In a mode, a text that starts with `front` and goes on with `rest` starts with the lexeme `front`,
which is neither a brace nor template text and is closed. A line feed closes a line comment, and a
string if no quote does; a slash where an operand may stand is closed as a regular expression, or is
none whatever comes behind `rest`. -/
inductive Single (mode : Mode) : List Char → List Char → Mode → Prop
  | blank {c : Char} (h : isBlank c = true) (rest : List Char) : Single mode [c] rest mode
  | lineComment {body : List Char} (h : '\n' ∉ body) (rest : List Char) :
    Single mode ('/' :: '/' :: body) ('\n' :: rest) mode
  | blockComment {body : List Char} (h : blockTail? body = some body.length) (rest : List Char) :
    Single mode ('/' :: '*' :: body) rest mode
  | string {quote stop : Char} {body : List Char} (hquote : quote = '\'' ∨ quote = '"')
      (hbody : Enclosed quote body) (hstop : stop = quote ∨ stop = '\n') (rest : List Char) :
    Single mode (quote :: (body ++ [stop])) rest mode.operand
  | regex {body flags rest : List Char} (hmode : mode.afterOperand = false)
      (hfirst : body.head? ≠ some '/' ∧ body.head? ≠ some '*')
      (hbody : regexTail? false body = some body.length)
      (hflags : nameLength (flags ++ rest) = flags.length) :
    Single mode ('/' :: body ++ flags) rest mode.operand
  | number {front rest : List Char} (h : numberAt? (front ++ rest) = some front.length) :
    Single mode front rest mode.operand
  | double {c : Char} (h : c = '+' ∨ c = '-') (rest : List Char) :
    Single mode [c, c] rest { mode with afterDot := false }
  | signed {gap digits rest : List Char} (hmode : mode.afterOperand = false) (hgap : Gap gap)
      (h : numberAt? (digits ++ rest) = some digits.length) :
    Single mode ('-' :: gap ++ digits) rest mode.operand
  | name {front rest : List Char} (hne : front ≠ [])
      (h : nameLength (front ++ rest) = front.length) :
    Single mode front rest
      (if expressionKeywords.contains (String.ofList front) then mode.operator else mode.operand)
  | spread (rest : List Char) : Single mode ['.', '.', '.'] rest mode.operator
  | mark {c : Char} {rest : List Char} (hopen : c ≠ '{') (hclose : c ≠ '}') (h : IsMark mode c rest)
      (hslash : c = '/' → mode.afterOperand = true ∨
        ∀ more, regexTail? false (rest ++ more) = none) :
    Single mode [c] rest (mode.afterMark c)

theorem stringTail_stop {quote stop : Char} (hquote : quote = '\'' ∨ quote = '"')
    {body : List Char} (hbody : Enclosed quote body) (hstop : stop = quote ∨ stop = '\n')
    (rest : List Char) :
    stringTail quote (body ++ [stop] ++ rest) = (body ++ [stop]).length := by
  rcases hstop with rfl | rfl
  · exact stringTail_enclosed hquote hbody rest
  · induction hbody with
    | nil => simp [stringTail]
    | @plain c body h _ ih =>
      rw [List.cons_append, List.cons_append, stringTail, if_neg (by simp [h]), ih,
        List.length_cons, Nat.add_comm]
      rintro d ds rfl
      exact absurd rfl h.2.1
    | escape c _ ih =>
      simp only [List.cons_append, stringTail, ih, List.length_cons]
      omega

section Single

variable {mode next : Mode} {front rest : List Char}

/-- A closed lexeme is read as it is, as a value of the same kind, among all open braces and templates
and before a closing brace, if no number comes up behind a minus sign. -/
theorem Single.reads (names : SlotNames) (h : Single mode front rest next) :
    ∃ kind, ∀ more around, Closes more →
      (signedNumber? rest = none → signedNumber? (rest ++ more) = none) →
      Reads names (mode.within around) front (rest ++ more) kind (next.within around) := by
  cases h with
  | blank h => exact ⟨none, fun more around _ _ => .blank h _⟩
  | lineComment h => exact ⟨none, fun more around _ _ => .lineComment h (by simp)⟩
  | blockComment h => exact ⟨none, fun more around _ _ => .blockComment h _⟩
  | string hquote hbody hstop =>
    have htail := stringTail_stop hquote hbody hstop
    exact ⟨none, fun more around _ _ => .string hquote (.of_always htail _)⟩
  | regex hmode hfirst hbody hflags =>
    exact ⟨none, fun more around hmore _ => .regex hmode hfirst hbody (hmore.nameLength_eq hflags)⟩
  | number h => exact ⟨some .number, fun more around hmore _ => .number (hmore.number_eq h)⟩
  | double h => exact ⟨none, fun more around _ _ => .double h _⟩
  | signed hmode hgap h =>
    exact ⟨some .number, fun more around hmore _ => .signed hmode hgap (hmore.number_eq h)⟩
  | name hne h =>
    refine ⟨if mode.afterDot then none else names.kindOf? (String.ofList front),
      fun more around hmore _ => ?_⟩
    have hread : Reads names (mode.within around) front (rest ++ more) _ _ :=
      .name hne (hmore.nameLength_eq h)
    rw [apply_ite (Mode.within · around)]
    exact hread
  | spread => exact ⟨none, fun more around _ _ => .spread _⟩
  | mark hopen hclose h hslash =>
    refine ⟨none, fun more around hmore hsigned => ?_⟩
    rw [Mode.afterMark_within hopen hclose]
    exact .mark (h.within hclose hmore (fun hc => (hslash hc).imp_right (· more)) hsigned)

theorem Single.gap_or_solid (h : Single mode front rest next) :
    (∀ more, gapLength? (front ++ (rest ++ more)) =
      (gapLength? (rest ++ more)).map (· + front.length)) ∨
    ∀ more, Closes more → gapLength? (front ++ (rest ++ more)) = some 0 := by
  cases h with
  | blank h => exact .inl fun more => Gap.length (.blank h .nil) _
  | lineComment h rest => exact .inl fun more => gapLength?_line h (rest ++ more)
  | blockComment h => exact .inl fun more => gapLength?_block h _
  | string hquote => exact .inr fun more _ => gapLength?_quote hquote
  | regex hmode hfirst hbody =>
    refine .inr fun more _ => ?_
    rw [List.cons_append, List.cons_append, List.append_assoc]
    exact gapLength?_regex hbody hfirst _
  | number h => exact .inr fun more _ => gapLength?_number h _
  | double h => exact .inr fun more _ => gapLength?_sign h
  | signed => exact .inr fun more _ => gapLength?_plain (by decide) (by decide)
  | name hne h =>
    obtain ⟨c, cs, rfl⟩ := List.exists_cons_of_ne_nil hne
    exact .inr fun more _ => gapLength?_nameStart (nameLength_cons.mp h).1
  | spread => exact .inr fun more _ => gapLength?_plain (by decide) (by decide)
  | mark hopen hclose h =>
    exact .inr fun more hmore => gapLength?_solid h.blank fun hc =>
      ⟨hmore.head_ne (by decide) (h.slash hc).1, hmore.head_ne (by decide) (h.slash hc).2.1⟩

theorem Single.signedNumber?_eq_none {more : List Char} (h : Single mode front rest next)
    (hmore : Closes more)
    (hrest : signedNumber? rest = none → signedNumber? (rest ++ more) = none)
    (hnone : signedNumber? (front ++ rest) = none) :
    signedNumber? (front ++ (rest ++ more)) = none := by
  rcases h.gap_or_solid with hgap | hsolid
  · have hgap' := hgap []
    rw [List.append_nil] at hgap'
    exact (signedNumber?_behind (hgap more)).mpr (hrest ((signedNumber?_behind hgap').mp hnone))
  · rw [signedNumber?_solid (hsolid more hmore), Option.eq_none_iff_forall_ne_some]
    intro n hn
    -- a number that is read there is read without the brace as well
    obtain ⟨kind, hreads⟩ := h.reads .standard
    obtain ⟨hkind, hminus⟩ := (hreads more mode hmore hrest).kind_of_numberAt? hn
    have hread := hreads [] mode .nil (by simp)
    rw [List.append_nil] at hread
    have hsigned := signedNumber?_gap .nil (hread.numberAt?_of_kind hkind hminus)
    rw [List.nil_append, hnone] at hsigned
    cases hsigned

end Single

end LiveChain.Scan
