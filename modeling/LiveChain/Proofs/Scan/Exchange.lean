import LiveChain.Proofs.Scan.Numeral
import LiveChain.Proofs.Scan.Reading

/-!
# Exchanging values under a scan

A value of a text is exchanged for another of its kind. A scan of the rest is not the same scan,
since readers look ahead over what was exchanged: a failed regular expression to the end of the
line, a sign past comments to a number, a number past an exponent mark. What is said here is that
none of them notices.
-/

set_option autoImplicit false

namespace LiveChain.Scan

open Text

/-! ## Failing regular expressions -/

/-- A character that is no line feed, backslash, slash or bracket. -/
def isPlain (c : Char) : Bool := c != '\n' && c != '\\' && c != '/' && c != '[' && c != ']'

theorem regexTail?_plain {c : Char} (h : isPlain c = true) (inClass : Bool) (cs : List Char) :
    regexTail? inClass (c :: cs) = (regexTail? inClass cs).map (· + 1) := by
  simp only [isPlain, Bool.and_eq_true, bne_iff_ne, ne_eq] at h
  obtain ⟨⟨⟨⟨hbreak, hescape⟩, hslash⟩, hopen⟩, hclose⟩ := h
  have hclass : (c == '[' || inClass && c != ']') = inClass := by
    rw [beq_false_of_ne hopen, bne_iff_ne.mpr hclose, Bool.false_or, Bool.and_true]
  rw [regexTail?, hclass]
  · simp [hescape, hslash]
  · exact fun hc => hbreak hc
  · exact fun _ _ hc _ => hescape hc

/-- Characters behind which a regular expression that is not closed goes on as before. -/
def Inert (text : List Char) : Prop :=
  ∀ inClass rest, regexTail? inClass (text ++ rest) = none → regexTail? inClass rest = none

theorem regexTail?_plain_append {text : List Char} (h : ∀ c ∈ text, isPlain c = true)
    (inClass : Bool) (rest : List Char) :
    regexTail? inClass (text ++ rest) = none ↔ regexTail? inClass rest = none := by
  induction text with
  | nil => exact Iff.rfl
  | cons c text ih =>
    rw [List.cons_append, regexTail?_plain (h c (List.mem_cons_self ..)), Option.map_eq_none_iff,
      ih fun d hd => h d (List.mem_cons_of_mem _ hd)]

theorem Inert.of_plain {text : List Char} (h : ∀ c ∈ text, isPlain c = true) : Inert text :=
  fun inClass rest => (regexTail?_plain_append h inClass rest).mp

theorem Inert.append {text text' : List Char} (h : Inert text) (h' : Inert text') :
    Inert (text ++ text') := by
  intro inClass rest hnone
  rw [List.append_assoc] at hnone
  exact h' inClass rest (h inClass _ hnone)

/-- A slash closes a regular expression, unless it stands in a class. -/
theorem regexTail?_slash {inClass : Bool} {cs : List Char}
    (h : regexTail? inClass ('/' :: cs) = none) : inClass = true ∧ regexTail? true cs = none := by
  cases inClass with
  | false => simp [regexTail?] at h
  | true => exact ⟨rfl, by simpa [regexTail?] using h⟩

theorem blockTail?_cons {c : Char} {body : List Char}
    (h : blockTail? (c :: body) = some (body.length + 1)) :
    c = '*' ∧ body = ['/'] ∨ blockTail? body = some body.length := by
  unfold blockTail? at h
  split at h
  · next heq => cases heq
  · next rest heq =>
    obtain ⟨rfl, rfl⟩ := List.cons.inj heq
    have : rest = [] := by simpa using h
    exact .inl ⟨rfl, by rw [this]⟩
  · next heq =>
    obtain ⟨rfl, rfl⟩ := List.cons.inj heq
    exact .inr (by simpa using h)

/-- The slash that ends a block comment stands in a class of an unclosed regular expression. -/
theorem regexTail?_blockTail {body : List Char} (hbody : blockTail? body = some body.length)
    (hline : '\n' ∉ body) {inClass : Bool} {rest : List Char}
    (hnone : regexTail? inClass (body ++ rest) = none) : regexTail? true rest = none := by
  match body with
  | [] => cases hbody
  | [c] => simp [blockTail?] at hbody
  | c :: d :: body =>
    rcases blockTail?_cons hbody with ⟨rfl, heq⟩ | htail
    · obtain ⟨rfl, rfl⟩ := List.cons.inj heq
      have hslash : regexTail? inClass ('/' :: rest) = none := by
        rwa [List.cons_append, regexTail?_plain (by decide), Option.map_eq_none_iff] at hnone
      exact (regexTail?_slash hslash).2
    · have hline' : '\n' ∉ d :: body := fun hmem => hline (List.mem_cons_of_mem _ hmem)
      by_cases hescape : c = '\\'
      · subst hescape
        rw [List.cons_append, List.cons_append, regexTail?, Option.map_eq_none_iff] at hnone
        rcases blockTail?_cons htail with ⟨rfl, rfl⟩ | htail'
        · exact (regexTail?_slash hnone).2
        · exact regexTail?_blockTail htail' (fun hmem => hline' (List.mem_cons_of_mem _ hmem)) hnone
      · have hbreak : c ≠ '\n' := fun hc => hline (hc ▸ List.mem_cons_self ..)
        rw [List.cons_append, regexTail?] at hnone
        · simp only [beq_iff_eq, hescape, if_false] at hnone
          split at hnone
          · cases hnone
          · exact regexTail?_blockTail htail hline' (Option.map_eq_none_iff.mp hnone)
        · exact fun hc => hbreak hc
        · exact fun _ _ hc _ => hescape hc
termination_by body.length

theorem isPlain_of_isBlank {c : Char} (h : isBlank c = true) (hline : c ≠ '\n') :
    isPlain c = true := by
  have hne : c ≠ '\\' ∧ c ≠ '/' ∧ c ≠ '[' ∧ c ≠ ']' := by
    refine ⟨?_, ?_, ?_, ?_⟩ <;> rintro rfl <;> revert h <;> decide
  simp [isPlain, hline, hne]

/-- A gap within a line does not close an unclosed regular expression, nor its class. -/
theorem Gap.inert {gap : List Char} (h : Gap gap) (hline : '\n' ∉ gap) : Inert gap := by
  induction h with
  | nil => exact fun _ _ hnone => hnone
  | @blank c gap hblank _ ih =>
    have hc : c ≠ '\n' := fun hc => hline (hc ▸ List.mem_cons_self ..)
    have hplain : Inert [c] := .of_plain (by simpa using isPlain_of_isBlank hblank hc)
    exact hplain.append (ih fun hmem => hline (List.mem_cons_of_mem _ hmem))
  | @block body gap hbody _ ih =>
    have hbody' : '\n' ∉ body := fun hmem => hline (by simp [hmem])
    have hcomment : Inert ('/' :: '*' :: body) := by
      intro inClass rest hnone
      rw [List.cons_append, List.cons_append] at hnone
      obtain ⟨rfl, hnone'⟩ := regexTail?_slash hnone
      rw [regexTail?_plain (by decide), Option.map_eq_none_iff] at hnone'
      exact regexTail?_blockTail hbody hbody' hnone'
    exact hcomment.append (ih fun hmem => hline (by simp [hmem]))
  | line => simp at hline

/-! ## Values and their replacements -/

/-- First characters of a value and of its replacement: two signs, two names, or two numbers, of
which the new one starts with a digit. -/
inductive HeadsAlike : Char → Char → Prop
  | sign : HeadsAlike '-' '-'
  | name {old new : Char} (hold : isNameStart old = true) (hnew : isNameStart new = true) :
    HeadsAlike old new
  | digit {old new : Char} (hold : isDecimal old = true ∨ old = '.')
      (hnew : isDecimal new = true) : HeadsAlike old new

/-- An exponent that lacks only its digits, behind a number: what the reversed text `before` starts
with. Numbers end at the offsets in `numbers`. -/
def OpenExponent (numbers : Nat → Prop) (before : List Char) : Prop :=
  ∃ sign mark text, before = sign :: mark :: text ∧ (sign = '+' ∨ sign = '-') ∧
    (mark == 'e' || mark == 'E') = true ∧ numbers text.length

/-- A value `old` and its replacement `new`. The text before them is reversed. -/
structure Exchange (numbers : Nat → Prop) (before old new behind : List Char) : Prop where
  clear : Clear before
  clearBehind : Clear behind
  heads : ∃ o olds n news, old = o :: olds ∧ new = n :: news ∧ HeadsAlike o n
  inert : Inert old.tail
  plain : ∀ c ∈ new, isPlain c = true
  exponent : old.head? = some '.' → ¬ OpenExponent numbers before

/-- A text behind the reversed text `before`, with some of its values exchanged. -/
inductive Touched (numbers : Nat → Prop) : List Char → List Char → List Char → Prop
  | nil (before : List Char) : Touched numbers before [] []
  | keep {before : List Char} {c : Char} {cs cs' : List Char}
      (h : Touched numbers (c :: before) cs cs') : Touched numbers before (c :: cs) (c :: cs')
  | swap {before old new cs cs' : List Char} (hswap : Exchange numbers before old new cs)
      (h : Touched numbers (old.reverse ++ before) cs cs') :
    Touched numbers before (old ++ cs) (new ++ cs')

theorem isPlain_of_isNamePart {c : Char} (h : isNamePart c = true) : isPlain c = true := by
  have hne : c ≠ '\n' ∧ c ≠ '\\' ∧ c ≠ '/' ∧ c ≠ '[' ∧ c ≠ ']' := by
    refine ⟨?_, ?_, ?_, ?_, ?_⟩ <;> rintro rfl <;> revert h <;> decide
  simp [isPlain, hne]

theorem isNamePart_of_isNameStart {c : Char} (h : isNameStart c = true) : isNamePart c = true := by
  simp only [isNameStart, isNamePart, Bool.or_eq_true, Bool.and_eq_true] at h ⊢
  exact h.imp_right And.left

section Touched

variable {numbers : Nat → Prop} {before cs cs' : List Char}

theorem HeadsAlike.plain {old new : Char} (h : HeadsAlike old new) : isPlain old = true := by
  cases h with
  | sign => decide
  | name hold _ => exact isPlain_of_isNamePart (isNamePart_of_isNameStart hold)
  | digit hold _ =>
    rcases hold with hold | rfl
    · exact isPlain_of_isNamePart (isNamePart_of_isDecimal hold)
    · decide

theorem Touched.keep_all {kept : List Char} (h : Touched numbers (kept.reverse ++ before) cs cs') :
    Touched numbers before (kept ++ cs) (kept ++ cs') := by
  induction kept generalizing before with
  | nil => exact h
  | cons c kept ih =>
    refine .keep (ih ?_)
    simpa using h

/-- The first characters are the same, or those of a value and of its replacement. -/
theorem Touched.head (h : Touched numbers before cs cs') :
    cs.head? = cs'.head? ∨ Clear before ∧ ∃ o n, cs.head? = some o ∧ cs'.head? = some n ∧
      HeadsAlike o n ∧ (o = '.' → ¬ OpenExponent numbers before) := by
  cases h with
  | nil => exact .inl rfl
  | keep => exact .inl rfl
  | swap hswap =>
    obtain ⟨o, olds, n, news, rfl, rfl, halike⟩ := hswap.heads
    exact .inr ⟨hswap.clear, o, n, rfl, rfl, halike, fun ho => hswap.exponent (by rw [ho]; rfl)⟩

theorem Touched.head_of_not_clear (h : Touched numbers before cs cs') (hclear : ¬ Clear before) :
    cs.head? = cs'.head? :=
  h.head.resolve_right fun hswap => hclear hswap.1

/-- Behind a word character or a point, no value is exchanged. -/
theorem Touched.tail {c c' : Char} (h : Touched numbers before (c :: cs) (c' :: cs'))
    (hclear : ¬ Clear before) : c = c' ∧ Touched numbers (c :: before) cs cs' := by
  generalize hold : c :: cs = text, hnew : c' :: cs' = text' at h
  cases h with
  | nil => cases hold
  | keep h =>
    obtain ⟨rfl, rfl⟩ := List.cons.inj hold
    obtain ⟨rfl, rfl⟩ := List.cons.inj hnew
    exact ⟨rfl, h⟩
  | swap hswap => exact absurd hswap.clear hclear

theorem Touched.eq_nil_iff (h : Touched numbers before cs cs') : cs = [] ↔ cs' = [] := by
  rw [← List.head?_eq_none_iff, ← List.head?_eq_none_iff]
  rcases h.head with heq | ⟨-, o, n, ho, hn, -⟩
  · rw [heq]
  · simp [ho, hn]

theorem Touched.clear (h : Touched numbers before cs cs') (hcs : Clear cs) : Clear cs' := by
  intro c hc
  rcases h.head with heq | ⟨-, o, n, ho, hn, halike, -⟩
  · exact hcs c (heq ▸ hc)
  · have hclear := hcs o ho
    obtain rfl : n = c := Option.some.inj (hn.symm.trans hc)
    cases halike with
    | sign => exact hclear
    | name hold _ => rw [isNamePart_of_isNameStart hold] at hclear; cases hclear.1
    | digit hold _ =>
      rcases hold with hold | rfl
      · rw [isNamePart_of_isDecimal hold] at hclear
        cases hclear.1
      · exact absurd rfl hclear.2

theorem not_clear_of_isNamePart {c : Char} (h : isNamePart c = true) (cs : List Char) :
    ¬ Clear (c :: cs) := by
  intro hclear
  rw [(hclear c rfl).1] at h
  cases h

theorem HeadsAlike.not_decimal {old new : Char} (h : HeadsAlike old new)
    (hold : isDecimal old = false) (hpoint : old ≠ '.') : isDecimal new = false := by
  cases h with
  | sign => exact hold
  | name _ hnew =>
    rw [Bool.eq_false_iff]
    intro hdecimal
    rw [isNameStart_of_isDecimal hdecimal] at hnew
    cases hnew
  | digit hdigit _ =>
    rcases hdigit with hdigit | hdot
    · rw [hold] at hdigit
      cases hdigit
    · exact absurd hdot hpoint

/-- A number stops alike before a text and before one with values exchanged. -/
theorem Touched.stopsAlike (h : Touched numbers before cs cs') (hclear : ¬ Clear before)
    (hnumber : numbers before.length) : StopsAlike cs cs' := by
  cases h with
  | nil => exact .of_clear (by simp [Clear]) (by simp [Clear])
  | swap hswap => exact absurd hswap.clear hclear
  | @keep _ c cs cs' h =>
    refine .cons (fun hc => h.head_of_not_clear (not_clear_of_isNamePart hc before)) ?_
    intro hc sign behind behind' hsign hold hnew hstop d hd
    subst hold hnew
    obtain ⟨-, h⟩ := h.tail (not_clear_of_isNamePart (isNamePart_of_exponent hc) before)
    rcases h.head with heq | ⟨-, o, n, ho, hn, halike, hopen⟩
    · exact hstop d (heq ▸ hd)
    · obtain rfl : n = d := Option.some.inj (hn.symm.trans hd)
      exact halike.not_decimal (hstop o ho) fun hpoint =>
        hopen hpoint ⟨sign, c, before, rfl, hsign, hc, hnumber⟩

theorem regexTail?_escape {inClass : Bool} (hnil : cs = [] ↔ cs' = [])
    (hnone : regexTail? inClass ('\\' :: cs) = none)
    (htail : regexTail? inClass cs.tail = none → regexTail? inClass cs'.tail = none) :
    regexTail? inClass ('\\' :: cs') = none := by
  cases cs' with
  | nil => simp [regexTail?]
  | cons d ds =>
    cases cs with
    | nil => simp at hnil
    | cons e es =>
      rw [regexTail?, Option.map_eq_none_iff] at hnone ⊢
      exact htail hnone

/-- An unclosed regular expression stays unclosed, also when its first character is escaped. -/
theorem Touched.regex (h : Touched numbers before cs cs') (inClass : Bool) :
    (regexTail? inClass cs = none → regexTail? inClass cs' = none) ∧
      (regexTail? inClass cs.tail = none → regexTail? inClass cs'.tail = none) := by
  induction h generalizing inClass with
  | nil => exact ⟨id, id⟩
  | @keep before c cs cs' h ih =>
    refine ⟨fun hnone => ?_, (ih inClass).1⟩
    by_cases hbreak : c = '\n'
    · rw [hbreak, regexTail?]
    · by_cases hescape : c = '\\'
      · subst hescape
        exact regexTail?_escape h.eq_nil_iff hnone (ih inClass).2
      · have hstep : ∀ text, regexTail? inClass (c :: text) =
            if (c == '/' && !inClass) = true then some 1
            else (regexTail? (c == '[' || inClass && c != ']') text).map (· + 1) := by
          intro text
          rw [regexTail?]
          · simp [hescape]
          · exact fun hc => hbreak hc
          · exact fun _ _ hc _ => hescape hc
        rw [hstep] at hnone ⊢
        split at hnone
        · cases hnone
        · next hslash =>
          rw [if_neg hslash, Option.map_eq_none_iff]
          exact (ih _).1 (Option.map_eq_none_iff.mp hnone)
  | @swap before old new cs cs' hswap h ih =>
    obtain ⟨o, olds, n, news, rfl, rfl, halike⟩ := hswap.heads
    have hinert : Inert olds := hswap.inert
    have hnews : ∀ c ∈ news, isPlain c = true :=
      fun c hc => hswap.plain c (List.mem_cons_of_mem _ hc)
    constructor
    · intro hnone
      have hold : Inert [o] := .of_plain (by simpa using halike.plain)
      have hcs := (hold.append hinert) inClass cs hnone
      exact (regexTail?_plain_append hswap.plain inClass cs').mpr ((ih inClass).1 hcs)
    · intro hnone
      exact (regexTail?_plain_append hnews inClass cs').mpr
        ((ih inClass).1 (hinert inClass cs hnone))

end Touched

/-! ## Names -/

theorem length_takeWhile_append {p : Char → Bool} {cs rest : List Char} :
    ((cs ++ rest).takeWhile p).length = cs.length ↔
      (∀ c ∈ cs, p c = true) ∧ ∀ c ∈ rest.head?, p c = false := by
  induction cs with
  | nil =>
    cases rest with
    | nil => simp
    | cons c rest => cases hc : p c <;> simp [hc]
  | cons c cs ih =>
    cases hc : p c with
    | false => simp [hc]
    | true => simp [hc, ih]

/-- A name reaches over its characters and stops before what is none. -/
theorem nameLength_cons {c : Char} {cs rest : List Char} :
    nameLength (c :: cs ++ rest) = (c :: cs).length ↔
      isNameStart c = true ∧ (∀ d ∈ cs, isNamePart d = true) ∧
        ∀ d ∈ rest.head?, isNamePart d = false := by
  rw [← length_takeWhile_append, List.cons_append, nameLength, List.length_cons]
  cases isNameStart c with
  | false => simp
  | true =>
    simp only [if_true, true_and]
    omega

theorem nameLength_eq_zero {cs : List Char} :
    nameLength cs = 0 ↔ ∀ c ∈ cs.head?, isNameStart c = false := by
  cases cs with
  | nil => simp [nameLength]
  | cons c cs => cases hc : isNameStart c <;> simp [nameLength, hc]

/-! ## Lexemes before a touched text -/

section Reads

variable {numbers : Nat → Prop} {before rest rest' : List Char} {names : SlotNames} {mode next : Mode}
  {kind : Option ValueKind}

theorem number_not_clear {front : List Char} (h : numberAt? (front ++ rest) = some front.length)
    (before : List Char) : ¬ Clear (front.reverse ++ before) := by
  obtain ⟨hpos, -⟩ := numberAt?_extent h
  obtain ⟨c, hc, hword⟩ := numberAt?_last h
  rw [List.getElem?_append_left (by omega), ← List.getLast?_eq_getElem?] at hc
  intro hclear
  have hhead : (front.reverse ++ before).head? = some c := by
    rw [List.head?_append, List.head?_reverse, hc, Option.some_or]
  have hapart := hclear c hhead
  rcases hword with hword | hword
  · rw [hword] at hapart
    cases hapart.1
  · exact hapart.2 hword

theorem Touched.number {front : List Char}
    (ht : Touched numbers (front.reverse ++ before) rest rest')
    (hnumber : numbers (front.reverse ++ before).length)
    (h : numberAt? (front ++ rest) = some front.length) :
    numberAt? (front ++ rest') = some front.length :=
  numberAt?_stable (ht.stopsAlike (number_not_clear h before) hnumber) h

theorem Touched.nameLength {front : List Char}
    (ht : Touched numbers (front.reverse ++ before) rest rest')
    (h : nameLength (front ++ rest) = front.length) : nameLength (front ++ rest') = front.length := by
  cases front with
  | nil =>
    rw [List.nil_append, List.length_nil, nameLength_eq_zero] at h ⊢
    intro c hc
    rcases ht.head with heq | ⟨-, o, n, ho, hn, halike, -⟩
    · exact h c (heq ▸ hc)
    · obtain rfl : n = c := Option.some.inj (hn.symm.trans hc)
      cases halike with
      | sign => decide
      | name hold _ =>
        rw [h o ho] at hold
        cases hold
      | digit _ hnew => exact isNameStart_of_isDecimal hnew
  | cons c cs =>
    obtain ⟨hstart, hparts, hstop⟩ := nameLength_cons.mp h
    have hlast : ¬ Clear ((c :: cs).reverse ++ before) := by
      obtain ⟨d, hd⟩ : ∃ d, (c :: cs).getLast? = some d :=
        ⟨_, List.getLast?_eq_some_getLast (by simp)⟩
      have hmem := List.mem_of_getLast? hd
      have hpart : isNamePart d = true := by
        rcases List.mem_cons.mp hmem with rfl | hmem
        · exact isNamePart_of_isNameStart hstart
        · exact hparts d hmem
      intro hclear
      have hapart := hclear d (by rw [List.head?_append, List.head?_reverse, hd, Option.some_or]; rfl)
      rw [hpart] at hapart
      cases hapart.1
    refine nameLength_cons.mpr ⟨hstart, hparts, ?_⟩
    rwa [← ht.head_of_not_clear hlast]

theorem numberAt?_eq_none_iff {c : Char} {cs : List Char} : numberAt? (c :: cs) = none ↔
    isDecimal c = false ∧ (c = '.' → ∀ d ∈ cs.head?, isDecimal d = false) := by
  rw [numberAt?_eq_numberLength?, numberLength?]
  by_cases hc : isDecimal c = true
  · simp [decimalLength?_digit hc, hc]
  · have hzero : c ≠ '0' := by
      rintro rfl
      exact hc (by decide)
    have hbased : prefixedLength? (c :: cs) = none := by simp [prefixedLength?, hzero]
    rw [hbased, Option.none_or]
    by_cases hpoint : c = '.'
    · subst hpoint
      rw [decimalLength?_point, ← digitsLength_eq_zero]
      simp [hc]
    · simp [decimalLength?, hc, hpoint]

theorem HeadsAlike.ne {old new : Char} (h : HeadsAlike old new) :
    new ≠ '/' ∧ new ≠ '*' ∧ new ≠ '+' ∧ new ≠ '\n' := by
  have hpart : isNamePart new = true ∨ new = '-' := by
    cases h with
    | sign => exact .inr rfl
    | name _ hnew => exact .inl (isNamePart_of_isNameStart hnew)
    | digit _ hnew => exact .inl (isNamePart_of_isDecimal hnew)
  rcases hpart with hpart | rfl
  · refine ⟨?_, ?_, ?_, ?_⟩ <;> rintro rfl <;> revert hpart <;> decide
  · decide

theorem HeadsAlike.eq_minus {old new : Char} (h : HeadsAlike old new) (hnew : new = '-') :
    old = '-' := by
  subst hnew
  cases h with
  | sign => rfl
  | name _ hnew => exact absurd hnew (by decide)
  | digit _ hnew => exact absurd hnew (by decide)

/-- A first character that a replacement never has is the first character of the text. -/
theorem Touched.head_eq {c : Char} (ht : Touched numbers before rest rest')
    (hc : ∀ old new, HeadsAlike old new → new = c → old = c) (h : rest'.head? = some c) :
    rest.head? = some c := by
  rcases ht.head with heq | ⟨-, o, n, ho, hn, halike, -⟩
  · rw [heq, h]
  · rw [ho, hc o n halike (Option.some.inj (hn.symm.trans h))]

theorem IsMark.touched {c : Char} (h : IsMark mode c rest)
    (ht : Touched numbers (c :: before) rest rest')
    (hsigned : signedNumber? rest = none → signedNumber? rest' = none) : IsMark mode c rest' where
  blank := h.blank
  quote := h.quote
  name := h.name
  number := by
    obtain ⟨hc, hpoint⟩ := numberAt?_eq_none_iff.mp h.number
    refine numberAt?_eq_none_iff.mpr ⟨hc, fun hdot => ?_⟩
    have hclear : ¬ Clear (c :: before) := fun hclear => (hclear c rfl).2 hdot
    rw [← ht.head_of_not_clear hclear]
    exact hpoint hdot
  slash := by
    intro hc
    obtain ⟨hline, hblock, hregex⟩ := h.slash hc
    refine ⟨fun hhead => hline ?_, fun hhead => hblock ?_, hregex.imp_right (ht.regex false).1⟩
    · exact ht.head_eq (fun _ _ halike hnew => absurd hnew halike.ne.1) hhead
    · exact ht.head_eq (fun _ _ halike hnew => absurd hnew halike.ne.2.1) hhead
  plus := fun hc hhead =>
    h.plus hc (ht.head_eq (fun _ _ halike hnew => absurd hnew halike.ne.2.2.1) hhead)
  minus := by
    intro hc
    obtain ⟨hdouble, hsign⟩ := h.minus hc
    exact ⟨fun hhead => hdouble (ht.head_eq (fun _ _ halike => halike.eq_minus) hhead),
      hsign.imp_right hsigned⟩
  point := by
    rintro hc more rfl
    have hclear : ¬ Clear (c :: before) := fun hclear => (hclear c rfl).2 hc
    -- behind a point nothing is exchanged, so the two points are points of the text
    cases rest with
    | nil => exact List.cons_ne_nil _ _ (ht.eq_nil_iff.mp rfl)
    | cons d ds =>
      obtain ⟨rfl, ht⟩ := ht.tail hclear
      have hclear' : ¬ Clear ('.' :: c :: before) := fun hclear => (hclear '.' rfl).2 rfl
      obtain ⟨more', rfl⟩ := List.head?_eq_some_iff.mp (ht.head_of_not_clear hclear')
      exact h.point hc more' rfl
  brace := h.brace

theorem Settles.touched {α : Type} {reader : List Char → α} {body : List Char} {result : α}
    (h : Settles reader body rest result) (ht : Touched numbers before rest rest') :
    Settles reader body rest' result := by
  rcases h.always with rfl | halways
  · have hnil := ht.eq_nil_iff.mp rfl
    subst hnil
    exact h
  · exact .of_always halways rest'

/-- A lexeme reads the same before a text with some values exchanged. -/
theorem Reads.touched {front : List Char} (h : Reads names mode front rest kind next)
    (ht : Touched numbers (front.reverse ++ before) rest rest')
    (hnumber : kind = some .number → numbers (front.reverse ++ before).length)
    (hsigned : signedNumber? rest = none → signedNumber? rest' = none) :
    Reads names mode front rest' kind next := by
  cases h with
  | blank h => exact .blank h rest'
  | lineComment hbody hrest =>
    refine .lineComment hbody fun c hc => ?_
    rcases ht.head with heq | ⟨-, o, n, ho, hn, halike, -⟩
    · exact hrest c (heq ▸ hc)
    · -- the line feed that ends the comment is no part of a value
      have hline := halike.plain
      rw [hrest o ho] at hline
      cases hline
  | blockComment h => exact .blockComment h rest'
  | openComment h =>
    have hnil := ht.eq_nil_iff.mp rfl
    subst hnil
    exact .openComment h
  | string hquote h => exact .string hquote (h.touched ht)
  | template h => exact .template (h.touched ht)
  | @regex body flags _ hmode hfirst hbody hflags =>
    refine .regex hmode hfirst hbody ?_
    rw [List.reverse_append, List.append_assoc] at ht
    exact ht.nameLength hflags
  | number h => exact .number (ht.number (hnumber rfl) h)
  | double h => exact .double h rest'
  | @signed gap digits _ hmode hgap h =>
    refine .signed hmode hgap ?_
    rw [List.reverse_append, List.append_assoc] at ht hnumber
    exact ht.number (hnumber rfl) h
  | name hne h => exact .name hne (ht.nameLength h)
  | spread => exact .spread rest'
  | mark h => exact .mark (h.touched ht hsigned)
  | resume hmode h => exact .resume hmode (h.touched ht)

end Reads

/-! ## Signs and the numbers behind them -/

inductive IsTrivia : List Char → List Char → Prop
  | blank {c : Char} (h : isBlank c = true) (rest : List Char) : IsTrivia [c] rest
  | line {body rest : List Char} (hbody : '\n' ∉ body) (hrest : ∀ c ∈ rest.head?, c = '\n') :
    IsTrivia ('/' :: '/' :: body) rest
  | block {body : List Char} (h : blockTail? body = some body.length) (rest : List Char) :
    IsTrivia ('/' :: '*' :: body) rest
  | openBlock {body : List Char} (h : blockTail? body = none) : IsTrivia ('/' :: '*' :: body) []

section Signs

variable {names : SlotNames} {mode next next' : Mode} {kind : Option ValueKind}
  {front front' rest rest' : List Char}

theorem Reads.trivia_or_solid (h : Reads names mode front rest kind next) :
    kind = none ∧ IsTrivia front rest ∨ gapLength? (front ++ rest) = some 0 := by
  cases h with
  | blank h => exact .inl ⟨rfl, .blank h rest⟩
  | lineComment hbody hrest => exact .inl ⟨rfl, .line hbody hrest⟩
  | blockComment h => exact .inl ⟨rfl, .block h rest⟩
  | openComment h => exact .inl ⟨rfl, .openBlock h⟩
  | string hquote => exact .inr (gapLength?_quote hquote)
  | template => exact .inr (gapLength?_plain (by decide) (by decide))
  | regex hmode hfirst hbody =>
    rw [List.cons_append, List.cons_append, List.append_assoc]
    exact .inr (gapLength?_regex hbody hfirst _)
  | number h => exact .inr (gapLength?_number h _)
  | double h => exact .inr (gapLength?_sign h)
  | signed => exact .inr (gapLength?_plain (by decide) (by decide))
  | name hne h =>
    obtain ⟨c, cs, rfl⟩ := List.exists_cons_of_ne_nil hne
    exact .inr (gapLength?_nameStart (nameLength_cons.mp h).1)
  | spread => exact .inr (gapLength?_plain (by decide) (by decide))
  | mark h => exact .inr (gapLength?_solid h.blank fun hc => ⟨(h.slash hc).1, (h.slash hc).2.1⟩)
  | resume => exact .inr (gapLength?_plain (by decide) (by decide))

theorem Reads.kind_of_numberAt? (h : Reads names mode front rest kind next) {n : Nat}
    (hn : numberAt? (front ++ rest) = some n) :
    kind = some .number ∧ front.head? ≠ some '-' := by
  obtain ⟨c, cs, rfl, hlexeme⟩ := h.lexeme_eq
  rw [List.cons_append] at hn
  obtain ⟨hblank, hquote, hslash⟩ := number_start_plain hn
  rw [lexeme_of_solid hblank fun hc => absurd hc hslash,
    solidLexeme_of_number hquote hslash hn] at hlexeme
  refine ⟨(congrArg Lexeme.kind hlexeme).symm, fun hhead => ?_⟩
  obtain rfl : c = '-' := by simpa using hhead
  rcases numberAt?_start hn with hc | hc <;> revert hc <;> decide

theorem kindOf?_ne_number (names : SlotNames) (name : String) :
    names.kindOf? name ≠ some .number := by
  unfold SlotNames.kindOf?
  split
  · nofun
  · split <;> nofun

/-- An unsigned number can be read where it is read. -/
theorem Reads.numberAt?_of_kind (h : Reads names mode front rest kind next)
    (hkind : kind = some .number) (hsign : front.head? ≠ some '-') :
    numberAt? (front ++ rest) = some front.length := by
  cases h with
  | number h => exact h
  | signed => exact absurd rfl hsign
  | name =>
    split at hkind
    · cases hkind
    · exact absurd hkind (kindOf?_ne_number _ _)
  | _ => cases hkind

theorem signedNumber?_behind (h : gapLength? (front ++ rest) =
    (gapLength? rest).map (· + front.length)) :
    signedNumber? (front ++ rest) = none ↔ signedNumber? rest = none := by
  rw [signedNumber?, signedNumber?, h]
  cases gapLength? rest with
  | none => simp
  | some gap =>
    have hdrop : (front ++ rest).drop (gap + front.length) = rest.drop gap := by
      rw [Nat.add_comm, List.drop_length_add_append]
    simp only [Option.map_some, hdrop, Option.map_eq_none_iff]

theorem signedNumber?_solid {cs : List Char} (h : gapLength? cs = some 0) :
    signedNumber? cs = none ↔ numberAt? cs = none := by
  simp [signedNumber?, h]

/-- White space and comments between a sign and what follows make no difference. -/
theorem IsTrivia.signed (h : IsTrivia front rest') (hnil : rest = [] ↔ rest' = [])
    (hline : rest'.head? = some '\n' → rest.head? = some '\n')
    (hrest : signedNumber? rest = none → signedNumber? rest' = none)
    (hnone : signedNumber? (front ++ rest) = none) : signedNumber? (front ++ rest') = none := by
  cases h with
  | @blank c h =>
    have hgap := Gap.length (.blank h .nil)
    exact (signedNumber?_behind (hgap rest')).mpr
      (hrest ((signedNumber?_behind (hgap rest)).mp hnone))
  | @line body _ hbody hbreak =>
    cases rest' with
    | nil => rwa [hnil.mpr rfl] at hnone
    | cons c cs' =>
      obtain rfl : c = '\n' := hbreak c rfl
      obtain ⟨cs, rfl⟩ := List.head?_eq_some_iff.mp (hline rfl)
      have hgap : ∀ behind, gapLength? ('/' :: '/' :: body ++ '\n' :: behind) =
          (gapLength? ('\n' :: behind)).map (· + ('/' :: '/' :: body).length) :=
        gapLength?_line hbody
      exact (signedNumber?_behind (hgap cs')).mpr
        (hrest ((signedNumber?_behind (hgap cs)).mp hnone))
  | @block body h =>
    have hgap : ∀ behind, gapLength? ('/' :: '*' :: body ++ behind) =
        (gapLength? behind).map (· + ('/' :: '*' :: body).length) := gapLength?_block h
    exact (signedNumber?_behind (hgap rest')).mpr
      (hrest ((signedNumber?_behind (hgap rest)).mp hnone))
  | openBlock h => rwa [hnil.mpr rfl] at hnone

/-- No number behind a sign comes up when values are exchanged. -/
theorem Reads.signed_step (h : Reads names mode front rest kind next)
    (h' : Reads names mode front' rest' kind next') (hkept : kind = none → front = front')
    (hsign : front.head? = some '-' → front'.head? = some '-') (hnil : rest = [] ↔ rest' = [])
    (hline : rest'.head? = some '\n' → rest.head? = some '\n')
    (hrest : signedNumber? rest = none → signedNumber? rest' = none)
    (hnone : signedNumber? (front ++ rest) = none) : signedNumber? (front' ++ rest') = none := by
  rcases h'.trivia_or_solid with ⟨hkind, htrivia⟩ | hsolid
  · rw [hkept hkind] at hnone
    exact htrivia.signed hnil hline hrest hnone
  · rw [signedNumber?_solid hsolid, Option.eq_none_iff_forall_ne_some]
    intro n hn
    obtain ⟨hkind, hminus⟩ := h'.kind_of_numberAt? hn
    have hnumber := h.numberAt?_of_kind hkind fun hhead => hminus (hsign hhead)
    have hread := signedNumber?_gap .nil hnumber
    rw [List.nil_append, hnone] at hread
    cases hread

end Signs

/-! ## Tokens -/

/-- Tokens behind the reversed text `before`, with some values exchanged for texts that are read
as they are. -/
inductive Patched (names : SlotNames) (numbers : Nat → Prop) :
    List Char → List Token → List Token → Prop
  | nil (before : List Char) : Patched names numbers before [] []
  | keep {before : List Char} {t : Token} {tokens tokens' : List Token}
      (hnumber : t.kind = some .number → numbers (t.text.reverse ++ before).length)
      (h : Patched names numbers (t.text.reverse ++ before) tokens tokens') :
    Patched names numbers before (t :: tokens) (t :: tokens')
  | swap {before new : List Char} {t : Token} {tokens tokens' : List Token}
      (hkind : t.kind ≠ none) (hswap : Exchange numbers before t.text new (written tokens))
      (hread : ∀ mode next rest rest', Clear rest' → Reads names mode t.text rest t.kind next →
        Reads names mode new rest' t.kind next)
      (h : Patched names numbers (t.text.reverse ++ before) tokens tokens') :
    Patched names numbers before (t :: tokens) (⟨new, t.kind⟩ :: tokens')

section Patched

variable {names : SlotNames} {numbers : Nat → Prop} {before : List Char}
  {tokens tokens' : List Token} {mode last : Mode}

theorem Patched.touched (h : Patched names numbers before tokens tokens') :
    Touched numbers before (written tokens) (written tokens') := by
  induction h with
  | nil before => exact .nil before
  | keep _ _ ih => exact ih.keep_all
  | swap _ hswap _ _ ih => exact .swap hswap ih

theorem HeadsAlike.minus {old new : Char} (h : HeadsAlike old new) (hold : old = '-') :
    new = '-' := by
  subst hold
  cases h with
  | sign => rfl
  | name hold _ => exact absurd hold (by decide)
  | digit hold _ => rcases hold with hold | hold <;> exact absurd hold (by decide)

/-- Tokens with some values exchanged are read as the tokens were, and no number comes up behind
them where there was none. -/
theorem Lexed.patched_signed (h : Lexed names mode tokens [] last)
    (hp : Patched names numbers before tokens tokens') : Lexed names mode tokens' [] last ∧
      (signedNumber? (written tokens) = none → signedNumber? (written tokens') = none) := by
  induction hp generalizing mode with
  | nil => exact ⟨h, id⟩
  | @keep before t tokens tokens' hnumber hp ih =>
    cases h with
    | cons first others =>
      obtain ⟨hothers, hsigned⟩ := ih others
      rw [List.append_nil] at first
      have ht := hp.touched
      have first' := first.touched ht hnumber hsigned
      refine ⟨.cons (by rwa [List.append_nil]) hothers, ?_⟩
      exact first.signed_step first' (fun _ => rfl) id ht.eq_nil_iff
        (ht.head_eq fun _ _ halike hnew => absurd hnew halike.ne.2.2.2) hsigned
  | @swap before new t tokens tokens' hkind hswap hread hp ih =>
    cases h with
    | cons first others =>
      obtain ⟨hothers, hsigned⟩ := ih others
      rw [List.append_nil] at first
      have ht := hp.touched
      have first' := hread _ _ _ _ (ht.clear hswap.clearBehind) first
      refine ⟨.cons (by rwa [List.append_nil]) hothers, ?_⟩
      refine first.signed_step first' (fun hnone => absurd hnone hkind) ?_ ht.eq_nil_iff
        (ht.head_eq fun _ _ halike hnew => absurd hnew halike.ne.2.2.2) hsigned
      obtain ⟨o, olds, n, news, hold, hnew, halike⟩ := hswap.heads
      intro hhead
      rw [hold] at hhead
      rw [hnew, List.head?_cons, halike.minus (Option.some.inj hhead)]

/-- Tokens with some values exchanged are read as the tokens were. -/
theorem Lexed.patched (h : Lexed names mode tokens [] last)
    (hp : Patched names numbers before tokens tokens') : Lexed names mode tokens' [] last :=
  (h.patched_signed hp).1

end Patched

end LiveChain.Scan
