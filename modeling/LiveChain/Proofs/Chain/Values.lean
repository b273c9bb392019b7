import LiveChain.Proofs.Chain.Phrase

/-!
# The values that a scan finds in a chain

A scan of a chain passes its pieces one by one: names and numbers are values, everything else is
not.
-/

set_option autoImplicit false

namespace LiveChain.Chain

open Text Syntax Scan

/-! ## Pieces as tokens -/

def Piece.kind? (names : SlotNames) : Piece → Option ValueKind
  | .name word => names.kindOf? (String.ofList word)
  | .number _ _ => some .number
  | _ => none

def Piece.token (names : SlotNames) (p : Piece) : Token := ⟨p.text, p.kind? names⟩

def tokens (names : SlotNames) (pieces : List Piece) : List Token := pieces.map (Piece.token names)

@[simp] theorem tokens_append (names : SlotNames) (pieces pieces' : List Piece) :
    tokens names (pieces ++ pieces') = tokens names pieces ++ tokens names pieces' :=
  List.map_append

@[simp] theorem tokens_cons (names : SlotNames) (p : Piece) (pieces : List Piece) :
    tokens names (p :: pieces) = p.token names :: tokens names pieces :=
  rfl

@[simp] theorem written_tokens (names : SlotNames) (pieces : List Piece) :
    written (tokens names pieces) = spelled pieces := by
  induction pieces with
  | nil => rfl
  | cons p pieces ih =>
    rw [tokens_cons, written_cons, ih, spelled_cons]
    rfl

/-! ## Stretches of text -/

/-- From a mode to a mode, the scan of a text that goes on with `rest` finds the values among its
tokens. -/
def ScansTo (names : SlotNames) (mode : Mode) (tokens : List Token) (rest : List Char)
    (last : Mode) : Prop :=
  ∀ offset, foundFrom names mode 0 offset (written tokens ++ rest) =
    tokenValues offset tokens ++ foundFrom names last 0 (offset + (written tokens).length) rest

section ScansTo

variable {names : SlotNames} {mode next last : Mode} {tokens tokens' : List Token}
  {rest : List Char}

theorem ScansTo.append (h : ScansTo names mode tokens (written tokens' ++ rest) next)
    (h' : ScansTo names next tokens' rest last) :
    ScansTo names mode (tokens ++ tokens') rest last := by
  intro offset
  rw [written_append, List.append_assoc, h, h', tokenValues_append, List.append_assoc,
    List.length_append, Nat.add_assoc]

theorem ScansTo.of_reads {t : Token} (h : Reads names mode t.text rest t.kind next) :
    ScansTo names mode [t] rest next := by
  intro offset
  rw [written_cons, written_nil, List.append_nil, foundFrom_reads h, tokenValues, tokenValues,
    List.append_nil]

theorem ScansTo.of_trivia {gap : List Char} (h : Trivia gap) (names : SlotNames) (mode : Mode)
    (rest : List Char) : ScansTo names mode [⟨gap, none⟩] rest mode := by
  intro offset
  rw [written_cons, written_nil, List.append_nil]
  exact foundFrom_trivia h names mode offset rest

theorem ScansTo.cons {t : Token} (h : ScansTo names mode [t] (written tokens ++ rest) next)
    (h' : ScansTo names next tokens rest last) : ScansTo names mode (t :: tokens) rest last :=
  ScansTo.append h h'

theorem ScansTo.of_mark {c : Char} (hc : c ∈ ['.', '(', ',', ')'])
    (hpoint : c = '.' → ∀ d ∈ rest.head?, isDecimal d = false ∧ d ≠ '.') :
    ScansTo names mode [⟨[c], none⟩] rest (mode.afterMark c) := by
  refine .of_reads (.mark ?_)
  have hclass : ∀ c ∈ ['.', '(', ',', ')'], isBlank c = false ∧
      (c ≠ '\'' ∧ c ≠ '"' ∧ c ≠ '`') ∧ isNameStart c = false ∧ isDecimal c = false ∧ c ≠ '/' ∧
      c ≠ '+' ∧ c ≠ '-' ∧ c ≠ '}' := forall_mem_of_all (by decide)
  obtain ⟨hblank, hquote, hname, hdecimal, hslash, hplus, hminus, hbrace⟩ := hclass c hc
  exact {
    blank := hblank
    quote := hquote
    name := hname
    number := numberAt?_eq_none_iff.mpr ⟨hdecimal, fun heq d hd => (hpoint heq d hd).1⟩
    slash := fun heq => absurd heq hslash
    plus := fun heq => absurd heq hplus
    minus := fun heq => absurd heq hminus
    point := by
      rintro heq more rfl
      exact (hpoint heq '.' rfl).2 rfl
    brace := fun heq => absurd heq hbrace }

end ScansTo

/-! ## Names, numbers and quoted texts -/

section Leaves

variable {names : SlotNames} {mode : Mode} {rest : List Char}

theorem ChainName.scans_name {w : List Char} (h : ChainName w) (hmode : mode.afterDot = false)
    (hrest : Part.Before .chain rest) :
    ScansTo names mode (tokens names [.name w]) rest mode.operand := by
  have hread : Reads names mode w rest _ _ := .name h.ne_nil (h.nameLength_eq (head_chain hrest))
  rw [hmode, h.operand] at hread
  exact ScansTo.of_reads hread

theorem ChainName.scans_property {w : List Char} (h : ChainName w) (hmode : mode.afterDot = true)
    (hrest : Part.Before .chain rest) :
    ScansTo names mode (tokens names [.property w]) rest mode.operand := by
  have hread : Reads names mode w rest _ _ := .name h.ne_nil (h.nameLength_eq (head_chain hrest))
  rw [hmode, h.operand] at hread
  exact ScansTo.of_reads hread

theorem enclosed_of_plain {quote : Char} {body : List Char}
    (h : ∀ c ∈ body, c ≠ quote ∧ c ≠ '\\' ∧ c ≠ '\n' ∧ c ≠ '\r') : Enclosed quote body := by
  induction body with
  | nil => exact .nil
  | cons c body ih =>
    obtain ⟨hc, hslash, hline, -⟩ := h c List.mem_cons_self
    exact .plain ⟨hc, hslash, hline⟩ (ih fun d hd => h d (List.mem_cons_of_mem _ hd))

theorem Quoted.scans {text : List Char} (h : Quoted text) :
    ScansTo names mode (tokens names [.quoted text]) rest mode.operand := by
  cases h with
  | mk hquote h =>
    have htail := stringTail_enclosed hquote (enclosed_of_plain h)
    exact ScansTo.of_reads (.string hquote (.of_always htail rest))

theorem scans_number {sign digits : List Char} (hsign : Sign sign)
    (h : numberToken? digits = some digits.length) (hmode : mode.afterOperand = false)
    (hrest : Part.Before .argument rest) :
    ScansTo names mode (tokens names [.number sign digits]) rest mode.operand := by
  have hnumber := (numeral_of_token h).numberAt?_append (stops_argument hrest).clear
  refine ScansTo.of_reads ?_
  cases hsign with
  | none => exact .number hnumber
  | minus hgap => exact .signed hmode hgap.isGap hnumber

end Leaves

/-! ## Phrases -/

section Phrase

variable {names : SlotNames} {mode next : Mode} {pieces : List Piece} {rest : List Char}

theorem scans_gap {gap : List Char} (h : Trivia gap)
    (hpieces : ScansTo names mode (tokens names pieces) rest next) :
    ScansTo names mode (tokens names (.gap gap :: pieces)) rest next :=
  .cons (.of_trivia h names mode _) hpieces

theorem scans_mark {c : Char} (hc : c ∈ ['.', '(', ',', ')'])
    (hpoint : c = '.' → ∀ d ∈ (spelled pieces ++ rest).head?, isDecimal d = false ∧ d ≠ '.')
    (hpieces : ScansTo names (mode.afterMark c) (tokens names pieces) rest next) :
    ScansTo names mode (tokens names (.mark c :: pieces)) rest next := by
  refine .cons (.of_mark hc ?_) hpieces
  change _ → ∀ d ∈ (written (tokens names pieces) ++ rest).head?, _
  rwa [written_tokens]

end Phrase

theorem Phrase.scans {part : Part} {pieces : List Piece} (h : Phrase part pieces)
    (names : SlotNames) {mode : Mode} (hoperand : mode.afterOperand = false)
    (hdot : mode.afterDot = false) {rest : List Char} (hrest : part.Before rest) :
    ScansTo names mode (tokens names pieces) rest mode.operand := by
  induction h generalizing mode rest with
  | name h => exact h.scans_name hdot hrest
  | @property object before after w hobject hbefore hafter h ih =>
    rw [tokens_append]
    have hlink : Part.Before .chain
        (spelled [.gap before, .mark '.', .gap after, .property w] ++ rest) :=
      .inl ⟨before, _, by simp [Piece.text], hbefore, stop_of_link (link_property hafter h rest)⟩
    refine .append (ih hoperand hdot (by rwa [written_tokens])) (scans_gap hbefore ?_)
    refine scans_mark (by decide) (fun _ d hd => ?_) (scans_gap hafter ?_)
    · have hplain := head_property hafter h rest d (by simpa [Piece.text] using hd)
      exact ⟨hplain.1, hplain.2.2⟩
    · exact h.scans_property rfl hrest
  | @call callee list before hcallee hbefore hlist ih ih' =>
    rw [tokens_append]
    have hlink : Part.Before .chain (spelled (.gap before :: .mark '(' :: list) ++ rest) :=
      .inl ⟨before, '(' :: (spelled list ++ rest), by simp [Piece.text], hbefore,
        stop_of_link (.inl rfl)⟩
    refine .append (ih hoperand hdot (by rwa [written_tokens])) (scans_gap hbefore ?_)
    exact scans_mark (by decide) (fun heq => absurd heq (by decide)) (ih' rfl rfl trivial)
  | number hsign h => exact scans_number hsign h hoperand hrest
  | quoted h => exact h.scans
  | nested h ih => exact ih hoperand hdot (before_chain hrest)
  | none h =>
    refine scans_gap h (scans_mark (by decide) (fun heq => absurd heq (by decide)) ?_)
    intro offset
    rfl
  | @last argument before after hbefore hargument hafter ih =>
    have hclose : Part.Before .argument (spelled [.gap after, .mark ')'] ++ rest) :=
      ⟨after, ')' :: rest, by simp [Piece.text], hafter, .inr rfl⟩
    refine scans_gap hbefore ?_
    rw [tokens_append]
    refine .append (ih hoperand hdot (by rwa [written_tokens])) (scans_gap hafter ?_)
    refine scans_mark (by decide) (fun heq => absurd heq (by decide)) ?_
    intro offset
    rfl
  | @more argument list before after hbefore hargument hafter hlist ih ih' =>
    have hclose : Part.Before .argument (spelled (.gap after :: .mark ',' :: list) ++ rest) :=
      ⟨after, ',' :: (spelled list ++ rest), by simp [Piece.text], hafter, .inl rfl⟩
    refine scans_gap hbefore ?_
    rw [tokens_append]
    refine .append (ih hoperand hdot (by rwa [written_tokens])) (scans_gap hafter ?_)
    exact scans_mark (by decide) (fun heq => absurd heq (by decide)) (ih' rfl rfl trivial)

/-- The scan of a whole chain finds the values among its pieces. -/
theorem found_chain {pieces : List Piece} (h : MethodChain pieces) (names : SlotNames) :
    found names (spelled pieces) = tokenValues 0 (tokens names pieces) := by
  cases h with
  | @mk before after pieces hbefore h hafter =>
    have hmode : Mode.initial.afterOperand = false ∧ Mode.initial.afterDot = false := ⟨rfl, rfl⟩
    have hend : ScansTo names Mode.initial.operand (tokens names [.gap after]) [] Mode.initial := by
      intro offset
      have hnone := foundFrom_ending hafter names Mode.initial.operand offset
      simpa [Piece.token, Piece.text, tokens, tokenValues, Piece.kind?, foundFrom] using hnone
    have hrest : Part.Before .chain (written (tokens names [.gap after]) ++ []) := by
      rw [written_tokens, List.append_nil, spelled_cons, spelled_nil, List.append_nil]
      exact .inr hafter
    have hscan : ScansTo names Mode.initial (tokens names (.gap before :: (pieces ++ [.gap after])))
        [] Mode.initial := by
      refine scans_gap hbefore ?_
      rw [tokens_append]
      exact .append (h.scans names hmode.1 hmode.2 hrest) hend
    have hfound := hscan 0
    rw [written_tokens, List.append_nil] at hfound
    rw [found, hfound, foundFrom, List.append_nil]

end LiveChain.Chain
