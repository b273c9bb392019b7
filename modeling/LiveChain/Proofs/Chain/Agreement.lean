import LiveChain.Proofs.Chain.Program
import LiveChain.Proofs.Locate.ValueNodes
import LiveChain.Proofs.Text.Lines

/-!
# Scan and tree agree on chains

The scan of a text and the walk over its syntax tree find the values of a method chain at the same
places, whatever names are references and whatever lines are directives.
-/

set_option autoImplicit false

namespace LiveChain

open Text

/-! ## Spans by their offsets -/

theorem valueSpans_offsets (names : SlotNames) (keywords : List String) (text : List Char) :
    (valueSpans names keywords text).map (fun span => (span.start, span.stop)) =
      ((Scan.found names text).filter fun f => !onDirective keywords text f.start).map
        fun f => ((f.start : Int), (f.stop : Int)) := by
  refine List.ext_getElem? fun i => ?_
  rw [List.getElem?_map, valueSpans_getElem?, List.getElem?_map, Option.map_map]
  rfl

end LiveChain

namespace LiveChain.Chain

open Text Syntax Scan

/-! ## Values by their offsets -/

/-- The span and the kind of a value that the scan of a text has found. -/
def foundSite (text : List Char) (f : Found) : Span × ValueKind :=
  (Span.between (Place.origin.after (text.take f.start)) (Place.origin.after (text.take f.stop)),
    f.kind)

theorem sites_eq (before : List Char) (tokens : List Token) :
    sites (Place.origin.after before) tokens =
      (tokenValues before.length tokens).map (foundSite (before ++ written tokens)) := by
  induction tokens generalizing before with
  | nil => rfl
  | cons t tokens ih =>
    have hrest := ih (before ++ t.text)
    rw [Place.after_append, List.append_assoc, List.length_append] at hrest
    rw [sites, tokenValues, hrest, List.map_append, written_cons]
    congr 1
    cases t.kind with
    | none => rfl
    | some kind =>
      simp only [Option.map_some, Option.toList_some, List.map_cons, List.map_nil, foundSite]
      rw [List.take_left, ← List.append_assoc, ← List.length_append, List.take_left,
        Place.after_append]

theorem foundSite_line (text : List Char) (f : Found) :
    (foundSite text f).1.startLine = lineNumber text f.start := by
  have hline := Place.line_after Place.origin (text.take f.start)
  simp only [foundSite, Span.between, lineNumber, hline]
  simp [Place.origin]

theorem foundSite_offsets {names : SlotNames} {text : List Char} {f : Found}
    (h : f ∈ found names text) :
    ((foundSite text f).1.startOffset, (foundSite text f).1.endOffset) =
      ((f.start : Int), (f.stop : Int)) := by
  have hextent := found_extent h
  simp only [foundSite, Span.between, Place.offset_after, List.length_take]
  rw [Nat.min_eq_left (by omega), Nat.min_eq_left (by omega)]
  simp [Place.origin]

def onDirectiveLine (keywords : List String) (text : List Char) (site : Span × ValueKind) : Bool :=
  ( entry? (lines text) site.1.startLine).any (isDirective keywords)

theorem onDirectiveLine_found (keywords : List String) (text : List Char) (f : Found) :
    onDirectiveLine keywords text (foundSite text f) = onDirective keywords text f.start := by
  rw [onDirectiveLine, foundSite_line, entry?, if_neg (by omega), Int.toNat_natCast, onDirective]
  cases (lines text)[lineNumber text f.start]? <;> rfl

/-! ## Value nodes -/

section Candidates

variable {keywords : List String} {text : List Char}

theorem foundSites_sorted (names : SlotNames) (text : List Char) :
    ((found names text).map (foundSite text)).Pairwise
      fun a b => a.1.startOffset ≤ b.1.startOffset := by
  refine List.pairwise_map.mpr ((foundFrom_apart names Mode.initial 0 0 text).imp_of_mem ?_)
  intro f g hf hg hle
  have hstart := (Prod.mk.inj (foundSite_offsets hf)).1
  have hstart' := (Prod.mk.inj (foundSite_offsets hg)).1
  have hextent := found_extent hf
  omega

/-- Value nodes at the places that the scan finds are in order, and those on directive lines are
left out. -/
theorem candidates_of_sites {names : SlotNames} {p : Program}
    (h : (p.visits.filterMap (candidateOf? names)).map candidateSite =
      (found names text).map (foundSite text)) :
    (candidates names keywords text p).result.map candidateSite =
      ((found names text).filter fun f => !onDirective keywords text f.start).map
        (foundSite text) := by
  have hlines : ∀ c ∈ p.visits.filterMap (candidateOf? names), 0 ≤ c.span.startLine := by
    intro c hc
    have hmem := List.mem_map_of_mem (f := candidateSite) hc
    rw [h] at hmem
    obtain ⟨f, -, hf⟩ := List.mem_map.mp hmem
    have hline := foundSite_line text f
    rw [hf] at hline
    change c.span.startLine = _ at hline
    omega
  have hsorted : ((p.visits.filterMap (candidateOf? names)).filter
      fun c => !onDirectiveLine keywords text (candidateSite c)).Pairwise
        fun a b => decide (a.span.startOffset ≤ b.span.startOffset) = true := by
    have hpairwise := foundSites_sorted names text
    rw [← h, List.pairwise_map] at hpairwise
    exact (hpairwise.imp fun hle => decide_eq_true hle).filter _
  have hdirective : (fun site => !onDirectiveLine keywords text site) ∘ foundSite text =
      fun f => !onDirective keywords text f.start := by
    funext f
    exact congrArg Bool.not (onDirectiveLine_found keywords text f)
  have hkept : keptCandidates keywords (lines text) (p.visits.filterMap (candidateOf? names)) =
      ⟨(p.visits.filterMap (candidateOf? names)).filter
        fun c => !onDirectiveLine keywords text (candidateSite c), []⟩ :=
    keptCandidates_of_nonneg hlines
  simp only [candidates, hkept]
  rw [sortBy_of_pairwise hsorted, ← hdirective, ← List.filter_map, ← h, List.filter_map]
  rfl

end Candidates

/-- The value nodes of a chain are the values that the scan finds. -/
theorem candidates_chain {pieces : List Piece} (h : MethodChain pieces) {p : Program}
    (hshows : Shows Place.origin pieces p.visits) (names : SlotNames) (keywords : List String) :
    (candidates names keywords (spelled pieces) p).result.map candidateSite =
      ((found names (spelled pieces)).filter fun f =>
        !onDirective keywords (spelled pieces) f.start).map (foundSite (spelled pieces)) := by
  have hsites := sites_eq [] (tokens names pieces)
  rw [List.nil_append, written_tokens] at hsites
  refine candidates_of_sites ?_
  rw [hshows.values, found_chain h]
  exact hsites

theorem MethodChain.spelled_ne_nil {pieces : List Piece} (h : MethodChain pieces) :
    spelled pieces ≠ [] := by
  cases h with
  | mk hbefore h hafter =>
    intro hnil
    simp only [spelled_cons, spelled_append, List.append_eq_nil_iff] at hnil
    exact h.spelled_ne_nil hnil.2.1

theorem valueOffsets_chain {pieces : List Piece} (h : MethodChain pieces) {p : Program}
    (hshows : Shows Place.origin pieces p.visits) (names : SlotNames) (keywords : List String) :
    (valueOffsets names keywords (some p) (spelled pieces)).result =
      (valueSpans names keywords (spelled pieces)).map fun span => (span.start, span.stop) := by
  have hsites := congrArg (List.map fun site : Span × ValueKind =>
    (site.1.startOffset, site.1.endOffset)) (candidates_chain h hshows names keywords)
  rw [List.map_map, List.map_map] at hsites
  have hnonempty : (spelled pieces).isEmpty = false :=
    List.isEmpty_eq_false_iff.mpr h.spelled_ne_nil
  rw [valueSpans_offsets, valueOffsets]
  simp only [hnonempty, Bool.false_eq_true, if_false]
  refine hsites.trans (List.map_congr_left fun f hf => ?_)
  exact foundSite_offsets (List.mem_filter.mp hf).1

/-! ## The statement -/

theorem length_splitSign_le (cs : List Char) : (splitSign cs).2.length ≤ cs.length := by
  unfold splitSign
  split <;> simp

theorem length_stripPadding_le (cs : List Char) : (stripPadding cs).length ≤ cs.length := by
  have hend := (List.dropWhile_sublist isPadding (l := (cs.dropWhile isPadding).reverse)).length_le
  have hstart := (List.dropWhile_sublist isPadding (l := cs)).length_le
  rw [List.length_reverse] at hend
  rw [stripPadding, List.length_reverse]
  omega

/-- A numeral that is no decimal integer of more digits than are read. -/
def Short (raw : List Char) : Prop :=
  ∀ text, NumberLiteral.form raw = .decimal text → text.length ≤ digitLimit

theorem length_bare_le (raw : List Char) : (NumberLiteral.bare raw).length ≤ raw.length := by
  have hfilter := List.length_filter_le (· ≠ '_') raw
  unfold NumberLiteral.bare
  simp only
  split
  · rw [List.length_dropLast]
    omega
  · exact hfilter

theorem form_decimal {raw text : List Char} (h : NumberLiteral.form raw = .decimal text) :
    text = NumberLiteral.bare raw := by
  unfold NumberLiteral.form NumberLiteral.formOfBare NumberLiteral.plainForm at h
  grind

theorem Short.of_length {raw : List Char} (h : raw.length ≤ digitLimit) : Short raw := by
  intro text hform
  have hlength := length_bare_le raw
  rw [form_decimal hform]
  omega

theorem Short.excess?_eq {raw : List Char} (h : Short raw) : NumberLiteral.excess? raw = none := by
  unfold NumberLiteral.excess?
  split
  · next text hform =>
    have hsign := length_splitSign_le (stripPadding text)
    have hpadding := length_stripPadding_le text
    have hlimit := h text hform
    exact if_neg (by omega)
  · rfl

theorem findSome?_excess {pieces : List Piece} (h : ∀ raw ∈ numerals pieces, Short raw) :
    (numerals pieces).findSome? NumberLiteral.excess? = none :=
  List.findSome?_eq_none_iff.mpr fun raw hraw => (h raw hraw).excess?_eq

/-- A method chain whose decimal integers are not too long parses, and for all names of slots and
all directive keywords the scan of the text and the walk over the tree find its values from the
same offsets to the same offsets, in the same order. -/
theorem scan_agrees_with_tree {pieces : List Piece} (h : MethodChain pieces)
    (hshort : ∀ raw ∈ numerals pieces, Short raw) (names : SlotNames) (keywords : List String) :
    ∃ p, parseProgram (spelled pieces) = .ok p ∧
      (valueSpans names keywords (spelled pieces)).map (fun span => (span.start, span.stop)) =
        (valueOffsets names keywords (some p) (spelled pieces)).result := by
  obtain ⟨p, hshows, hparse, -⟩ := parseProgram_chain h
  exact ⟨p, hparse (findSome?_excess hshort), (valueOffsets_chain h hshows names keywords).symm⟩

/-- A chain over two lines with a sign apart from its number, comments, a quoted text, a chain as an
argument and a reference, which stands on a directive line. -/
theorem scan_agrees_with_tree_nested :
    let gap := [' ', '/', '*', 'a', '*', '/', ' ']
    let pieces : List Piece := [.gap [], .name ['s', 'r', 'c'], .gap [], .mark '(', .gap [],
      .name ['s', '0'], .gap [], .mark ')', .gap ['\n', ' '], .mark '.', .gap [],
      .property ['a', 'd', 'd'], .gap [], .mark '(', .gap [], .name ['o', 's', 'c'], .gap [],
      .mark '(', .gap [], .number ('-' :: gap) ['1', '_', '0', '.', '5'], .gap [], .mark ',',
      .gap [' '], .quoted ['\'', 'b', '\''], .gap [], .mark ')', .gap [], .mark ',', .gap [],
      .number [] ['.', '5'], .gap [], .mark ')', .gap ['/', '/', 'c']]
    (MethodChain pieces ∧ ∀ raw ∈ numerals pieces, Short raw) ∧
      spelled pieces = "src(s0)\n .add(osc(- /*a*/ 1_0.5, 'b'),.5)//c".toList ∧
      ∃ p, parseProgram (spelled pieces) = .ok p ∧
        (valueSpans .standard ["src"] (spelled pieces)).map (fun span => (span.start, span.stop)) =
          (valueOffsets .standard ["src"] (some p) (spelled pieces)).result := by
  intro gap pieces
  have hgap : Trivia (' ' :: (['/', '*', 'a', '*', '/'] ++ [' '])) :=
    .blank (.inl rfl) (.comment (.block rfl _) (.blank (.inl rfl) .nil))
  have hquoted : Quoted ('\'' :: (['b'] ++ ['\''])) := .mk (.inl rfl) (forall_mem_of_all (by decide))
  have hnumber : Phrase .argument [.number ('-' :: gap) ['1', '_', '0', '.', '5']] :=
    .number (.minus hgap) (by decide)
  have hpoint : Phrase .argument [.number [] ['.', '5']] := .number .none (by decide)
  have hosc : Phrase .chain ([.name ['o', 's', 'c']] ++ _) :=
    .call (.name (by decide)) .nil
      (.more .nil hnumber .nil (.last (.blank (.inl rfl) .nil) (.quoted hquoted) .nil))
  have hsource : Phrase .chain [.name ['s', '0']] := .name (by decide)
  have hsrc : Phrase .chain ([.name ['s', 'r', 'c']] ++ _) :=
    .call (.name (by decide)) .nil (.last .nil (.nested hsource) .nil)
  have hbreak : Trivia ['\n', ' '] := .blank (.inr (.inr rfl)) (.blank (.inl rfl) .nil)
  have hadd : Phrase .chain _ :=
    .call (.property (w := ['a', 'd', 'd']) hsrc hbreak .nil (by decide)) .nil
      (.more .nil (.nested hosc) .nil (.last .nil hpoint .nil))
  have hlast : LastLine ['/', '/', 'c'] := .comment (forall_mem_of_all (by decide))
  have hchain : MethodChain pieces := .mk .nil hadd (.mk .nil hlast)
  have hshort : ∀ raw ∈ numerals pieces, Short raw := by
    have hnumerals : numerals pieces = [['1', '_', '0', '.', '5'], ['.', '5']] := rfl
    rw [hnumerals]
    exact List.forall_mem_cons.mpr ⟨.of_length (by decide),
      List.forall_mem_singleton.mpr (.of_length (by decide))⟩
  exact ⟨⟨hchain, hshort⟩, by decide +kernel, scan_agrees_with_tree hchain hshort _ _⟩

theorem excess?_ones {n : Nat} (h : digitLimit ≤ n) :
    NumberLiteral.excess? (List.replicate (n + 1) '1') = some (n + 1) := by
  have hdigits : ∀ c ∈ List.replicate (n + 1) '1', c.isDigit = true := by
    intro c hc
    rw [List.eq_of_mem_replicate hc]
    decide
  have hbare : NumberLiteral.bare (List.replicate (n + 1) '1') = List.replicate (n + 1) '1' :=
    bare_of_chars (fun c hc => .inl (hdigits c hc)) fun hmem =>
      absurd (hdigits _ hmem) (by decide)
  have hform : NumberLiteral.form (List.replicate (n + 1) '1') =
      .decimal (List.replicate (n + 1) '1') := by
    rw [NumberLiteral.form, hbare, formOfBare_digits hdigits]
    refine if_neg ?_
    rintro ⟨-, hhead, -⟩
    exact absurd (Option.some.inj hhead) (by decide)
  simp only [NumberLiteral.excess?, hform, splitSign_digits hdigits, List.length_replicate]
  exact if_pos (by omega)

/-- A chain with an integer of one digit more than are read does not parse, although it is written
like any other. -/
theorem parse_fails_long_integer :
    let pieces : List Piece := [.gap [], .name ['o', 's', 'c'], .gap [], .mark '(', .gap [],
      .number [] (List.replicate (digitLimit + 1) '1'), .gap [], .mark ')', .gap []]
    MethodChain pieces ∧
      parseProgram (spelled pieces) = .error (.tooLong (digitLimit + 1)) := by
  intro pieces
  have hdecimal : PlainDecimal (List.replicate (digitLimit + 1) '1') [] := {
    ne_nil := List.cons_ne_nil _ _
    digits := fun c hc => by rw [List.eq_of_mem_replicate hc]; decide
    takes := by
      rw [takesFraction]
      · nofun
      · intro d rest heq
        exact absurd (List.cons.inj heq).1 (by decide)
    point := .inl rfl }
  have htoken := hdecimal.numberToken?_eq
  rw [List.append_nil] at htoken
  have hphrase : Phrase .chain ([.name ['o', 's', 'c']] ++ _) :=
    .call (.name (by decide)) .nil (.last .nil (.number .none htoken) .nil)
  have hchain : MethodChain pieces := .mk .nil hphrase (.of_trivia .nil)
  obtain ⟨-, -, -, herror⟩ := parseProgram_chain hchain
  refine ⟨hchain, herror _ ?_⟩
  have hnumerals : numerals pieces = [List.replicate (digitLimit + 1) '1'] := rfl
  rw [hnumerals, List.findSome?_singleton, excess?_ones (Nat.le_refl _)]

end LiveChain.Chain
