import LiveChain.Proofs.Chain.Discovery
import LiveChain.Proofs.Chain.Written
import LiveChain.Proofs.Scan.Rescan

/-!
# Editing the numbers of a chain

Whatever finite numbers are written for numbers of a method chain, a method chain comes out: it
parses again, and it has the same values in the same order. Elsewhere a written number can run into
what stands before or behind it.
-/

set_option autoImplicit false

namespace LiveChain

/-- A number that is neither infinite nor not-a-number. -/
def Number.IsFinite : Number → Prop
  | .int _ => True
  | .float x => ∃ y, x = .finite y

/-- A finite number that can be written is written as a finite double. -/
theorem Number.IsFinite.replacement_eq {n : Number} (h : n.IsFinite) {new : List Char}
    (hnew : replacement (.number n) = .ok new) : ∃ x : Binary64.Finite, new = x.written := by
  cases n with
  | float x =>
    obtain ⟨y, rfl⟩ := h
    exact ⟨y, (Except.ok.inj hnew).symm⟩
  | int k =>
    have hwritable := replacement_isOk.mp ⟨new, hnew⟩
    obtain ⟨x, hx⟩ := hwritable
    have hfinite : replacement (.number (.int k)) = .ok x.written := replacement_finite hx
    rw [hfinite] at hnew
    exact ⟨x, (Except.ok.inj hnew).symm⟩

end LiveChain

namespace LiveChain.Chain

open Text Syntax Scan

/-! ## Exchanged numbers -/

inductive Renumbered : List Piece → List Piece → Prop
  | nil : Renumbered [] []
  | keep (p : Piece) {pieces pieces' : List Piece} (h : Renumbered pieces pieces') :
    Renumbered (p :: pieces) (p :: pieces')
  | number {sign digits sign' digits' : List Char} {pieces pieces' : List Piece}
      (hsign : Sign sign') (hdigits : IsLiteral digits') (h : Renumbered pieces pieces') :
    Renumbered (.number sign digits :: pieces) (.number sign' digits' :: pieces')

section Renumbered

variable {pieces pieces' : List Piece}

theorem Renumbered.split {behind : List Piece} (h : Renumbered (pieces ++ behind) pieces') :
    ∃ front back, pieces' = front ++ back ∧ Renumbered pieces front ∧ Renumbered behind back := by
  induction pieces generalizing pieces' with
  | nil => exact ⟨[], pieces', rfl, .nil, h⟩
  | cons p pieces ih =>
    cases h with
    | keep _ h =>
      obtain ⟨front, back, rfl, hfront, hback⟩ := ih h
      exact ⟨p :: front, back, rfl, .keep p hfront, hback⟩
    | number hsign hdigits h =>
      obtain ⟨front, back, rfl, hfront, hback⟩ := ih h
      exact ⟨_ :: front, back, rfl, .number hsign hdigits hfront, hback⟩

theorem Renumbered.eq_of_plain (h : Renumbered pieces pieces') (hplain : numerals pieces = []) :
    pieces' = pieces := by
  induction h with
  | nil => rfl
  | keep p h ih =>
    rw [ih]
    cases p with
    | number => cases hplain
    | _ => exact hplain
  | number => cases hplain

theorem Renumbered.gap {gap : List Char} (h : Renumbered (.gap gap :: pieces) pieces') :
    ∃ rest, pieces' = .gap gap :: rest ∧ Renumbered pieces rest := by
  cases h with
  | keep _ h => exact ⟨_, rfl, h⟩

theorem Renumbered.gap_mark {gap : List Char} {c : Char}
    (h : Renumbered (.gap gap :: .mark c :: pieces) pieces') :
    ∃ rest, pieces' = .gap gap :: .mark c :: rest ∧ Renumbered pieces rest := by
  obtain ⟨rest, rfl, hrest⟩ := h.gap
  cases hrest with
  | keep _ hrest => exact ⟨_, rfl, hrest⟩

theorem Renumbered.short (h : Renumbered pieces pieces') (hshort : ∀ raw ∈ numerals pieces, Short raw) :
    ∀ raw ∈ numerals pieces', Short raw := by
  induction h with
  | nil => exact hshort
  | keep p h ih =>
    cases p with
    | number sign digits =>
      obtain ⟨hfirst, hrest⟩ := List.forall_mem_cons.mp hshort
      exact List.forall_mem_cons.mpr ⟨hfirst, ih hrest⟩
    | _ => exact ih hshort
  | number _ hdigits h ih =>
    exact List.forall_mem_cons.mpr ⟨hdigits.short, ih (List.forall_mem_cons.mp hshort).2⟩

theorem Renumbered.kinds (h : Renumbered pieces pieces') (names : SlotNames) (offset offset' : Nat) :
    (tokenValues offset' (tokens names pieces')).map (·.kind) =
      (tokenValues offset (tokens names pieces)).map (·.kind) := by
  induction h generalizing offset offset' with
  | nil => rfl
  | keep p h ih =>
    rw [tokens_cons, tokens_cons, tokenValues, tokenValues, List.map_append, List.map_append,
      ih (offset + (p.token names).text.length)]
    cases (p.token names).kind <;> rfl
  | number hsign hdigits h ih =>
    rw [tokens_cons, tokens_cons, tokenValues, tokenValues, List.map_append, List.map_append, ih]
    rfl

end Renumbered

/-- A phrase stays a phrase when numbers are exchanged. -/
theorem Phrase.renumbered {part : Part} {pieces pieces' : List Piece} (h : Phrase part pieces)
    (hnew : Renumbered pieces pieces') : Phrase part pieces' := by
  induction h generalizing pieces' with
  | name h =>
    rw [hnew.eq_of_plain rfl]
    exact .name h
  | property _ hbefore hafter h ih =>
    obtain ⟨front, back, rfl, hfront, hback⟩ := hnew.split
    rw [hback.eq_of_plain rfl]
    exact .property (ih hfront) hbefore hafter h
  | call _ hbefore _ ih ih' =>
    obtain ⟨front, back, rfl, hfront, hback⟩ := hnew.split
    obtain ⟨list, rfl, hlist⟩ := hback.gap_mark
    exact .call (ih hfront) hbefore (ih' hlist)
  | number hsign h =>
    cases hnew with
    | keep _ hnew =>
      rw [hnew.eq_of_plain rfl]
      exact .number hsign h
    | number hsign' hdigits hnew =>
      rw [hnew.eq_of_plain rfl]
      exact .number hsign' hdigits.token
  | quoted h =>
    rw [hnew.eq_of_plain rfl]
    exact .quoted h
  | nested _ ih => exact .nested (ih hnew)
  | none h =>
    rw [hnew.eq_of_plain rfl]
    exact .none h
  | last hbefore _ hafter ih =>
    obtain ⟨rest, rfl, hrest⟩ := hnew.gap
    obtain ⟨front, back, rfl, hfront, hback⟩ := hrest.split
    rw [hback.eq_of_plain rfl]
    exact .last hbefore (ih hfront) hafter
  | more hbefore _ hafter _ ih ih' =>
    obtain ⟨rest, rfl, hrest⟩ := hnew.gap
    obtain ⟨front, back, rfl, hfront, hback⟩ := hrest.split
    obtain ⟨list, rfl, hlist⟩ := hback.gap_mark
    exact .more hbefore (ih hfront) hafter (ih' hlist)

theorem MethodChain.renumbered {pieces pieces' : List Piece} (h : MethodChain pieces)
    (hnew : Renumbered pieces pieces') : MethodChain pieces' := by
  cases h with
  | mk hbefore h hafter =>
    obtain ⟨rest, rfl, hrest⟩ := hnew.gap
    obtain ⟨front, back, rfl, hfront, hback⟩ := hrest.split
    rw [hback.eq_of_plain rfl]
    exact .mk hbefore (h.renumbered hfront) hafter

/-! ## Chains are no bare numbers -/

theorem mem_dropWhile {p : Char → Bool} {c : Char} {cs : List Char} (h : c ∈ cs)
    (hc : p c = false) : c ∈ cs.dropWhile p := by
  rw [← List.takeWhile_append_dropWhile (p := p) (l := cs)] at h
  refine (List.mem_append.mp h).resolve_left fun htake => ?_
  rw [List.mem_takeWhile_imp htake] at hc
  cases hc

theorem mem_strip {c : Char} {cs : List Char} (h : c ∈ cs) (hc : isBlank c = false) :
    c ∈ strip cs := by
  rw [strip, List.mem_reverse]
  exact mem_dropWhile (List.mem_reverse.mpr (mem_dropWhile h hc)) hc

theorem BareNumber.chars {cs : List Char} (h : BareNumber cs) :
    ∀ c ∈ cs, isDecimal c = true ∨ c = '-' ∨ c = '.' := by
  obtain ⟨sign, whole, point, fraction, rfl, hsign, ⟨-, hwhole⟩, hpoint, hfraction⟩ := h
  intro c hc
  simp only [List.mem_append] at hc
  rcases hc with ((hc | hc) | hc) | hc
  · rcases hsign with rfl | rfl
    · cases hc
    · exact .inr (.inl (List.mem_singleton.mp hc))
  · exact .inl (hwhole c hc)
  · rcases hpoint with rfl | rfl
    · cases hc
    · exact .inr (.inr (List.mem_singleton.mp hc))
  · exact .inl (hfraction c hc)

/-- The first character of the first name is in no bare number. -/
theorem MethodChain.not_bare {pieces : List Piece} (h : MethodChain pieces) :
    ¬ BareNumber (strip (spelled pieces)) := by
  cases h with
  | @mk before after pieces hbefore h hafter =>
    have hhead := h.chainHead rfl (.inr hafter)
    have htext : spelled (.gap before :: (pieces ++ [.gap after])) =
        before ++ (spelled pieces ++ after) := by
      simp [Piece.text]
    rw [htext]
    generalize spelled pieces ++ after = cs at hhead
    cases hhead with
    | @mk w behind hname =>
      have hplain := hname.head_plain behind
      obtain ⟨c, more, rfl, hdigit⟩ := hname.start
      obtain ⟨-, hpart, -, hmark, -⟩ := isNameChar_classes (hname.chars c List.mem_cons_self)
      obtain ⟨hdecimal, -, hpoint⟩ := hplain c rfl
      have hmem : c ∈ before ++ (c :: more ++ behind) := by simp
      intro hbare
      rcases BareNumber.chars hbare c (mem_strip hmem (isBlank_of_isNamePart hpart)) with
        hc | hc | hc
      · rw [hdecimal] at hc
        cases hc
      · exact hmark (by rw [hc]; decide)
      · exact hpoint hc

/-! ## Edits of numbers -/

/-- Edits that write finite doubles for numbers exchange numbers of the pieces. -/
theorem exists_renumbered {names : SlotNames} {edits : Edits} {index offset : Nat}
    {pieces : List Piece}
    (h : ∀ span ∈ tokenSpans index offset (tokens names pieces), ∀ new,
      newText? edits span.index = some new →
        span.kind = .number ∧ ∃ x : Binary64.Finite, new = x.written) :
    ∃ pieces', Renumbered pieces pieces' ∧
      spelled pieces' = written (patchTokens edits index (tokens names pieces)) := by
  induction pieces generalizing index offset with
  | nil => exact ⟨[], .nil, rfl⟩
  | cons p pieces ih =>
    rw [tokens_cons, tokenSpans] at h
    rw [tokens_cons, patchTokens]
    cases hkind : (p.token names).kind with
    | none =>
      simp only [hkind] at h
      obtain ⟨pieces', hnew, hspelled⟩ := ih h
      refine ⟨p :: pieces', .keep p hnew, ?_⟩
      rw [spelled_cons, hspelled, written_cons]
      rfl
    | some kind =>
      simp only [hkind] at h
      obtain ⟨hfirst, hrest⟩ := List.forall_mem_cons.mp h
      obtain ⟨pieces', hnew, hspelled⟩ := ih hrest
      cases hedit : newText? edits index with
      | none =>
        refine ⟨p :: pieces', .keep p hnew, ?_⟩
        rw [spelled_cons, hspelled, written_cons]
        rfl
      | some new =>
        obtain ⟨hnumber, x, rfl⟩ := hfirst new hedit
        obtain ⟨sign, digits, hwritten, hsign, hdigits⟩ := written_literal x
        cases p with
        | number sign' digits' =>
          refine ⟨.number sign digits :: pieces', .number hsign hdigits hnew, ?_⟩
          rw [spelled_cons, hspelled, written_cons]
          exact congrArg (· ++ _) hwritten.symm
        | name word =>
          simp only at hnumber
          rw [hnumber] at hkind
          exact absurd hkind (kindOf?_ne_number names _)
        | _ => cases hkind

theorem Renumbered.refl (pieces : List Piece) : Renumbered pieces pieces := by
  induction pieces with
  | nil => exact .nil
  | cons p pieces ih => exact .keep p ih

theorem tokenSpans_getElem? (tokens : List Token) (i : Nat) :
    (tokenSpans 0 0 tokens)[i]? =
      (tokenValues 0 tokens)[i]?.map fun f => f.numbered (written tokens) i := by
  have hspans := numbered_tokenValues [] 0 tokens
  simp only [List.nil_append, List.length_nil, Nat.zero_add] at hspans
  rw [← hspans, List.getElem?_mapIdx]

/-- Edits that write finite numbers for values that are numbers. -/
def Renumbers (values : List EditableValue) (edits : Edits) : Prop :=
  ∀ e ∈ edits, ∃ v ∈ values, v.kind = .number ∧ e.1 = .ordinal v.ordinal ∧
    ∃ n : Number, n.IsFinite ∧ e.2 = .number n

theorem exists_of_newText? {edits : Edits} {index : Int} {new : List Char}
    (h : newText? edits index = some new) :
    ∃ value, edits.get? (.ordinal index) = some value ∧ replacement value = .ok new := by
  unfold newText? at h
  split at h
  · cases h
  · next value hget =>
    split at h
    · next hvalue =>
      rw [Option.some.inj h] at hvalue
      exact ⟨value, hget, hvalue⟩
    · cases h

theorem atOrdinal?_map {α β : Type} (f : α → β) (xs : List α) (n : Int) :
    atOrdinal? (xs.map f) n = (atOrdinal? xs n).map f := by
  unfold atOrdinal?
  split
  · rfl
  · rw [List.getElem?_map]

section Edited

variable {pieces : List Piece} {names : SlotNames} {registry : Option Registry} {edits : Edits}

theorem valueSpans_chain (h : MethodChain pieces) (names : SlotNames) :
    valueSpans names [] (spelled pieces) = tokenSpans 0 0 (tokens names pieces) := by
  have hfound : found names (written (tokens names pieces)) = tokenValues 0 (tokens names pieces) := by
    rw [written_tokens, found_chain h]
  have hspans := valueSpans_of_found hfound
  rwa [written_tokens] at hspans

/-- What is written for a value that was discovered as a number. -/
theorem newText?_number (h : MethodChain pieces) (hshort : ∀ raw ∈ numerals pieces, Short raw)
    (hedits : Renumbers (discover names registry [] (spelled pieces)).result edits)
    {span : ValueSpan} (hspan : span ∈ tokenSpans 0 0 (tokens names pieces)) {new : List Char}
    (hnew : newText? edits span.index = some new) :
    span.kind = .number ∧ ∃ x : Binary64.Finite, new = x.written := by
  obtain ⟨i, hi⟩ := List.mem_iff_getElem?.mp hspan
  rw [tokenSpans_getElem?] at hi
  obtain ⟨f, hf, rfl⟩ := Option.map_eq_some_iff.mp hi
  obtain ⟨value, hget, hvalue⟩ := exists_of_newText? hnew
  obtain ⟨v, hv, hkind, htarget, n, hfinite, rfl⟩ := hedits _ (Edits.mem_of_get? hget)
  -- the discovered value with this number has the kind of the span
  obtain ⟨j, hj⟩ := List.mem_iff_getElem?.mp hv
  have hpair := discover_chain h hshort names registry j
  rw [hj, Option.map_some] at hpair
  obtain ⟨f', hf', hpair⟩ := Option.map_eq_some_iff.mp hpair.symm
  obtain ⟨hordinal, hkind'⟩ := Prod.mk.inj hpair
  obtain rfl : j = i := by
    rw [hordinal]
    exact (Int.ofNat.inj (EditTarget.ordinal.inj htarget)).symm
  rw [hf] at hf'
  obtain rfl := Option.some.inj hf'
  exact ⟨hkind'.trans hkind, hfinite.replacement_eq hvalue⟩

/-- Making the edits of a chain exchanges numbers of it. -/
theorem substituted_chain (h : MethodChain pieces) (hshort : ∀ raw ∈ numerals pieces, Short raw)
    (hedits : Renumbers (discover names registry [] (spelled pieces)).result edits) :
    ∃ pieces', Renumbered pieces pieces' ∧
      substituted names [] (spelled pieces) edits = spelled pieces' := by
  obtain ⟨pieces', hnew, hspelled⟩ :=
    exists_renumbered fun _ hspan _ => newText?_number h hshort hedits hspan
  refine ⟨pieces', hnew, ?_⟩
  have hspans := valueSpans_chain h names
  rw [← written_tokens names pieces] at hspans ⊢
  rw [substituted, hspans, hspelled]
  exact weave_tokenSpans [] 0 (tokens names pieces)

/-- Edits of a chain can be made if each can be written. -/
theorem applicable_chain (h : MethodChain pieces) (hshort : ∀ raw ∈ numerals pieces, Short raw)
    (hedits : Renumbers (discover names registry [] (spelled pieces)).result edits)
    {p : Program} (hshows : Shows Place.origin pieces p.visits)
    (hwritable : ∀ e ∈ edits, e.2.IsWritable) :
    Applicable names [] p (spelled pieces) edits := by
  obtain ⟨pieces', hnew, hspelled⟩ := substituted_chain h hshort hedits
  have hchain := h.renumbered hnew
  refine ⟨?_, fun span _ value hget => hwritable _ (Edits.mem_of_get? hget), ?_⟩
  · intro e he
    obtain ⟨v, -, -, htarget, -⟩ := hedits e he
    exact ⟨v.ordinal, htarget, by rw [valueOffsets_chain h hshows, atOrdinal?_map]⟩
  · rw [hspelled]
    exact ⟨hchain.spelled_ne_nil, hchain.not_bare⟩

/-- A method chain whose decimal integers are not too long parses. Whatever finite numbers are
written for numbers that are discovered in it, the outcome parses as well, and the values discovered
in it have the same kinds in the same order. All the edits are made if each can be written. -/
theorem edited_chain_parses (h : MethodChain pieces) (hshort : ∀ raw ∈ numerals pieces, Short raw)
    (hedits : Renumbers (discover names registry [] (spelled pieces)).result edits) :
    ∃ p, parseProgram (spelled pieces) = .ok p ∧
      let text := (applyEdits names [] (some p) (spelled pieces) edits).result
      (∃ p', parseProgram text = .ok p') ∧
      (discover names registry [] text).result.map (·.kind) =
        (discover names registry [] (spelled pieces)).result.map (·.kind) ∧
      ((∀ e ∈ edits, e.2.IsWritable) → text = substituted names [] (spelled pieces) edits) := by
  obtain ⟨p, hshows, hparse, -⟩ := parseProgram_chain h
  refine ⟨p, hparse (findSome?_excess hshort), ?_⟩
  intro text
  obtain ⟨pieces', hnew, htext⟩ : ∃ pieces', Renumbered pieces pieces' ∧ text = spelled pieces' := by
    by_cases happlicable : Applicable names [] p (spelled pieces) edits
    · obtain ⟨pieces', hnew, hspelled⟩ := substituted_chain h hshort hedits
      exact ⟨pieces', hnew, (applyEdits_of_applicable happlicable).trans hspelled⟩
    · exact ⟨pieces, .refl pieces, applyEdits_of_not_applicable happlicable⟩
  have hchain := h.renumbered hnew
  have hshort' := hnew.short hshort
  refine ⟨?_, ?_, ?_⟩
  · obtain ⟨p', -, hparse', -⟩ := parseProgram_chain hchain
    exact ⟨p', by rw [htext]; exact hparse' (findSome?_excess hshort')⟩
  · rw [htext, discover_kinds hchain hshort', discover_kinds h hshort, hnew.kinds]
  · intro hwritable
    exact applyEdits_of_applicable (applicable_chain h hshort hedits hshows hwritable)

end Edited

theorem Renumbers.of_mem {values : List EditableValue} {edits : Edits}
    (h : ∀ e ∈ edits, ∃ ordinal : Nat,
      (ordinal, ValueKind.number) ∈ values.map (fun v => (v.ordinal, v.kind)) ∧
        e.1 = .ordinal ordinal ∧ ∃ n : Number, n.IsFinite ∧ e.2 = .number n) :
    Renumbers values edits := by
  intro e he
  obtain ⟨ordinal, hmem, htarget, hvalue⟩ := h e he
  obtain ⟨v, hv, hpair⟩ := List.mem_map.mp hmem
  obtain ⟨rfl, hkind⟩ := Prod.mk.inj hpair
  exact ⟨v, hv, hkind, htarget, hvalue⟩

/-- One number gets a sign, and the other loses its own. -/
theorem edited_chain_parses_signs :
    let pieces : List Piece := [.gap [], .name ['o', 's', 'c'], .gap [], .mark '(', .gap [],
      .number [] ['1', '0'], .gap [], .mark ',', .gap [], .number ['-', ' '] ['5'], .gap [],
      .mark ')', .gap []]
    let edits : Edits :=
      [(.ordinal 1, .number (.int 3)), (.ordinal 0, .number (.float (.finite (quarter true))))]
    (MethodChain pieces ∧ (∀ raw ∈ numerals pieces, Short raw) ∧
      Renumbers (discover .standard none [] (spelled pieces)).result edits) ∧
    substituted .standard [] (spelled pieces) edits = "osc(-0.25,3)".toList ∧
    ∃ p, parseProgram (spelled pieces) = .ok p ∧
      let text := (applyEdits .standard [] (some p) (spelled pieces) edits).result
      (∃ p', parseProgram text = .ok p') ∧
      (discover .standard none [] text).result.map (·.kind) =
        (discover .standard none [] (spelled pieces)).result.map (·.kind) ∧
      ((∀ e ∈ edits, e.2.IsWritable) → text = substituted .standard [] (spelled pieces) edits) := by
  intro pieces edits
  have hten : Phrase .argument [.number [] ['1', '0']] := .number .none (by decide)
  have hfive : Phrase .argument [.number ['-', ' '] ['5']] :=
    .number (.minus (.blank (.inl rfl) .nil)) (by decide)
  have hosc : Phrase .chain ([.name ['o', 's', 'c']] ++ _) :=
    .call (.name (by decide)) .nil (.more .nil hten .nil (.last .nil hfive .nil))
  have hchain : MethodChain pieces := .mk .nil hosc (.of_trivia .nil)
  have hshort : ∀ raw ∈ numerals pieces, Short raw := by
    have hnumerals : numerals pieces = [['1', '0'], ['5']] := rfl
    rw [hnumerals]
    exact List.forall_mem_cons.mpr ⟨.of_length (by decide),
      List.forall_mem_singleton.mpr (.of_length (by decide))⟩
  have hvalues : (discover .standard none [] (spelled pieces)).result.map
      (fun v => (v.ordinal, v.kind)) = [(0, .number), (1, .number)] := by decide +kernel
  have hedits : Renumbers (discover .standard none [] (spelled pieces)).result edits := by
    refine .of_mem (List.forall_mem_cons.mpr ⟨?_, List.forall_mem_singleton.mpr ?_⟩)
    · exact ⟨1, by rw [hvalues]; decide, rfl, .int 3, trivial, rfl⟩
    · exact ⟨0, by rw [hvalues]; decide, rfl, .float (.finite (quarter true)), ⟨_, rfl⟩, rfl⟩
  exact ⟨⟨hchain, hshort, hedits⟩, by decide +kernel, edited_chain_parses hchain hshort hedits⟩

/-- A number behind a minus sign gets a sign of its own, and the two are one token: the outcome
does not parse. -/
theorem edited_difference_breaks :
    let text := ['o', 's', 'c', '(', '1', '0', '-', '5', ')']
    let edits : Edits := [(.ordinal 1, .number (.int (-3)))]
    Renumbers (discover .standard none [] text).result edits ∧
    (discover .standard none [] text).result.map (·.kind) = [.number, .number] ∧
    ∃ p, parseProgram text = .ok p ∧
      let text' := (applyEdits .standard [] (some p) text edits).result
      text' = ['o', 's', 'c', '(', '1', '0', '-', '-', '3', ')'] ∧
      (∀ p', parseProgram text' ≠ .ok p') ∧
      (discover .standard none [] text').result.map (·.kind) = [] := by
  intro text edits
  have hvalues : (discover .standard none [] text).result.map (fun v => (v.ordinal, v.kind)) =
      [(0, .number), (1, .number)] := by decide +kernel
  refine ⟨.of_mem (List.forall_mem_singleton.mpr ?_), by decide +kernel, ?_⟩
  · exact ⟨1, by rw [hvalues]; decide, rfl, .int (-3), trivial, rfl⟩
  · have hedited : (parseProgram text).toOption.map
        (fun p => (applyEdits .standard [] (some p) text edits).result) =
          some ['o', 's', 'c', '(', '1', '0', '-', '-', '3', ')'] := by decide +kernel
    have hbroken : (parseProgram ['o', 's', 'c', '(', '1', '0', '-', '-', '3', ')']).toOption.isNone =
        true := by decide +kernel
    cases hparse : parseProgram text with
    | error e =>
      rw [hparse] at hedited
      cases hedited
    | ok p =>
      rw [hparse] at hedited
      have htext : (applyEdits .standard [] (some p) text edits).result = _ :=
        Option.some.inj hedited
      refine ⟨p, rfl, htext, ?_, ?_⟩
      · intro p' hparse'
        rw [htext] at hparse'
        rw [hparse'] at hbroken
        cases hbroken
      · simp only [htext]
        decide +kernel

end LiveChain.Chain
