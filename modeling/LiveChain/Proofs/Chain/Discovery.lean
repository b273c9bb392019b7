import LiveChain.Locate.Discover
import LiveChain.Proofs.Chain.Agreement
import LiveChain.Proofs.Locate.Textual

/-!
# The values that are discovered in a chain

Every value node of a chain can be placed and named, so none is left out: the editable values of a
chain are the values that the scan finds, with their numbers and kinds.
-/

set_option autoImplicit false

namespace LiveChain.Chain

open Text Syntax Scan

/-! ## Value nodes that become editable values -/

/-- A value node that starts on a line of a text, with named calls on its path. -/
structure Placeable (text : List Char) (c : Candidate) : Prop where
  start : 0 ≤ c.span.startLine
  stop : c.span.startLine < (lines text).length
  path : Named c.path

theorem ownerOf?_named {path : List Crumb} (h : Named path) {context : CallContext}
    (howner : ownerOf? path = some context) : context.callName ≠ "" := by
  unfold ownerOf? at howner
  split at howner
  · next callee index rest =>
    obtain ⟨called, hcalled, rfl⟩ := Option.map_eq_some_iff.mp howner
    exact h callee index List.mem_cons_self called hcalled
  · next callee index rest =>
    obtain ⟨called, hcalled, rfl⟩ := Option.map_eq_some_iff.mp howner
    exact h callee index (by simp) called hcalled
  · cases howner

section Place

variable (names : SlotNames) (registry : Option Registry) {text : List Char} {c : Candidate}

theorem Placeable.owner_named (h : Placeable text c) (line : List Char) :
    (owner line c).callName ≠ "" := by
  unfold owner
  cases howner : ownerOf? c.path with
  | none => exact textualOwner_named line _
  | some context => exact ownerOf?_named h.path howner

/-- A placeable value node becomes an editable value of its kind. -/
theorem buildValue_placeable (h : Placeable text c) (ordinal : Nat) :
    ∃ v, (buildValue names registry (lines text) c ordinal).result = .ok v ∧
      v.ordinal = ordinal ∧ v.kind = c.kind := by
  have hplaced : ¬ c.Unplaced text := by
    rintro (houtside | ⟨line, -, hname⟩)
    · exact Int.not_lt.mpr houtside h.stop
    · exact h.owner_named line hname
  obtain ⟨v, hv⟩ := (buildValue_isOk h.start).mpr hplaced
  exact ⟨v, hv, buildValue_ordinal hv, (buildValue_shown hv).kind⟩

theorem locateFrom_placeable {found : List Candidate} (h : ∀ c ∈ found, Placeable text c)
    (ordinal i : Nat) :
    ((locateFrom names registry (lines text) ordinal found).result[i]?).map
        (fun v => (v.ordinal, v.kind)) =
      found[i]?.map fun c => (ordinal + i, c.kind) := by
  induction found generalizing ordinal i with
  | nil => rfl
  | cons c found ih =>
    obtain ⟨v, hv, hordinal, hkind⟩ :=
      buildValue_placeable names registry (h c List.mem_cons_self) ordinal
    have hrest := ih (fun c' hc' => h c' (List.mem_cons_of_mem _ hc')) (ordinal + 1)
    rw [locateFrom]
    simp only [hv]
    cases i with
    | zero => simp [hordinal, hkind]
    | succ i =>
      rw [List.getElem?_cons_succ, List.getElem?_cons_succ, hrest i, Nat.add_assoc, Nat.add_comm 1]

end Place

/-! ## The values of a chain -/

theorem mem_keptCandidates {keywords : List String} {textLines : List (List Char)}
    {found : List Candidate} {c : Candidate}
    (h : c ∈ (keptCandidates keywords textLines found).result) : c ∈ found := by
  induction found with
  | nil => exact h
  | cons d found ih =>
    rw [keptCandidates] at h
    split at h
    · rcases List.mem_cons.mp h with rfl | h
      · exact List.mem_cons_self
      · exact List.mem_cons_of_mem _ (ih h)
    · exact List.mem_cons_of_mem _ (ih h)
    · cases h

theorem candidateOf?_named {names : SlotNames} {v : Visit} {c : Candidate} (h : Named v.path)
    (hc : candidateOf? names v = some c) : Named c.path := by
  unfold candidateOf? at hc
  split at hc
  · split at hc
    · next signed outer hpath =>
      obtain rfl := Option.some.inj hc
      intro callee index hmem
      refine h callee index ?_
      rw [hpath]
      exact List.mem_cons_of_mem _ hmem
    · obtain rfl := Option.some.inj hc
      exact h
  · obtain ⟨kind, -, rfl⟩ := Option.map_eq_some_iff.mp hc
    exact h
  · cases hc

theorem placeable_candidates {pieces : List Piece} (h : MethodChain pieces) {p : Program}
    (hshows : Shows Place.origin pieces p.visits) (names : SlotNames) (keywords : List String) :
    ∀ c ∈ (candidates names keywords (spelled pieces) p).result,
      Placeable (spelled pieces) c := by
  intro c hc
  have hsite := List.mem_map_of_mem (f := candidateSite) hc
  rw [candidates_chain h hshows] at hsite
  obtain ⟨f, -, hf⟩ := List.mem_map.mp hsite
  have hline : c.span.startLine = lineNumber (spelled pieces) f.start := by
    rw [← foundSite_line, hf]
    rfl
  have hlt := lineNumber_lt (spelled pieces) f.start
  obtain ⟨v, hv, hvalue⟩ := List.mem_filterMap.mp (mem_keptCandidates (mem_sortBy.mp hc))
  exact {
    start := by omega
    stop := by omega
    path := candidateOf?_named (hshows.named v hv) hvalue }

theorem kind_candidates {pieces : List Piece} (h : MethodChain pieces) {p : Program}
    (hshows : Shows Place.origin pieces p.visits) (names : SlotNames) :
    (candidates names [] (spelled pieces) p).result.map (·.kind) =
      (tokenValues 0 (tokens names pieces)).map (·.kind) := by
  have hsites := congrArg (List.map Prod.snd) (candidates_chain h hshows names [])
  rw [List.map_map, List.map_map, found_chain h] at hsites
  have hall : ∀ f ∈ tokenValues 0 (tokens names pieces),
      (!onDirective [] (spelled pieces) f.start) = true := by
    intro f _
    unfold onDirective isDirective
    split <;> rfl
  rw [List.filter_eq_self.mpr hall] at hsites
  exact hsites

/-- A chain parses, and its editable values are numbered from zero on and have the kinds of the
values that the scan finds. -/
theorem discover_chain {pieces : List Piece} (h : MethodChain pieces)
    (hshort : ∀ raw ∈ numerals pieces, Short raw) (names : SlotNames)
    (registry : Option Registry) (i : Nat) :
    ((discover names registry [] (spelled pieces)).result[i]?).map (fun v => (v.ordinal, v.kind)) =
      (tokenValues 0 (tokens names pieces))[i]?.map fun f => (i, f.kind) := by
  obtain ⟨p, hshows, hparse, -⟩ := parseProgram_chain h
  have hnonempty : (spelled pieces).isEmpty = false :=
    List.isEmpty_eq_false_iff.mpr h.spelled_ne_nil
  have hvalues := locateFrom_placeable names registry (placeable_candidates h hshows names []) 0 i
  have hkinds := congrArg (fun kinds => kinds[i]?) (kind_candidates h hshows names)
  simp only [List.getElem?_map] at hkinds
  simp only [discover, locate, hparse (findSome?_excess hshort), hnonempty, Bool.false_eq_true,
    if_false, hvalues, Nat.zero_add]
  have hpair := congrArg (Option.map fun kind => (i, kind)) hkinds
  rwa [Option.map_map, Option.map_map] at hpair

theorem discover_kinds {pieces : List Piece} (h : MethodChain pieces)
    (hshort : ∀ raw ∈ numerals pieces, Short raw) (names : SlotNames) (registry : Option Registry) :
    (discover names registry [] (spelled pieces)).result.map (·.kind) =
      (tokenValues 0 (tokens names pieces)).map (·.kind) := by
  refine List.ext_getElem? fun i => ?_
  have hvalue := congrArg (Option.map Prod.snd) (discover_chain h hshort names registry i)
  rw [Option.map_map, Option.map_map] at hvalue
  rw [List.getElem?_map, List.getElem?_map]
  exact hvalue

end LiveChain.Chain
