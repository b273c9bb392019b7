import LiveChain.Edit.Apply
import LiveChain.Locate.Values
import LiveChain.Proofs.Except

/-!
# Ordinals of located values

Values are numbered by their value nodes, also where some of these are left out, so the ordinal of a
value is one that the offsets of the value nodes have an entry for.
-/

set_option autoImplicit false

namespace LiveChain

open Text

variable {names : SlotNames} {registry : Option Registry}

section Built

variable {textLines : List (List Char)} {c : Candidate} {ordinal : Nat} {v : EditableValue}

/-- What becomes of a value node with a number, an owner and a parameter. -/
theorem describe_eq_ok {context : CallContext} {info : ParameterInfo}
    (h : describe names c ordinal context info = .ok v) : ∃ key site,
    valueKey (some context.callName) (some info.name) (some context.parameterIndex)
      (some c.span.startLine) (some c.span.startColumn) = .ok key ∧
    callSiteId (some context.callName) (some c.span.startLine) (some context.anchorColumn) =
      .ok site ∧
    v = {
      value := c.value
      kind := c.kind
      line := c.span.startLine
      column := c.span.startColumn
      length := c.span.length
      ordinal := ordinal
      callName := context.callName
      callAnchorColumn := context.anchorColumn
      parameterIndex := context.parameterIndex
      parameterName := info.name
      parameterType := info.type
      parameterDefault := info.default
      key := key
      callSiteId := site
      options := names.optionsFor c.kind } := by
  unfold describe at h
  simp only [bind, Except.bind] at h
  split at h
  · cases h
  · next key hkey =>
    split at h
    · cases h
    · next site hsite =>
      cases h
      exact ⟨key, site, hkey, hsite, rfl⟩

/-- A value node that becomes a value stands on a line of the text, where it has its owner. -/
theorem buildValue_eq_ok (h : (buildValue names registry textLines c ordinal).result = .ok v) :
    ∃ line info, entry? textLines c.span.startLine = some line ∧
      describe names c ordinal (owner line c) info = .ok v := by
  unfold buildValue at h
  split at h
  · cases h
  · split at h
    · cases h
    · next line hline => exact ⟨line, _, hline, mapError_eq_ok.mp h⟩

theorem buildValue_ordinal (h : (buildValue names registry textLines c ordinal).result = .ok v) :
    v.ordinal = ordinal := by
  obtain ⟨line, info, -, hbuilt⟩ := buildValue_eq_ok h
  obtain ⟨key, site, -, -, rfl⟩ := describe_eq_ok hbuilt
  rfl

end Built

theorem mem_locateFrom {textLines : List (List Char)} {found : List Candidate} {first : Nat}
    {v : EditableValue} (h : v ∈ (locateFrom names registry textLines first found).result) :
    first ≤ v.ordinal ∧ v.ordinal < first + found.length := by
  induction found generalizing first with
  | nil => cases h
  | cons c found ih =>
    rw [List.length_cons]
    have hrest : v ∈ (locateFrom names registry textLines (first + 1) found).result →
        first ≤ v.ordinal ∧ v.ordinal < first + (found.length + 1) := by
      intro hmem
      have := ih hmem
      omega
    rw [locateFrom] at h
    split at h
    · next built hbuilt =>
      rcases List.mem_cons.mp h with rfl | hmem
      · have := buildValue_ordinal hbuilt
        omega
      · exact hrest hmem
    · exact hrest h

/-- The value nodes have offsets for the ordinal of every value that is located. -/
theorem atOrdinal?_of_mem_locate {keywords : List String} {p : Program} {text : List Char}
    {v : EditableValue} (h : v ∈ (locate names registry keywords (some p) text).result) :
    atOrdinal? (valueOffsets names keywords (some p) text).result v.ordinal ≠ none := by
  simp only [locate] at h
  split at h
  · cases h
  · next hne =>
    have hbound := (mem_locateFrom h).2
    simp only [valueOffsets, if_neg hne]
    rw [atOrdinal?, if_neg (by omega), Int.toNat_natCast, Ne, List.getElem?_eq_none_iff,
      List.length_map]
    omega

end LiveChain
