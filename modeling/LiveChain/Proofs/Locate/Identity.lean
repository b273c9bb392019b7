import LiveChain.Proofs.Locate.Faithful
import LiveChain.Proofs.Locate.Owner
import Mathlib

/-!
# What keys tell

Keys and call-site ids put names and numbers together without escaping anything, and names may hold
what looks like the rest of a key. Read from their end, the numbers come back. So located values
that start at different places have different keys.
-/

set_option autoImplicit false

namespace LiveChain

open Text

/-! ## Reading from the end -/

/-- The parts of a text before and behind its last underscore. -/
def splitLast (cs : List Char) : List Char × List Char :=
  (((cs.reverse.dropWhile (· ≠ '_')).drop 1).reverse, (cs.reverse.takeWhile (· ≠ '_')).reverse)

theorem splitLast_append {front back : List Char} (h : '_' ∉ back) :
    splitLast (front ++ '_' :: back) = (front, back) := by
  have hback : ∀ c ∈ back.reverse, decide (c ≠ '_') = true := by
    intro c hc
    rw [decide_eq_true_eq]
    rintro rfl
    exact h (List.mem_reverse.mp hc)
  have hreverse : (front ++ '_' :: back).reverse = back.reverse ++ '_' :: front.reverse := by simp
  rw [splitLast, hreverse, List.dropWhile_append_of_pos hback, List.takeWhile_append_of_pos hback,
    List.dropWhile_cons_of_neg (by decide), List.takeWhile_cons_of_neg (by decide)]
  simp

def behindMark? (mark : Nat) (cs : List Char) : Option Int := (String.ofList (cs.drop mark)).toInt?

/-- What stands before a line and a column at the end of a text, and these numbers. -/
def takePlace? (cs : List Char) : Option (List Char × Int × Int) := do
  let front := splitLast (splitLast cs).1
  return (front.1, ← behindMark? 4 front.2, ← behindMark? 3 (splitLast cs).2)

theorem underscore_not_mem_digits (n : Nat) : '_' ∉ n.repr.toList := by
  intro h
  have hdigit := Nat.isDigit_of_mem_toDigits (by decide) (by decide)
    (show '_' ∈ Nat.toDigits 10 n by rwa [Nat.repr, String.toList_ofList] at h)
  exact absurd hdigit (by decide)

theorem underscore_not_mem_toString (n : Int) : '_' ∉ (toString n).toList := by
  cases n with
  | ofNat n => exact underscore_not_mem_digits n
  | negSucc n =>
    change '_' ∉ ("-" ++ (n + 1).repr).toList
    rw [String.toList_append, List.mem_append]
    rintro (h | h)
    · exact absurd h (by decide)
    · exact underscore_not_mem_digits _ h

theorem behindMark?_toString (mark : String) (n : Int) :
    behindMark? mark.length (mark ++ toString n).toList = some n := by
  have hdrop : (mark ++ toString n).toList.drop mark.length = (toString n).toList := by
    rw [String.toList_append, ← String.length_toList, List.drop_left]
  rw [behindMark?, hdrop, String.ofList_toList]
  exact Int.toInt?_repr n

/-- A text that ends in a line and a column, whatever stands before them. -/
def marked (front : String) (line column : Int) : String :=
  front ++ "_line" ++ toString line ++ "_pos" ++ toString column

theorem takePlace?_marked (front : String) (line column : Int) :
    takePlace? (marked front line column).toList = some (front.toList, line, column) := by
  have htext : (marked front line column).toList =
      (front.toList ++ '_' :: ("line" ++ toString line).toList) ++
        '_' :: ("pos" ++ toString column).toList := by
    simp [marked]
  have hnone : ∀ (mark : String) (n : Int), '_' ∉ mark.toList →
      '_' ∉ (mark ++ toString n).toList := by
    intro mark n hmark h
    rw [String.toList_append, List.mem_append] at h
    exact h.elim hmark (underscore_not_mem_toString n)
  have hline : behindMark? 4 ("line" ++ toString line).toList = some line :=
    behindMark?_toString "line" line
  have hcolumn : behindMark? 3 ("pos" ++ toString column).toList = some column :=
    behindMark?_toString "pos" column
  simp only [takePlace?, htext, splitLast_append (hnone "pos" column (by decide)),
    splitLast_append (hnone "line" line (by decide)), hline, hcolumn]
  rfl

/-! ## Keys and call-site ids -/

def keyPlace? (key : String) : Option (Int × Int) :=
  (takePlace? (splitLast key.toList).1).map (·.2)

/-- The name, the line and the column in a call-site id. -/
def sitePlace? (site : String) : Option (List Char × Int × Int) := takePlace? site.toList

theorem keyPlace?_of_valueKey {call parameter : Option String} {index line column : Option Int}
    {key : String} (h : valueKey call parameter index line column = .ok key) :
    ∃ l c, line = some l ∧ column = some c ∧ keyPlace? key = some (l, c) := by
  unfold valueKey at h
  extract_lets name given part at h
  split at h
  · cases h
  · split at h
    · next l c =>
      refine ⟨l, c, rfl, rfl, ?_⟩
      cases h
      have htext : (name ++ "_" ++ part ++ "_line" ++ toString l ++ "_pos" ++ toString c ++
          "_value").toList =
            (marked (name ++ "_" ++ part) l c).toList ++ '_' :: "value".toList := by
        simp [marked]
      rw [keyPlace?, htext, splitLast_append (by decide), takePlace?_marked]
      rfl
    · cases h

theorem sitePlace?_of_callSiteId {name site : String} {line column : Int}
    (h : callSiteId (some name) (some line) (some column) = .ok site) :
    sitePlace? site = some (name.toList, line, column) := by
  unfold callSiteId at h
  simp only [Option.getD_some] at h
  split at h
  · cases h
  · cases h
    exact takePlace?_marked name line column

theorem callSiteId_eq_iff {name name' site site' : String} {line line' column column' : Int}
    (h : callSiteId (some name) (some line) (some column) = .ok site)
    (h' : callSiteId (some name') (some line') (some column') = .ok site') :
    site = site' ↔ name = name' ∧ line = line' ∧ column = column' := by
  constructor
  · rintro rfl
    have hplaces := (sitePlace?_of_callSiteId h).symm.trans (sitePlace?_of_callSiteId h')
    simpa [String.toList_inj] using hplaces
  · rintro ⟨rfl, rfl, rfl⟩
    exact Except.ok.inj (h.symm.trans h')

/-! ## Located values -/

section Located

variable {names : SlotNames} {registry : Option Registry} {textLines : List (List Char)}

/-- The key of a value is made of its call, its parameter and the place where it starts; its
call-site id is made of the name of its call, the line that the value starts on and the column of
the name. -/
theorem buildValue_identity {c : Candidate} {ordinal : Nat} {v : EditableValue}
    (h : (buildValue names registry textLines c ordinal).result = .ok v) :
    valueKey (some v.callName) (some v.parameterName) (some v.parameterIndex) (some v.line)
        (some v.column) = .ok v.key ∧
      callSiteId (some v.callName) (some v.line) (some v.callAnchorColumn) = .ok v.callSiteId := by
  obtain ⟨line, info, -, hbuilt⟩ := buildValue_eq_ok h
  obtain ⟨key, site, hkey, hsite, rfl⟩ := describe_eq_ok hbuilt
  exact ⟨hkey, hsite⟩

theorem locateFrom_places_sublist (found : List Candidate) (first : Nat) :
    ((locateFrom names registry textLines first found).result.map
      fun v => (v.line, v.column)).Sublist
        (found.map fun c => (c.span.startLine, c.span.startColumn)) := by
  induction found generalizing first with
  | nil => exact List.Sublist.refl []
  | cons c found ih =>
    rw [locateFrom]
    split
    · next built hbuilt =>
      have hshown := buildValue_shown hbuilt
      rw [List.map_cons, List.map_cons, hshown.line, hshown.column]
      exact (ih (first + 1)).cons_cons _
    · exact (ih (first + 1)).cons _

end Located

/-! ## Places of values -/

/-- No two values of a program start at the same column of the same line. -/
def Program.DistinctStarts (names : SlotNames) (p : Program) : Prop :=
  ((p.valueNodes names).map fun c => (c.span.startLine, c.span.startColumn)).Nodup

section Places

variable {names : SlotNames} {registry : Option Registry} {keywords : List String} {p : Program}
  {text : List Char}

/-- The values of a parsed text start at different places. -/
theorem parseProgram_distinctStarts (h : parseProgram text = .ok p) : p.DistinctStarts names := by
  have hspread : Spread text 0 text.length ((p.valueNodes names).map (·.span)) :=
    valueNodes_spread (parseProgram_within h)
  have hplaces := hspread.places_nodup (Nat.le_refl _)
  rwa [List.map_map] at hplaces

theorem locate_sublist : (locate names registry keywords (some p) text).result.Sublist
    (locateFrom names registry (lines text) 0 (candidates names keywords text p).result).result := by
  unfold locate
  simp only
  split
  · exact List.nil_sublist _
  · exact List.Sublist.refl _

theorem candidates_perm : (candidates names keywords text p).result.Perm
    (keptCandidates keywords (lines text) (p.valueNodes names)).result := by
  have hvalues : p.visits.filterMap (candidateOf? names) = p.valueNodes names :=
    filterMap_visitsAll names [] p.body
  simp only [candidates, hvalues]
  exact (sortBy_sortedFrom _).perm

theorem locate_places_nodup (h : p.DistinctStarts names) :
    ((locate names registry keywords (some p) text).result.map
      fun v => (v.line, v.column)).Nodup := by
  have hkept : ((keptCandidates keywords (lines text) (p.valueNodes names)).result.map
      fun c => (c.span.startLine, c.span.startColumn)).Nodup :=
    ((keptCandidates_sublist _ _ _).map _).nodup h
  have hfound := (candidates_perm.map _).nodup_iff.mpr hkept
  exact ((locate_sublist.map _).trans (locateFrom_places_sublist _ _)).nodup hfound

theorem keyPlace?_of_mem_locate {v : EditableValue}
    (h : v ∈ (locate names registry keywords (some p) text).result) :
    keyPlace? v.key = some (v.line, v.column) := by
  obtain ⟨k, c, -, hbuilt⟩ := mem_locateFrom_iff.mp (locate_sublist.subset h)
  obtain ⟨line, column, hline, hcolumn, hplace⟩ :=
    keyPlace?_of_valueKey (buildValue_identity hbuilt).1
  cases hline
  cases hcolumn
  exact hplace

/-- Values that start at different places have different keys. -/
theorem locate_keys_nodup (h : p.DistinctStarts names) :
    ((locate names registry keywords (some p) text).result.map (·.key)).Nodup := by
  have hplaces : (locate names registry keywords (some p) text).result.Pairwise
      fun v v' => (v.line, v.column) ≠ (v'.line, v'.column) :=
    List.pairwise_map.mp (locate_places_nodup h)
  refine List.pairwise_map.mpr (hplaces.imp_of_mem fun {v v'} hv hv' hne hkey => hne ?_)
  have hplace := keyPlace?_of_mem_locate hv
  rw [hkey, keyPlace?_of_mem_locate hv'] at hplace
  exact (Option.some.inj hplace).symm

end Places

end LiveChain
