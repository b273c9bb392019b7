import LiveChain.Proofs.Edit.Lookup
import LiveChain.Proofs.Live.Coherence
import LiveChain.Proofs.Locate.Numbering
import LiveChain.Proofs.Sorting

/-!
# Preview and commit show the same program

A preview assigns literals to variables and reads them from placeholders; a commit writes the
literals into the snippet. Both are made by edits of one text, and where there is a preview the
commit does not fall back to the text as it was.
-/

set_option autoImplicit false

namespace LiveChain.Live

open Editor Text

/-! ## Assignments -/

/-- An assignment of a preview: the value that it is for, its variable and what it is set to. -/
structure Assigned where
  ordinal : Int
  key : String
  literal : List Char

def Assigned.written (a : Assigned) : List Char := a.key.toList ++ " = ".toList ++ a.literal

/-- An assignment sets the variable of a value to the text of the value's edit. -/
def Session.Assigns (s : Session) (a : Assigned) : Prop :=
  ∃ v value, s.valueAt? a.ordinal = some v ∧ v.key = a.key ∧
    s.edits.get? (.ordinal a.ordinal) = some value ∧ replacement value = .ok a.literal

namespace Session

variable {s : Session}

theorem variableOf_eq_ok {ordinal : Int} {name : String} (h : s.variableOf ordinal = .ok name) :
    ∃ v, s.valueAt? ordinal = some v ∧ v.key = name := by
  unfold variableOf at h
  split at h
  · next v hv =>
    cases h
    exact ⟨v, hv, rfl⟩
  · cases h

theorem exists_assigned {ordinal : Int} {text : List Char} (h : s.assignment ordinal = .ok text)
    (hedit : s.edits.get? (.ordinal ordinal) ≠ none) :
    ∃ a, a.ordinal = ordinal ∧ a.written = text ∧ s.Assigns a := by
  obtain ⟨value, hvalue⟩ := Option.ne_none_iff_exists'.mp hedit
  unfold assignment at h
  cases hname : s.variableOf ordinal with
  | error e =>
    rw [hname] at h
    cases h
  | ok name =>
    obtain ⟨v, hv, hkey⟩ := variableOf_eq_ok hname
    cases hliteral : replacement value with
    | error e =>
      simp only [hname, hvalue, Option.getD_some, hliteral] at h
      cases h
    | ok literal =>
      simp only [hname, hvalue, Option.getD_some, hliteral] at h
      cases h
      exact ⟨⟨ordinal, name, literal⟩, rfl, rfl, v, value, hv, hkey, hvalue, hliteral⟩

theorem exists_assigned_all {ordinals : List Int} {texts : List (List Char)}
    (h : ordinals.mapM s.assignment = .ok texts)
    (hedits : ∀ ordinal ∈ ordinals, s.edits.get? (.ordinal ordinal) ≠ none) :
    ∃ entries : List Assigned, entries.map (·.ordinal) = ordinals ∧
      entries.map Assigned.written = texts ∧ ∀ a ∈ entries, s.Assigns a := by
  induction ordinals generalizing texts with
  | nil =>
    cases h
    exact ⟨[], rfl, rfl, fun _ hmem => absurd hmem List.not_mem_nil⟩
  | cons ordinal ordinals ih =>
    rw [List.mapM_cons] at h
    cases hfirst : s.assignment ordinal with
    | error e =>
      rw [hfirst] at h
      cases h
    | ok text =>
      cases hrest : ordinals.mapM s.assignment with
      | error e =>
        rw [hfirst, hrest] at h
        cases h
      | ok rest =>
        rw [hfirst, hrest] at h
        cases h
        obtain ⟨a, hordinal, hwritten, ha⟩ := exists_assigned hfirst (hedits ordinal (by simp))
        obtain ⟨entries, hordinals, hall, hentries⟩ :=
          ih hrest fun o ho => hedits o (List.mem_cons_of_mem _ ho)
        refine ⟨a :: entries, by simp [hordinal, hordinals], by simp [hwritten, hall], ?_⟩
        exact List.forall_mem_cons.mpr ⟨ha, hentries⟩

/-! ## Placeholders -/

/-- The edits of a preview: placeholders for the live values, and the other edits as they are. -/
theorem placeholders_get? {edits : Edits} (h : s.placeholders = .ok edits) :
    (∀ ordinal ∈ s.live, ∃ v, s.valueAt? ordinal = some v ∧
      edits.get? (.ordinal ordinal) = some (.text (s.settings.placeholder v.key))) ∧
    ∀ target, (∀ ordinal ∈ s.live, target ≠ .ordinal ordinal) →
      edits.get? target = s.edits.get? target := by
  unfold placeholders at h
  generalize s.edits = start at h ⊢
  generalize s.live = live at h ⊢
  induction live generalizing start with
  | nil =>
    cases h
    exact ⟨fun _ hmem => absurd hmem List.not_mem_nil, fun _ _ => rfl⟩
  | cons ordinal live ih =>
    rw [List.foldlM_cons] at h
    cases hname : s.variableOf ordinal with
    | error e =>
      rw [hname] at h
      cases h
    | ok name =>
      rw [hname] at h
      obtain ⟨v, hv, rfl⟩ := variableOf_eq_ok hname
      obtain ⟨hlive, hother⟩ := ih _ h
      refine ⟨List.forall_mem_cons.mpr ⟨?_, hlive⟩, fun target htarget => ?_⟩
      · -- the last placeholder for an ordinal stays, and all of them are the same
        by_cases hagain : ordinal ∈ live
        · exact hlive ordinal hagain
        · refine ⟨v, hv, ?_⟩
          rw [hother, Edits.get?_insert_self]
          intro o ho heq
          cases heq
          exact hagain ho
      · obtain ⟨hne, hrest⟩ := List.forall_mem_cons.mp htarget
        rw [hother target hrest, Edits.get?_insert_of_ne hne]

/-! ## Edits that can be made -/

section Applicable

variable {names : SlotNames} {keywords : List String} {p : Program} {text : List Char}
  {marked : Edits}

/-- Where placeholders can be put and the live values have literals, the edits can be made, unless
the outcome is no code. -/
theorem applicable_of_preview (hmarked : s.placeholders = .ok marked)
    (happly : Applicable names keywords p text marked)
    (hliterals : ∀ ordinal ∈ s.live, ∃ a : Assigned, a.ordinal = ordinal ∧ s.Assigns a)
    (hcode : substituted names keywords text s.edits ≠ [] ∧
      ¬ BareNumber (strip (substituted names keywords text s.edits))) :
    Applicable names keywords p text s.edits where
  aligned := by
    obtain ⟨hlive, hother⟩ := placeholders_get? hmarked
    intro e he
    obtain ⟨value, hvalue⟩ : ∃ value, marked.get? e.1 = some value := by
      by_cases hmem : ∃ ordinal ∈ s.live, e.1 = .ordinal ordinal
      · obtain ⟨ordinal, hmem, hordinal⟩ := hmem
        obtain ⟨v, -, hget⟩ := hlive ordinal hmem
        exact ⟨_, hordinal ▸ hget⟩
      · rw [hother e.1 fun ordinal ho heq => hmem ⟨ordinal, ho, heq⟩]
        exact Option.ne_none_iff_exists'.mp (Edits.get?_ne_none_of_mem he)
    exact happly.aligned (e.1, value) (Edits.mem_of_get? hvalue)
  writable := by
    obtain ⟨-, hother⟩ := placeholders_get? hmarked
    intro span hspan value hvalue
    by_cases hmem : (span.index : Int) ∈ s.live
    · obtain ⟨a, hordinal, v, literal, -, -, hget, hliteral⟩ := hliterals _ hmem
      rw [hordinal, hvalue, Option.some.injEq] at hget
      exact replacement_isOk.mp ⟨a.literal, hget ▸ hliteral⟩
    · apply happly.writable span hspan value
      rw [hother, hvalue]
      intro ordinal ho heq
      cases heq
      exact hmem ho
  code := hcode

/-- A live value has a span, where the preview has its placeholder and the commit its literal. -/
theorem exists_span {keywords : List String} (hmarked : s.placeholders = .ok marked)
    (happly : Applicable names keywords p text marked) {registry : Option Registry}
    {a : Assigned} (ha : s.Assigns a) (hlive : a.ordinal ∈ s.live)
    (hlocated : ∀ v, s.valueAt? a.ordinal = some v →
      v ∈ (locate names registry keywords (some p) text).result) :
    ∃ span ∈ valueSpans names keywords text, (span.index : Int) = a.ordinal ∧
      pieceAt text marked span = (s.settings.placeholder a.key).toList ∧
      pieceAt text s.edits span = a.literal := by
  obtain ⟨v, value, hv, hkey, hedit, hliteral⟩ := ha
  obtain ⟨v', hv', hget⟩ := (placeholders_get? hmarked).1 a.ordinal hlive
  cases hv.symm.trans hv'
  have hordinal : (v.ordinal : Int) = a.ordinal := by
    simpa using List.find?_some hv
  obtain ⟨n, hn, haligned⟩ := happly.aligned _ (Edits.mem_of_get? hget)
  cases hn
  have hplace := atOrdinal?_of_mem_locate (hlocated v hv)
  rw [hordinal, ← haligned, Ne, Option.map_eq_none_iff] at hplace
  obtain ⟨span, hspan⟩ := Option.ne_none_iff_exists'.mp hplace
  rw [← hordinal, atOrdinal?, if_neg (by omega), Int.toNat_natCast] at hspan
  have hindex : (span.index : Int) = a.ordinal := by
    rw [valueSpans_index hspan]
    exact hordinal
  refine ⟨span, List.mem_of_getElem? hspan, hindex, ?_, ?_⟩
  · simp only [pieceAt, hindex, hget, replacement, hkey]
  · simp only [pieceAt, hindex, hedit, hliteral]

end Applicable

theorem Coherent.assignments_eq_ok (h : s.Coherent) {head : List Char}
    (hhead : s.assignments = .ok head) :
    ∃ entries : List Assigned, entries.Pairwise (·.ordinal < ·.ordinal) ∧
      (∀ ordinal, ordinal ∈ s.live ↔ ∃ a ∈ entries, a.ordinal = ordinal) ∧
      (∀ a ∈ entries, s.Assigns a) ∧
      head = ((entries.map Assigned.written).intersperse ";\n".toList).flatten := by
  unfold assignments at hhead
  cases hall : (sortBy (fun a b => decide (a ≤ b)) s.live).mapM s.assignment with
  | error e =>
    rw [hall] at hhead
    cases hhead
  | ok texts =>
    rw [hall] at hhead
    cases hhead
    have hedits : ∀ ordinal ∈ sortBy (fun a b => decide (a ≤ b)) s.live,
        s.edits.get? (.ordinal ordinal) ≠ none := by
      intro ordinal hmem
      obtain ⟨v, value, -, -, hedit, -⟩ := h.live_numbers ordinal (mem_sortBy.mp hmem)
      simp [hedit]
    obtain ⟨entries, hordinals, rfl, hentries⟩ := exists_assigned_all hall hedits
    refine ⟨entries, ?_, fun ordinal => ?_, hentries, rfl⟩
    · have hascending := sortBy_ascending h.live_nodup
      rw [← hordinals] at hascending
      exact List.pairwise_map.mp hascending
    · have hmem : ordinal ∈ entries.map (·.ordinal) ↔ ordinal ∈ s.live := by
        rw [hordinals, mem_sortBy]
      rw [← hmem, List.mem_map]

def spans (s : Session) : List ValueSpan :=
  valueSpans s.settings.names s.settings.keywords (s.text.getD [])

def spliced (s : Session) : List Char :=
  weave (s.text.getD []) (pieceAt (s.text.getD []) s.edits) 0 s.spans

end Session

/-- Where there is a live code, and the text with the edits spliced in is neither empty nor a bare
number, preview and commit show the same program. The live code is one assignment for every live
value, by ordinal, and then the text with a piece in the place of every span; the static code is the
text with pieces in the same places. The pieces differ at the live values only: there the preview
has the placeholder of the variable, and the commit the literal that the variable is set to. -/
theorem preview_pairs_commit {w : World} (hw : w.Reachable) (hlive : w.session.live ≠ [])
    {code : List Char} (hcode : w.session.liveCode.result = .ok code)
    (hspliced : w.session.spliced ≠ [] ∧ ¬ BareNumber (strip w.session.spliced)) :
    ∃ (text : List Char) (entries : List Assigned) (shown : ValueSpan → List Char),
      w.session.text = some text ∧
      entries.Pairwise (·.ordinal < ·.ordinal) ∧
      (∀ ordinal, ordinal ∈ w.session.live ↔ ∃ a ∈ entries, a.ordinal = ordinal) ∧
      (∀ a ∈ entries, w.session.Assigns a) ∧
      code = ((entries.map Assigned.written).intersperse ";\n".toList).flatten ++ ";\n".toList ++
        weave text shown 0 w.session.spans ∧
      w.session.staticCode.result = weave text (pieceAt text w.session.edits) 0 w.session.spans ∧
      (∀ span : ValueSpan, (span.index : Int) ∉ w.session.live →
        shown span = pieceAt text w.session.edits span) ∧
      ∀ a ∈ entries, ∃ span ∈ w.session.spans, (span.index : Int) = a.ordinal ∧
        shown span = (w.session.settings.placeholder a.key).toList ∧
        pieceAt text w.session.edits span = a.literal := by
  obtain ⟨marked, head, hmarked, hhead, hnew, rfl⟩ := Session.liveCode_eq_ok hcode
  have hcoherent := hw.coherent
  generalize w.session = s at *
  obtain ⟨first, hfirst⟩ := List.exists_mem_of_ne_nil _ hlive
  obtain ⟨v, -, hv, -⟩ := hcoherent.live_numbers first hfirst
  obtain ⟨p, text, hprogram, htext, -, -⟩ := hcoherent.snippet hv
  have hlocated : ∀ {ordinal v}, s.valueAt? ordinal = some v → v ∈ (locate s.settings.names
      (some s.settings.registry) s.settings.keywords (some p) text).result := by
    intro ordinal v hv
    obtain ⟨p', text', hprogram', htext', -, hmem⟩ := hcoherent.snippet hv
    cases hprogram.symm.trans hprogram'
    cases htext.symm.trans htext'
    exact hmem
  have hspans : s.spans = valueSpans s.settings.names s.settings.keywords text := by
    rw [Session.spans, htext, Option.getD_some]
  have hcodeWith : ∀ edits, s.codeWith edits =
      applyEdits s.settings.names s.settings.keywords (some p) text edits := by
    intro edits
    rw [Session.codeWith, hprogram, htext, Option.getD_some]
  -- a live code is refused where the placeholders leave the text as it is
  have happly : Applicable s.settings.names s.settings.keywords p text marked := by
    by_contra hnot
    apply hnew
    rw [hcodeWith, applyEdits_of_not_applicable hnot, htext]
  obtain ⟨entries, hascending, hordinals, hentries, rfl⟩ := hcoherent.assignments_eq_ok hhead
  have happly' : Applicable s.settings.names s.settings.keywords p text s.edits := by
    apply Session.applicable_of_preview hmarked happly
    · intro ordinal hmem
      obtain ⟨a, ha, hordinal⟩ := (hordinals ordinal).mp hmem
      exact ⟨a, hordinal, hentries a ha⟩
    · rw [Session.spliced, hspans, htext, Option.getD_some] at hspliced
      exact hspliced
  rw [hspans]
  refine ⟨text, entries, pieceAt text marked, htext, hascending, hordinals, hentries, ?_, ?_, ?_, ?_⟩
  · rw [hcodeWith, applyEdits_of_applicable happly]
    rfl
  · rw [Session.staticCode, hcodeWith, applyEdits_of_applicable happly']
    rfl
  · intro span hspan
    rw [pieceAt, pieceAt, (Session.placeholders_get? hmarked).2]
    intro ordinal hmem heq
    cases heq
    exact hspan hmem
  · intro a ha
    apply Session.exists_span hmarked happly (hentries a ha)
    · exact (hordinals _).mpr ⟨a, ha, rfl⟩
    · exact fun v hv => hlocated hv

set_option maxRecDepth 10000 in
/-- Two live numbers and a reference that was edited: the reference is written out in both. -/
theorem preview_pairs_commit_reference :
    let w := (World.plain "osc(10,20).out(o0)".toList).run
      [.begin "osc(10,20).out(o0)".toList ⟨⟨0, 0⟩, ⟨0, 18⟩⟩, .update 1 (.number (.int 40)),
        .update 2 (.text "o1"), .update 0 (.number (.int 30))]
    w.session.staticCode.result = "osc(30,40).out(o1)".toList ∧ ∃ entries : List Assigned,
      (∀ ordinal, ordinal ∈ [1, 0] ↔ ∃ a ∈ entries, a.ordinal = ordinal) ∧
      ∀ a ∈ entries, ∃ span ∈ w.session.spans, (span.index : Int) = a.ordinal ∧
        pieceAt "osc(10,20).out(o0)".toList w.session.edits span = a.literal := by
  intro w
  have hw : w.Reachable := World.reachable_plain ..
  have hstate : w.session.live = [1, 0] ∧ w.session.text = some "osc(10,20).out(o0)".toList ∧
      w.session.liveCode.result.toOption.isSome = true ∧
      isPlausible w.session.spliced = true ∧
      w.session.staticCode.result = "osc(30,40).out(o1)".toList := by
    decide +kernel
  generalize w = w at hw hstate
  obtain ⟨hlive, htext, hpreview, hspliced, hstatic⟩ := hstate
  cases hcode : w.session.liveCode.result with
  | error e =>
    rw [hcode] at hpreview
    cases hpreview
  | ok code =>
    obtain ⟨text, entries, shown, htext', -, hordinals, -, -, -, -, hpaired⟩ :=
      preview_pairs_commit hw (by simp [hlive]) hcode ((isPlausible_iff _).mp hspliced)
    cases htext.symm.trans htext'
    refine ⟨hstatic, entries, by rwa [hlive] at hordinals, fun a ha => ?_⟩
    obtain ⟨span, hspan, hindex, -, hliteral⟩ := hpaired a ha
    exact ⟨span, hspan, hindex, hliteral⟩

end LiveChain.Live
