import LiveChain.Proofs.Live.Consistency

/-!
# Sessions that can be reached

What holds of a session after every run, also where an edit was left half done: program and values
are those of the text, a text has a range, and the live values are numbers with an edit, each live
once.
-/

set_option autoImplicit false

namespace LiveChain.Live

open Editor Text

/-- Program and values are those of the text, there is a range exactly when there is a text, and
the live values are numbers with an edit, each of them live once. -/
structure Session.Coherent (s : Session) : Prop where
  found : (s.program, s.values) = findings s.settings s.text
  ranged : s.text = none ↔ s.range = none
  live_numbers : s.LiveNumbers
  live_nodup : s.live.Nodup

namespace Session

variable {s : Session}

theorem coherent_of_nil (hfound : (s.program, s.values) = findings s.settings s.text)
    (hranged : s.text = none ↔ s.range = none) (hlive : s.live = []) : s.Coherent :=
  ⟨hfound, hranged, liveNumbers_of_nil hlive, by rw [hlive]; exact List.nodup_nil⟩

theorem Coherent.recorded (h : s.Coherent) {target : EditableValue} {ordinal : Int}
    (htarget : s.valueAt? ordinal = some target) (value : Datum) :
    (s.recorded target ordinal value).Coherent := by
  refine ⟨h.found, h.ranged, h.live_numbers.recorded htarget value, ?_⟩
  simp only [Session.recorded]
  split
  · split
    · exact h.live_nodup
    · next hnew =>
      rw [List.contains_iff_mem] at hnew
      apply List.nodup_append.mpr
      refine ⟨h.live_nodup, by simp, ?_⟩
      rintro o ho _ hmem rfl
      exact hnew (List.mem_singleton.mp hmem ▸ ho)
  · exact h.live_nodup.filter _

theorem findings_of_mem {settings : Settings} {text : Option (List Char)} {v : EditableValue}
    (h : v ∈ (findings settings text).2) :
    ∃ p cs, text = some cs ∧ cs ≠ [] ∧ findings settings text = (some p,
      (locate settings.names (some settings.registry) settings.keywords (some p) cs).result) := by
  cases text with
  | none => cases h
  | some cs =>
    unfold findings at h ⊢
    simp only [Option.getD_some] at h ⊢
    split at h
    · cases h
    · next hne =>
      split at h
      · cases h
      · next p _ =>
        refine ⟨p, cs, rfl, by simpa using hne, ?_⟩
        rw [if_neg hne]

/-- A session with a value has a text that is a program, and the value is one of its values. -/
theorem Coherent.snippet (h : s.Coherent) {ordinal : Int} {v : EditableValue}
    (hv : s.valueAt? ordinal = some v) :
    ∃ p text, s.program = some p ∧ s.text = some text ∧ text ≠ [] ∧
      v ∈ (locate s.settings.names (some s.settings.registry) s.settings.keywords (some p)
        text).result := by
  have hprogram : s.program = (findings s.settings s.text).1 := congrArg Prod.fst h.found
  have hvalues : s.values = (findings s.settings s.text).2 := congrArg Prod.snd h.found
  have hmem : v ∈ (findings s.settings s.text).2 := hvalues ▸ List.mem_of_find?_eq_some hv
  obtain ⟨p, text, htext, hne, hfound⟩ := findings_of_mem hmem
  rw [hfound] at hprogram hmem
  exact ⟨p, text, hprogram, htext, hne, hmem⟩

/-- Where something is live there are a text, a range and an edit. -/
theorem Coherent.tracked (h : s.Coherent) (hlive : s.live ≠ []) :
    ∃ text range, s.text = some text ∧ s.range = some range ∧ s.edits ≠ [] := by
  obtain ⟨ordinal, hmem⟩ := List.exists_mem_of_ne_nil _ hlive
  obtain ⟨v, value, hv, -, hedit, -⟩ := h.live_numbers ordinal hmem
  obtain ⟨-, text, -, htext, -, -⟩ := h.snippet hv
  have hrange : s.range ≠ none := by
    rw [Ne, ← h.ranged, htext]
    exact Option.some_ne_none _
  obtain ⟨range, hrange⟩ := Option.ne_none_iff_exists'.mp hrange
  exact ⟨text, range, htext, hrange, List.ne_nil_of_mem (Edits.mem_of_get? hedit)⟩

end Session

namespace World

variable {w : World}

theorem coherent_updated {ordinal : Int} {value : Datum} {outcome : World × Except Failure Bool}
    (h : w.session.Coherent) (heffect : Updated w ordinal value outcome) :
    outcome.1.session.Coherent := by
  cases heffect with
  | unknown => exact h
  | static target s reports notices htarget htext hs hlive =>
    rw [scheduleCommit_effect, hs]
    exact { h.recorded htarget value with }
  | previewed target s code notices htarget htext hs hlive hcode haccept =>
    rw [scheduleCommit_effect, hs]
    exact { h.recorded htarget value with }
  | fellBack target s host reports notices htarget htext hs hlive hhost =>
    rw [scheduleCommit_effect, hs]
    exact Session.coherent_of_nil h.found h.ranged rfl
  | halfDone target s e notices htarget htext hs hlive hcode hmessage =>
    rw [hs]
    exact h.recorded htarget value

theorem coherent_committed {w' : World} (h : w.session.Coherent) (heffect : Committed w w') :
    w'.session.Coherent := by
  cases heffect with
  | nothing => exact Session.coherent_of_nil h.found h.ranged rfl
  | skipped => exact Session.coherent_of_nil h.found h.ranged rfl
  | failed => exact Session.coherent_of_nil h.found h.ranged rfl
  | written => exact Session.coherent_of_nil rfl (iff_of_false nofun nofun) rfl

theorem coherent_step (htimer : w.OneTimer) (h : w.session.Coherent) (op : Op) :
    (w.step op).session.Coherent := by
  have heffect := step_effect htimer op
  generalize w.step op = w' at heffect
  cases heffect with
  | still => exact h
  | began => exact Session.coherent_of_nil rfl (iff_of_false nofun nofun) rfl
  | edited document first last outcome hchanged =>
    cases hchanged with
    | ignored => exact h
    | unread => exact Session.coherent_of_nil h.found h.ranged rfl
    | reread range notices hupdating hrange hinside =>
      refine Session.coherent_of_nil rfl (iff_of_false nofun fun hnone => ?_) rfl
      cases hrange.symm.trans hnone
  | updated op ordinal value outcome hedit houtcome hupdated => exact coherent_updated h hupdated
  | noted => exact h
  | reset ordinal outcome hreset =>
    cases hreset with
    | nothing => exact h
    | dropped s reports notices hs hempty =>
      rw [cancelCommit_effect, hs]
      exact Session.coherent_of_nil h.found h.ranged rfl
    | lessened s reports notices hs hleft =>
      rw [scheduleCommit_effect, hs]
      exact Session.coherent_of_nil h.found h.ranged rfl
  | committed op timers w' hop hnone hcommitted =>
    apply coherent_committed _ hcommitted
    exact { h with }
  | settled => exact h

theorem coherent_run (htimer : w.OneTimer) (h : w.session.Coherent) (ops : List Op) :
    (w.run ops).session.Coherent := by
  induction ops generalizing w with
  | nil => exact h
  | cons op ops ih => exact ih (oneTimer_step w op htimer) (coherent_step htimer h op)

/-- The worlds that runs lead to, from any document and whatever fails in the host. -/
def Reachable (w : World) : Prop :=
  ∃ settings document rejects breaks echoes listens ops,
    w = (opened settings document rejects breaks echoes listens).run ops

theorem Reachable.oneTimer (h : w.Reachable) : w.OneTimer := by
  obtain ⟨settings, document, rejects, breaks, echoes, listens, ops, rfl⟩ := h
  exact oneTimer_run (oneTimer_opened _ _ _ _ _ _) ops

theorem Reachable.coherent (h : w.Reachable) : w.session.Coherent := by
  obtain ⟨settings, document, rejects, breaks, echoes, listens, ops, rfl⟩ := h
  apply coherent_run (oneTimer_opened _ _ _ _ _ _)
  exact Session.coherent_of_nil rfl (iff_of_true rfl rfl) rfl

theorem reachable_plain (document : List Char) (ops : List Op) :
    ((plain document).run ops).Reachable := ⟨_, _, _, _, _, _, ops, rfl⟩

end World

end LiveChain.Live
