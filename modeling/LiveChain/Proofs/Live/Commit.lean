import LiveChain.Proofs.Live.Tracking

/-!
# A commit keeps document, text and range in step

A commit that writes changes the document between the ends of the range and nowhere else, and the
session goes on with exactly what it wrote. While it writes it does not listen: whatever lines the
document reports as changed, the outcome is the same. The parts of the document around the snippet
are the invariant that carries this over any number of edits and commits.
-/

set_option autoImplicit false

namespace LiveChain.Editor

open Text

/-! ## Before and behind a range -/

/-- A document is what stands before a range, the text of the range and what stands behind it;
unless the range is empty, writing to it changes the middle part only. -/
theorem exists_frame {document : List Char} {r : Range} (h : Placed document r.start) :
    ∃ before after, document = before ++ read document r ++ after ∧
      Position.origin.after before = r.start ∧
      (read document r ≠ [] → ∀ new, write document r new = before ++ new ++ after) := by
  obtain ⟨before, rest, rfl, hplace⟩ := h
  have hfirst : cut (before ++ rest).length before.length = before.length := by
    rw [cut_of_nonneg (by omega), Int.toNat_natCast]
    exact Nat.min_eq_left (by simp only [List.length_append]; omega)
  generalize hlast : cut (before ++ rest).length (offsetOf (before ++ rest) r.stop) = last
  have hread : read (before ++ rest) r = ((before ++ rest).take last).drop before.length := by
    rw [read, ← hplace, offsetOf_after, hlast, hfirst]
  have hwrite : ∀ new, write (before ++ rest) r new = before ++ new ++ (before ++ rest).drop last := by
    intro new
    rw [write, ← hplace, offsetOf_after, fromOn, hlast, upTo_of_nonneg (by omega),
      Int.toNat_natCast, List.take_left]
  by_cases hle : before.length ≤ last
  · refine ⟨before, (before ++ rest).drop last, ?_, hplace, fun _ => hwrite⟩
    have hfront : ((before ++ rest).take last).take before.length = before := by
      rw [List.take_take, Nat.min_eq_left hle, List.take_left]
    have hmiddle : before ++ read (before ++ rest) r = (before ++ rest).take last := by
      rw [hread]
      conv => lhs; lhs; rw [← hfront]
      rw [List.take_append_drop]
    rw [hmiddle, List.take_append_drop]
  · -- a range that ends before it starts has no text
    have hnil : read (before ++ rest) r = [] := by
      rw [hread]
      apply List.drop_eq_nil_of_le
      rw [List.length_take]
      omega
    exact ⟨before, rest, by rw [hnil, List.append_nil], hplace, fun hne => absurd hnil hne⟩

/-- Writing between two places changes what leads from the one to the other. -/
theorem write_between (before text after new : List Char) :
    write (before ++ text ++ after)
      ⟨Position.origin.after before, Position.origin.after (before ++ text)⟩ new =
        before ++ new ++ after := by
  have hstart : offsetOf (before ++ text ++ after) (Position.origin.after before) =
      before.length := by rw [List.append_assoc, offsetOf_after]
  simp only [write, hstart, offsetOf_after]
  rw [upTo_of_nonneg (by omega), fromOn_of_nonneg (by omega), Int.toNat_natCast,
    Int.toNat_natCast, List.drop_left, List.append_assoc before text after, List.take_left]

end LiveChain.Editor

namespace LiveChain.Live

open Editor Text

/-! ## One commit -/

/-- No call of the next write fails. -/
structure Host.Accepts (h : Host) : Prop where
  opening : h.breaks (.opening :: h.calls) = none
  replacing : h.breaks (.replace :: .opening :: h.calls) = none
  closing : h.breaks (.closing :: .replace :: .opening :: h.calls) = none

/-- The snippet stands between two parts of the document, of which the first leads to the start of
the range. -/
structure World.Framed (before after : List Char) (start : Position) (w : World) : Prop where
  start_eq : Position.origin.after before = start
  framed : ∃ text range, w.session.text = some text ∧ w.session.range = some range ∧
    range.start = start ∧ w.host.document = before ++ text ++ after ∧
    read w.host.document range = text ∧
    (text ≠ [] → ∀ new, write w.host.document range new = before ++ new ++ after)

/-- A commit has written `code` between two parts of the document, by one replacement between the
two ends of an undo step; the session tracks `code`, and reads it where its range says. -/
structure World.Wrote (before after code : List Char) (start : Position) (w w' : World) : Prop where
  document : w'.host.document = before ++ code ++ after
  calls : w'.host.calls = .closing :: .replace :: .opening :: w.host.calls
  text : w'.session.text = some code
  range : w'.session.range = some ⟨start, start.after code⟩
  read_back : read w'.host.document ⟨start, start.after code⟩ = code

theorem writeBuffer_of_accepts {s : Session} {host : Host} (hupdating : s.updating = true)
    (h : host.Accepts) (range : Range) (code : List Char) :
    World.writeBuffer ⟨s, host⟩ range code = (⟨s, host.rewritten range code⟩, .ok ()) := by
  simp only [World.writeBuffer, writeCall_effect hupdating, h.opening, h.replacing, h.closing]
  rfl

theorem commitText_of_accepts {w : World} (h : w.host.Accepts) (range : Range)
    (code : List Char) : ∃ notices, w.commitText range code =
      ⟨({ w.session.resetEdits with
          range := some ⟨range.start, range.start.after code⟩
          text := some code
          updating := false } : Session).searched,
        ({ w.host.rewritten range code with deferred := w.host.deferred ++ [code] } :
          Host).telling w.host.reports notices⟩ := by
  simp only [World.commitText, World.mapSession, World.mapHost, World.resetEdits,
    writeBuffer_of_accepts (s := { w.session with updating := true }) rfl h]
  obtain ⟨notices, hfound⟩ := World.rediscover_effect
    ⟨({ w.session with
        range := some ⟨range.start, range.start.after code⟩
        text := some code
        updating := false } : Session).resetEdits, w.host.rewritten range code⟩
  exact ⟨notices, congrArg (fun w' : World => { w' with host := w'.host.defer code }) hfound⟩

section Commit

variable {w w' : World} {before after code : List Char} {start : Position}

/-- A write over the range of a framed snippet changes what stands between the two parts. -/
theorem World.Framed.wrote (h : w.Framed before after start) {range : Range}
    (hrange : w.session.range = some range) (hcode : w.session.staticCode.result = code)
    (hne : code ≠ []) (hdocument : w'.host.document = write w.host.document range code)
    (hcalls : w'.host.calls = .closing :: .replace :: .opening :: w.host.calls)
    (htext' : w'.session.text = some code)
    (hrange' : w'.session.range = some ⟨range.start, range.start.after code⟩) :
    w.Wrote before after code start w' := by
  obtain ⟨text, range', htext, hsome, hstart, -, -, hwrite⟩ := h.framed
  cases hrange.symm.trans hsome
  have hnonempty : text ≠ [] := by
    rintro rfl
    exact hne (hcode.symm.trans (staticCode_of_empty htext))
  subst hstart
  refine ⟨hdocument.trans (hwrite hnonempty code), hcalls, htext', hrange', ?_⟩
  rw [hdocument, hwrite hnonempty code, ← h.start_eq, ← Position.after_append]
  exact read_between before code after

theorem World.Framed.commit (h : w.Framed before after start) (haccepts : w.host.Accepts)
    (hedits : w.session.edits ≠ []) (hcode : w.session.staticCode.result = code) (hne : code ≠ [])
    (hnew : w.session.text ≠ some code) : w.Wrote before after code start w.commit := by
  obtain ⟨text, range, htext, hrange, -⟩ := h.framed
  have hdiffers : ¬ (w.session.staticCode.result.isEmpty || w.session.staticCode.result = text) =
      true := by
    rw [hcode, Bool.or_eq_true, List.isEmpty_iff, decide_eq_true_eq, not_or]
    exact ⟨hne, fun heq => hnew (by rw [htext, heq])⟩
  rw [World.commit_of_edits htext hrange hedits, if_neg hdiffers, hcode]
  obtain ⟨notices, hcommit⟩ := commitText_of_accepts
    (w := ⟨{ w.session with pending := none, phase := .committing },
      w.host.telling w.host.reports (w.session.staticCode.notices.reverse ++ w.host.notices)⟩)
    ⟨haccepts.opening, haccepts.replacing, haccepts.closing⟩ range code
  rw [hcommit]
  exact h.wrote hrange hcode hne rfl rfl rfl rfl

/-- After a commit the snippet stands between the same parts as before. -/
theorem World.Wrote.framed (h : w.Wrote before after code start w')
    (hstart : Position.origin.after before = start) : w'.Framed before after start := by
  refine ⟨hstart, code, _, h.text, h.range, rfl, h.document, h.read_back, fun _ new => ?_⟩
  rw [h.document, ← hstart, ← Position.after_append]
  exact write_between before code after new

end Commit

/-! ## Edits and commits after each other -/

/-- What the session itself does: neither a new snippet nor a change by the user. -/
def Op.IsOwn : Op → Prop
  | .begin _ _ => False
  | .edit _ _ _ => False
  | _ => True

section Runs

variable {w w' : World} {before after : List Char} {start : Position}

theorem World.Framed.of_same (h : w.Framed before after start) (hsame : SameSnippet w w') :
    w'.Framed before after start := by
  refine ⟨h.start_eq, ?_⟩
  rw [hsame.text, hsame.range, hsame.document]
  exact h.framed

/-- A commit leaves the snippet between the same parts of the document, whether it writes or
not. -/
theorem Committed.framed (hcommitted : Committed w w') (h : w.Framed before after start)
    (hbreaks : ∀ record, w.host.breaks record = none) : w'.Framed before after start := by
  cases hcommitted with
  | nothing => exact h.of_same ⟨rfl, rfl, rfl, rfl, rfl⟩
  | skipped => exact h.of_same ⟨rfl, rfl, rfl, rfl, rfl⟩
  | failed text range document calls reports notices htext hrange hedits hbreak =>
    obtain ⟨record, hrecord⟩ := hbreak
    exact absurd (hbreaks record) hrecord
  | written text range code notices htext hrange hedits hcode hne hnew =>
    exact World.Wrote.framed (h.wrote hrange hcode hne rfl rfl rfl rfl) h.start_eq

theorem framed_step (htimer : w.OneTimer) (hbreaks : ∀ record, w.host.breaks record = none)
    (h : w.Framed before after start) {op : Op} (hop : op.IsOwn) :
    (w.step op).Framed before after start ∧ (w.step op).host.breaks = w.host.breaks := by
  have heffect := World.step_effect htimer op
  generalize w.step op = w' at heffect
  cases heffect with
  | still => exact ⟨h, rfl⟩
  | began => exact hop.elim
  | edited => exact hop.elim
  | updated op ordinal value outcome hedit houtcome hupdated =>
    exact ⟨h.of_same hupdated.sameSnippet, hupdated.sameSnippet.breaks⟩
  | noted => exact ⟨h.of_same ⟨rfl, rfl, rfl, rfl, rfl⟩, rfl⟩
  | reset ordinal outcome hreset => exact ⟨h.of_same hreset.sameSnippet, hreset.sameSnippet.breaks⟩
  | committed op timers w' hkind hnone hcommitted =>
    have hsame : SameSnippet w
        ⟨{ w.session with pending := none }, { w.host with timers := timers }⟩ :=
      ⟨rfl, rfl, rfl, rfl, rfl⟩
    refine ⟨hcommitted.framed (h.of_same hsame) hbreaks, ?_⟩
    cases hcommitted <;> rfl
  | settled => exact ⟨h.of_same ⟨rfl, rfl, rfl, rfl, rfl⟩, rfl⟩

theorem framed_run (htimer : w.OneTimer) (hbreaks : ∀ record, w.host.breaks record = none)
    (h : w.Framed before after start) (ops : List Op) (hops : ∀ op ∈ ops, op.IsOwn) :
    (w.run ops).Framed before after start ∧ (w.run ops).host.breaks = w.host.breaks := by
  induction ops generalizing w with
  | nil => exact ⟨h, rfl⟩
  | cons op ops ih =>
    obtain ⟨hstep, hsame⟩ := framed_step htimer hbreaks h (hops op (List.mem_cons_self ..))
    obtain ⟨hrun, hsame'⟩ := ih (World.oneTimer_step w op htimer) (by rwa [hsame]) hstep
      fun op' hop' => hops op' (List.mem_cons_of_mem op hop')
    exact ⟨hrun, hsame'.trans hsame⟩

/-- Whenever the edits make a new text and no call of the write fails, a commit writes that text: by
itself, without waiting for the quiet time, and at its end. -/
def World.Advances (before after : List Char) (start : Position) (w : World) : Prop :=
  ∀ code, w.session.edits ≠ [] → w.session.staticCode.result = code → code ≠ [] →
    w.session.text ≠ some code → w.host.Accepts →
    w.Wrote before after code start w.commit ∧
      (w.session.pending ≠ none → w.Wrote before after code start w.flush) ∧
      (w.OneTimer → w.session.pending ≠ none → w.Wrote before after code start w.fire)

theorem World.Framed.advances (h : w.Framed before after start) : w.Advances before after start := by
  intro code hedits hcode hne hnew haccepts
  -- calling off a timer, or its firing, changes nothing that a commit looks at
  have hcommit : ∀ pending timers, w.Wrote before after code start
      (World.commit ⟨{ w.session with pending := pending }, { w.host with timers := timers }⟩) := by
    intro pending timers
    have hsame : SameSnippet w
        ⟨{ w.session with pending := pending }, { w.host with timers := timers }⟩ :=
      ⟨rfl, rfl, rfl, rfl, rfl⟩
    have hwrote := (h.of_same hsame).commit ⟨haccepts.opening, haccepts.replacing, haccepts.closing⟩
      hedits hcode hne hnew
    exact { hwrote with }
  refine ⟨h.commit haccepts hedits hcode hne hnew, fun hpending => ?_, fun htimer hpending => ?_⟩
  · obtain ⟨id, hid⟩ := Option.ne_none_iff_exists'.mp hpending
    simp only [World.flush, hid, World.cancelCommit_effect]
    exact hcommit none w.calledOff
  · obtain ⟨id, hid⟩ := Option.ne_none_iff_exists'.mp hpending
    simp only [World.fire_of_oneTimer htimer, hid]
    exact hcommit w.session.pending _

/-- The document is what stands before the range, the tracked text and what stands behind it. A
commit replaces the middle part by the code that it writes, whatever lines the document reports
meanwhile, and so do all later commits, as long as only the session changes the document. -/
theorem commit_in_step {range : Range} {text : List Char} (hrange : w.session.range = some range)
    (htext : w.session.text = some text) (hstart : HasPosition w.host.document range.start)
    (hread : read w.host.document range = text) :
    ∃ before after, w.host.document = before ++ text ++ after ∧
      Position.origin.after before = range.start ∧
      w.Advances before after range.start ∧
      (w.OneTimer → (∀ record, w.host.breaks record = none) →
        ∀ ops, (∀ op ∈ ops, op.IsOwn) → (w.run ops).Framed before after range.start ∧
          (w.run ops).Advances before after range.start) := by
  obtain ⟨before, after, hdocument, hplace, hwrite⟩ := exists_frame (r := range) hstart.placed
  rw [hread] at hdocument hwrite
  have hframed : w.Framed before after range.start :=
    ⟨hplace, text, range, htext, hrange, rfl, hdocument, hread, hwrite⟩
  refine ⟨before, after, hdocument, hplace, hframed.advances, fun htimer hbreaks ops hops => ?_⟩
  obtain ⟨hrun, -⟩ := framed_run htimer hbreaks hframed ops hops
  exact ⟨hrun, hrun.advances⟩

end Runs

set_option maxRecDepth 10000 in
/-- A commit that leaves a line less, from a range that ends behind the document, while the document
reports lines before, in and behind the range. -/
theorem commit_in_step_fewer_lines :
    let w := (World.opened World.plainSettings "a\nosc(-\n10)".toList (fun _ => none) (fun _ => none)
        (fun _ _ => [(1, 1), (0, 0), (1, 9)]) true).run
      [.begin "osc(-\n10)".toList ⟨⟨1, 0⟩, ⟨9, 0⟩⟩, .update 0 (.number (.int (-5)))]
    HasPosition w.host.document ⟨1, 0⟩ ∧
      read w.host.document ⟨⟨1, 0⟩, ⟨9, 0⟩⟩ = "osc(-\n10)".toList ∧
      ∃ before after, w.host.document = before ++ "osc(-\n10)".toList ++ after ∧
        w.Wrote before after "osc(-5)".toList ⟨1, 0⟩ w.flush ∧
        w.Wrote before after "osc(-5)".toList ⟨1, 0⟩ w.fire := by
  intro w
  have htimer : w.OneTimer := World.oneTimer_run (World.oneTimer_opened _ _ _ _ _ _) _
  have hstate : w.host.document = "a\nosc(-\n10)".toList ∧
      w.session.range = some ⟨⟨1, 0⟩, ⟨9, 0⟩⟩ ∧ w.session.text = some "osc(-\n10)".toList ∧
      w.session.edits.isEmpty = false ∧ w.session.staticCode.result = "osc(-5)".toList ∧
      w.session.pending.isSome = true ∧ w.host.calls = [] ∧ w.host.breaks [.opening] = none ∧
      w.host.breaks [.replace, .opening] = none ∧
      w.host.breaks [.closing, .replace, .opening] = none := by
    decide +kernel
  generalize w = w at htimer hstate
  obtain ⟨hdocument, hrange, htext, hedits, hcode, hpending, hcalls, hopening, hreplacing,
    hclosing⟩ := hstate
  have hposition : HasPosition w.host.document ⟨1, 0⟩ := by
    rw [hdocument]
    exact ⟨by decide, by decide, "osc(-".toList, by decide, by decide⟩
  have hread : read w.host.document ⟨⟨1, 0⟩, ⟨9, 0⟩⟩ = "osc(-\n10)".toList := by
    rw [hdocument]
    decide
  have haccepts : w.host.Accepts :=
    ⟨by rw [hcalls, hopening], by rw [hcalls, hreplacing], by rw [hcalls, hclosing]⟩
  obtain ⟨before, after, hframe, -, hadvances, -⟩ := commit_in_step hrange htext hposition hread
  obtain ⟨-, hflush, hfire⟩ := hadvances _ (fun h => by simp [h] at hedits) hcode (by decide)
    (by rw [htext]; decide) haccepts
  have hsome : w.session.pending ≠ none := Option.isSome_iff_ne_none.mp hpending
  exact ⟨hposition, hread, before, after, hframe, hflush hsome, hfire htimer hsome⟩

end LiveChain.Live
