import LiveChain.Proofs.Editor.Place
import LiveChain.Proofs.Live.Run

/-!
# A commit writes over its own snippet

The range of a session is not moved when the user changes the document. A change within the lines of
the range makes the session read its snippet anew; any other change is ignored, so it is up to the
user that it leaves the snippet where it is.
-/

set_option autoImplicit false

namespace LiveChain.Live

open Editor Text

/-! ## The tracked text -/

/-- A place of a document, or a position beyond its last line. -/
def Anchored (document : List Char) (p : Position) : Prop := Placed document p ∨ Past document p

/-- What stands between the ends of the range is the tracked text, and no call to the document
fails. -/
structure World.Tracks (w : World) : Prop where
  unbroken : ∀ record, w.host.breaks record = none
  not_updating : w.session.updating = false
  tracked : ∀ range text, w.session.range = some range → w.session.text = some text →
    Anchored w.host.document range.start ∧ read w.host.document range = text

/-- A session starts with what stands in its range. The user changes the document within the lines
of the range, or in such a way that the same text still stands between its ends; and the start of
the range stays a position that the document has, or one beyond its end. -/
def Op.Keeps (w : World) : Op → Prop
  | .begin text range =>
    Anchored w.host.document range.start ∧ read w.host.document range = text
  | .edit document first last => ∀ range, w.session.range = some range →
    Anchored document range.start ∧
      (range.containsLines first last = true ∨ w.session.text = some (read document range))
  | _ => True

/-- The document is as before, or the tracked text in it has been written over. -/
def World.Rewrites (w w' : World) : Prop :=
  w'.host.document = w.host.document ∨ ∃ range text code, w.session.range = some range ∧
    w.session.text = some text ∧ read w.host.document range = text ∧
    w'.host.document = write w.host.document range code

/-- Two worlds with the same snippet in the same document. -/
structure SameSnippet (w w' : World) : Prop where
  range : w'.session.range = w.session.range
  text : w'.session.text = w.session.text
  updating : w'.session.updating = w.session.updating
  document : w'.host.document = w.host.document
  breaks : w'.host.breaks = w.host.breaks

theorem World.Tracks.of_same {w w' : World} (htracks : w.Tracks) (h : SameSnippet w w') :
    w'.Tracks where
  unbroken := by rw [h.breaks]; exact htracks.unbroken
  not_updating := h.updating.trans htracks.not_updating
  tracked range text hrange htext := by
    rw [h.document]
    exact htracks.tracked range text (h.range.symm.trans hrange) (h.text.symm.trans htext)

/-! ## Steps -/

section Steps

variable {w w' : World}

/-- Edits do not touch the snippet before they are committed. -/
theorem Updated.sameSnippet {ordinal : Int} {value : Datum}
    {outcome : World × Except Failure Bool} (h : Updated w ordinal value outcome) :
    SameSnippet w outcome.1 := by
  cases h with
  | unknown => exact ⟨rfl, rfl, rfl, rfl, rfl⟩
  | static target s reports notices htarget htext hs hlive =>
    subst hs
    rw [World.scheduleCommit_effect]
    exact ⟨rfl, rfl, rfl, rfl, rfl⟩
  | previewed target s code notices htarget htext hs hlive hcode haccept =>
    subst hs
    rw [World.scheduleCommit_effect]
    exact ⟨rfl, rfl, rfl, rfl, rfl⟩
  | fellBack target s host reports notices htarget htext hs hlive hhost =>
    subst hs
    rw [World.scheduleCommit_effect]
    rcases hhost with ⟨rfl, -⟩ | ⟨code, rfl, -⟩ <;> exact ⟨rfl, rfl, rfl, rfl, rfl⟩
  | halfDone target s e notices htarget htext hs hlive hcode hmessage =>
    subst hs
    exact ⟨rfl, rfl, rfl, rfl, rfl⟩

theorem Reset.sameSnippet {ordinal : Int} {outcome : World × Bool} (h : Reset w ordinal outcome) :
    SameSnippet w outcome.1 := by
  cases h with
  | nothing => exact ⟨rfl, rfl, rfl, rfl, rfl⟩
  | dropped s reports notices hs hempty =>
    subst hs
    rw [World.cancelCommit_effect]
    exact ⟨rfl, rfl, rfl, rfl, rfl⟩
  | lessened s reports notices hs hleft =>
    subst hs
    rw [World.scheduleCommit_effect]
    exact ⟨rfl, rfl, rfl, rfl, rfl⟩

theorem staticCode_of_empty {s : Session} (h : s.text = some []) : s.staticCode.result = [] := by
  rw [Session.staticCode, Session.codeWith, h]
  cases s.program <;> rfl

/-- A commit writes where the tracked text stands, and goes on with what it wrote. -/
theorem Committed.tracks (h : Committed w w') (htracks : w.Tracks) :
    w'.Tracks ∧ w.Rewrites w' := by
  cases h with
  | nothing => exact ⟨htracks.of_same ⟨rfl, rfl, rfl, rfl, rfl⟩, .inl rfl⟩
  | skipped => exact ⟨htracks.of_same ⟨rfl, rfl, rfl, rfl, rfl⟩, .inl rfl⟩
  | failed text range document calls reports notices htext hrange hedits hbreak =>
    obtain ⟨record, hrecord⟩ := hbreak
    exact absurd (htracks.unbroken record) hrecord
  | written text range code notices htext hrange hedits hcode hne hnew =>
    obtain ⟨hanchored, hread⟩ := htracks.tracked range text hrange htext
    -- beyond the last line there is no text to commit
    have hplaced : Placed w.host.document range.start := by
      refine hanchored.resolve_right fun hpast => hne ?_
      rw [read_past hpast] at hread
      rw [← hcode, staticCode_of_empty (by rw [htext, hread])]
    obtain ⟨hstart, hback⟩ := read_write hplaced code
    refine ⟨⟨htracks.unbroken, rfl, ?_⟩, .inr ⟨range, text, code, hrange, htext, hread, rfl⟩⟩
    intro range' text' hrange' htext'
    cases hrange'
    cases htext'
    exact ⟨.inl hstart, hback⟩

theorem tracks_step (htimer : w.OneTimer) (h : w.Tracks) {op : Op} (hop : op.Keeps w) :
    (w.step op).Tracks ∧
      ((∀ document first last, op ≠ .edit document first last) → w.Rewrites (w.step op)) := by
  have heffect := World.step_effect htimer op
  generalize w.step op = w' at heffect
  cases heffect with
  | still => exact ⟨h, fun _ => .inl rfl⟩
  | began text range notices =>
    refine ⟨⟨h.unbroken, h.not_updating, ?_⟩, fun _ => .inl rfl⟩
    intro range' text' hrange' htext'
    cases hrange'
    cases htext'
    exact hop
  | edited document first last outcome hchanged =>
    refine ⟨?_, fun hne => absurd rfl (hne document first last)⟩
    cases hchanged with
    | ignored hignored =>
      refine ⟨h.unbroken, h.not_updating, fun range text hrange htext => ?_⟩
      obtain ⟨hanchored, hinside | hsame⟩ := hop range hrange
      · rcases hignored with hupdating | hnone | ⟨range', hrange', houtside⟩
        · cases h.not_updating.symm.trans hupdating
        · cases hrange.symm.trans hnone
        · cases hrange.symm.trans hrange'
          cases hinside.symm.trans houtside
      · cases htext.symm.trans hsame
        exact ⟨hanchored, rfl⟩
    | unread range message hupdating hrange hinside hbreak =>
      cases (h.unbroken _).symm.trans hbreak
    | reread range notices hupdating hrange hinside =>
      refine ⟨h.unbroken, h.not_updating, fun range' text' hrange' htext' => ?_⟩
      cases hrange.symm.trans hrange'
      cases htext'
      exact ⟨(hop range hrange).1, rfl⟩
  | updated op ordinal value outcome hedit houtcome hupdated =>
    have hsame := hupdated.sameSnippet
    exact ⟨h.of_same hsame, fun _ => .inl hsame.document⟩
  | noted => exact ⟨h.of_same ⟨rfl, rfl, rfl, rfl, rfl⟩, fun _ => .inl rfl⟩
  | reset ordinal outcome hreset =>
    have hsame := hreset.sameSnippet
    exact ⟨h.of_same hsame, fun _ => .inl hsame.document⟩
  | committed op timers w' hkind hnone hcommitted =>
    have hsame : SameSnippet w
        ⟨{ w.session with pending := none }, { w.host with timers := timers }⟩ :=
      ⟨rfl, rfl, rfl, rfl, rfl⟩
    obtain ⟨htracks, hrewrites⟩ := hcommitted.tracks (h.of_same hsame)
    exact ⟨htracks, fun _ => hrewrites⟩
  | settled => exact ⟨h.of_same ⟨rfl, rfl, rfl, rfl, rfl⟩, fun _ => .inl rfl⟩

end Steps

/-! ## Runs -/

/-- Every operation of a run keeps the tracked text where it is, or within the lines of the
range. -/
def Op.KeepAll (w : World) : List Op → Prop
  | [] => True
  | op :: ops => op.Keeps w ∧ KeepAll (w.step op) ops

theorem Op.keepAll_append {w : World} {before after : List Op} :
    Op.KeepAll w (before ++ after) ↔ Op.KeepAll w before ∧ Op.KeepAll (w.run before) after := by
  induction before generalizing w with
  | nil => exact ⟨fun h => ⟨trivial, h⟩, fun h => h.2⟩
  | cons op before ih =>
    rw [List.cons_append, KeepAll, KeepAll, ih, and_assoc]
    rfl

theorem tracks_run {w : World} (htimer : w.OneTimer) (h : w.Tracks) (ops : List Op)
    (hops : Op.KeepAll w ops) : (w.run ops).Tracks := by
  induction ops generalizing w with
  | nil => exact h
  | cons op ops ih =>
    exact ih (World.oneTimer_step w op htimer) (tracks_step htimer h hops.1).1 hops.2

/-- A change that leaves the tracked text where it is: what stands before it leads to the same
position as before, and what stands behind it can be anything. -/
theorem keeps_around {w : World} (before text after : List Char) (first last : Int)
    (hrange : w.session.range =
      some ⟨Position.origin.after before, Position.origin.after (before ++ text)⟩)
    (htext : w.session.text = some text) :
    Op.Keeps w (.edit (before ++ text ++ after) first last) := by
  intro range hrange'
  cases hrange.symm.trans hrange'
  refine ⟨.inl ⟨before, text ++ after, List.append_assoc _ _ _, rfl⟩, .inr ?_⟩
  rw [read_between, htext]

/-- Whatever an operation of the session writes into the document, it writes over exactly the text
that the session tracks, as long as the user leaves that text where it is or changes it within the
lines of the range. -/
theorem commit_overwrites_tracked_text (settings : Settings) (document : List Char)
    (rejects : List (List Char) → Option String)
    (echoes : List BufferCall → Range → List (Int × Int)) (listens : Bool) (ops : List Op)
    (hops : Op.KeepAll (World.opened settings document rejects (fun _ => none) echoes listens) ops) :
    ∀ done op, done ++ [op] <+: ops → (∀ document first last, op ≠ .edit document first last) →
      World.Rewrites
        ((World.opened settings document rejects (fun _ => none) echoes listens).run done)
        ((World.opened settings document rejects (fun _ => none) echoes listens).run
          (done ++ [op])) := by
  intro done op hdone hop
  have htimer := World.oneTimer_opened settings document rejects (fun _ => none) echoes listens
  have hopened : (World.opened settings document rejects (fun _ => none) echoes listens).Tracks :=
    ⟨fun _ => rfl, rfl, fun range text hrange => by cases hrange⟩
  obtain ⟨rest, rfl⟩ := hdone
  rw [Op.keepAll_append, Op.keepAll_append] at hops
  obtain ⟨⟨hkept, hnext, -⟩, -⟩ := hops
  have htracks := tracks_run htimer hopened done hkept
  rw [World.run_append]
  exact (tracks_step (World.oneTimer_run htimer done) htracks hnext).2 hop

set_option maxRecDepth 10000 in
/-- A line above the snippet is changed between an edit and its commit. -/
theorem commit_overwrites_below_changed_line :
    let w := World.plain "a\nosc(10)\n".toList
    let done : List Op := [.begin "osc(10)\n".toList ⟨⟨1, 0⟩, ⟨2, 0⟩⟩, .update 0 (.number (.int 20)),
      .edit "b\nosc(10)\n".toList 0 0]
    Op.KeepAll w (done ++ [.flush]) ∧ World.Rewrites (w.run done) (w.run (done ++ [.flush])) ∧
      (w.run (done ++ [.flush])).host.document = "b\nosc(20)\n".toList := by
  intro w done
  have hbegin : Op.Keeps w (.begin "osc(10)\n".toList ⟨⟨1, 0⟩, ⟨2, 0⟩⟩) :=
    ⟨placed_or_past_of_lineStart "a\nosc(10)\n".toList 1, by decide +kernel⟩
  have hedit : Op.Keeps (w.run [.begin "osc(10)\n".toList ⟨⟨1, 0⟩, ⟨2, 0⟩⟩,
      .update 0 (.number (.int 20))]) (.edit "b\nosc(10)\n".toList 0 0) :=
    keeps_around "b\n".toList "osc(10)\n".toList [] 0 0 (by decide +kernel) (by decide +kernel)
  have hkeeps : Op.KeepAll w (done ++ [.flush]) := ⟨hbegin, trivial, hedit, trivial, trivial⟩
  exact ⟨hkeeps, commit_overwrites_tracked_text _ _ _ _ _ _ hkeeps done .flush
    (List.prefix_refl _) nofun, by decide +kernel⟩

set_option maxRecDepth 10000 in
/-- A commit writes over foreign text when lines were added above the snippet, and when the start
of the range lies behind the end of its line. -/
theorem commit_overwrites_foreign_text :
    (read "a\nosc(10)\n".toList ⟨⟨1, 0⟩, ⟨2, 0⟩⟩ = "osc(10)\n".toList ∧
      let w := (World.plain "a\nosc(10)\n".toList).run
        [.begin "osc(10)\n".toList ⟨⟨1, 0⟩, ⟨2, 0⟩⟩, .edit "x\na\nosc(10)\n".toList 0 0,
          .update 0 (.number (.int 20))]
      w.session.text = some "osc(10)\n".toList ∧ w.session.range = some ⟨⟨1, 0⟩, ⟨2, 0⟩⟩ ∧
        read w.host.document ⟨⟨1, 0⟩, ⟨2, 0⟩⟩ = "a\n".toList ∧
        w.flush.host.document = write w.host.document ⟨⟨1, 0⟩, ⟨2, 0⟩⟩ "osc(20)\n".toList) ∧
    (read "x\nabcosc(10)\n\n".toList ⟨⟨0, 5⟩, ⟨3, 0⟩⟩ = "osc(10)\n\n".toList ∧
      let w := (World.plain "x\nabcosc(10)\n\n".toList).run
        [.begin "osc(10)\n\n".toList ⟨⟨0, 5⟩, ⟨3, 0⟩⟩, .update 0 (.number (.int 20)), .flush,
          .update 0 (.number (.int 30))]
      w.session.text = some "osc(20)\n\n".toList ∧ w.session.range = some ⟨⟨0, 5⟩, ⟨2, 0⟩⟩ ∧
        read w.host.document ⟨⟨0, 5⟩, ⟨2, 0⟩⟩ = "osc(20)\n".toList ∧
        w.flush.host.document = write w.host.document ⟨⟨0, 5⟩, ⟨2, 0⟩⟩ "osc(30)\n\n".toList) := by
  decide +kernel

end LiveChain.Live
