import LiveChain.Edit.Splice
import LiveChain.Proofs.Scan.Extent

/-!
# Splicing is simultaneous substitution

Splicing goes from left to right and moves the later spans by the length change so far. What comes
out is the text with all edited spans replaced at once.
-/

set_option autoImplicit false

namespace LiveChain

open Text

/-! ## What can be written -/

/-- The values that an edit can write: texts, doubles, and integers in the range of doubles. -/
def Datum.IsWritable : Datum → Prop
  | .text _ => True
  | .number (.float _) => True
  | .number (.int n) => ∃ x, Binary64.ofInt n = .finite x
  | _ => False

theorem replacement_isOk {value : Datum} :
    (∃ new, replacement value = .ok new) ↔ value.IsWritable := by
  cases value with
  | number n =>
    cases n with
    | float x => simp [replacement, Number.written?, Datum.IsWritable]
    | int k =>
      simp only [replacement, Number.written?, Datum.IsWritable]
      cases hk : Binary64.ofInt k <;> simp
  | _ => simp [replacement, Datum.IsWritable]

/-! ## Pieces -/

/-- The characters of a text from `start` up to `stop`. -/
def slice (text : List Char) (start stop : Nat) : List Char := (text.take stop).drop start

/-- What stands at a span once the edits are made: the text of its edit, or what stood there. -/
def pieceAt (text : List Char) (edits : Edits) (span : ValueSpan) : List Char :=
  match edits.get? (.ordinal span.index) with
  | none => slice text span.start.toNat span.stop.toNat
  | some value =>
    match replacement value with
    | .ok new => new
    | .error _ => slice text span.start.toNat span.stop.toNat

/-- The text from an offset on, with a piece in the place of every span. -/
def weave (text : List Char) (piece : ValueSpan → List Char) : Nat → List ValueSpan → List Char
  | done, [] => text.drop done
  | done, span :: rest =>
    slice text done span.start.toNat ++ piece span ++ weave text piece span.stop.toNat rest

theorem slice_length {text : List Char} (start : Nat) {stop : Nat} (h : stop ≤ text.length) :
    (slice text start stop).length = stop - start := by
  rw [slice, List.length_drop, List.length_take, Nat.min_eq_left h]

theorem slice_append_slice {text : List Char} {a b c : Nat} (hab : a ≤ b) (hbc : b ≤ c) :
    slice text a b ++ slice text b c = slice text a c := by
  have hb : text.take b = (text.take c).take b := by rw [List.take_take, Nat.min_eq_left hbc]
  have hd : (text.take c).drop b = ((text.take c).drop a).drop (b - a) := by
    rw [List.drop_drop]
    congr 1
    omega
  rw [slice, slice, slice, hb, List.drop_take, hd, List.take_append_drop]

theorem slice_append_drop {text : List Char} {a b : Nat} (hab : a ≤ b) :
    slice text a b ++ text.drop b = text.drop a := by
  have hd : text.drop b = (text.drop a).drop (b - a) := by
    rw [List.drop_drop]
    congr 1
    omega
  rw [slice, List.drop_take, hd, List.take_append_drop]

/-- A weave may start later if what lies before is put in front. -/
theorem weave_from {text : List Char} {piece : ValueSpan → List Char} {a b : Nat}
    {spans : List ValueSpan} (hab : a ≤ b) (hb : ∀ span ∈ spans, b ≤ span.start.toNat) :
    weave text piece a spans = slice text a b ++ weave text piece b spans := by
  cases spans with
  | nil => exact (slice_append_drop hab).symm
  | cons span rest =>
    have hspan := hb span (List.mem_cons_self ..)
    rw [weave, weave, ← slice_append_slice hab hspan]
    simp only [List.append_assoc]

/-! ## The loop -/

/-- Spans that start behind the first of spans laid out one after the other. -/
theorem Laid.start_le {length : Nat} {span : ValueSpan} {rest : List ValueSpan}
    (h : Laid length (span :: rest)) : ∀ s ∈ rest, span.stop.toNat ≤ s.start.toNat := by
  intro s hs
  have := (List.pairwise_cons.mp h.apart).1 s hs
  omega

theorem weave_slices {text : List Char} (done : Nat) {spans : List ValueSpan}
    (hlaid : Laid text.length spans) (hdone : ∀ span ∈ spans, done ≤ span.start.toNat) :
    weave text (fun span => slice text span.start.toNat span.stop.toNat) done spans =
      text.drop done := by
  induction spans generalizing done with
  | nil => rfl
  | cons span rest ih =>
    obtain ⟨h0, hss, hstop⟩ := hlaid.inside span (List.mem_cons_self ..)
    have hhere := hdone span (List.mem_cons_self ..)
    rw [weave, ih _ hlaid.tail hlaid.start_le, slice_append_slice hhere (by omega),
      slice_append_drop (by omega)]

/-- Replacing a span of a text whose part before `done` has become `out`: the part before the
span's end becomes `out`, the stretch up to the span, and the new characters. -/
theorem replace_woven {text out new : List Char} {done : Nat} {span : ValueSpan}
    (hdone : done ≤ span.start.toNat) (h0 : 0 ≤ span.start) (hss : span.start < span.stop)
    (hstop : span.stop ≤ text.length) :
    (⟨out ++ text.drop done, (out.length : Int) - done⟩ : Spliced).replace span new =
      ⟨(out ++ slice text done span.start.toNat ++ new) ++ text.drop span.stop.toNat,
        ((out ++ slice text done span.start.toNat ++ new).length : Int) - span.stop.toNat⟩ := by
  have hstart : (span.start + ((out.length : Int) - done)).toNat =
      out.length + (span.start.toNat - done) := by omega
  have hend : (span.stop + ((out.length : Int) - done)).toNat =
      out.length + (span.stop.toNat - done) := by omega
  have hfront : (out ++ text.drop done).take (out.length + (span.start.toNat - done)) =
      out ++ slice text done span.start.toNat := by
    rw [List.take_length_add_append, slice, List.drop_take]
  have hback : (out ++ text.drop done).drop (out.length + (span.stop.toNat - done)) =
      text.drop span.stop.toNat := by
    rw [List.drop_length_add_append, List.drop_drop]
    congr 1
    omega
  have hlen : (slice text done span.start.toNat).length = span.start.toNat - done :=
    slice_length done (by omega)
  rw [Spliced.replace, upTo_of_nonneg (by simp only; omega), fromOn_of_nonneg (by simp only; omega)]
  simp only [hstart, hend, hfront, hback, List.length_append, hlen, Spliced.mk.injEq, true_and]
  omega

/-- The loop replaces the spans of the rest of a text all at once. -/
theorem spliceFrom_eq_weave {text : List Char} (out : List Char) {edits : Edits} (done : Nat)
    {spans : List ValueSpan} (hlaid : Laid text.length spans)
    (hdone : ∀ span ∈ spans, done ≤ span.start.toNat)
    (hwrite : ∀ span ∈ spans, ∀ value, edits.get? (.ordinal span.index) = some value →
      value.IsWritable) :
    ∃ shift, spliceFrom edits spans ⟨out ++ text.drop done, (out.length : Int) - done⟩ =
      .ok ⟨out ++ weave text (pieceAt text edits) done spans, shift⟩ := by
  induction spans generalizing out done with
  | nil => exact ⟨_, rfl⟩
  | cons span rest ih =>
    obtain ⟨h0, hss, hstop⟩ := hlaid.inside span (List.mem_cons_self ..)
    have hhere := hdone span (List.mem_cons_self ..)
    have hwrite' := fun s hs => hwrite s (List.mem_cons_of_mem span hs)
    rw [spliceFrom]
    cases hget : edits.get? (.ordinal span.index) with
    | none =>
      -- an untouched span stays part of the stretch before the next edited one
      obtain ⟨shift, hshift⟩ := ih out done hlaid.tail
        (fun s hs => by have := hlaid.start_le s hs; omega) hwrite'
      refine ⟨shift, ?_⟩
      rw [hshift, weave, pieceAt, hget, slice_append_slice hhere (by omega),
        weave_from (by omega) hlaid.start_le]
    | some value =>
      obtain ⟨new, hnew⟩ :=
        replacement_isOk.mpr (hwrite span (List.mem_cons_self ..) value hget)
      obtain ⟨shift, hshift⟩ := ih (out ++ slice text done span.start.toNat ++ new)
        span.stop.toNat hlaid.tail hlaid.start_le hwrite'
      refine ⟨shift, ?_⟩
      simp only [hnew]
      rw [replace_woven hhere h0 hss hstop, hshift, weave, pieceAt, hget]
      simp only [hnew, List.append_assoc]

/-- An edited span whose edit cannot be written stops the loop. -/
theorem spliceFrom_isError {edits : Edits} {spans : List ValueSpan} {span : ValueSpan}
    {value : Datum} (hspan : span ∈ spans) (hget : edits.get? (.ordinal span.index) = some value)
    (hvalue : ¬ value.IsWritable) (s : Spliced) : ∃ e, spliceFrom edits spans s = .error e := by
  induction spans generalizing s with
  | nil => cases hspan
  | cons first rest ih =>
    rw [spliceFrom]
    rcases List.mem_cons.mp hspan with rfl | hrest
    · simp only [hget]
      cases hr : replacement value with
      | ok new => exact absurd (replacement_isOk.mp ⟨new, hr⟩) hvalue
      | error e => exact ⟨e, rfl⟩
    · split
      · exact ih hrest s
      · split
        · exact ih hrest _
        · next e _ => exact ⟨e, rfl⟩

/-! ## Splicing -/

/-- Spans that stand one after the other are in text order already. -/
theorem Laid.sorted {length : Nat} {spans : List ValueSpan} (h : Laid length spans) :
    sortBy (fun a b => a.start ≤ b.start) spans = spans := by
  apply sortBy_of_pairwise
  apply h.apart.imp_of_mem
  intro a b ha hb hab
  have := h.inside a ha
  simp only [decide_eq_true_eq]
  omega

theorem splice_eq_weave {text : List Char} {spans : List ValueSpan} {edits : Edits}
    (hlaid : Laid text.length spans) (hstray : strayMixture spans edits = false)
    (hwrite : ∀ span ∈ spans, ∀ value, edits.get? (.ordinal span.index) = some value →
      value.IsWritable) :
    splice text spans edits = .ok (weave text (pieceAt text edits) 0 spans) := by
  obtain ⟨shift, h⟩ := spliceFrom_eq_weave [] 0 hlaid
    (fun _ _ => Nat.zero_le _) hwrite
  have hloop : spliceFrom edits spans ⟨text, 0⟩ =
      .ok ⟨weave text (pieceAt text edits) 0 spans, shift⟩ := by simpa using h
  rw [splice, hlaid.sorted, hloop]
  simp [hstray]

theorem splice_isError {text : List Char} {spans : List ValueSpan} {edits : Edits}
    {span : ValueSpan} {value : Datum} (hlaid : Laid text.length spans) (hspan : span ∈ spans)
    (hget : edits.get? (.ordinal span.index) = some value) (hvalue : ¬ value.IsWritable) :
    ∃ e, splice text spans edits = .error e := by
  obtain ⟨e, he⟩ := spliceFrom_isError hspan hget hvalue ⟨text, 0⟩
  exact ⟨e, by rw [splice, hlaid.sorted, he]⟩

end LiveChain
