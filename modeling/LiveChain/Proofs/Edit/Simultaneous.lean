import LiveChain.Proofs.Edit.Soundness
import LiveChain.Proofs.Sorting
import Mathlib.Algebra.BigOperators.Group.List.Basic
import Mathlib.Algebra.Ring.Int.Defs

/-!
# Splicing of spans in any order

Spans that do not overlap can be given in any order, and so can the edits. Splicing puts the spans
in text order first; what comes out is the text with the pieces of all spans in their places, and
its length changes by what the pieces change.
-/

set_option autoImplicit false

namespace LiveChain

open Text

/-! ## Text order -/

/-- Spans in a text of a given length, each with at least one character, of which no two overlap. -/
structure Scattered (length : Nat) (spans : List ValueSpan) : Prop where
  inside : ∀ span ∈ spans, 0 ≤ span.start ∧ span.start < span.stop ∧ span.stop ≤ length
  apart : spans.Pairwise fun a b => a.stop ≤ b.start ∨ b.stop ≤ a.start

def inTextOrder (spans : List ValueSpan) : List ValueSpan :=
  sortBy (fun a b => a.start ≤ b.start) spans

theorem inTextOrder_perm (spans : List ValueSpan) : (inTextOrder spans).Perm spans :=
  (sortBy_sortedFrom spans : SortedFrom ValueSpan.start spans _).perm

section Order

variable {length : Nat} {spans spans' : List ValueSpan}

theorem Scattered.perm (h : Scattered length spans) (hperm : spans'.Perm spans) :
    Scattered length spans' where
  inside := fun span hspan => h.inside span (hperm.mem_iff.mp hspan)
  apart := h.apart.perm hperm.symm Or.symm

/-- Of two spans that do not overlap, the one that starts first ends before the other starts. -/
theorem Scattered.laid (h : Scattered length spans) : Laid length (inTextOrder spans) := by
  have hsorted : SortedFrom ValueSpan.start spans (inTextOrder spans) := sortBy_sortedFrom spans
  have hordered := h.perm (inTextOrder_perm spans)
  refine ⟨hordered.inside, ?_⟩
  apply (hsorted.ascending.and hordered.apart).imp_of_mem
  rintro a b ha hb ⟨hstart, hapart⟩
  have := hordered.inside b hb
  omega

theorem Laid.eq_of_perm (h : Laid length spans) (h' : Laid length spans')
    (hperm : spans.Perm spans') : spans = spans' := by
  refine hperm.eq_of_pairwise ?_ h.apart h'.apart
  intro a b ha hb hab hba
  -- each would have to end before the other starts
  have := h.inside a ha
  have := h'.inside b hb
  omega

end Order

/-! ## Edits in any order -/

theorem Edits.get?_eq_some_iff {edits : Edits} (honce : (edits.map Prod.fst).Nodup)
    {target : EditTarget} {value : Datum} :
    edits.get? target = some value ↔ (target, value) ∈ edits := by
  refine ⟨Edits.mem_of_get?, fun hmem => ?_⟩
  induction edits with
  | nil => cases hmem
  | cons e rest ih =>
    obtain ⟨t, v⟩ := e
    rw [List.map_cons, List.nodup_cons] at honce
    rw [get?_cons]
    rcases List.mem_cons.mp hmem with heq | hrest
    · obtain ⟨rfl, rfl⟩ := Prod.mk.inj heq
      exact if_pos rfl
    · have hne : t ≠ target := by
        rintro rfl
        exact honce.1 (List.mem_map.mpr ⟨_, hrest, rfl⟩)
      rw [if_neg hne]
      exact ih honce.2 hrest

theorem Edits.get?_perm {edits edits' : Edits} (honce : (edits.map Prod.fst).Nodup)
    (hperm : edits'.Perm edits) : edits'.get? = edits.get? := by
  have honce' : (edits'.map Prod.fst).Nodup := (hperm.map Prod.fst).nodup_iff.mpr honce
  funext target
  apply Option.ext
  intro value
  rw [get?_eq_some_iff honce', get?_eq_some_iff honce, hperm.mem_iff]

theorem pieceAt_congr {edits edits' : Edits} (h : edits'.get? = edits.get?) (text : List Char) :
    pieceAt text edits' = pieceAt text edits := by
  funext span
  rw [pieceAt, pieceAt, h]

/-! ## Splicing -/

section Splice

variable {text : List Char} {spans : List ValueSpan} {edits : Edits}

theorem splice_scattered (hspans : Scattered text.length spans)
    (hordinals : ∀ e ∈ edits, ∃ n : Int, e.1 = .ordinal n)
    (hwrite : ∀ span ∈ spans, ∀ value, edits.get? (.ordinal span.index) = some value →
      value.IsWritable) :
    splice text spans edits = .ok (weave text (pieceAt text edits) 0 (inTextOrder spans)) := by
  have hwrite' : ∀ span ∈ inTextOrder spans, ∀ value,
      edits.get? (.ordinal span.index) = some value → value.IsWritable :=
    fun span hspan => hwrite span ((inTextOrder_perm spans).mem_iff.mp hspan)
  obtain ⟨shift, h⟩ := spliceFrom_eq_weave [] 0 hspans.laid (fun _ _ => Nat.zero_le _) hwrite'
  have hloop : spliceFrom edits (inTextOrder spans) ⟨text, 0⟩ =
      .ok ⟨weave text (pieceAt text edits) 0 (inTextOrder spans), shift⟩ := by simpa using h
  rw [splice, ← inTextOrder, hloop]
  simp [strayMixture_of_ordinals hordinals]

/-- A piece in the place of a span changes the length by the difference of their lengths. -/
theorem weave_length (piece : ValueSpan → List Char) {done : Nat} (hlaid : Laid text.length spans)
    (hle : done ≤ text.length) (hdone : ∀ span ∈ spans, done ≤ span.start.toNat) :
    ((weave text piece done spans).length : Int) = text.length - done +
      (spans.map fun span => ((piece span).length : Int) - (span.stop - span.start)).sum := by
  induction spans generalizing done with
  | nil =>
    simp only [weave, List.length_drop, List.map_nil, List.sum_nil]
    omega
  | cons span rest ih =>
    obtain ⟨h0, hss, hstop⟩ := hlaid.inside span (List.mem_cons_self ..)
    have hhere := hdone span (List.mem_cons_self ..)
    have hrest := ih hlaid.tail (by omega) hlaid.start_le
    have hgap : (slice text done span.start.toNat).length = span.start.toNat - done :=
      slice_length done (by omega)
    simp only [weave, List.length_append, hgap, List.map_cons, List.sum_cons]
    push_cast
    rw [hrest]
    omega

end Splice

/-- Splicing edits that can be written into spans that do not overlap puts the spans in text order
and weaves their pieces into the text. Neither the order in which the spans are given nor that of the
edits shows in the outcome, and its length differs from that of the text by what all pieces together
differ from their spans. -/
theorem splice_simultaneous {text : List Char} {spans : List ValueSpan} {edits : Edits}
    (hspans : Scattered text.length spans)
    (hordinals : ∀ e ∈ edits, ∃ n : Int, e.1 = .ordinal n) (honce : (edits.map Prod.fst).Nodup)
    (hwrite : ∀ span ∈ spans, ∀ value, edits.get? (.ordinal span.index) = some value →
      value.IsWritable) :
    ∃ ordered result, ordered.Perm spans ∧ Laid text.length ordered ∧
      result = weave text (pieceAt text edits) 0 ordered ∧
      (∀ spans' edits', spans'.Perm spans → edits'.Perm edits →
        splice text spans' edits' = .ok result) ∧
      (result.length : Int) = text.length +
        (spans.map fun span =>
          ((pieceAt text edits span).length : Int) - (span.stop - span.start)).sum := by
  refine ⟨inTextOrder spans, _, inTextOrder_perm spans, hspans.laid, rfl, ?_, ?_⟩
  · intro spans' edits' hperm hedits
    have hget := Edits.get?_perm honce hedits
    have hspans' := hspans.perm hperm
    have hordered : inTextOrder spans' = inTextOrder spans := by
      apply hspans'.laid.eq_of_perm hspans.laid
      exact (inTextOrder_perm spans').trans (hperm.trans (inTextOrder_perm spans).symm)
    have hsplice : splice text spans' edits' =
        .ok (weave text (pieceAt text edits') 0 (inTextOrder spans')) := by
      apply splice_scattered hspans' fun e he => hordinals e (hedits.mem_iff.mp he)
      rw [hget]
      exact fun span hspan => hwrite span (hperm.mem_iff.mp hspan)
    rw [hsplice, hordered, pieceAt_congr hget]
  · have hlength := weave_length (pieceAt text edits) hspans.laid (Nat.zero_le _)
      fun _ _ => Nat.zero_le _
    have hsum := ((inTextOrder_perm spans).map fun span =>
      ((pieceAt text edits span).length : Int) - (span.stop - span.start)).sum_eq
    rw [hlength, hsum]
    omega

/-- Three spans from the last to the first, of which the middle one keeps its text; one edit makes
the text longer and one shorter. -/
theorem splice_simultaneous_backwards :
    let text := "osc(100).color(2, 3)".toList
    let spans : List ValueSpan :=
      [⟨2, 18, 19, "3", .number⟩, ⟨1, 15, 16, "2", .number⟩, ⟨0, 4, 7, "100", .number⟩]
    let edits : Edits := [(.ordinal 0, .number (.int 7)), (.ordinal 5, .null),
      (.ordinal 2, .text "() => x")]
    Scattered text.length spans ∧
    ∃ ordered result, ordered.Perm spans ∧ Laid text.length ordered ∧
      result = weave text (pieceAt text edits) 0 ordered ∧
      (∀ spans' edits', spans'.Perm spans → edits'.Perm edits →
        splice text spans' edits' = .ok result) ∧
      (result.length : Int) = text.length +
        (spans.map fun span =>
          ((pieceAt text edits span).length : Int) - (span.stop - span.start)).sum := by
  intro text spans edits
  have hspans : Scattered text.length spans := ⟨by decide, by decide⟩
  refine ⟨hspans, splice_simultaneous hspans ?_ (by decide) ?_⟩
  · simp only [edits, List.forall_mem_cons]
    exact ⟨⟨0, rfl⟩, ⟨5, rfl⟩, ⟨2, rfl⟩, by simp⟩
  · simp only [spans, List.forall_mem_cons]
    refine ⟨?_, ?_, ?_, by simp⟩
    · rintro value hvalue
      obtain rfl := Option.some.inj hvalue
      trivial
    · exact fun value hvalue => nomatch hvalue
    · rintro value hvalue
      obtain rfl := Option.some.inj hvalue
      exact ⟨_, rfl⟩

end LiveChain
