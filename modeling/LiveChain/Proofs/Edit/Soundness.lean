import LiveChain.Edit.Apply
import LiveChain.Proofs.Edit.Edits
import LiveChain.Proofs.Edit.Weave
import Mathlib.Data.List.TakeWhile

/-!
# Edits are applied as a whole or not at all

The edits of a snippet are made exactly when text and tree agree on the edited values, every edit of
a value that is there can be written, and the outcome looks like code. Nothing else can come out but
the snippet as it was, and no character outside the edited values changes.
-/

set_option autoImplicit false

namespace LiveChain

open Text

/-! ## Bare numbers -/

/-- An optional minus sign, at least one digit, an optional point and any digits. -/
def BareNumber (cs : List Char) : Prop :=
  ∃ sign whole point fraction : List Char, cs = sign ++ whole ++ point ++ fraction ∧
    (sign = [] ∨ sign = ['-']) ∧ (whole ≠ [] ∧ ∀ c ∈ whole, isDecimal c = true) ∧
    (point = [] ∨ point = ['.']) ∧ ∀ c ∈ fraction, isDecimal c = true

/-- Whether an unsigned text has the shape of a number: what `isBareNumber` asks behind the
sign. -/
def isUnsignedNumber (cs : List Char) : Bool :=
  match cs.dropWhile isDecimal with
  | [] => !cs.isEmpty
  | '.' :: fraction => (cs.head?.any isDecimal) && fraction.all isDecimal
  | _ => false

theorem isBareNumber_minus (cs : List Char) : isBareNumber ('-' :: cs) = isUnsignedNumber cs := rfl

theorem isBareNumber_unsigned {cs : List Char} (h : ∀ rest, cs ≠ '-' :: rest) :
    isBareNumber cs = isUnsignedNumber cs := by
  unfold isBareNumber
  split
  · next rest => exact absurd rfl (h rest)
  · rfl

theorem not_isDecimal_point : isDecimal '.' = false := by decide

theorem not_isDecimal_minus : isDecimal '-' = false := by decide

theorem isUnsignedNumber_iff (cs : List Char) :
    isUnsignedNumber cs = true ↔ ∃ whole point fraction : List Char,
      cs = whole ++ point ++ fraction ∧ (whole ≠ [] ∧ ∀ c ∈ whole, isDecimal c = true) ∧
        (point = [] ∨ point = ['.']) ∧ ∀ c ∈ fraction, isDecimal c = true := by
  constructor
  · intro h
    have hsplit := List.takeWhile_append_dropWhile (p := isDecimal) (l := cs)
    have hall : ∀ c ∈ cs.takeWhile isDecimal, isDecimal c = true :=
      fun c hc => List.mem_takeWhile_imp hc
    unfold isUnsignedNumber at h
    split at h
    · next hrest =>
      rw [hrest, List.append_nil] at hsplit
      rw [hsplit] at hall
      have hne : cs ≠ [] := by simpa using h
      exact ⟨cs, [], [], by simp, ⟨hne, hall⟩, .inl rfl, by simp⟩
    · next fraction hrest =>
      rw [Bool.and_eq_true, List.all_eq_true] at h
      refine ⟨cs.takeWhile isDecimal, ['.'], fraction, ?_, ⟨?_, hall⟩, .inr rfl, h.2⟩
      · rw [hrest] at hsplit
        simpa using hsplit.symm
      · -- the first character is a digit, so the digits are there
        cases cs with
        | nil => simp at h
        | cons c cs =>
          have hc : isDecimal c = true := by simpa using h.1
          rw [List.takeWhile_cons_of_pos hc]
          exact List.cons_ne_nil _ _
    · cases h
  · rintro ⟨whole, point, fraction, rfl, ⟨hne, hwhole⟩, hpoint, hfraction⟩
    have hdrop : ∀ rest, (whole ++ rest).dropWhile isDecimal = rest.dropWhile isDecimal :=
      fun rest => List.dropWhile_append_of_pos hwhole
    rcases hpoint with rfl | rfl
    · have hnil : (fraction.dropWhile isDecimal) = [] := List.dropWhile_eq_nil_iff.mpr hfraction
      rw [isUnsignedNumber, List.append_nil, hdrop, hnil]
      simp [hne]
    · obtain ⟨c, rest, rfl⟩ := List.exists_cons_of_ne_nil hne
      have hc : isDecimal c = true := hwhole c (List.mem_cons_self ..)
      have hstop : ('.' :: fraction).dropWhile isDecimal = '.' :: fraction :=
        List.dropWhile_cons_of_neg (by simp [not_isDecimal_point])
      rw [isUnsignedNumber, List.append_assoc, List.singleton_append, hdrop, hstop]
      simpa [hc] using hfraction

theorem isBareNumber_iff (cs : List Char) : isBareNumber cs = true ↔ BareNumber cs := by
  constructor
  · intro h
    by_cases hminus : ∃ rest, cs = '-' :: rest
    · obtain ⟨rest, rfl⟩ := hminus
      rw [isBareNumber_minus, isUnsignedNumber_iff] at h
      obtain ⟨whole, point, fraction, rfl, hwhole, hpoint, hfraction⟩ := h
      exact ⟨['-'], whole, point, fraction, by simp, .inr rfl, hwhole, hpoint, hfraction⟩
    · rw [isBareNumber_unsigned (fun rest hr => hminus ⟨rest, hr⟩), isUnsignedNumber_iff] at h
      obtain ⟨whole, point, fraction, rfl, hwhole, hpoint, hfraction⟩ := h
      exact ⟨[], whole, point, fraction, by simp, .inl rfl, hwhole, hpoint, hfraction⟩
  · rintro ⟨sign, whole, point, fraction, rfl, hsign, hwhole, hpoint, hfraction⟩
    have hrest : isUnsignedNumber (whole ++ point ++ fraction) = true :=
      (isUnsignedNumber_iff _).mpr ⟨whole, point, fraction, rfl, hwhole, hpoint, hfraction⟩
    rcases hsign with rfl | rfl
    · -- without a sign the text starts with a digit, and a digit is no minus sign
      obtain ⟨c, digits, rfl⟩ := List.exists_cons_of_ne_nil hwhole.1
      have hc : isDecimal c = true := hwhole.2 c (List.mem_cons_self ..)
      rw [List.nil_append, isBareNumber_unsigned ?_]
      · exact hrest
      · intro rest hr
        have : c = '-' := by simpa using congrArg List.head? hr
        rw [this, not_isDecimal_minus] at hc
        cases hc
    · exact hrest

theorem isPlausible_iff (cs : List Char) :
    isPlausible cs = true ↔ cs ≠ [] ∧ ¬ BareNumber (strip cs) := by
  rw [isPlausible, Bool.and_eq_true, Bool.not_eq_true', Bool.not_eq_true', ← isBareNumber_iff]
  simp

/-! ## What it takes -/

/-- The text with all edited values replaced at once, at the places where scanning finds them. -/
def substituted (names : SlotNames) (keywords : List String) (text : List Char) (edits : Edits) :
    List Char :=
  weave text (pieceAt text edits) 0 (valueSpans names keywords text)

/-- What it takes for edits to be made. Each edit is for an ordinal that text and tree both lack,
or have at the same place; each edit of a value that the text has can be written; and the outcome
is neither empty nor, white space at its ends aside, a bare number. -/
structure Applicable (names : SlotNames) (keywords : List String) (p : Program)
    (text : List Char) (edits : Edits) : Prop where
  aligned : ∀ e ∈ edits, ∃ n : Int, e.1 = .ordinal n ∧
    (atOrdinal? (valueSpans names keywords text) n).map (fun span => (span.start, span.stop)) =
      atOrdinal? (valueOffsets names keywords (some p) text).result n
  writable : ∀ span ∈ valueSpans names keywords text, ∀ value,
    edits.get? (.ordinal span.index) = some value → value.IsWritable
  code : substituted names keywords text edits ≠ [] ∧
    ¬ BareNumber (strip (substituted names keywords text edits))

theorem checkAlignment_eq_ok {spans : List ValueSpan} {located : List (Int × Int)} {edits : Edits} :
    checkAlignment spans located edits = .ok () ↔ ∀ e ∈ edits, ∃ n : Int, e.1 = .ordinal n ∧
      (atOrdinal? spans n).map (fun span => (span.start, span.stop)) = atOrdinal? located n := by
  induction edits with
  | nil => simp [checkAlignment]
  | cons e rest ih =>
    obtain ⟨target, value⟩ := e
    cases target with
    | word s => simp [checkAlignment]
    | ordinal n =>
      rw [checkAlignment, List.forall_mem_cons, ← ih]
      by_cases hn : (atOrdinal? spans n).map (fun span => (span.start, span.stop)) =
          atOrdinal? located n
      · simp [hn]
      · simp [hn]

/-- Edits for ordinals only leave no mixture of targets without a span. -/
theorem strayMixture_of_ordinals {spans : List ValueSpan} {edits : Edits}
    (h : ∀ e ∈ edits, ∃ n : Int, e.1 = .ordinal n) : strayMixture spans edits = false := by
  unfold strayMixture
  rw [Bool.and_eq_false_iff]
  left
  rw [Bool.not_eq_false', List.isEmpty_iff, List.filter_eq_nil_iff]
  intro e he
  obtain ⟨n, hn⟩ := h e (List.mem_filter.mp he).1
  simp [hn]

section Edited

variable {names : SlotNames} {keywords : List String} {p : Program} {text : List Char}
  {edits : Edits}

/-- Splicing aligned edits that can be written replaces all edited values at once. -/
theorem splice_eq_substituted (hordinals : ∀ e ∈ edits, ∃ n : Int, e.1 = .ordinal n)
    (hwritable : ∀ span ∈ valueSpans names keywords text, ∀ value,
      edits.get? (.ordinal span.index) = some value → value.IsWritable) :
    splice text (valueSpans names keywords text) edits =
      .ok (substituted names keywords text edits) :=
  splice_eq_weave (valueSpans_laid names keywords text) (strayMixture_of_ordinals hordinals)
    hwritable

theorem edited_of_applicable (h : Applicable names keywords p text edits) :
    edited names keywords text (valueOffsets names keywords (some p) text).result edits =
      .ok (substituted names keywords text edits) := by
  have hcheck := checkAlignment_eq_ok.mpr h.aligned
  have hsplice := splice_eq_substituted
    (fun e he => (h.aligned e he).imp fun _ hn => hn.1) h.writable
  have hcode := (isPlausible_iff _).mpr h.code
  simp only [edited, hcheck, hsplice, Except.mapError, bind, Except.bind]
  rw [if_pos hcode]
  rfl

theorem applicable_of_edited {result : List Char}
    (h : edited names keywords text (valueOffsets names keywords (some p) text).result edits =
      .ok result) : Applicable names keywords p text edits := by
  simp only [edited, bind, Except.bind] at h
  cases hcheck : checkAlignment (valueSpans names keywords text)
      (valueOffsets names keywords (some p) text).result edits with
  | error e =>
    rw [hcheck] at h
    cases h
  | ok u =>
    have haligned := checkAlignment_eq_ok.mp hcheck
    have hwritable : ∀ span ∈ valueSpans names keywords text, ∀ value,
        edits.get? (.ordinal span.index) = some value → value.IsWritable := by
      intro span hspan value hget
      by_contra hvalue
      obtain ⟨e, he⟩ := splice_isError (valueSpans_laid names keywords text) hspan hget hvalue
      rw [hcheck, he] at h
      cases h
    have hsplice := splice_eq_substituted
      (fun e he => (haligned e he).imp fun _ hn => hn.1) hwritable
    refine ⟨haligned, hwritable, (isPlausible_iff _).mp ?_⟩
    by_contra hcode
    rw [hcheck, hsplice] at h
    simp only [Except.mapError] at h
    rw [if_neg hcode] at h
    cases h

theorem substituted_nil (names : SlotNames) (keywords : List String) (text : List Char) :
    substituted names keywords text [] = text := by
  have h := weave_slices 0 (valueSpans_laid names keywords text)
    (fun _ _ => Nat.zero_le _)
  rw [List.drop_zero] at h
  exact h

theorem applyEdits_of_applicable (h : Applicable names keywords p text edits) :
    (applyEdits names keywords (some p) text edits).result =
      substituted names keywords text edits := by
  rw [applyEdits]
  simp only [edited_of_applicable h]
  split
  · next hempty =>
    rcases Bool.or_eq_true_iff.mp hempty with ht | he
    · obtain rfl := List.isEmpty_iff.mp ht
      -- an empty text has no spans, and its outcome is empty as well
      exact absurd rfl h.code.1
    · obtain rfl := List.isEmpty_iff.mp he
      exact (substituted_nil names keywords text).symm
  · rfl

theorem applyEdits_of_not_applicable (h : ¬ Applicable names keywords p text edits) :
    (applyEdits names keywords (some p) text edits).result = text := by
  rw [applyEdits]
  split
  · rfl
  · simp only
    split
    · next result hresult => exact absurd (applicable_of_edited hresult) h
    · rfl

end Edited

/-! ## Which characters change -/

/-- `new` is `old` from an offset on, but that at the places which `located` gives to edited
ordinals the texts of their edits stand. -/
inductive Retouched (located : List (Int × Int)) (edits : Edits) :
    Nat → List Char → List Char → Prop
  | done (offset : Nat) : Retouched located edits offset [] []
  | keep {offset : Nat} {c : Char} {old new : List Char} :
    Retouched located edits (offset + 1) old new →
      Retouched located edits offset (c :: old) (c :: new)
  | replace {offset : Nat} {n : Int} {value : Datum} {stretch written old new : List Char} :
    edits.get? (.ordinal n) = some value → replacement value = .ok written → stretch ≠ [] →
      atOrdinal? located n = some ((offset : Int), (offset : Int) + stretch.length) →
      Retouched located edits (offset + stretch.length) old new →
      Retouched located edits offset (stretch ++ old) (written ++ new)

theorem Retouched.keep_all {located : List (Int × Int)} {edits : Edits} {kept old new : List Char}
    {offset : Nat} (h : Retouched located edits (offset + kept.length) old new) :
    Retouched located edits offset (kept ++ old) (kept ++ new) := by
  induction kept generalizing offset with
  | nil => exact h
  | cons c kept ih =>
    refine .keep (ih ?_)
    rw [List.length_cons] at h
    rwa [show offset + 1 + kept.length = offset + (kept.length + 1) by omega]

theorem Retouched.refl (located : List (Int × Int)) (edits : Edits) (offset : Nat)
    (text : List Char) : Retouched located edits offset text text := by
  have hend : Retouched located edits (offset + text.length) [] [] := .done _
  have h := hend.keep_all
  rwa [List.append_nil] at h

/-- A weave changes the places of edited spans only, if they are where `located` has them. -/
theorem retouched_weave {located : List (Int × Int)} {edits : Edits} {text : List Char}
    {done : Nat} {spans : List ValueSpan} (hlaid : Laid text.length spans)
    (hdone : ∀ span ∈ spans, done ≤ span.start.toNat) (hle : done ≤ text.length)
    (hplace : ∀ span ∈ spans, ∀ value, edits.get? (.ordinal span.index) = some value →
      value.IsWritable ∧ atOrdinal? located span.index = some (span.start, span.stop)) :
    Retouched located edits done (text.drop done)
      (weave text (pieceAt text edits) done spans) := by
  induction spans generalizing done with
  | nil => exact .refl _ _ _ _
  | cons span rest ih =>
    obtain ⟨h0, hss, hstop⟩ := hlaid.inside span (List.mem_cons_self ..)
    have hhere := hdone span (List.mem_cons_self ..)
    have hrest := ih hlaid.tail hlaid.start_le (by omega)
      (fun s hs => hplace s (List.mem_cons_of_mem span hs))
    have hgap : (slice text done span.start.toNat).length = span.start.toNat - done :=
      slice_length done (by omega)
    have hlen : (slice text span.start.toNat span.stop.toNat).length =
        span.stop.toNat - span.start.toNat := slice_length span.start.toNat (by omega)
    have hsplit : text.drop done = slice text done span.start.toNat ++
        (slice text span.start.toNat span.stop.toNat ++ text.drop span.stop.toNat) := by
      rw [slice_append_drop (by omega), slice_append_drop hhere]
    rw [hsplit, weave, List.append_assoc]
    refine .keep_all ?_
    rw [hgap, show done + (span.start.toNat - done) = span.start.toNat by omega]
    have hback : span.start.toNat + (slice text span.start.toNat span.stop.toNat).length =
        span.stop.toNat := by omega
    rw [pieceAt]
    cases hget : edits.get? (.ordinal span.index) with
    | none => exact .keep_all (by rwa [hback])
    | some value =>
      obtain ⟨hwritable, hat⟩ := hplace span (List.mem_cons_self ..) value hget
      obtain ⟨written, hwritten⟩ := replacement_isOk.mpr hwritable
      simp only [hwritten]
      refine .replace hget hwritten (List.length_pos_iff.mp (by omega)) ?_ (by rwa [hback])
      rw [hat, hlen]
      congr 2 <;> omega

/-- Spans and ordinals count alike: the span with an index is the one at that ordinal. -/
theorem atOrdinal?_index {names : SlotNames} {keywords : List String} {text : List Char}
    {span : ValueSpan} (h : span ∈ valueSpans names keywords text) :
    atOrdinal? (valueSpans names keywords text) span.index = some span := by
  obtain ⟨i, hi⟩ := List.mem_iff_getElem?.mp h
  rw [valueSpans_index hi, atOrdinal?, if_neg (by omega), Int.toNat_natCast, hi]

theorem Applicable.retouched {names : SlotNames} {keywords : List String} {p : Program}
    {text : List Char} {edits : Edits} (h : Applicable names keywords p text edits) :
    Retouched (valueOffsets names keywords (some p) text).result edits 0 text
      (substituted names keywords text edits) := by
  refine retouched_weave (valueSpans_laid names keywords text) (fun _ _ => Nat.zero_le _)
    (Nat.zero_le _) ?_
  intro span hspan value hget
  refine ⟨h.writable span hspan value hget, ?_⟩
  obtain ⟨n, hn, hat⟩ := h.aligned _ (Edits.mem_of_get? hget)
  cases hn
  rw [← hat, atOrdinal?_index hspan]
  rfl

/-- Edits are made all at once when they are applicable, and otherwise the text stays as it is.
Where it does not, only characters at the tree's places of edited ordinals have changed. -/
theorem applyEdits_all_or_nothing (names : SlotNames) (keywords : List String) (p : Program)
    (text : List Char) (edits : Edits) :
    (Applicable names keywords p text edits →
      (applyEdits names keywords (some p) text edits).result =
        substituted names keywords text edits) ∧
    (¬ Applicable names keywords p text edits →
      (applyEdits names keywords (some p) text edits).result = text) ∧
    ((applyEdits names keywords (some p) text edits).result ≠ text →
      Retouched (valueOffsets names keywords (some p) text).result edits 0 text
        (applyEdits names keywords (some p) text edits).result) := by
  refine ⟨applyEdits_of_applicable, applyEdits_of_not_applicable, ?_⟩
  intro hchanged
  by_cases h : Applicable names keywords p text edits
  · rw [applyEdits_of_applicable h]
    exact h.retouched
  · exact absurd (applyEdits_of_not_applicable h) hchanged

end LiveChain
