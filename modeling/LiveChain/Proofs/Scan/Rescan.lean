import LiveChain.Proofs.Scan.Replacement

/-!
# Scanning an edited text again

Values of a text are exchanged for values of their kind. Scanning the outcome finds the same values
again: those that were not exchanged with their text, the others with their new text, each moved by
as much as the exchanges before it have lengthened the text. So making the same edits once more
changes nothing.
-/

set_option autoImplicit false

namespace LiveChain

open Text Scan

/-! ## Edits that keep the kind of a value -/

/-- What the edits write for the value with a number, if they write anything. -/
def newText? (edits : Edits) (index : Int) : Option (List Char) :=
  match edits.get? (.ordinal index) with
  | none => none
  | some value =>
    match replacement value with
    | .ok new => some new
    | .error _ => none

/-- An edit of a number by a finite number that is written with a sign exactly when the old one is,
or of a reference by a name of the same kind, where neither name is a keyword. -/
inductive Fitting (names : SlotNames) (span : ValueSpan) : Datum → Prop
  | number {n : Number} {x : Binary64.Finite} (hkind : span.kind = .number)
      (hfinite : n.toBinary64 = .finite x)
      (hsign : x.written.head? = some '-' ↔ span.text.toList.head? = some '-') :
    Fitting names span (.number n)
  | reference {name : String} (hkind : span.kind ≠ .number) (hname : name ≠ "")
      (hfull : nameLength name.toList = name.length) (hslot : names.kindOf? name = some span.kind)
      (hold : span.text ∉ expressionKeywords) (hnew : name ∉ expressionKeywords) :
    Fitting names span (.text name)

def IsOpenExponent (cs : List Char) : Prop :=
  ∃ mark sign, cs = [mark, sign] ∧ (mark = 'e' ∨ mark = 'E') ∧ (sign = '+' ∨ sign = '-')

/-- A fitting edit of a value that stands on one line, with no word character, dollar sign or point
directly before or behind it; and if it starts with a point, not behind a number with an exponent
that lacks only its digits. -/
structure Exchangeable (names : SlotNames) (text : List Char) (span : ValueSpan) (value : Datum) :
    Prop where
  fits : Fitting names span value
  line : '\n' ∉ span.text.toList
  clear : Clear (text.take span.start.toNat).reverse
  clearBehind : Clear (text.drop span.stop.toNat)
  exponent : span.text.toList.head? = some '.' →
    ∀ number ∈ valueSpans names [] text, number.kind = .number →
      ¬ IsOpenExponent (slice text number.stop.toNat span.start.toNat)

/-- Spans after the edits. Each has the new text, if there is one, and is moved by the change of
length that the spans before it have made. -/
def relocated (edits : Edits) : Int → List ValueSpan → List ValueSpan
  | _, [] => []
  | shift, span :: rest =>
    let new := (newText? edits span.index).getD span.text.toList
    ⟨span.index, span.start + shift, span.start + shift + new.length, String.ofList new, span.kind⟩ ::
      relocated edits (shift + new.length - (span.stop - span.start)) rest

/-- A finite number is written with the precision that fits it. -/
theorem replacement_finite {n : Number} {x : Binary64.Finite} (h : n.toBinary64 = .finite x) :
    replacement (.number n) = .ok x.written := by
  cases n with
  | int k =>
    have hk : Binary64.ofInt k = .finite x := h
    simp [replacement, Number.written?, hk]
  | float y =>
    have hy : y = .finite x := h
    rw [hy]
    rfl

theorem Fitting.isWritable {names : SlotNames} {span : ValueSpan} {value : Datum}
    (h : Fitting names span value) : value.IsWritable := by
  refine replacement_isOk.mp ?_
  cases h with
  | number _ hfinite => exact ⟨_, replacement_finite hfinite⟩
  | reference => exact ⟨_, rfl⟩

end LiveChain

namespace LiveChain.Scan

open Text

/-! ## Spans of tokens -/

/-- The spans of the values among tokens, numbered from `index` on. -/
def tokenSpans : Nat → Nat → List Token → List ValueSpan
  | _, _, [] => []
  | index, offset, t :: tokens =>
    match t.kind with
    | none => tokenSpans index (offset + t.text.length) tokens
    | some kind =>
      ⟨index, offset, (offset + t.text.length : Nat), String.ofList t.text, kind⟩ ::
        tokenSpans (index + 1) (offset + t.text.length) tokens

/-- The tokens with the texts of the edits in the place of the edited values. -/
def patchTokens (edits : Edits) : Nat → List Token → List Token
  | _, [] => []
  | index, t :: tokens =>
    match t.kind with
    | none => t :: patchTokens edits index tokens
    | some kind =>
      ⟨(newText? edits index).getD t.text, some kind⟩ :: patchTokens edits (index + 1) tokens

theorem numbered_tokenValues (before : List Char) (index : Nat) (tokens : List Token) :
    (tokenValues before.length tokens).mapIdx
        (fun i f => f.numbered (before ++ written tokens) (index + i)) =
      tokenSpans index before.length tokens := by
  induction tokens generalizing before index with
  | nil => rfl
  | cons t tokens ih =>
    have hrest := ih (before ++ t.text)
    rw [List.append_assoc, List.length_append] at hrest
    rw [tokenValues, tokenSpans, written_cons]
    cases hkind : t.kind with
    | none => exact hrest index
    | some kind =>
      simp only [Option.map_some, Option.toList_some, List.singleton_append, List.mapIdx_cons]
      congr 1
      · simp only [Found.numbered, Nat.add_zero, List.drop_left, Nat.add_sub_cancel_left,
          List.take_left]
      · rw [← hrest (index + 1)]
        congr 1
        funext i f
        congr 1
        omega

theorem valueSpans_of_found {names : SlotNames} {tokens : List Token}
    (h : found names (written tokens) = tokenValues 0 tokens) :
    valueSpans names [] (written tokens) = tokenSpans 0 0 tokens := by
  have hfilter : (found names (written tokens)).filter
      (fun f => !onDirective [] (written tokens) f.start) = found names (written tokens) := by
    refine List.filter_eq_self.mpr fun f _ => ?_
    unfold onDirective isDirective
    split <;> rfl
  rw [valueSpans, hfilter, h]
  have := numbered_tokenValues [] 0 tokens
  simpa using this

theorem valueSpans_lexed {names : SlotNames} {tokens : List Token} {last : Mode}
    (h : Lexed names Mode.initial tokens [] last) :
    valueSpans names [] (written tokens) = tokenSpans 0 0 tokens :=
  valueSpans_of_found (found_lexed h)

section Patch

variable {names : SlotNames} {edits : Edits} {text before : List Char} {index : Nat} {mode last : Mode}
  {tokens : List Token}

theorem pieceAt_eq (text : List Char) (edits : Edits) (span : ValueSpan) :
    pieceAt text edits span =
      (newText? edits span.index).getD (slice text span.start.toNat span.stop.toNat) := by
  unfold pieceAt newText?
  cases edits.get? (.ordinal span.index) with
  | none => rfl
  | some value =>
    simp only
    cases replacement value <;> rfl

theorem tokenSpans_start {offset : Nat} {span : ValueSpan}
    (h : span ∈ tokenSpans index offset tokens) : offset ≤ span.start.toNat := by
  induction tokens generalizing index offset with
  | nil => cases h
  | cons t tokens ih =>
    rw [tokenSpans] at h
    split at h
    · have := ih h
      omega
    · rcases List.mem_cons.mp h with rfl | h
      · exact Nat.le_refl _
      · have := ih h
        omega

theorem slice_middle (before middle behind : List Char) :
    slice (before ++ (middle ++ behind)) before.length (before.length + middle.length) = middle := by
  rw [slice, ← List.append_assoc, ← List.length_append, List.take_left, List.drop_left]

/-- Weaving the pieces of edited spans into a text is writing the edited tokens. -/
theorem weave_tokenSpans (before : List Char) (index : Nat) (tokens : List Token) :
    weave (before ++ written tokens) (pieceAt (before ++ written tokens) edits) before.length
      (tokenSpans index before.length tokens) = written (patchTokens edits index tokens) := by
  induction tokens generalizing before index with
  | nil => simp [tokenSpans, weave, patchTokens]
  | cons t tokens ih =>
    have hrest := ih (before ++ t.text)
    rw [List.append_assoc, List.length_append] at hrest
    rw [tokenSpans, patchTokens, written_cons]
    cases hkind : t.kind with
    | none =>
      simp only
      rw [weave_from (Nat.le_add_right _ t.text.length) fun span hspan => tokenSpans_start hspan,
        hrest, written_cons, slice_middle]
    | some kind =>
      simp only [weave, Int.toNat_natCast]
      rw [hrest, pieceAt_eq, written_cons]
      simp only [Int.toNat_natCast]
      rw [slice_middle]
      simp [slice]

theorem tokenSpans_patchTokens (index offset : Nat) (shift : Int) (offset' : Nat)
    (hoffset : (offset' : Int) = offset + shift) (tokens : List Token) :
    tokenSpans index offset' (patchTokens edits index tokens) =
      relocated edits shift (tokenSpans index offset tokens) := by
  induction tokens generalizing index offset shift offset' with
  | nil => rfl
  | cons t tokens ih =>
    rw [tokenSpans, patchTokens]
    cases hkind : t.kind with
    | none =>
      simp only [tokenSpans, hkind]
      exact ih index _ shift _ (by omega)
    | some kind =>
      simp only [tokenSpans, relocated, String.toList_ofList]
      congr 1
      · congr 1
        omega
      · refine ih (index + 1) _ _ _ ?_
        omega

/-- A number directly before two characters that end a text ends two characters before it. -/
theorem isOpenExponent_of_openExponent {numbers : Nat → Prop} (behind : List Char)
    (h : OpenExponent numbers before.reverse) :
    ∃ stop, numbers stop ∧ IsOpenExponent (slice (before ++ behind) stop before.length) := by
  obtain ⟨sign, mark, front, hbefore, hsign, hmark, hnumber⟩ := h
  have hsplit : before = front.reverse ++ [mark, sign] := by
    rw [← List.reverse_reverse before, hbefore]
    simp
  refine ⟨front.length, hnumber, mark, sign, ?_, by simpa using hmark, hsign⟩
  rw [slice, List.take_left, hsplit, ← List.length_reverse, List.drop_left]

/-- A fitting edit of a value between clear texts patches its token. -/
theorem patched_edit {numbers : Nat → Prop} {front : List Char} {kind : ValueKind} {value : Datum}
    {next : Mode} {tokens' : List Token}
    (htext : before ++ written (⟨front, some kind⟩ :: tokens) = text)
    (hnumbers : ∀ stop, numbers stop ↔
      ∃ span ∈ valueSpans names [] text, span.kind = .number ∧ span.stop = stop)
    (hedit : Exchangeable names text ⟨index, before.length,
      (before.length + front.length : Nat), String.ofList front, kind⟩ value)
    (first : Reads names mode front (written tokens) (some kind) next)
    (hpatched : Patched names numbers (front.reverse ++ before.reverse) tokens tokens') :
    Patched names numbers before.reverse (⟨front, some kind⟩ :: tokens)
      (⟨(match replacement value with
        | .ok new => some new
        | .error _ => none).getD front, some kind⟩ :: tokens') := by
  have hbefore : Clear before.reverse := by
    have := hedit.clear
    rwa [← htext, Int.toNat_natCast, List.take_left] at this
  have hbehind : Clear (written tokens) := by
    have := hedit.clearBehind
    rwa [← htext, Int.toNat_natCast, ← List.drop_drop, List.drop_left, written_cons,
      List.drop_left] at this
  have hexp : front.head? = some '.' → ¬ OpenExponent numbers before.reverse := by
    intro hpoint hopen
    obtain ⟨stop, hstop, hslice⟩ :=
      isOpenExponent_of_openExponent (written (⟨front, some kind⟩ :: tokens)) hopen
    obtain ⟨span, hspan, hkind, heq⟩ := (hnumbers stop).mp hstop
    refine hedit.exponent (by simpa using hpoint) span hspan hkind ?_
    rw [htext] at hslice
    rwa [heq, Int.toNat_natCast, Int.toNat_natCast]
  cases hedit.fits with
  | @number n x hkind hfinite hsign =>
    simp only at hkind
    subst hkind
    have hnew := x.written_isNumber
    have hsign' : x.written.head? = some '-' ↔ front.head? = some '-' := by simpa using hsign
    have hline : '\n' ∉ front := by simpa using hedit.line
    rw [replacement_finite hfinite]
    exact .swap nofun (.of_number first hnew hsign' hline hbefore hbehind hexp)
      (fun _ _ _ _ hclear hread => hread.renumber hnew hsign' hclear) hpatched
  | @reference name hkind hname hfull hslot hold hnew =>
    have hplain : PlainName name.toList := by
      refine ⟨?_, by rw [hfull, String.length_toList], ?_⟩
      · rwa [Ne, String.toList_eq_nil_iff]
      · rw [String.ofList_toList]
        simpa using hnew
    have hold' : expressionKeywords.contains (String.ofList front) = false := by simpa using hold
    have hslot' : names.kindOf? (String.ofList name.toList) = some kind := by
      rwa [String.ofList_toList]
    exact .swap nofun (.of_name first hkind hplain hbefore hbehind)
      (fun _ _ _ _ hclear hread => hread.rename hkind hold' hplain hslot' hclear) hpatched

/-- Fitting edits of values between clear texts patch the tokens of a text. -/
theorem patched_patchTokens {numbers : Nat → Prop} (htext : before ++ written tokens = text)
    (hnumbers : ∀ stop, numbers stop ↔
      ∃ span ∈ valueSpans names [] text, span.kind = .number ∧ span.stop = stop)
    (hmem : ∀ span ∈ tokenSpans index before.length tokens, span ∈ valueSpans names [] text)
    (hedits : ∀ span ∈ valueSpans names [] text, ∀ value,
      edits.get? (.ordinal span.index) = some value → Exchangeable names text span value)
    (h : Lexed names mode tokens [] last) :
    Patched names numbers before.reverse tokens (patchTokens edits index tokens) := by
  induction tokens generalizing before index mode with
  | nil => exact .nil _
  | cons t tokens ih =>
    cases h with
    | cons first others =>
      obtain ⟨front, kind⟩ := t
      have hrest : ∀ {index}, (∀ span ∈ tokenSpans index (before.length + front.length) tokens,
          span ∈ valueSpans names [] text) →
          Patched names numbers (front.reverse ++ before.reverse) tokens
            (patchTokens edits index tokens) := by
        intro index hspans
        rw [← List.reverse_append]
        refine ih ?_ ?_ others
        · rw [← htext, written_cons, List.append_assoc]
        · rwa [List.length_append]
      cases kind with
      | none => exact .keep nofun (hrest hmem)
      | some kind =>
        have hspan := hmem _ (List.mem_cons_self ..)
        have hpatched := hrest fun span h => hmem span (List.mem_cons_of_mem _ h)
        rw [patchTokens]
        simp only [newText?]
        cases hget : edits.get? (.ordinal index) with
        | none =>
          refine .keep (fun hnumber => (hnumbers _).mpr ⟨_, hspan, Option.some.inj hnumber, ?_⟩)
            hpatched
          simp [Nat.add_comm]
        | some value =>
          have hex := hedits _ hspan value hget
          rw [List.append_nil] at first
          exact patched_edit htext hnumbers hex first hpatched

end Patch

end LiveChain.Scan

namespace LiveChain

open Text Scan

/-! ## Scanning again -/

section Rescan

variable {names : SlotNames} {text : List Char} {edits : Edits}

theorem valueSpans_substituted (hedits : ∀ span ∈ valueSpans names [] text, ∀ value,
      edits.get? (.ordinal span.index) = some value → Exchangeable names text span value) :
    valueSpans names [] (substituted names [] text edits) =
      relocated edits 0 (valueSpans names [] text) := by
  obtain ⟨tokens, last, rfl, hlexed⟩ := exists_lexed names Mode.initial text
  have hspans := valueSpans_lexed hlexed
  have hmem : ∀ span ∈ tokenSpans 0 ([] : List Char).length tokens,
      span ∈ valueSpans names [] (written tokens) := by
    rw [hspans]
    exact fun _ h => h
  have hpatched := hlexed.patched
    (patched_patchTokens (List.nil_append _) (fun _ => Iff.rfl) hmem hedits hlexed)
  have hwritten : substituted names [] (written tokens) edits =
      written (patchTokens edits 0 tokens) := by
    rw [substituted, hspans]
    exact weave_tokenSpans [] 0 tokens
  rw [hwritten, valueSpans_lexed hpatched, hspans]
  exact tokenSpans_patchTokens 0 0 0 0 rfl tokens

theorem relocated_index {shift : Int} {spans : List ValueSpan} {span' : ValueSpan}
    (h : span' ∈ relocated edits shift spans) : ∃ span ∈ spans, span'.index = span.index := by
  induction spans generalizing shift with
  | nil => cases h
  | cons first rest ih =>
    rcases List.mem_cons.mp h with rfl | h
    · exact ⟨first, List.mem_cons_self .., rfl⟩
    · obtain ⟨span, hspan, hindex⟩ := ih h
      exact ⟨span, List.mem_cons_of_mem _ hspan, hindex⟩

/-- A relocated span of an edited value has the text of the edit. -/
theorem relocated_text {shift : Int} {spans : List ValueSpan} {span : ValueSpan} {new : List Char}
    (h : span ∈ relocated edits shift spans) (hnew : newText? edits span.index = some new) :
    span.text = String.ofList new := by
  induction spans generalizing shift with
  | nil => cases h
  | cons first rest ih =>
    rcases List.mem_cons.mp h with rfl | h
    · simp only at hnew
      simp only [hnew, Option.getD_some]
    · exact ih h

theorem numbered_text {keywords : List String} {span : ValueSpan}
    (h : span ∈ valueSpans names keywords text) :
    span.text.toList = slice text span.start.toNat span.stop.toNat := by
  obtain ⟨f, -, i, rfl⟩ := mem_valueSpans h
  simp [Found.numbered, slice, List.drop_take]

theorem weave_congr {piece piece' : ValueSpan → List Char} {done : Nat} {spans : List ValueSpan}
    (h : ∀ span ∈ spans, piece span = piece' span) :
    weave text piece done spans = weave text piece' done spans := by
  induction spans generalizing done with
  | nil => rfl
  | cons span rest ih =>
    rw [weave, weave, h span (List.mem_cons_self ..),
      ih fun s hs => h s (List.mem_cons_of_mem _ hs)]

/-- Edits whose texts stand at their spans already change nothing. -/
theorem substituted_of_texts (h : ∀ span ∈ valueSpans names [] text, ∀ new,
      newText? edits span.index = some new → span.text = String.ofList new) :
    substituted names [] text edits = text := by
  have hpiece : ∀ span ∈ valueSpans names [] text,
      pieceAt text edits span = slice text span.start.toNat span.stop.toNat := by
    intro span hspan
    rw [pieceAt_eq]
    cases hnew : newText? edits span.index with
    | none => rfl
    | some new => rw [Option.getD_some, ← numbered_text hspan, h span hspan new hnew,
        String.toList_ofList]
  rw [substituted, weave_congr hpiece,
    weave_slices 0 (valueSpans_laid names [] text) fun _ _ => Nat.zero_le _, List.drop_zero]

/-- Edits that exchange values of a text for values of their kind, between clear texts, can be made.
Scanning the outcome finds the same values, relocated; and making the edits once more changes
nothing. -/
theorem rescan_relocated (hordinals : ∀ e ∈ edits, ∃ n : Int, e.1 = .ordinal n)
    (hedits : ∀ span ∈ valueSpans names [] text, ∀ value,
      edits.get? (.ordinal span.index) = some value → Exchangeable names text span value) :
    ∃ text', splice text (valueSpans names [] text) edits = .ok text' ∧
      valueSpans names [] text' = relocated edits 0 (valueSpans names [] text) ∧
      splice text' (valueSpans names [] text') edits = .ok text' := by
  have hspans := valueSpans_substituted hedits
  refine ⟨_, splice_eq_substituted hordinals fun span hspan value hget =>
    (hedits span hspan value hget).fits.isWritable, hspans, ?_⟩
  have hagain : ∀ span ∈ valueSpans names [] (substituted names [] text edits), ∀ value,
      edits.get? (.ordinal span.index) = some value → value.IsWritable := by
    intro span' hspan' value hget
    rw [hspans] at hspan'
    obtain ⟨span, hspan, hindex⟩ := relocated_index hspan'
    exact (hedits span hspan value (hindex ▸ hget)).fits.isWritable
  rw [splice_eq_substituted hordinals hagain, substituted_of_texts]
  rw [hspans]
  exact fun span hspan new hnew => relocated_text hspan hnew

end Rescan

/-- One fourth. -/
def quarter (negative : Bool) : Binary64.Finite :=
  ⟨negative, Nat.pow 2 52, -54, by decide⟩

/-- A signed number with a comment behind its sign, and a reference. -/
theorem rescan_relocated_signed :
    let text := "osc(- /*a*/ 5, 10).out(o0)".toList
    let edits : Edits := [(.ordinal 2, .text "o1"), (.ordinal 0, .number (.float (.finite (quarter true))))]
    (∀ span ∈ valueSpans .standard [] text, ∀ value,
      edits.get? (.ordinal span.index) = some value → Exchangeable .standard text span value) ∧
    ∃ text', splice text (valueSpans .standard [] text) edits = .ok text' ∧
      valueSpans .standard [] text' = relocated edits 0 (valueSpans .standard [] text) ∧
      splice text' (valueSpans .standard [] text') edits = .ok text' := by
  intro text edits
  have hspans : valueSpans .standard [] text =
      [⟨0, 4, 13, "- /*a*/ 5", .number⟩, ⟨1, 15, 17, "10", .number⟩, ⟨2, 23, 25, "o0", .output⟩] := by
    decide +kernel
  have hedits : ∀ span ∈ valueSpans .standard [] text, ∀ value,
      edits.get? (.ordinal span.index) = some value → Exchangeable .standard text span value := by
    rw [hspans]
    simp only [List.forall_mem_cons]
    refine ⟨?_, ?_, ?_, by simp⟩
    · intro value hget
      obtain rfl := Option.some.inj hget
      exact ⟨.number rfl rfl (by decide +kernel), by decide, by decide +kernel, by decide +kernel,
        fun hpoint => absurd hpoint (by decide)⟩
    · exact fun value hget => nomatch hget
    · intro value hget
      obtain rfl := Option.some.inj hget
      exact ⟨.reference (by decide) (by decide) (by decide +kernel) (by decide +kernel)
        (by decide) (by decide), by decide, by decide +kernel, by decide +kernel,
        fun hpoint => absurd hpoint (by decide)⟩
  refine ⟨hedits, rescan_relocated ?_ hedits⟩
  simp only [edits, List.forall_mem_cons]
  exact ⟨⟨2, rfl⟩, ⟨0, rfl⟩, by simp⟩

/-- A number that starts with a point completes the exponent before it once it starts with a digit,
although it keeps its kind and stands between clear texts. -/
theorem rescan_completes_exponent :
    let text := "5e+.5".toList
    let edits : Edits := [(.ordinal 1, .number (.float (.finite (quarter false))))]
    (∀ span ∈ valueSpans .standard [] text, ∀ value,
      edits.get? (.ordinal span.index) = some value → Fitting .standard span value ∧
        '\n' ∉ span.text.toList ∧ Clear (text.take span.start.toNat).reverse ∧
        Clear (text.drop span.stop.toNat)) ∧
    splice text (valueSpans .standard [] text) edits = .ok "5e+0.25".toList ∧
    valueSpans .standard [] text = [⟨0, 0, 1, "5", .number⟩, ⟨1, 3, 5, ".5", .number⟩] ∧
    valueSpans .standard [] "5e+0.25".toList =
      [⟨0, 0, 4, "5e+0", .number⟩, ⟨1, 4, 7, ".25", .number⟩] := by
  intro text edits
  have hspans : valueSpans .standard [] text =
      [⟨0, 0, 1, "5", .number⟩, ⟨1, 3, 5, ".5", .number⟩] := by decide +kernel
  rw [hspans]
  refine ⟨?_, ?_, rfl, by decide +kernel⟩
  · simp only [List.forall_mem_cons]
    refine ⟨(fun value hget => nomatch hget), ?_, by simp⟩
    intro value hget
    obtain rfl := Option.some.inj hget
    exact ⟨.number rfl rfl (by decide +kernel), by decide, by decide +kernel, by decide +kernel⟩
  · have hresult : (splice text [⟨0, 0, 1, "5", .number⟩, ⟨1, 3, 5, ".5", .number⟩] edits).toOption =
        some "5e+0.25".toList := by decide +kernel
    cases hsplice : splice text [⟨0, 0, 1, "5", .number⟩, ⟨1, 3, 5, ".5", .number⟩] edits with
    | error e => simp [hsplice, Except.toOption] at hresult
    | ok result => rw [hsplice] at hresult; rw [Option.some.inj hresult]

end LiveChain
