import LiveChain.Proofs.Syntax.Leads
import LiveChain.Proofs.Syntax.Numeral

/-!
# Where numbers end

Behind a numeric literal stands what no number runs on into: white space, a comment, a punctuator,
or one of the words between operands and between a variable and its range. Each token of the grammar
shows that of the place before it.
-/

set_option autoImplicit false

namespace LiveChain.Syntax

open Text

/-! ## Characters -/

section Character

variable {c : Char}

theorem isDigit_of_punctuation (h : c ∈ punctuationChars) : c.isDigit = false := by
  have hall : ∀ d ∈ punctuationChars, d.isDigit = false := forall_mem_of_all (by decide)
  exact hall c h

theorem isWordPart_of_punctuation (h : c ∈ punctuationChars) : isWordPart c = false := by
  simp [isWordPart, isWordStart, isDigit_of_punctuation h, h]

theorem isWordPart_of_isSpace (h : isSpace c = true) : isWordPart c = false := by
  obtain ⟨r, hr, hin⟩ := mem_ranges h
  have hapart : ∀ r ∈ spaceRanges, r.2 < 48 ∨ 57 < r.1 := by decide
  have hdigit : c.isDigit = false := by
    rw [Bool.eq_false_iff]
    intro hdigit
    have hbounds : 48 ≤ c.toNat ∧ c.toNat ≤ 57 := by
      simpa [Char.isDigit, UInt32.le_iff_toNat_le] using hdigit
    have := hapart r hr
    omega
  rw [isWordPart, isWordStart, h, hdigit]
  rfl

theorem isWordPart_of_apart (hcontrol : 32 ≤ c.toNat) (hplain : c ∉ punctuationChars)
    (hspace : ∀ r ∈ spaceRanges, c.toNat < r.1 ∨ r.2 < c.toNat) : isWordPart c = true := by
  have hspace : isSpace c = false := by
    rw [Bool.eq_false_iff]
    intro hin
    obtain ⟨r, hr, hin⟩ := mem_ranges hin
    have := hspace r hr
    omega
  cases hdigit : c.isDigit <;> simp [isWordPart, isWordStart, hspace, hcontrol, hplain, hdigit]

theorem isWordPart_of_isAlphanum (h : c.isAlphanum = true) : isWordPart c = true := by
  have hbounds := isAlphanum_iff.mp h
  have hnone : ∀ d ∈ punctuationChars, d.isAlphanum = false := forall_mem_of_all (by decide)
  have hapart : ∀ r ∈ spaceRanges, r.2 < 48 ∨ 122 < r.1 := by decide
  refine isWordPart_of_apart (by omega) (fun hmem => ?_) fun r hr => ?_
  · rw [hnone c hmem] at h
    cases h
  · have := hapart r hr
    omega

theorem isWordPart_of_isDecimal (h : isDecimal c = true) : isWordPart c = true := by
  obtain ⟨z, hz, hin⟩ := mem_digits h
  have hascii : ∀ z ∈ digitZeros, z = 48 ∨ 128 ≤ z := by decide
  have hlow : ∀ d ∈ punctuationChars, d.toNat < 128 := forall_mem_of_all (by decide)
  have hapart : ∀ z ∈ digitZeros, ∀ r ∈ spaceRanges, z + 10 ≤ r.1 ∨ r.2 < z := by decide +kernel
  rcases hascii z hz with rfl | hhigh
  · exact isWordPart_of_isAlphanum (isAlphanum_iff.mpr (by omega))
  · refine isWordPart_of_apart (by omega) (fun hmem => ?_) fun r hr => ?_
    · have := hlow c hmem
      omega
    · have := hapart z hz r hr
      omega

end Character

/-! ## Detached texts -/

/-- A text that does not go on with a word, unless with the words `in`, `instanceof` or `of`. -/
inductive Detached : List Char → Prop
  | apart {cs : List Char} (h : ∀ c ∈ cs.head?, isWordPart c = false) : Detached cs
  | operator (rest : List Char) : Detached ('i' :: rest)
  | range (rest : List Char) : Detached ('o' :: 'f' :: rest)

namespace Detached

variable {cs : List Char}

theorem nil : Detached [] := .apart (by simp)

theorem punctuation {c : Char} (h : c ∈ punctuationChars) (cs : List Char) :
    Detached (c :: cs) := by
  refine .apart fun d hd => ?_
  obtain rfl := Option.some.inj hd
  exact isWordPart_of_punctuation h

theorem space {c : Char} (h : isSpace c = true) (cs : List Char) : Detached (c :: cs) := by
  refine .apart fun d hd => ?_
  obtain rfl := Option.some.inj hd
  exact isWordPart_of_isSpace h

theorem of_comment (h : commentLength cs ≠ 0) : Detached cs := by
  unfold commentLength at h
  split at h
  · exact .punctuation (by decide) _
  · exact .punctuation (by decide) _
  · exact absurd rfl h

theorem of_trivia (h : triviaLength cs ≠ 0) : Detached cs := by
  cases cs with
  | nil => exact absurd rfl h
  | cons c cs =>
    by_cases hspace : isSpace c = true
    · exact .space hspace cs
    · refine .of_comment fun hzero => h ?_
      simp [triviaLength, triviaFrom, hspace, hzero]

/-- What stands behind white space and comments, or these themselves. -/
theorem of_behind (h : Detached (cs.drop (triviaLength cs))) : Detached cs := by
  by_cases hzero : triviaLength cs = 0
  · rwa [hzero, List.drop_zero] at h
  · exact .of_trivia hzero

theorem of_punctuator (h : punctuator cs ≠ "") : Detached cs := by
  cases cs with
  | nil => exact .nil
  | cons c cs =>
    refine .punctuation ?_ cs
    by_contra hc
    exact h (punctuator_plain hc cs)

theorem bounds (h : Detached cs) : Bounds cs := by
  cases h with
  | apart h =>
    have hnot : ∀ {d : Char}, isWordPart d = true → ∀ c ∈ cs.head?, c ≠ d := by
      rintro d hd c hc rfl
      rw [h c hc] at hd
      cases hd
    refine ⟨fun c hc => ⟨?_, ?_, hnot (by decide) c hc, hnot (by decide) c hc⟩, ?_⟩
    · exact Bool.eq_false_iff.mpr fun hd => hnot (isWordPart_of_isDecimal hd) c hc rfl
    · refine Bool.eq_false_iff.mpr fun hd => hnot (isWordPart_of_isAlphanum ?_) c hc rfl
      exact Scan.isAlphanum_of_isHexDigit hd
    · rw [Option.eq_none_iff_forall_ne_some]
      intro n hn
      obtain ⟨letter, digit, more, hsplit, hdigit, -, -⟩ := Scan.prefixedLength?_split hn
      obtain ⟨-, rfl⟩ := List.cons.inj hsplit
      have hword : ∀ c ∈ ['x', 'X', 'o', 'O', 'b', 'B'], isWordPart c = true :=
        forall_mem_of_all (by decide)
      exact hnot (hword letter (Scan.mem_letters hdigit)) letter rfl rfl
  | operator rest =>
    refine ⟨fun c hc => ?_, rfl⟩
    obtain rfl := Option.some.inj hc
    decide
  | range rest =>
    -- the letter of a base, but no digit follows it
    refine ⟨fun c hc => ?_, ?_⟩
    · obtain rfl := Option.some.inj hc
      decide
    · have hbase : Scan.baseDigits? 'o' = some fun d => '0' ≤ d && d ≤ '7' := rfl
      rw [Scan.prefixedLength?_base hbase, if_pos]
      exact Scan.runLength_eq_zero.mpr fun c hc => by rw [← Option.some.inj hc]; decide

theorem append {front : List Char} (h : Detached front) (hne : front ≠ []) (rest : List Char) :
    Detached (front ++ rest) := by
  cases h with
  | apart h =>
    obtain ⟨c, cs, rfl⟩ := List.exists_cons_of_ne_nil hne
    exact .apart h
  | operator cs => exact .operator (cs ++ rest)
  | range cs => exact .range (cs ++ rest)

end Detached

/-! ## Ends of statements -/

theorem endsBefore_detached {early : Bool} {fuel : Nat} {cs : List Char}
    (h : endsBefore early fuel cs = true) : Detached cs := by
  cases fuel with
  | zero => cases h
  | succ fuel =>
    cases cs with
    | nil => exact .nil
    | cons c cs =>
      have hgap : isGap c = true → Detached (c :: cs) := fun hgap =>
        .space (isSpace_of_isGap hgap) cs
      rw [endsBefore] at h
      split at h
      · next hbrace =>
        obtain rfl := beq_iff_eq.mp hbrace
        exact .punctuation (by decide) cs
      · split at h
        · next hslash =>
          obtain rfl := beq_iff_eq.mp hslash
          exact .punctuation (by decide) cs
        · split at h
          · next hbreak =>
            refine hgap ?_
            simp only [isLineBreak, Bool.or_eq_true, beq_iff_eq] at hbreak
            rcases hbreak with (rfl | hbreak) | hbreak
            · decide
            · rw [isGap, hbreak]
              decide
            · rw [isGap, hbreak]
              decide
          · exact hgap (Bool.and_eq_true_iff.mp h).1

theorem statementEnds_detached {early : Bool} {cs : List Char} (h : statementEnds early cs = true) :
    Detached cs := by
  rw [statementEnds, statementEnd?, statementEndFrom?] at h
  split at h
  · next hends => exact endsBefore_detached hends
  · simp only at h
    split at h
    · cases h
    · next hcomment =>
      cases cs with
      | nil => exact .nil
      | cons c cs =>
        by_cases hspace : isSpace c = true
        · exact .space hspace cs
        · rw [List.takeWhile_cons_of_neg hspace] at hcomment
          exact .of_comment hcomment

/-! ## Literals in the scan -/

/-- Digits that take no fraction: a zero stands before another zero or a separator. -/
def Fractionless (raw : List Char) : Prop :=
  DigitsOnly raw ∧ ∃ c rest, raw = '0' :: c :: rest ∧ (c = '0' ∨ c = '_')

theorem fractionless_iff {raw : List Char} :
    Fractionless raw ↔ DigitsOnly raw ∧ takesFraction raw = false := by
  refine and_congr_right fun honly => ⟨?_, fun htakes => ?_⟩
  · rintro ⟨c, rest, rfl, rfl | rfl⟩ <;> rfl
  · unfold takesFraction at htakes
    split at htakes
    · cases htakes
    · next c rest =>
      refine ⟨c, rest, rfl, ?_⟩
      rcases honly c (by simp) with hc | hc
      · exact .inl (by simpa [hc] using htakes)
      · exact .inr hc
    · cases htakes

/-- A numeral of digits alone has neither a letter nor a point nor a mark. -/
theorem Numeral.digits {raw : List Char} (h : Numeral raw) (honly : DigitsOnly raw) :
    Digits Char.isDigit raw ∧ raw ≠ [] := by
  have hnot : ∀ {c : Char}, c.isDigit = false → c ≠ '_' → c ∉ raw := by
    intro c hdigit hsep hc
    rcases honly c hc with hc | hc
    · rw [hdigit] at hc
      cases hc
    · exact hsep hc
  cases h with
  | @based letter digit digits mark hletter =>
    have hletters : ∀ c ∈ ['x', 'X', 'o', 'O', 'b', 'B'], c.isDigit = false ∧ c ≠ '_' :=
      forall_mem_of_all (by decide)
    obtain ⟨hdigit, hsep⟩ := hletters letter (Scan.mem_letters hletter)
    exact absurd (by simp) (hnot hdigit hsep)
  | big => exact absurd (by simp) (hnot (c := 'n') (by decide) (by decide))
  | @plain whole fraction exponent h hfraction hexponent hne =>
    cases hfraction with
    | point => exact absurd (by simp) (hnot (c := '.') (by decide) (by decide))
    | none =>
      cases hexponent with
      | none => exact ⟨by simpa using h, by simpa using hne⟩
      | @mark e _ _ he =>
        rcases he with rfl | rfl
        · exact absurd (by simp) (hnot (c := 'e') (by decide) (by decide))
        · exact absurd (by simp) (hnot (c := 'E') (by decide) (by decide))

/-- The scan ends a numeric literal where the grammar ends it, except that it takes a point behind
digits that have no fraction. -/
theorem numberAt?_iff {cs : List Char} {n : Nat} (h : numberToken? cs = some n)
    (hrest : Bounds (cs.drop n)) : Scan.numberAt? cs = some n ↔
      ¬ (Fractionless (cs.take n) ∧ (cs.drop n).head? = some '.') := by
  obtain ⟨raw, rest, rfl, rfl, hnumeral, htaken⟩ := numberToken?_split h
  rw [List.drop_left] at hrest
  rw [List.take_left, List.drop_left]
  constructor
  · rintro hnumber ⟨⟨honly, -⟩, hpoint⟩
    obtain ⟨more, rfl⟩ := List.head?_eq_some_iff.mp hpoint
    obtain ⟨hdigits, hne⟩ := hnumeral.digits honly
    have hbase := prefixedLength?_of_chars (fun c hc => .inl (hdigits.chars c hc)) hne hrest.base
    rw [numberAt?_digits hdigits hne hrest.run hbase, Scan.thenLength, Scan.fractionLength,
      Option.some.injEq] at hnumber
    omega
  · intro hnot
    exact hnumeral.numberAt?_before hrest fun hpoint honly =>
      hnot ⟨fractionless_iff.mpr ⟨honly, htaken hpoint honly⟩, hpoint⟩

/-! ## Tokens and what they show -/

/-- White space and comments may be passed from one offset to another. -/
def Past (text : List Char) (i j : Nat) : Prop := j = i ∨ Detached (text.drop i)

theorem Past.detached {text : List Char} {i j : Nat} (h : Past text i j)
    (hj : Detached (text.drop j)) : Detached (text.drop i) := by
  rcases h with rfl | h
  · exact hj
  · exact h

section Token

variable {α : Type} {text : List Char} {i : Nat} {Q : α → Nat → Prop}

theorem passTrivia_past (text : List Char) (i : Nat) :
    Leads text i passTrivia fun _ j => Past text i j := by
  refine (passTrivia_leads text i).mono fun _ j hj => ?_
  by_cases hzero : triviaLength (text.drop i) = 0
  · exact .inl (hj.2.2 hzero)
  · exact .inr (.of_trivia hzero)

theorem Leads.place_past {f : Place → Rule α}
    (h : ∀ s, Past text i s → Leads text s (f (placeAt text s)) Q) :
    Leads text i (Syntax.place >>= f) Q := by
  have hplace : Leads text i Syntax.place
      fun start j => start = placeAt text j ∧ Past text i j :=
    (passTrivia_past text i).bind fun _ _ hj => .get fun _ => .pure ⟨rfl, hj⟩
  refine hplace.bind ?_
  rintro _ s ⟨rfl, hs⟩
  exact h s hs

/-! ### Punctuators -/

/-- A punctuator shows that no number runs on behind what stands before it. -/
theorem punct_detached (text : List Char) (i : Nat) {p : String} (hp : p ≠ "") :
    Leads text i (punct p) fun _ _ => Detached (text.drop i) := by
  refine (passTrivia_past text i).bind fun _ a ha => .get fun _ => ?_
  split
  · next hpunct =>
    have hpunct : punctuator (text.drop a) = p := beq_iff_eq.mp hpunct
    rw [cursorAt_skip]
    exact .set (Nat.min_le_right ..) (ha.detached (.of_punctuator (by rwa [hpunct])))
  · exact .failure

theorem Leads.punct_detached {p : String} {f : PUnit → Rule α} (hp : p ≠ "")
    (h : ∀ j, Detached (text.drop i) → Leads text j (f ⟨⟩) Q) :
    Leads text i (Syntax.punct p >>= f) Q :=
  (Syntax.punct_detached text i hp).bind fun _ j => h j

theorem Leads.peekPunctuator {f : String → Rule α}
    (h : ∀ p, (p ≠ "" → Detached (text.drop i)) → Leads text i (f p) Q) :
    Leads text i (Syntax.peekPunctuator >>= f) Q :=
  h _ fun hp => .of_behind (.of_punctuator hp)

theorem optionalPunct_detached (text : List Char) (i : Nat) {p : String} (hp : p ≠ "") :
    Leads text i (optionalPunct p) fun found j =>
      (found = true → Detached (text.drop i)) ∧ (found = false → j = i) := by
  refine .look looks_peekPunctuator fun next => ?_
  split
  · exact .punct_detached hp fun j hj => .pure ⟨fun _ => hj, nofun⟩
  · exact .pure ⟨nofun, fun _ => rfl⟩

theorem Leads.optionalPunct_detached {p : String} {f : Bool → Rule α} (hp : p ≠ "")
    (hyes : ∀ j, Detached (text.drop i) → Leads text j (f true) Q)
    (hno : Leads text i (f false) Q) : Leads text i (Syntax.optionalPunct p >>= f) Q := by
  refine (Syntax.optionalPunct_detached text i hp).bind ?_
  rintro (_ | _) j ⟨hdetached, hstay⟩
  · rw [hstay rfl]
    exact hno
  · exact hyes j (hdetached rfl)

theorem Leads.endStatement_detached {early : Bool} {f : PUnit → Rule α}
    (h : ∀ j, Detached (text.drop i) → Leads text j (f ⟨⟩) Q) :
    Leads text i (Syntax.endStatement early >>= f) Q := by
  have hend : Leads text i (Syntax.endStatement early) fun _ _ => Detached (text.drop i) := by
    refine Leads.bind (P := fun ends j => j = i ∧ (ends = true → Detached (text.drop i)))
      (.get fun _ => .pure ⟨rfl, statementEnds_detached⟩) ?_
    rintro ends _ ⟨rfl, hends⟩
    split
    · next htrue => exact .pure (hends htrue)
    · exact Syntax.punct_detached text _ (by decide)
  exact hend.bind fun _ j => h j

/-! ### Words between operands -/

theorem pass_taken (text : List Char) (i n : Nat) :
    Leads text i (pass n) fun raw j =>
      raw = String.ofList ((text.drop i).take n) ∧ j = min (i + n) text.length := by
  intro _ raw c h
  have hpass : pass n (cursorAt text i) =
      some (String.ofList ((text.drop i).take n), (cursorAt text i).skip n) := rfl
  rw [hpass, cursorAt_skip] at h
  cases h
  exact ⟨_, Nat.min_le_right .., rfl, rfl, rfl⟩

theorem Detached.of_word {cs : List Char} {n : Nat} {w : String}
    (hw : w = String.ofList (cs.take n)) (hne : w ≠ "") (h : Detached w.toList) : Detached cs := by
  subst hw
  rw [String.toList_ofList] at h
  rw [← List.take_append_drop n cs]
  refine h.append (fun hnil => hne ?_) _
  rw [hnil]

theorem Leads.peekWord {f : String → Rule α}
    (h : ∀ w, (w ≠ "" → Detached w.toList → Detached (text.drop i)) → Leads text i (f w) Q) :
    Leads text i (Syntax.peekWord >>= f) Q :=
  h _ fun hne hw => .of_behind (.of_word rfl hne hw)

/-- A word that may stand behind a number shows that what stands before it is at its end. -/
theorem Leads.word_detached {f : String → Rule α}
    (h : ∀ w j, (w ≠ "" → Detached w.toList → Detached (text.drop i)) → Leads text j (f w) Q) :
    Leads text i (Syntax.word >>= f) Q := by
  have hword : Leads text i Syntax.word fun w _ =>
      w ≠ "" → Detached w.toList → Detached (text.drop i) := by
    refine (passTrivia_past text i).bind fun _ a ha => .get fun _ => ?_
    simp only
    split
    · exact .failure
    · exact (pass_taken text a _).mono fun w j hw hne h => ha.detached (.of_word hw.1 hne h)
  exact hword.bind h

end Token

end LiveChain.Syntax
