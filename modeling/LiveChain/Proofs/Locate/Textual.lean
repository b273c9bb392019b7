import LiveChain.Locate.Context
import LiveChain.Proofs.Text.CharClass
import Mathlib.Data.List.DropRight
import Mathlib.Data.Nat.Find

/-!
# The last call before a column

Openings of calls are collected from left to right, each one passed as a whole. The last of them is
what is found by looking from the column to the left: the rightmost opening parenthesis that has
letters before it, perhaps with white space between.
-/

set_option autoImplicit false

namespace LiveChain

open Text

/-! ## Openings -/

/-- The character with an index is an opening parenthesis that has a letter of ASCII before it, perhaps
with white space between. -/
def OpensCall (before : List Char) (p : Nat) : Prop :=
  ∃ front letter gap rest, before = front ++ letter :: (gap ++ '(' :: rest) ∧
    p = front.length + 1 + gap.length ∧ isAsciiLetter letter = true ∧ ∀ b ∈ gap, isBlank b = true

theorem isAsciiLetter_of_isBlank {c : Char} (h : isBlank c = true) : isAsciiLetter c = false := by
  obtain ⟨b, hb, hin⟩ := mem_ranges h
  have hapart : ∀ b ∈ blankRanges, b.2 ≤ 32 ∨ 133 ≤ b.1 := by decide
  have := hapart b hb
  rw [Bool.eq_false_iff]
  intro hletter
  simp only [isAsciiLetter, Bool.or_eq_true, Bool.and_eq_true, decide_eq_true_eq, Char.le_def,
    UInt32.le_iff_toNat_le] at hletter
  have hbounds : 65 ≤ c.toNat ∧ c.toNat ≤ 122 := by
    rcases hletter with hsmall | hlarge
    · exact ⟨le_trans (by decide) hsmall.1, hsmall.2⟩
    · exact ⟨hlarge.1, le_trans hlarge.2 (by decide)⟩
  omega

namespace OpensCall

variable {before : List Char} {p : Nat}

theorem lt_length (h : OpensCall before p) : p < before.length := by
  obtain ⟨front, letter, gap, rest, rfl, rfl, -, -⟩ := h
  simp only [List.length_append, List.length_cons]
  omega

theorem getElem?_eq (h : OpensCall before p) : before[p]? = some '(' := by
  obtain ⟨front, letter, gap, rest, rfl, rfl, -, -⟩ := h
  rw [List.getElem?_append_right (by omega), Nat.add_assoc, Nat.add_sub_cancel_left, Nat.add_comm,
    List.getElem?_cons_succ, List.getElem?_append_right (Nat.le_refl _), Nat.sub_self]
  rfl

theorem append_left (h : OpensCall before p) (front : List Char) :
    OpensCall (front ++ before) (front.length + p) := by
  obtain ⟨front', letter, gap, rest, rfl, rfl, hletter, hgap⟩ := h
  refine ⟨front ++ front', letter, gap, rest, (List.append_assoc ..).symm, ?_, hletter, hgap⟩
  rw [List.length_append]
  omega

theorem cons (h : OpensCall before p) (c : Char) : OpensCall (c :: before) (p + 1) := by
  rw [Nat.add_comm]
  exact h.append_left [c]

end OpensCall

/-- Letters, white space and an opening parenthesis open a call. -/
theorem opensCall_of_parts {name gap rest : List Char} (hname : name ≠ [])
    (hletters : ∀ c ∈ name, isAsciiLetter c = true) (hgap : ∀ c ∈ gap, isBlank c = true) :
    OpensCall (name ++ (gap ++ '(' :: rest)) (name.length + gap.length) := by
  have hsplit : name = name.dropLast ++ [name.getLast hname] :=
    (List.dropLast_append_getLast hname).symm
  refine ⟨name.dropLast, name.getLast hname, gap, rest, ?_, ?_,
    hletters _ (List.getLast_mem hname), hgap⟩
  · conv_lhs => rw [hsplit]
    rw [List.append_assoc, List.singleton_append]
  · rw [List.length_dropLast]
    have := List.length_pos_of_ne_nil hname
    omega

/-! ## What is collected -/

theorem drop_takeWhile (q : Char → Bool) (cs : List Char) :
    cs.drop (cs.takeWhile q).length = cs.dropWhile q := by
  calc cs.drop (cs.takeWhile q).length
      = (cs.takeWhile q ++ cs.dropWhile q).drop (cs.takeWhile q).length := by
        rw [List.takeWhile_append_dropWhile]
    _ = cs.dropWhile q := List.drop_left

/-- An opening is letters, white space and an opening parenthesis. -/
theorem callAt?_split {cs : List Char} {n whole : Nat} (h : callAt? cs = some (n, whole)) :
    ∃ name gap rest, cs = name ++ (gap ++ '(' :: rest) ∧ cs.take n = name ∧
      whole = name.length + gap.length + 1 ∧ name ≠ [] ∧
      (∀ c ∈ name, isAsciiLetter c = true) ∧ ∀ c ∈ gap, isBlank c = true := by
  unfold callAt? at h
  simp only [← List.drop_drop, drop_takeWhile] at h
  split at h
  · next rest hrest =>
    split at h
    · cases h
    · next hne =>
      obtain ⟨rfl, rfl⟩ := Prod.mk.inj (Option.some.inj h)
      have hname := List.takeWhile_append_dropWhile (p := isAsciiLetter) (l := cs)
      have hgap := List.takeWhile_append_dropWhile (p := isBlank) (l := cs.dropWhile isAsciiLetter)
      rw [hrest] at hgap
      refine ⟨cs.takeWhile isAsciiLetter, (cs.dropWhile isAsciiLetter).takeWhile isBlank, rest,
        ?_, ?_, rfl, fun hnil => hne (by rw [hnil]; rfl), fun c hc => List.mem_takeWhile_imp hc,
        fun c hc => List.mem_takeWhile_imp hc⟩
      · rw [hgap, hname]
      · exact (List.prefix_iff_eq_take.mp (List.takeWhile_prefix _)).symm
  · cases h

/-- Behind letters and white space the opening parenthesis is found. -/
theorem callAt?_opening {name gap rest : List Char} (hname : name ≠ [])
    (hletters : ∀ c ∈ name, isAsciiLetter c = true) (hgap : ∀ c ∈ gap, isBlank c = true) :
    callAt? (name ++ (gap ++ '(' :: rest)) = some (name.length, name.length + gap.length + 1) := by
  have hbehind : ∀ c ∈ (gap ++ '(' :: rest).head?, isAsciiLetter c = false := by
    cases gap with
    | nil => simp [isAsciiLetter]
    | cons b gap => simpa using isAsciiLetter_of_isBlank (hgap b List.mem_cons_self)
  have hparenthesis : ∀ c ∈ ('(' :: rest).head?, isBlank c = false := by
    intro c hc
    rw [List.head?_cons, Option.mem_some_iff] at hc
    subst hc
    decide
  unfold callAt?
  simp only [(span_run hletters hbehind).1, List.drop_left, (span_run hgap hparenthesis).1]
  rw [← List.append_assoc, ← List.length_append, List.drop_left]
  simp [hname]

theorem callsFrom_skip (skip offset : Nat) (cs : List Char) :
    callsFrom skip offset cs = callsFrom 0 (offset + skip) (cs.drop skip) := by
  induction skip generalizing offset cs with
  | zero => rfl
  | succ skip ih =>
    cases cs with
    | nil => rfl
    | cons c cs => rw [callsFrom, ih, List.drop_succ_cons, Nat.add_assoc, Nat.add_comm 1]

/-- Where no parenthesis opens a call nothing is collected. -/
theorem callsFrom_none {offset : Nat} {cs : List Char} (h : ∀ p, ¬ OpensCall cs p) :
    callsFrom 0 offset cs = [] := by
  induction cs generalizing offset with
  | nil => rfl
  | cons c cs ih =>
    rw [callsFrom]
    cases hcall : callAt? (c :: cs) with
    | none => exact ih fun p hp => h (p + 1) (hp.cons c)
    | some opening =>
      obtain ⟨name, gap, rest, hsplit, -, -, hname, hletters, hgap⟩ := callAt?_split hcall
      exact absurd (hsplit ▸ opensCall_of_parts hname hletters hgap) (h _)

theorem callsFrom_named {skip offset : Nat} {cs : List Char} :
    ∀ opening ∈ callsFrom skip offset cs, opening.name ≠ [] := by
  induction cs generalizing skip offset with
  | nil => nofun
  | cons c cs ih =>
    cases skip with
    | succ skip => exact ih
    | zero =>
      rw [callsFrom]
      split
      · next n whole hcall =>
        obtain ⟨name, gap, rest, -, htake, -, hname, -, -⟩ := callAt?_split hcall
        exact List.forall_mem_cons.mpr ⟨htake ▸ hname, ih⟩
      · exact ih

/-! ## The last opening -/

/-- A line taken apart at its last opening: what is before the name, the name, which no letter stands
before, white space, and what is behind the parenthesis, where no other one opens a call. -/
structure LastOpening (before front name gap rest : List Char) : Prop where
  split : before = front ++ (name ++ (gap ++ '(' :: rest))
  named : name ≠ []
  letters : ∀ c ∈ name, isAsciiLetter c = true
  maximal : ∀ c ∈ front.getLast?, isAsciiLetter c = false
  blank : ∀ c ∈ gap, isBlank c = true
  last : ∀ p, OpensCall before p → p ≤ front.length + name.length + gap.length

namespace LastOpening

variable {before front name gap rest : List Char}

theorem head_letter (h : LastOpening before front name gap rest) :
    ∃ c, before[front.length]? = some c ∧ isAsciiLetter c = true := by
  obtain ⟨c, more, rfl⟩ := List.exists_cons_of_ne_nil h.named
  refine ⟨c, ?_, h.letters c List.mem_cons_self⟩
  rw [h.split, List.getElem?_append_right (Nat.le_refl _), Nat.sub_self]
  rfl

/-- An opening that is found before the last one ends before its name: its parenthesis is no letter,
and its own letters do not go on into that name. -/
theorem whole_le (h : LastOpening before front name gap rest) (hne : front ≠ []) {n whole : Nat}
    (hcall : callAt? before = some (n, whole)) : whole ≤ front.length := by
  obtain ⟨name', gap', rest', hsplit, -, rfl, -, hletters, hgap⟩ := callAt?_split hcall
  obtain ⟨c, hc, hletter⟩ := h.head_letter
  by_contra hlt
  rcases Nat.lt_or_ge front.length name'.length with hinside | hbehind
  · have hfront : front = name'.take front.length := by
      have hprefix : before.take front.length = front := by rw [h.split, List.take_left]
      rw [hsplit, List.take_append_of_le_length (Nat.le_of_lt hinside)] at hprefix
      exact hprefix.symm
    have hmem : ∀ d ∈ front, d ∈ name' := by
      intro d hd
      rw [hfront] at hd
      exact List.mem_of_mem_take hd
    have hlast := h.maximal (front.getLast hne) (List.getLast?_eq_some_getLast hne)
    rw [hletters _ (hmem _ (List.getLast_mem hne))] at hlast
    cases hlast
  · rw [hsplit, List.getElem?_append_right hbehind] at hc
    rcases Nat.lt_or_ge (front.length - name'.length) gap'.length with hblank | hparenthesis
    · rw [List.getElem?_append_left hblank] at hc
      have := isAsciiLetter_of_isBlank (hgap c (List.mem_of_getElem? hc))
      rw [hletter] at this
      cases this
    · obtain rfl : c = '(' := by
        have hat : front.length - name'.length = gap'.length := by omega
        rw [hat, List.getElem?_append_right (Nat.le_refl _), Nat.sub_self] at hc
        exact (Option.some.inj hc).symm
      revert hletter
      decide

/-- The line up to the parenthesis, and what is behind it. -/
theorem exists_opened (h : LastOpening before front name gap rest) : ∃ opened,
    before = opened ++ rest ∧ opened.length = front.length + (name.length + gap.length + 1) := by
  refine ⟨front ++ (name ++ (gap ++ ['('])), by simp [h.split], ?_⟩
  simp only [List.length_append, List.length_singleton, Nat.add_assoc]

theorem rest_none (h : LastOpening before front name gap rest) : ∀ p, ¬ OpensCall rest p := by
  intro p hp
  obtain ⟨opened, hsplit, hlength⟩ := h.exists_opened
  have := h.last _ (hsplit ▸ hp.append_left opened)
  omega

theorem tail {c : Char} (h : LastOpening (c :: before) (c :: front) name gap rest) :
    LastOpening before front name gap rest where
  split := (List.cons.inj h.split).2
  named := h.named
  letters := h.letters
  maximal d hd := h.maximal d (by
    cases front with
    | nil => cases hd
    | cons e front => exact hd)
  blank := h.blank
  last p hp := by
    have := h.last (p + 1) (hp.cons c)
    rw [List.length_cons] at this
    omega

/-- The last of the openings that are collected is the rightmost one, as long as nothing of its name
has been passed. -/
theorem callsFrom_last (h : LastOpening before front name gap rest) {skip offset : Nat}
    (hskip : skip ≤ front.length) : ∃ earlier, callsFrom skip offset before = earlier ++
      [⟨name, offset + front.length, offset + front.length + (name.length + gap.length + 1)⟩] := by
  induction front generalizing before skip offset with
  | nil =>
    obtain rfl : skip = 0 := Nat.le_zero.mp hskip
    obtain ⟨c, more, rfl⟩ := List.exists_cons_of_ne_nil h.named
    have hcall := @callAt?_opening _ _ rest h.named h.letters h.blank
    have hpassed : (more ++ (gap ++ '(' :: rest)).drop (more.length + 1 + gap.length) = rest := by
      rw [← List.append_assoc, Nat.add_right_comm, ← List.length_append, List.drop_append]
      simp
    refine ⟨[], ?_⟩
    rw [h.split, List.nil_append, List.cons_append, callsFrom, ← List.cons_append, hcall]
    simp only
    rw [List.take_left, callsFrom_skip, List.length_cons, Nat.add_sub_cancel, hpassed,
      callsFrom_none h.rest_none]
    rfl
  | cons c front ih =>
    obtain rfl := h.split
    have hshift : offset + (c :: front).length = offset + 1 + front.length := by
      rw [List.length_cons]
      omega
    rw [hshift, List.cons_append]
    cases skip with
    | succ skip => exact ih h.tail (Nat.le_of_succ_le_succ hskip)
    | zero =>
      rw [callsFrom]
      cases hcall : callAt? (c :: (front ++ (name ++ (gap ++ '(' :: rest)))) with
      | none => exact ih h.tail (Nat.zero_le _)
      | some opening =>
        obtain ⟨n, whole⟩ := opening
        have hwhole := h.whole_le (List.cons_ne_nil c front) hcall
        rw [List.length_cons] at hwhole
        obtain ⟨earlier, hearlier⟩ := @ih _ h.tail (whole - 1) (offset + 1) (by omega)
        exact ⟨_ :: earlier, congrArg (List.cons _) hearlier⟩

end LastOpening

/-- A line in which a parenthesis opens a call has a last opening. -/
theorem exists_lastOpening {before : List Char} (h : ∃ p, OpensCall before p) :
    ∃ front name gap rest, LastOpening before front name gap rest := by
  classical
  obtain ⟨p, hp⟩ := h
  have hlast : ∀ q, OpensCall before q → q ≤ Nat.findGreatest (OpensCall before) before.length :=
    fun q hq => Nat.le_findGreatest (Nat.le_of_lt hq.lt_length) hq
  have hopens := Nat.findGreatest_spec (Nat.le_of_lt hp.lt_length) hp
  obtain ⟨front, letter, gap, rest, hsplit, hat, hletter, hgap⟩ := hopens
  have hparts := List.rdropWhile_append_rtakeWhile (p := isAsciiLetter) (l := front ++ [letter])
  have hname : (front ++ [letter]).rtakeWhile isAsciiLetter ≠ [] := by
    rw [List.rtakeWhile_concat_pos _ _ _ hletter]
    exact List.append_ne_nil_of_right_ne_nil _ (List.cons_ne_nil _ _)
  refine ⟨(front ++ [letter]).rdropWhile isAsciiLetter, (front ++ [letter]).rtakeWhile isAsciiLetter,
    gap, rest, ?_, hname, fun c hc => List.mem_rtakeWhile_imp hc, fun c hc => ?_, hgap, fun q hq => ?_⟩
  · rw [← List.append_assoc, hparts, hsplit, List.append_assoc]
    rfl
  · obtain ⟨hne, rfl⟩ := List.mem_getLast?_eq_getLast hc
    exact Bool.eq_false_iff.mpr (List.rdropWhile_last_not _ _ hne)
  · have hlength := congrArg List.length hparts
    rw [List.length_append, List.length_append, List.length_singleton] at hlength
    have := hlast q hq
    omega

/-! ## The owner -/

theorem textualOwner_named (line : List Char) (column : Int) :
    (textualOwner line column).callName ≠ "" := by
  unfold textualOwner
  simp only
  split
  · next opening hlast =>
    have hname := callsFrom_named opening (List.mem_of_getLast? hlast)
    exact fun hempty => hname (String.ofList_eq_empty_iff.mp hempty)
  · have hunknown : unknownCall ≠ "" := by decide
    exact hunknown

section Owner

variable {line front name gap rest : List Char} {column : Int}

theorem textualOwner_of_none (h : 0 ≤ column) (hnone : ∀ p, ¬ OpensCall (line.take column.toNat) p) :
    textualOwner line column = ⟨unknownCall, column, 0, .textual⟩ := by
  rw [textualOwner, upTo_of_nonneg h, callsFrom_none hnone]
  rfl

theorem textualOwner_of_last (h : 0 ≤ column)
    (hlast : LastOpening (line.take column.toNat) front name gap rest) :
    textualOwner line column = ⟨String.ofList name, front.length, rest.count ',', .textual⟩ := by
  obtain ⟨earlier, hcalls⟩ := @LastOpening.callsFrom_last _ _ _ _ _ hlast 0 0 (Nat.zero_le _)
  obtain ⟨opened, hsplit, hlength⟩ := hlast.exists_opened
  have hbehind : (line.take column.toNat).drop (front.length + (name.length + gap.length + 1)) =
      rest := by
    rw [hsplit, ← hlength, List.drop_left]
  rw [textualOwner, upTo_of_nonneg h, hcalls, List.getLast?_concat]
  simp only [Nat.zero_add, hbehind]

theorem LastOpening.anchor_lt (h : 0 ≤ column)
    (hlast : LastOpening (line.take column.toNat) front name gap rest) :
    (front.length : Int) < column := by
  obtain ⟨opened, hsplit, hlength⟩ := hlast.exists_opened
  have htotal := congrArg List.length hsplit
  rw [List.length_take, List.length_append] at htotal
  omega

end Owner

/-- The owner that a line suggests for a value at a column. Without a parenthesis before the column that
opens a call it is unknown. Otherwise it is the call of the rightmost one: the letters before it, up to
a character that is no letter, are its name, their start is its anchor, and the commas behind it count
the arguments before the value. So every owner has a name, and a call that is found is anchored before
the column. -/
theorem textualOwner_lastCall {line : List Char} {column : Int} (h : 0 ≤ column) :
    ((∀ p, ¬ OpensCall (line.take column.toNat) p) →
      textualOwner line column = ⟨unknownCall, column, 0, .textual⟩) ∧
    ((∃ p, OpensCall (line.take column.toNat) p) →
      ∃ front name gap rest, LastOpening (line.take column.toNat) front name gap rest) ∧
    (∀ front name gap rest, LastOpening (line.take column.toNat) front name gap rest →
      textualOwner line column = ⟨String.ofList name, front.length, rest.count ',', .textual⟩ ∧
        (textualOwner line column).anchorColumn < column) ∧
    (textualOwner line column).callName ≠ "" := by
  refine ⟨textualOwner_of_none h, exists_lastOpening, fun front name gap rest hlast => ?_,
    textualOwner_named line column⟩
  have hfound := textualOwner_of_last h hlast
  exact ⟨hfound, hfound ▸ hlast.anchor_lt h⟩

/-- A name behind a digit, white space before the parenthesis, and an earlier call on the line. -/
theorem textualOwner_lastCall_digit :
    let line := "f(1).b2c (3,, 4".toList
    0 ≤ (14 : Int) ∧
      LastOpening (line.take (14 : Int).toNat) "f(1).b2".toList ['c'] [' '] "3,, ".toList ∧
      textualOwner line 14 = ⟨"c", 7, 2, .textual⟩ ∧
      (textualOwner line 14).anchorColumn < 14 := by
  intro line
  have hcolumn : 0 ≤ (14 : Int) := by decide
  have hopening : ∀ p < 14, ((line.take (14 : Int).toNat)[p]? = some '(' → p ≤ 9) := by decide
  have hmaximal : ∀ c ∈ "f(1).b2".toList.getLast?, isAsciiLetter c = false := by
    rintro c ⟨⟩
    decide
  have hlast : LastOpening (line.take (14 : Int).toNat) "f(1).b2".toList ['c'] [' ']
      "3,, ".toList :=
    ⟨rfl, by decide, forall_mem_of_all (by decide), hmaximal, forall_mem_of_all (by decide),
      fun p hp => hopening p hp.lt_length hp.getElem?_eq⟩
  exact ⟨hcolumn, hlast, (textualOwner_lastCall hcolumn).2.2.1 _ _ _ _ hlast⟩

end LiveChain
