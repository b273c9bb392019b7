import LiveChain.Proofs.Scan.Extent
import LiveChain.Proofs.Text.CharClass
import Mathlib.Data.List.TakeWhile

/-!
# Where literals and gaps end

A comment, string, template text or regular expression that is closed reads the same whatever stands
behind it; one that is not closed reaches the end of the text or fails. White space and closed
comments make up the gap that may stand between a sign and its number.
-/

set_option autoImplicit false

namespace LiveChain.Scan

open Text

/-! ## Closed and open literals -/

/-- A reading of `body` that nothing behind it can change, or that reaches the end of the text. -/
structure Settles {α : Type} (reader : List Char → α) (body rest : List Char) (result : α) :
    Prop where
  here : reader (body ++ rest) = result
  always : rest = [] ∨ ∀ rest', reader (body ++ rest') = result

theorem Settles.of_always {α : Type} {reader : List Char → α} {body : List Char} {result : α}
    (h : ∀ rest, reader (body ++ rest) = result) (rest : List Char) :
    Settles reader body rest result :=
  ⟨h rest, .inr h⟩

theorem blockTail?_append {body : List Char} {n : Nat} (h : blockTail? body = some n)
    (rest : List Char) : blockTail? (body ++ rest) = some n := by
  fun_induction blockTail? body generalizing n with
  | case1 => cases h
  | case2 => simpa [blockTail?] using h
  | case3 c cs hne ih =>
    obtain ⟨m, hm, rfl⟩ := Option.map_eq_some_iff.mp h
    cases cs with
    | nil => simp [blockTail?] at hm
    | cons d ds =>
      rw [List.cons_append, List.cons_append, blockTail?]
      · rw [← List.cons_append, ih hm, Option.map_some]
      · rintro more rfl hd
        exact hne ds rfl (by rw [(List.cons.inj hd).1])

theorem blockTail?_split {cs : List Char} {n : Nat} (h : blockTail? cs = some n) :
    ∃ body rest, cs = body ++ rest ∧ body.length = n ∧ blockTail? body = some n := by
  fun_induction blockTail? cs generalizing n with
  | case1 => cases h
  | case2 rest =>
    cases h
    exact ⟨['*', '/'], rest, rfl, rfl, rfl⟩
  | case3 c cs hne ih =>
    obtain ⟨m, hm, rfl⟩ := Option.map_eq_some_iff.mp h
    obtain ⟨body, rest, rfl, hlength, hbody⟩ := ih hm
    refine ⟨c :: body, rest, rfl, by rw [List.length_cons, hlength], ?_⟩
    rw [blockTail?, hbody, Option.map_some]
    rintro more rfl rfl
    exact hne (more ++ rest) rfl rfl

theorem stringTail_settles (quote : Char) (cs : List Char) :
    ∃ body rest, cs = body ++ rest ∧ Settles (stringTail quote) body rest body.length := by
  fun_induction stringTail quote cs with
  | case1 => exact ⟨[], [], rfl, rfl, .inl rfl⟩
  | case2 c cs ih =>
    obtain ⟨body, rest, rfl, hhere, halways⟩ := ih
    refine ⟨'\\' :: c :: body, rest, rfl, ?_, halways.imp_right fun h rest' => ?_⟩
    · simp only [List.cons_append, stringTail, hhere, List.length_cons]
      omega
    · simp only [List.cons_append, stringTail, h, List.length_cons]
      omega
  | case3 c cs hne hstop =>
    by_cases hc : c = '\\'
    · cases cs with
      | nil => exact ⟨[c], [], rfl, by simp [stringTail, hc], .inl rfl⟩
      | cons d ds => exact absurd rfl (hne d ds hc)
    · refine ⟨[c], cs, rfl, .of_always (fun rest => ?_) cs⟩
      simp only [List.cons_append, List.nil_append]
      rw [stringTail, if_pos hstop]
      · rfl
      · rintro d ds rfl
        exact absurd rfl hc
  | case4 c cs hne hgo ih =>
    obtain ⟨body, rest, rfl, hhere, halways⟩ := ih
    have hc : c ≠ '\\' := by
      rintro rfl
      simp at hgo
    have hstep : ∀ cs, stringTail quote (c :: cs) = 1 + stringTail quote cs := by
      intro cs
      rw [stringTail, if_neg hgo]
      rintro d ds rfl
      exact absurd rfl hc
    refine ⟨c :: body, rest, rfl, ?_, halways.imp_right fun h rest' => ?_⟩
    · rw [List.cons_append, hstep, hhere, List.length_cons, Nat.add_comm]
    · rw [List.cons_append, hstep, h, List.length_cons, Nat.add_comm]

/-- What may stand between quotes: a backslash with any character, and other characters that are
neither the quote nor a line feed. -/
inductive Enclosed (quote : Char) : List Char → Prop
  | nil : Enclosed quote []
  | plain {c : Char} {body : List Char} (h : c ≠ quote ∧ c ≠ '\\' ∧ c ≠ '\n')
      (hbody : Enclosed quote body) : Enclosed quote (c :: body)
  | escape (c : Char) {body : List Char} (hbody : Enclosed quote body) :
    Enclosed quote ('\\' :: c :: body)

theorem stringTail_enclosed {quote : Char} (hquote : quote = '\'' ∨ quote = '"')
    {body : List Char} (h : Enclosed quote body) (rest : List Char) :
    stringTail quote (body ++ [quote] ++ rest) = (body ++ [quote]).length := by
  induction h with
  | nil => rcases hquote with rfl | rfl <;> rfl
  | @plain c body h _ ih =>
    rw [List.cons_append, List.cons_append, stringTail, if_neg (by simp [h]), ih,
      List.length_cons, Nat.add_comm]
    rintro d ds rfl
    exact absurd rfl h.2.1
  | escape c _ ih =>
    rw [List.cons_append, List.cons_append, List.cons_append, List.cons_append, stringTail, ih]
    simp only [List.length_cons]
    omega

theorem templateTail_ne_zero (c : Char) (cs : List Char) : (templateTail (c :: cs)).1 ≠ 0 := by
  unfold templateTail
  split <;> simp_all

theorem templateTail_settles (cs : List Char) :
    ∃ body rest ending, cs = body ++ rest ∧
      Settles templateTail body rest (body.length, ending) := by
  fun_induction templateTail cs with
  | case1 => exact ⟨[], [], _, rfl, rfl, .inl rfl⟩
  | case2 c cs n ending heq ih =>
    obtain ⟨body, rest, ending', rfl, hhere, halways⟩ := ih
    refine ⟨'\\' :: c :: body, rest, ending', rfl, ?_, halways.imp_right fun h rest' => ?_⟩
    · simp only [List.cons_append, templateTail, hhere, List.length_cons]
    · simp only [List.cons_append, templateTail, h, List.length_cons]
  | case3 cs => exact ⟨['`'], cs, _, rfl, .of_always (fun rest => rfl) cs⟩
  | case4 cs => exact ⟨['$', '{'], cs, _, rfl, .of_always (fun rest => rfl) cs⟩
  | case5 c cs hescape hclose hopen n ending heq ih =>
    obtain ⟨body, rest, ending', rfl, hhere, halways⟩ := ih
    -- the next character of the text decides whether `c` stands for itself
    have hstep : ∀ rest', (∀ d ds, c = '\\' → body ++ rest' = d :: ds → False) →
        (∀ ds, c = '$' → body ++ rest' = '{' :: ds → False) →
        templateTail (body ++ rest') = (body.length, ending') →
        templateTail (c :: body ++ rest') = ((c :: body).length, ending') := by
      intro rest' hplain hplain' hrest
      rw [List.cons_append, templateTail, hrest]
      · rfl
      · exact hplain
      · exact hclose
      · exact hplain'
    cases body with
    | nil =>
      have hrest : rest = [] := by
        cases rest with
        | nil => rfl
        | cons d ds => exact absurd (congrArg Prod.fst hhere) (templateTail_ne_zero d ds)
      subst hrest
      exact ⟨[c], [], ending', rfl, hstep [] hescape hopen hhere, .inl rfl⟩
    | cons d ds =>
      refine ⟨c :: d :: ds, rest, ending', rfl, hstep rest hescape hopen hhere,
        halways.imp_right fun h rest' => hstep rest' ?_ ?_ (h rest')⟩
      · exact fun _ _ hc _ => hescape d (ds ++ rest) hc rfl
      · exact fun more hc heq => hopen (ds ++ rest) hc (by rw [List.cons_append, (List.cons.inj heq).1])

theorem regexTail?_append {inClass : Bool} {body : List Char} {n : Nat}
    (h : regexTail? inClass body = some n) (rest : List Char) :
    regexTail? inClass (body ++ rest) = some n := by
  fun_induction regexTail? inClass body generalizing n with
  | case1 => cases h
  | case2 => cases h
  | case3 inClass c cs ih =>
    obtain ⟨m, hm, rfl⟩ := Option.map_eq_some_iff.mp h
    rw [List.cons_append, List.cons_append, regexTail?, ih hm, Option.map_some]
  | case4 => cases h
  | case5 inClass c cs hbreak hescape hplain hclose =>
    cases h
    rw [List.cons_append, regexTail?, if_neg hplain, if_pos hclose]
    · exact hbreak
    · rintro d ds rfl
      simp at hplain
  | case6 inClass c cs hbreak hescape hplain hopen ih =>
    obtain ⟨m, hm, rfl⟩ := Option.map_eq_some_iff.mp h
    rw [List.cons_append, regexTail?, if_neg hplain, if_neg hopen, ih hm, Option.map_some]
    · exact hbreak
    · rintro d ds rfl
      simp at hplain

theorem regexTail?_split {inClass : Bool} {cs : List Char} {n : Nat}
    (h : regexTail? inClass cs = some n) :
    ∃ body rest, cs = body ++ rest ∧ body.length = n ∧ regexTail? inClass body = some n := by
  fun_induction regexTail? inClass cs generalizing n with
  | case1 => cases h
  | case2 => cases h
  | case3 inClass c cs ih =>
    obtain ⟨m, hm, rfl⟩ := Option.map_eq_some_iff.mp h
    obtain ⟨body, rest, rfl, hlength, hbody⟩ := ih hm
    refine ⟨'\\' :: c :: body, rest, rfl, by simp only [List.length_cons, hlength], ?_⟩
    rw [regexTail?, hbody, Option.map_some]
  | case4 => cases h
  | case5 inClass c cs hbreak hescape hplain hclose =>
    cases h
    refine ⟨[c], cs, rfl, rfl, ?_⟩
    rw [regexTail?, if_neg hplain, if_pos hclose]
    · exact hbreak
    · rintro d ds rfl
      simp at hplain
  | case6 inClass c cs hbreak hescape hplain hopen ih =>
    obtain ⟨m, hm, rfl⟩ := Option.map_eq_some_iff.mp h
    obtain ⟨body, rest, rfl, hlength, hbody⟩ := ih hm
    refine ⟨c :: body, rest, rfl, by rw [List.length_cons, hlength], ?_⟩
    rw [regexTail?, if_neg hplain, if_neg hopen, hbody, Option.map_some]
    · exact hbreak
    · rintro d ds rfl
      simp at hplain

/-! ## Where a number starts -/

theorem numberAt?_of_not_digitLike {c : Char} {cs : List Char} (hdigit : isDigitLike c = false)
    (hpoint : c ≠ '.') : numberAt? (c :: cs) = none := by
  unfold numberAt?
  split
  · rfl
  · next heq => exact absurd (List.cons.inj heq).1 hpoint
  · next heq => rw [← (List.cons.inj heq).1, if_neg (by simp [hdigit])]

theorem numberAt?_of_nameStart {c : Char} {cs : List Char} (h : isNameStart c = true) :
    numberAt? (c :: cs) = none := by
  have hpoint : c ≠ '.' := by
    rintro rfl
    revert h
    decide
  have hdecimal : isDecimal c = false := by
    simp only [isNameStart, Bool.or_eq_true, Bool.and_eq_true, beq_iff_eq] at h
    rcases h with rfl | h
    · decide
    · simpa using h.2
  have hzero : c ≠ '0' := by
    rintro rfl
    revert hdecimal
    decide
  have hlength : numberLength? (c :: cs) = none := by
    simp [numberLength?, decimalLength?, prefixedLength?, hdecimal, hpoint, hzero]
  unfold numberAt?
  split
  · rfl
  · split
    · exact hlength
    · rfl
  · split
    · exact hlength
    · rfl

theorem numberAt?_start {c : Char} {cs : List Char} {n : Nat} (h : numberAt? (c :: cs) = some n) :
    isDecimal c = true ∨ c = '.' := by
  have hlength : numberLength? (c :: cs) = some n := by
    unfold numberAt? at h
    split at h
    · cases h
    · split at h
      · exact h
      · cases h
    · split at h
      · exact h
      · cases h
  rcases Option.or_eq_some_iff.mp hlength with hbased | ⟨-, hdecimal⟩
  · unfold prefixedLength? at hbased
    split at hbased
    · next heq => exact .inl (by rw [(List.cons.inj heq).1]; decide)
    · cases hbased
  · rw [decimalLength?] at hdecimal
    split at hdecimal
    · next hc => exact .inl hc
    · split at hdecimal
      · next hc => exact .inr (by simpa using hc)
      · cases hdecimal

theorem number_start_plain {c : Char} {cs : List Char} {n : Nat} (h : numberAt? (c :: cs) = some n) :
    isBlank c = false ∧ (c ≠ '\'' ∧ c ≠ '"' ∧ c ≠ '`') ∧ c ≠ '/' := by
  rcases numberAt?_start h with hc | rfl
  · refine ⟨isBlank_of_isDecimal hc, ⟨?_, ?_, ?_⟩, ?_⟩ <;> rintro rfl <;> revert hc <;> decide
  · decide

/-! ## Gaps between a sign and its number -/

/-- White space and closed comments. A line comment is closed by the line feed behind it. -/
inductive Gap : List Char → Prop
  | nil : Gap []
  | blank {c : Char} {gap : List Char} (h : isBlank c = true) (hgap : Gap gap) : Gap (c :: gap)
  | block {body gap : List Char} (h : blockTail? body = some body.length) (hgap : Gap gap) :
    Gap ('/' :: '*' :: body ++ gap)
  | line {body gap : List Char} (h : '\n' ∉ body) (hgap : Gap ('\n' :: gap)) :
    Gap ('/' :: '/' :: body ++ '\n' :: gap)

theorem lineCommentLength_append {body rest : List Char} (hbody : '\n' ∉ body)
    (hrest : ∀ c ∈ rest.head?, c = '\n') : lineCommentLength (body ++ rest) = body.length := by
  have hall : ∀ d ∈ body, decide (d ≠ '\n') = true := by
    intro d hd
    rw [decide_eq_true_eq]
    rintro rfl
    exact hbody hd
  rw [lineCommentLength, List.takeWhile_append_of_pos hall]
  cases rest with
  | nil => simp
  | cons d ds =>
    obtain rfl : d = '\n' := hrest d rfl
    simp

theorem gapFrom?_skip (body rest : List Char) :
    gapFrom? body.length (body ++ rest) = (gapLength? rest).map (· + body.length) := by
  induction body with
  | nil => simp [gapLength?]
  | cons c body ih =>
    rw [List.length_cons, List.cons_append, gapFrom?, ih, Option.map_map]
    rfl

theorem gapLength?_blank {c : Char} (h : isBlank c = true) (rest : List Char) :
    gapLength? (c :: rest) = (gapLength? rest).map (· + 1) := by
  change gapFrom? 0 (c :: rest) = _
  unfold gapFrom?
  rw [if_pos h]
  rfl

theorem gapLength?_block {body : List Char} (h : blockTail? body = some body.length)
    (rest : List Char) : gapLength? ('/' :: '*' :: body ++ rest) =
      (gapLength? rest).map (· + (body.length + 2)) := by
  have hskip := gapFrom?_skip ('*' :: body) rest
  rw [List.length_cons, List.cons_append, Nat.add_comm] at hskip
  rw [gapLength?, List.cons_append, List.cons_append, gapFrom?, if_neg (by decide),
    if_pos (by decide)]
  simp only [blockTail?_append h rest]
  rw [hskip, Option.map_map]
  congr 1
  funext n
  simp only [Function.comp]
  omega

theorem gapLength?_openBlock {body : List Char} (h : blockTail? body = none) :
    gapLength? ('/' :: '*' :: body) = none := by
  simp only [gapLength?, gapFrom?, h]
  rw [if_neg (by decide), if_pos (by decide)]

theorem gapLength?_line {body : List Char} (h : '\n' ∉ body) (rest : List Char) :
    gapLength? ('/' :: '/' :: body ++ '\n' :: rest) =
      (gapLength? ('\n' :: rest)).map (· + (body.length + 2)) := by
  have hbody : '\n' ∉ '/' :: body := by simpa using h
  have hlength : lineCommentLength ('/' :: (body ++ '\n' :: rest)) = ('/' :: body).length :=
    lineCommentLength_append hbody (by simp)
  have hskip := gapFrom?_skip ('/' :: body) ('\n' :: rest)
  rw [List.cons_append] at hskip
  simp only [gapLength?, List.cons_append, gapFrom?]
  rw [if_neg (by decide), if_pos (by decide), if_pos (by simp), hlength, hskip, Option.map_map]
  rfl

theorem gapLength?_openLine {body : List Char} (h : '\n' ∉ body) :
    gapLength? ('/' :: '/' :: body) = none := by
  simp only [gapLength?, gapFrom?]
  rw [if_neg (by decide), if_pos (by decide), if_neg (by simpa using h)]

/-- A text that starts with neither white space nor a comment has no gap first. -/
theorem gapLength?_solid {c : Char} {cs : List Char} (hblank : isBlank c = false)
    (hslash : c = '/' → cs.head? ≠ some '/' ∧ cs.head? ≠ some '*') :
    gapLength? (c :: cs) = some 0 := by
  unfold gapLength? gapFrom?
  rw [if_neg (by simp [hblank])]
  split
  · next hc =>
    have hhead := hslash (by simpa using hc)
    split
    · exact absurd rfl hhead.2
    · exact absurd rfl hhead.1
    · rfl
  · rfl

theorem gapLength?_plain {c : Char} {cs : List Char} (hblank : isBlank c = false) (hslash : c ≠ '/') :
    gapLength? (c :: cs) = some 0 :=
  gapLength?_solid hblank fun hc => absurd hc hslash

theorem Gap.length {gap : List Char} (h : Gap gap) (rest : List Char) :
    gapLength? (gap ++ rest) = (gapLength? rest).map (· + gap.length) := by
  induction h with
  | nil => simp
  | blank hblank _ ih =>
    rw [List.cons_append, gapLength?_blank hblank, ih, Option.map_map]
    rfl
  | @block body gap hbody _ ih =>
    rw [List.append_assoc, gapLength?_block hbody, ih, Option.map_map]
    congr 1
    funext n
    simp only [Function.comp, List.length_append, List.length_cons]
    omega
  | @line body gap hbody _ ih =>
    have hline := gapLength?_line hbody (gap ++ rest)
    rw [List.append_assoc]
    rw [← List.cons_append] at hline
    rw [hline, ih, Option.map_map]
    congr 1
    funext n
    simp only [Function.comp, List.length_append, List.length_cons]
    omega

/-- What a gap starts with: nothing that belongs to it, a comment that is not closed, or one blank or
comment, behind which the gap goes on. -/
theorem gapLength?_cases (cs : List Char) : gapLength? cs = some 0 ∨ gapLength? cs = none ∨
    ∃ front rest, cs = front ++ rest ∧ front ≠ [] ∧
      gapLength? cs = (gapLength? rest).map (· + front.length) ∧
      ∀ gap, Gap gap → Gap (front ++ gap) := by
  match cs with
  | [] => exact .inl rfl
  | c :: cs =>
    by_cases hblank : isBlank c = true
    · exact .inr (.inr ⟨[c], cs, rfl, List.cons_ne_nil _ _, gapLength?_blank hblank cs,
        fun _ hgap => .blank hblank hgap⟩)
    by_cases hslash : c = '/' → cs.head? ≠ some '/' ∧ cs.head? ≠ some '*'
    · exact .inl (gapLength?_solid (by simpa using hblank) hslash)
    obtain ⟨rfl, hcomment⟩ : c = '/' ∧ (cs.head? = some '/' ∨ cs.head? = some '*') := by
      simpa [Classical.or_iff_not_imp_left] using hslash
    refine .inr ?_
    rcases hcomment with hhead | hhead
    · obtain ⟨text, rfl⟩ := List.head?_eq_some_iff.mp hhead
      by_cases hclosed : '\n' ∈ text
      · obtain ⟨body, rest, rfl, hbody⟩ := List.eq_append_cons_of_mem hclosed
        refine .inr ⟨'/' :: '/' :: body ++ ['\n'], rest, by simp, List.cons_ne_nil _ _, ?_, ?_⟩
        · have hline := gapLength?_line hbody rest
          rw [gapLength?_blank (by decide), Option.map_map, List.cons_append,
            List.cons_append] at hline
          rw [hline]
          congr 1
          funext n
          simp only [Function.comp, List.length_append, List.length_cons, List.length_nil]
          omega
        · intro gap hgap
          rw [List.append_assoc, List.singleton_append]
          exact .line hbody (.blank (by decide) hgap)
      · exact .inl (gapLength?_openLine hclosed)
    · obtain ⟨text, rfl⟩ := List.head?_eq_some_iff.mp hhead
      cases htail : blockTail? text with
      | none => exact .inl (gapLength?_openBlock htail)
      | some k =>
        obtain ⟨body, rest, rfl, rfl, hbody⟩ := blockTail?_split htail
        exact .inr ⟨'/' :: '*' :: body, rest, by simp, List.cons_ne_nil _ _,
          gapLength?_block hbody rest, fun _ hgap => .block hbody hgap⟩

theorem gapLength?_split {cs : List Char} {n : Nat} (h : gapLength? cs = some n) :
    ∃ gap rest, cs = gap ++ rest ∧ gap.length = n ∧ Gap gap ∧ gapLength? rest = some 0 := by
  rcases gapLength?_cases cs with hsolid | hnone | ⟨front, rest, rfl, hne, hlength, hgaps⟩
  · obtain rfl : 0 = n := Option.some.inj (hsolid.symm.trans h)
    exact ⟨[], cs, rfl, rfl, .nil, hsolid⟩
  · rw [hnone] at h
    cases h
  · rw [hlength] at h
    obtain ⟨m, hm, rfl⟩ := Option.map_eq_some_iff.mp h
    have hshorter : rest.length < (front ++ rest).length := by
      have := List.length_pos_iff.mpr hne
      rw [List.length_append]
      omega
    obtain ⟨gap, rest, rfl, rfl, hgap, hrest⟩ := gapLength?_split hm
    exact ⟨front ++ gap, rest, (List.append_assoc ..).symm,
      by rw [List.length_append, Nat.add_comm], hgaps gap hgap, hrest⟩
termination_by cs.length

/-! ## Numbers, names and what stands before them -/

theorem numberAt?_split {cs : List Char} {n : Nat} (h : numberAt? cs = some n) :
    ∃ digits rest, cs = digits ++ rest ∧ digits.length = n ∧
      numberAt? (digits ++ rest) = some digits.length := by
  obtain ⟨-, hle⟩ := numberAt?_extent h
  have hlength : (cs.take n).length = n := by rw [List.length_take, Nat.min_eq_left hle]
  refine ⟨cs.take n, cs.drop n, (List.take_append_drop _ _).symm, hlength, ?_⟩
  rw [List.take_append_drop, h, hlength]

theorem nameLength_split (cs : List Char) : ∃ word rest, cs = word ++ rest ∧
    nameLength (word ++ rest) = word.length := by
  have hlength : (cs.take (nameLength cs)).length = nameLength cs := by
    rw [List.length_take, Nat.min_eq_left (nameLength_le cs)]
  refine ⟨cs.take (nameLength cs), cs.drop (nameLength cs), (List.take_append_drop _ _).symm, ?_⟩
  rw [List.take_append_drop, hlength]

theorem exists_cons_of_number {digits rest : List Char}
    (h : numberAt? (digits ++ rest) = some digits.length) : ∃ c cs, digits = c :: cs := by
  obtain ⟨hpos, -⟩ := numberAt?_extent h
  exact List.exists_cons_of_length_pos hpos

theorem gapLength?_number {digits rest : List Char}
    (h : numberAt? (digits ++ rest) = some digits.length) (behind : List Char) :
    gapLength? (digits ++ behind) = some 0 := by
  obtain ⟨c, cs, rfl⟩ := exists_cons_of_number h
  obtain ⟨hblank, -, hslash⟩ := number_start_plain h
  exact gapLength?_plain hblank hslash

theorem exists_cons_of_regex {body : List Char} {n : Nat} (h : regexTail? false body = some n) :
    ∃ d ds, body = d :: ds := by
  cases body with
  | nil => simp [regexTail?] at h
  | cons d ds => exact ⟨d, ds, rfl⟩

theorem gapLength?_regex {body : List Char} {n : Nat} (h : regexTail? false body = some n)
    (hfirst : body.head? ≠ some '/' ∧ body.head? ≠ some '*') (behind : List Char) :
    gapLength? ('/' :: (body ++ behind)) = some 0 := by
  obtain ⟨d, ds, rfl⟩ := exists_cons_of_regex h
  exact gapLength?_solid (by decide) fun _ => hfirst

theorem signedNumber?_split {cs : List Char} {n : Nat} (h : signedNumber? cs = some n) :
    ∃ gap digits rest, cs = gap ++ digits ++ rest ∧ 1 + gap.length + digits.length = n ∧
      Gap gap ∧ numberAt? (digits ++ rest) = some digits.length := by
  unfold signedNumber? at h
  split at h
  · next k hk =>
    obtain ⟨m, hm, rfl⟩ := Option.map_eq_some_iff.mp h
    obtain ⟨gap, text, rfl, rfl, hgap, -⟩ := gapLength?_split hk
    rw [List.drop_left] at hm
    obtain ⟨digits, rest, rfl, rfl, hdigits⟩ := numberAt?_split hm
    exact ⟨gap, digits, rest, (List.append_assoc ..).symm, rfl, hgap, hdigits⟩
  · cases h

theorem signedNumber?_gap {gap digits rest : List Char} (hgap : Gap gap)
    (h : numberAt? (digits ++ rest) = some digits.length) :
    signedNumber? (gap ++ digits ++ rest) = some (1 + gap.length + digits.length) := by
  rw [List.append_assoc, signedNumber?, hgap.length, gapLength?_number h]
  simp only [Option.map_some, Nat.zero_add, List.drop_left, h]

end LiveChain.Scan
