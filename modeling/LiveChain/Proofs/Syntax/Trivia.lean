import LiveChain.Proofs.Scan.Reading
import LiveChain.Syntax.Ending

/-!
# White space and comments between tokens

Blanks, tabs, line feeds and closed comments mean the same to every reader: the grammar passes them
before a token, the search for the end of a statement looks past them, and the scan reads them as
lexemes that are no values.
-/

set_option autoImplicit false

namespace LiveChain.Syntax

/-! ## What stands between tokens -/

def IsBlank (c : Char) : Prop := c = ' ' ∨ c = '\t' ∨ c = '\n'

/-- A closed comment before a text. The line feed behind a line comment belongs to the text. -/
inductive Comment : List Char → List Char → Prop
  | block {body : List Char} (h : Scan.blockTail? body = some body.length) (rest : List Char) :
    Comment ('/' :: '*' :: body) rest
  | line {body : List Char} (h : ∀ c ∈ body, isLineBreak c = false ∧ c ≠ '\r') (rest : List Char) :
    Comment ('/' :: '/' :: body) ('\n' :: rest)

inductive Trivia : List Char → Prop
  | nil : Trivia []
  | blank {c : Char} {gap : List Char} (h : IsBlank c) (hgap : Trivia gap) : Trivia (c :: gap)
  | comment {comment gap : List Char} (h : Comment comment gap) (hgap : Trivia gap) :
    Trivia (comment ++ gap)

theorem IsBlank.classes {c : Char} (h : IsBlank c) :
    isSpace c = true ∧ isGap c = true ∧ Text.isBlank c = true ∧ c ≠ '/' ∧ c ≠ '\x7d' := by
  rcases h with rfl | rfl | rfl <;> decide

theorem Comment.append {comment gap : List Char} (h : Comment comment gap) (rest : List Char) :
    Comment comment (gap ++ rest) := by
  cases h with
  | block h => exact .block h _
  | line h => exact .line h _

theorem Comment.exists_cons {comment rest : List Char} (h : Comment comment rest) :
    ∃ c cs, comment = '/' :: c :: cs := by
  cases h with
  | block => exact ⟨'*', _, rfl⟩
  | line => exact ⟨'/', _, rfl⟩

theorem Trivia.split {gap : List Char} (h : Trivia gap) :
    ∃ blanks behind, gap = blanks ++ behind ∧ (∀ c ∈ blanks, IsBlank c) ∧
      (behind = [] ∨ ∃ comment more, behind = comment ++ more ∧ Comment comment more ∧
        Trivia more) := by
  induction h with
  | nil => exact ⟨[], [], rfl, nofun, .inl rfl⟩
  | @blank c gap hc _ ih =>
    obtain ⟨blanks, behind, rfl, hblanks, hbehind⟩ := ih
    refine ⟨c :: blanks, behind, rfl, ?_, hbehind⟩
    intro d hd
    rcases List.mem_cons.mp hd with rfl | hd
    · exact hc
    · exact hblanks d hd
  | comment hcomment hgap _ => exact ⟨[], _, rfl, nofun, .inr ⟨_, _, rfl, hcomment, hgap⟩⟩

theorem Trivia.of_blanks {blanks : List Char} (h : ∀ c ∈ blanks, IsBlank c) : Trivia blanks := by
  induction blanks with
  | nil => exact .nil
  | cons c blanks ih =>
    exact .blank (h c List.mem_cons_self) (ih fun d hd => h d (List.mem_cons_of_mem _ hd))

/-! ## The same comments for both readers -/

theorem blockCommentTail?_eq (cs : List Char) : blockCommentTail? cs = Scan.blockTail? cs := by
  fun_induction blockCommentTail? cs with
  | case1 => rfl
  | case2 => rfl
  | case3 c cs hne ih =>
    rw [Scan.blockTail?, ih]
    exact hne

theorem lineCommentTail_append {body : List Char} (h : ∀ c ∈ body, isLineBreak c = false ∧ c ≠ '\r')
    (rest : List Char) : lineCommentTail (body ++ '\n' :: rest) = body.length := by
  have hall : ∀ c ∈ body, (!isLineBreak c && c != '\r') = true := by
    intro c hc
    simp [h c hc]
  rw [lineCommentTail, List.takeWhile_append_of_pos hall]
  simp [isLineBreak]

theorem Comment.length_eq {comment rest : List Char} (h : Comment comment rest) :
    commentLength (comment ++ rest) = comment.length := by
  cases h with
  | block h =>
    simp only [List.cons_append, commentLength, blockCommentTail?_eq, Scan.blockTail?_append h,
      List.length_cons]
    omega
  | line h =>
    simp only [List.cons_append, commentLength, lineCommentTail_append h, List.length_cons]
    omega

theorem Trivia.isGap {gap : List Char} (h : Trivia gap) : Scan.Gap gap := by
  induction h with
  | nil => exact .nil
  | blank hc _ ih => exact .blank hc.classes.2.2.1 ih
  | comment hcomment _ ih =>
    cases hcomment with
    | block h => exact .block h ih
    | line h =>
      refine .line (fun hmem => ?_) ih
      simpa [isLineBreak] using h '\n' hmem

/-- The scan finds no values in white space and comments. -/
theorem foundFrom_trivia {gap : List Char} (h : Trivia gap) (names : SlotNames) (mode : Scan.Mode)
    (offset : Nat) (rest : List Char) :
    Scan.foundFrom names mode 0 offset (gap ++ rest) =
      Scan.foundFrom names mode 0 (offset + gap.length) rest :=
  Scan.foundFrom_gap h.isGap names mode offset rest

/-! ## Passing to the next token -/

/-- A text that starts with neither white space nor a slash. -/
def Solid (cs : List Char) : Prop := ∀ c ∈ cs.head?, isSpace c = false ∧ c ≠ '/'

theorem commentLength_of_ne {c : Char} (h : c ≠ '/') (cs : List Char) :
    commentLength (c :: cs) = 0 := by
  unfold commentLength
  split
  · next heq => exact absurd (List.cons.inj heq).1 h
  · next heq => exact absurd (List.cons.inj heq).1 h
  · rfl

theorem Solid.triviaLength_eq {cs : List Char} (h : Solid cs) : triviaLength cs = 0 := by
  cases cs with
  | nil => rfl
  | cons c cs =>
    obtain ⟨hspace, hslash⟩ := h c rfl
    simp [triviaLength, triviaFrom, hspace, commentLength_of_ne hslash]

theorem triviaFrom_skip (cs rest : List Char) :
    triviaFrom cs.length (cs ++ rest) = cs.length + triviaLength rest := by
  induction cs with
  | nil => simp [triviaLength]
  | cons c cs ih =>
    rw [List.length_cons, List.cons_append, triviaFrom, ih]
    omega

theorem triviaLength_append {gap : List Char} (h : Trivia gap) (rest : List Char) :
    triviaLength (gap ++ rest) = gap.length + triviaLength rest := by
  induction h with
  | nil => simp
  | blank hc _ ih =>
    rw [List.cons_append, List.length_cons, triviaLength, triviaFrom, if_pos hc.classes.1]
    rw [triviaLength] at ih
    omega
  | @comment comment gap hcomment _ ih =>
    have hlength := (hcomment.append rest).length_eq
    obtain ⟨c, cs, rfl⟩ := hcomment.exists_cons
    have hskip := triviaFrom_skip (c :: cs) (gap ++ rest)
    rw [List.append_assoc, List.cons_append, triviaLength, triviaFrom, if_neg (by decide)]
    rw [List.cons_append] at hlength
    simp only [hlength, List.length_cons, Nat.add_sub_cancel, Nat.add_eq_zero_iff] at hskip ⊢
    rw [if_neg (by omega), hskip, ih]
    simp only [List.length_append, List.length_cons]
    omega

/-- Behind white space and comments stands the next token. -/
theorem drop_triviaLength {gap cs : List Char} (h : Trivia gap) (hcs : Solid cs) :
    (gap ++ cs).drop (triviaLength (gap ++ cs)) = cs := by
  rw [triviaLength_append h, hcs.triviaLength_eq, Nat.add_zero, List.drop_left]

/-! ## The end of a text -/

inductive LastLine : List Char → Prop
  | none : LastLine []
  | comment {body : List Char} (h : ∀ c ∈ body, isLineBreak c = false ∧ c ≠ '\r') :
    LastLine ('/' :: '/' :: body)

/-- White space and comments at the end of a text, where a line comment needs no line feed. -/
inductive Ending : List Char → Prop
  | mk {gap last : List Char} (h : Trivia gap) (hlast : LastLine last) : Ending (gap ++ last)

theorem Ending.of_trivia {gap : List Char} (h : Trivia gap) : Ending gap := by
  have := Ending.mk h .none
  rwa [List.append_nil] at this

theorem LastLine.commentLength_eq {last : List Char} (h : LastLine last) :
    commentLength last = last.length := by
  cases h with
  | none => rfl
  | @comment body h =>
    have hall : ∀ c ∈ body, (!isLineBreak c && c != '\r') = true := by
      intro c hc
      simp [h c hc]
    rw [commentLength, lineCommentTail, List.takeWhile_eq_self_iff.mpr hall, List.length_cons,
      List.length_cons]
    omega

theorem LastLine.triviaLength_eq {last : List Char} (h : LastLine last) :
    triviaLength last = last.length := by
  have hlength := h.commentLength_eq
  cases h with
  | none => rfl
  | @comment body =>
    have hskip := triviaFrom_skip ('/' :: body) []
    rw [List.append_nil] at hskip
    rw [triviaLength, triviaFrom, if_neg (by decide), hlength]
    simp only [List.length_cons, Nat.add_sub_cancel] at hskip ⊢
    rw [if_neg (by omega), hskip]
    simp only [triviaLength, triviaFrom]
    omega

/-- Nothing stands behind the white space and comments at the end of a text. -/
theorem Ending.drop_triviaLength {cs : List Char} (h : Ending cs) :
    cs.drop (triviaLength cs) = [] := by
  cases h with
  | mk h hlast =>
    rw [triviaLength_append h, hlast.triviaLength_eq, ← List.length_append, List.drop_length]

/-- The scan finds no values in the white space and comments at the end of a text. -/
theorem foundFrom_ending {cs : List Char} (h : Ending cs) (names : SlotNames) (mode : Scan.Mode)
    (offset : Nat) : Scan.foundFrom names mode 0 offset cs = [] := by
  cases h with
  | @mk gap last h hlast =>
    rw [foundFrom_trivia h]
    cases hlast with
    | none => rfl
    | @comment body hbody =>
      have hread : Scan.Reads names mode ('/' :: '/' :: body) [] none mode := by
        refine .lineComment (fun hmem => ?_) (by simp)
        simpa [isLineBreak] using hbody '\n' hmem
      have hfound := Scan.foundFrom_reads hread (offset + gap.length)
      rwa [List.append_nil] at hfound

/-! ## Looking past them -/

/-- What goes on with a chain: an opening parenthesis, or a point that no digit follows. -/
def Link (cs : List Char) : Prop :=
  cs.head? = some '(' ∨ ∃ rest, cs = '.' :: rest ∧ rest.head?.any Char.isDigit = false

/-- What ends an argument: a comma or a closing parenthesis. -/
def Closer (cs : List Char) : Prop := cs.head? = some ',' ∨ cs.head? = some ')'

theorem Link.exists_cons {cs : List Char} (h : Link cs) :
    ∃ c rest, cs = c :: rest ∧ (c = '(' ∨ c = '.') ∧ goesOn cs = true := by
  rcases h with h | ⟨rest, rfl, hrest⟩
  · obtain ⟨rest, rfl⟩ := List.head?_eq_some_iff.mp h
    exact ⟨'(', rest, rfl, .inl rfl, by simp [goesOn]⟩
  · exact ⟨'.', rest, rfl, .inr rfl, by simp [goesOn, hrest]⟩

theorem Link.solid {cs : List Char} (h : Link cs) : Solid cs := by
  obtain ⟨c, rest, rfl, hc, -⟩ := h.exists_cons
  intro d hd
  obtain rfl : c = d := by simpa using hd
  rcases hc with rfl | rfl <;> decide

theorem Closer.exists_cons {cs : List Char} (h : Closer cs) :
    ∃ c rest, cs = c :: rest ∧ (c = ',' ∨ c = ')') := by
  rcases h with h | h
  · obtain ⟨rest, rfl⟩ := List.head?_eq_some_iff.mp h
    exact ⟨',', rest, rfl, .inl rfl⟩
  · obtain ⟨rest, rfl⟩ := List.head?_eq_some_iff.mp h
    exact ⟨')', rest, rfl, .inr rfl⟩

theorem Closer.solid {cs : List Char} (h : Closer cs) : Solid cs := by
  obtain ⟨c, rest, rfl, hc⟩ := h.exists_cons
  intro d hd
  obtain rfl : c = d := by simpa using hd
  rcases hc with rfl | rfl <;> decide

theorem isSpace_of_isGap {c : Char} (h : isGap c = true) : isSpace c = true := by
  simp only [isGap, isSpace, Text.inRanges, gapRanges, spaceRanges, List.any_cons, List.any_nil,
    Bool.or_false, Bool.or_eq_true, Bool.and_eq_true, decide_eq_true_eq] at h ⊢
  omega

/-- A reader of blanks stops where the blanks before a token or a comment stop. -/
theorem dropWhile_blanks {p : Char → Bool} {blanks cs : List Char}
    (hp : ∀ c, IsBlank c → p c = true) (hp' : ∀ c, p c = true → isSpace c = true)
    (hblanks : ∀ c ∈ blanks, IsBlank c) (hcs : ∀ c ∈ cs.head?, isSpace c = false) :
    (blanks ++ cs).dropWhile p = cs := by
  rw [List.dropWhile_append_of_pos fun c hc => hp c (hblanks c hc)]
  cases cs with
  | nil => rfl
  | cons c cs =>
    have hc : ¬ p c = true := fun h => by simp [hp' c h] at hcs
    rw [List.dropWhile_cons_of_neg hc]

theorem dropWhile_isGap {blanks cs : List Char} (hblanks : ∀ c ∈ blanks, IsBlank c)
    (hcs : ∀ c ∈ cs.head?, isSpace c = false) : (blanks ++ cs).dropWhile isGap = cs :=
  dropWhile_blanks (fun _ h => h.classes.2.1) (fun _ => isSpace_of_isGap) hblanks hcs

theorem dropWhile_isSpace {blanks cs : List Char} (hblanks : ∀ c ∈ blanks, IsBlank c)
    (hcs : ∀ c ∈ cs.head?, isSpace c = false) : (blanks ++ cs).dropWhile isSpace = cs :=
  dropWhile_blanks (fun _ h => h.classes.1) (fun _ h => h) hblanks hcs

theorem Comment.head_solid {comment rest : List Char} (h : Comment comment rest) :
    ∀ c ∈ (comment ++ rest).head?, isSpace c = false := by
  obtain ⟨c, cs, rfl⟩ := h.exists_cons
  intro d hd
  obtain rfl : '/' = d := by simpa using hd
  decide

theorem afterBlock_append {body : List Char} (h : Scan.blockTail? body = some body.length)
    (broken : Bool) (rest : List Char) :
    ∃ broken', afterBlock broken (body ++ rest) = (broken', rest) := by
  fun_induction Scan.blockTail? body generalizing broken with
  | case1 => cases h
  | case2 cs =>
    obtain rfl : cs = [] := by simpa using h
    exact ⟨broken, rfl⟩
  | case3 c cs hne ih =>
    obtain ⟨m, hm, hlength⟩ := Option.map_eq_some_iff.mp h
    obtain rfl : m = cs.length := by simpa using hlength
    obtain ⟨broken', htail⟩ := ih hm (broken || isLineBreak c)
    refine ⟨broken', ?_⟩
    cases cs with
    | nil => simp [Scan.blockTail?] at hm
    | cons d ds =>
      rw [List.cons_append, List.cons_append, afterBlock]
      · exact htail
      · rintro more rfl hd
        exact hne ds rfl (by rw [(List.cons.inj hd).1])

/-- Looking past white space and comments ends at the next token, or behind a block comment when
not all are to be passed. -/
theorem lookPastFrom_trivia {gap stop : List Char} (h : Trivia gap) (hstop : Solid stop)
    (all : Bool) {fuel : Nat} (hfuel : gap.length < fuel) (broken : Bool) :
    ∃ broken' left, lookPastFrom all fuel broken (gap ++ stop) = some (broken', left ++ stop) ∧
      Trivia left ∧ (all = true → left = []) := by
  induction fuel generalizing gap broken with
  | zero => omega
  | succ fuel ih =>
    obtain ⟨blanks, behind, rfl, hblanks, hbehind⟩ := h.split
    rcases hbehind with rfl | ⟨comment, more, rfl, hcomment, hmore⟩
    · refine ⟨true, [], ?_, .nil, fun _ => rfl⟩
      rw [List.append_nil, lookPastFrom, dropWhile_isGap hblanks fun c hc => (hstop c hc).1]
      split
      · exact absurd rfl (hstop '/' rfl).2
      · exact absurd rfl (hstop '/' rfl).2
      · exact absurd rfl (hstop '/' rfl).2
      · rfl
    · have hcut := (hcomment.append stop).head_solid
      have hshort : more.length < fuel := by
        obtain ⟨c, cs, rfl⟩ := hcomment.exists_cons
        simp only [List.length_append, List.length_cons] at hfuel
        omega
      rw [List.append_assoc, List.append_assoc, lookPastFrom, dropWhile_isGap hblanks hcut]
      cases hcomment with
      | @line body hbody rest =>
        have hline : (body ++ ('\n' :: rest ++ stop)).dropWhile (fun c => !isLineBreak c) =
            '\n' :: rest ++ stop := by
          rw [List.dropWhile_append_of_pos fun c hc => by simp [hbody c hc]]
          rfl
        simp only [List.cons_append] at hline ⊢
        rw [hline]
        exact ih hmore hshort broken
      | @block body hbody =>
        obtain ⟨broken', hblock⟩ := afterBlock_append hbody broken (more ++ stop)
        simp only [List.cons_append, hblock]
        split
        · exact ih hmore hshort broken'
        · next hall => exact ⟨broken', more, rfl, hmore, fun h => by simp [h] at hall⟩

/-! ## Ends of statements -/

theorem endsAfterBreak_trivia {gap stop : List Char} (h : Trivia gap) (hstop : Solid stop) :
    endsAfterBreak (gap ++ stop) = !goesOn stop := by
  have hfuel : gap.length < (gap ++ stop).length + 1 := by
    rw [List.length_append]
    omega
  obtain ⟨broken, left, hlook, -, hleft⟩ := lookPastFrom_trivia h hstop true hfuel false
  rw [hleft rfl, List.nil_append] at hlook
  rw [endsAfterBreak, lookPast, hlook]

theorem endsBefore_link {gap stop : List Char} (h : Trivia gap) (hstop : Link stop) (fuel : Nat) :
    endsBefore false fuel (gap ++ stop) = false := by
  obtain ⟨c, rest, hcons, hc, hgoes⟩ := hstop.exists_cons
  induction fuel generalizing gap with
  | zero => rfl
  | succ fuel ih =>
    cases h with
    | nil =>
      rw [List.nil_append, hcons, endsBefore]
      rcases hc with rfl | rfl <;> rfl
    | @blank d gap hd hgap =>
      rw [List.cons_append, endsBefore]
      have hbreak := endsAfterBreak_trivia hgap hstop.solid
      rw [hgoes] at hbreak
      rw [hbreak, ih hgap]
      rcases hd with rfl | rfl | rfl <;> rfl
    | @comment comment gap hcomment hgap =>
      have hfuel : (comment ++ gap).length < (comment ++ gap ++ stop).length + 1 := by
        simp only [List.length_append]
        omega
      obtain ⟨broken, left, hlook, hleft, -⟩ :=
        lookPastFrom_trivia (.comment hcomment hgap) hstop.solid false hfuel false
      obtain ⟨d, ds, rfl⟩ := hcomment.exists_cons
      simp only [List.cons_append] at hlook ⊢
      rw [endsBefore, if_neg (by decide), if_pos (by decide), lookPast, hlook]
      simp only [ih hleft, Bool.false_and, Bool.and_false, Bool.or_false]

theorem endsBefore_blanks {blanks : List Char} (h : ∀ c ∈ blanks, IsBlank c) {fuel : Nat}
    (hfuel : blanks.length < fuel) : endsBefore false fuel blanks = true := by
  induction blanks generalizing fuel with
  | nil =>
    obtain ⟨fuel, rfl⟩ := Nat.exists_eq_add_one_of_ne_zero (Nat.ne_of_gt hfuel)
    rfl
  | cons c blanks ih =>
    obtain ⟨fuel, rfl⟩ := Nat.exists_eq_add_one_of_ne_zero (Nat.ne_of_gt (Nat.zero_lt_of_lt hfuel))
    have hrest : ∀ c ∈ blanks, IsBlank c := fun c hc => h c (List.mem_cons_of_mem _ hc)
    have hsolid : Solid [] := by simp [Solid]
    have hbreak := endsAfterBreak_trivia (Trivia.of_blanks hrest) hsolid
    rw [List.append_nil] at hbreak
    rw [endsBefore, hbreak, ih hrest (Nat.lt_of_succ_lt_succ hfuel)]
    rcases h c List.mem_cons_self with rfl | rfl | rfl <;> rfl

theorem takeWhile_isSpace {blanks cs : List Char} (hblanks : ∀ c ∈ blanks, IsBlank c)
    (hcs : ∀ c ∈ cs.head?, isSpace c = false) : (blanks ++ cs).takeWhile isSpace = blanks := by
  have hsplit := List.takeWhile_append_dropWhile (p := isSpace) (l := blanks ++ cs)
  rw [dropWhile_isSpace hblanks hcs] at hsplit
  exact List.append_cancel_right hsplit

theorem statementEndFrom?_link {gap stop : List Char} (h : Trivia gap) (hstop : Link stop)
    (fuel : Nat) : statementEndFrom? false fuel (gap ++ stop) = none := by
  induction fuel generalizing gap with
  | zero => rfl
  | succ fuel ih =>
    rw [statementEndFrom?, endsBefore_link h hstop, if_neg (by decide)]
    obtain ⟨blanks, behind, rfl, hblanks, rfl | ⟨comment, more, rfl, hcomment, hmore⟩⟩ := h.split
    · obtain ⟨c, rest, rfl, hc, -⟩ := hstop.exists_cons
      have hslash : c ≠ '/' := by rcases hc with rfl | rfl <;> decide
      rw [List.append_nil, takeWhile_isSpace hblanks fun d hd => (hstop.solid d hd).1]
      simp only [List.drop_left, commentLength_of_ne hslash, if_pos]
    · rw [List.append_assoc, List.append_assoc,
        takeWhile_isSpace hblanks (hcomment.append stop).head_solid]
      simp only [List.drop_left, (hcomment.append stop).length_eq]
      rw [← List.append_assoc, ← List.length_append, List.drop_left, ih hmore, Option.map_none,
        ite_self]

/-- Before a point or a parenthesis that goes on with a chain, no statement ends. -/
theorem statementEnds_link {gap stop : List Char} (h : Trivia gap) (hstop : Link stop) :
    statementEnds false (gap ++ stop) = false := by
  rw [statementEnds, statementEnd?, statementEndFrom?_link h hstop, Option.isSome_none]

theorem statementEndFrom?_ending {gap last : List Char} (h : Trivia gap) (hlast : LastLine last)
    {fuel : Nat} (hfuel : (gap ++ last).length < fuel) :
    (statementEndFrom? false fuel (gap ++ last)).isSome = true := by
  induction fuel generalizing gap with
  | zero => omega
  | succ fuel ih =>
    rw [statementEndFrom?]
    split
    · rfl
    · next hends =>
      obtain ⟨blanks, behind, rfl, hblanks, rfl | ⟨comment, more, rfl, hcomment, hmore⟩⟩ := h.split
      · cases hlast with
        | none =>
          rw [List.append_nil, List.append_nil] at hends
          exact absurd (endsBefore_blanks hblanks (Nat.lt_succ_self _)) hends
        | @comment body hbody =>
          have hsolid : ∀ c ∈ ('/' :: '/' :: body).head?, isSpace c = false := by
            intro c hc
            obtain rfl := Option.some.inj hc
            decide
          have hlength := LastLine.commentLength_eq (.comment hbody)
          have hdrop : (blanks ++ '/' :: '/' :: body).drop
              (blanks.length + ('/' :: '/' :: body).length) = [] := by
            rw [← List.length_append, List.drop_length]
          rw [List.append_nil, takeWhile_isSpace hblanks hsolid]
          simp only [List.drop_left, hlength, hdrop]
          -- behind the comment nothing is left
          simp only [List.length_append, List.length_cons] at hfuel
          obtain ⟨fuel, rfl⟩ : ∃ fuel', fuel = fuel' + 1 := ⟨fuel - 1, by omega⟩
          rfl
      · have hne : comment.length ≠ 0 := by
          obtain ⟨c, cs, rfl⟩ := hcomment.exists_cons
          simp
        rw [List.append_assoc, List.append_assoc,
          takeWhile_isSpace hblanks (hcomment.append last).head_solid]
        simp only [List.drop_left, (hcomment.append last).length_eq]
        rw [if_neg hne, ← List.append_assoc, ← List.length_append, List.drop_left,
          Option.isSome_map]
        refine ih hmore ?_
        simp only [List.length_append] at hfuel ⊢
        omega

/-- Where only white space and comments are left, the statement ends. -/
theorem Ending.statementEnds_eq {cs : List Char} (h : Ending cs) : statementEnds false cs = true := by
  cases h with
  | mk h hlast => exact statementEndFrom?_ending h hlast (Nat.lt_succ_self _)

/-! ## Choices -/

theorem startsChoiceFrom_closer {gap stop : List Char} (h : Trivia gap) (hstop : Closer stop)
    (fuel : Nat) : startsChoiceFrom fuel (gap ++ stop) = false := by
  induction fuel generalizing gap with
  | zero => rfl
  | succ fuel ih =>
    obtain ⟨blanks, behind, rfl, hblanks, rfl | ⟨comment, more, rfl, hcomment, hmore⟩⟩ := h.split
    · have hsolid : ∀ c ∈ stop.head?, isSpace c = false := fun c hc => (hstop.solid c hc).1
      rw [List.append_nil, startsChoiceFrom, dropWhile_isGap hblanks hsolid,
        dropWhile_isSpace hblanks hsolid]
      obtain ⟨c, rest, rfl, rfl | rfl⟩ := hstop.exists_cons <;> rfl
    · have hcut := (hcomment.append stop).head_solid
      have hmark : punctuator (comment ++ (more ++ stop)) = "/" := by
        cases hcomment <;> rfl
      rw [List.append_assoc, List.append_assoc, startsChoiceFrom, dropWhile_isGap hblanks hcut,
        dropWhile_isSpace hblanks hcut, hmark]
      simp only [(hcomment.append stop).length_eq, List.drop_left, ih hmore, Bool.and_false]
      rfl

/-- Before a comma or a closing parenthesis, no choice goes on with an argument. -/
theorem startsChoice_closer {gap stop : List Char} (h : Trivia gap) (hstop : Closer stop) :
    startsChoice (gap ++ stop) = false :=
  startsChoiceFrom_closer h hstop _

end LiveChain.Syntax
