import LiveChain.Proofs.Syntax.Covers
import LiveChain.Proofs.Syntax.Rule

/-!
# Where rules lead

A rule that starts at an offset of a text ends at one, and what it gives fits the text in between.

* `Leads`: from an offset, a rule leads to offsets at which a condition holds.
* `Leads.bind`, `Leads.orElse`, `Leads.iterate`: sequences, alternatives and repetitions.
* `Looks`: rules that leave the cursor where it is; `Leads.look`.
* `Leads.place`, `Leads.punct`, `Leads.keyword`, ...: tokens before the rest of a rule.
* `word_leads`, `identifier_leads`, `numberLiteral_leads`, ...: words and leaves.
-/

set_option autoImplicit false

namespace LiveChain.Syntax

/-- From an offset, a rule leads to offsets at which a condition on its result holds. A rule may go
back to where it has been, so that the condition has to say which offsets lie behind. -/
def Leads {α : Type} (text : List Char) (i : Nat) (x : Rule α) (Q : α → Nat → Prop) : Prop :=
  i ≤ text.length → ∀ a c, x (cursorAt text i) = some (a, c) →
    ∃ j ≤ text.length, c = cursorAt text j ∧ Q a j

/-- A rule that leaves the cursor where it is. -/
def Looks {α : Type} (x : Rule α) : Prop := ∀ c a c', x c = some (a, c') → c' = c

section Sequence

variable {α β σ : Type} {text : List Char} {i : Nat} {Q : β → Nat → Prop}

theorem bind_eq_some {x : Rule α} {f : α → Rule β} {c c' : Cursor} {b : β}
    (h : (x >>= f) c = some (b, c')) : ∃ a d, x c = some (a, d) ∧ f a d = some (b, c') := by
  obtain ⟨⟨a, d⟩, hx, hf⟩ := Option.bind_eq_some_iff.mp h
  exact ⟨a, d, hx, hf⟩

namespace Leads

theorem mono {x : Rule β} {P : β → Nat → Prop} (h : Leads text i x P)
    (hPQ : ∀ b j, P b j → Q b j) : Leads text i x Q := by
  intro hi b c hx
  obtain ⟨j, hj, hc, hb⟩ := h hi b c hx
  exact ⟨j, hj, hc, hPQ b j hb⟩

theorem pure {b : β} (h : Q b i) : Leads text i (pure b) Q := by
  intro hi b' c hx
  cases hx
  exact ⟨i, hi, rfl, h⟩

theorem failure : Leads text i (failure : Rule β) Q := by
  intro hi b c hx
  cases hx

theorem bind {x : Rule α} {f : α → Rule β} {P : α → Nat → Prop} (h : Leads text i x P)
    (hf : ∀ a j, P a j → Leads text j (f a) Q) : Leads text i (x >>= f) Q := by
  intro hi b c hx
  obtain ⟨a, d, ha, hb⟩ := bind_eq_some hx
  obtain ⟨j, hj, rfl, hP⟩ := h hi a d ha
  exact hf a j hP hj b c hb

theorem map {x : Rule α} {f : α → β} {P : α → Nat → Prop} (h : Leads text i x P)
    (hf : ∀ a j, P a j → Q (f a) j) : Leads text i (f <$> x) Q := by
  rw [map_eq_pure_bind]
  exact h.bind fun a j hP => .pure (hf a j hP)

theorem orElse {x y : Rule β} (hx : Leads text i x Q) (hy : Leads text i y Q) :
    Leads text i (x <|> y) Q := by
  intro hi b c h
  have heither : (x <|> y) (cursorAt text i) =
      (x (cursorAt text i)).orElse fun _ => y (cursorAt text i) := rfl
  rw [heither] at h
  cases hfirst : x (cursorAt text i) with
  | none =>
    rw [hfirst] at h
    exact hy hi b c h
  | some r =>
    rw [hfirst] at h
    cases h
    exact hx hi b c hfirst

theorem ite {p : Prop} [Decidable p] {x y : Rule β} (hx : Leads text i x Q)
    (hy : Leads text i y Q) : Leads text i (if p then x else y) Q := by
  split
  · exact hx
  · exact hy

/-- A choice between two rules before the rest of a rule. -/
theorem either {p : Prop} [Decidable p] {x y : Rule α} {f : α → Rule β} {P : α → Nat → Prop}
    (hx : Leads text i x P) (hy : Leads text i y P) (hf : ∀ a j, P a j → Leads text j (f a) Q) :
    Leads text i (if p then x >>= f else y >>= f) Q :=
  .ite (hx.bind hf) (hy.bind hf)

theorem look {x : Rule α} (h : Looks x) {f : α → Rule β} (hf : ∀ a, Leads text i (f a) Q) :
    Leads text i (x >>= f) Q := by
  intro hi b c hx
  obtain ⟨a, d, ha, hb⟩ := bind_eq_some hx
  obtain rfl := h _ a d ha
  exact hf a hi b c hb

theorem get {f : Cursor → Rule β} (h : i ≤ text.length → Leads text i (f (cursorAt text i)) Q) :
    Leads text i (get >>= f) Q := by
  intro hi b c hx
  exact h hi hi b c hx

theorem set {k : Nat} {P : PUnit → Nat → Prop} (hk : k ≤ text.length) (h : P ⟨⟩ k) :
    Leads text i (set (cursorAt text k)) P := by
  intro hi b c hx
  cases hx
  exact ⟨k, hk, rfl, h⟩

end Leads

/-- What a round of a repetition has to give: a state of which an invariant holds, or a result. -/
def Round.Meets (I : σ → Nat → Prop) (P : α → Nat → Prop) : Round σ α → Nat → Prop
  | .again state, j => I state j
  | .done result, j => P result j

/-- A repetition leads where its rounds lead if each of them keeps an invariant. -/
theorem Leads.iterate {round : σ → Rule (Round σ β)} (I : σ → Nat → Prop)
    (hround : ∀ state j, I state j → Leads text j (round state) (Round.Meets I Q)) {state : σ}
    (h : I state i) : Leads text i (Rule.iterate round state) Q := by
  -- by the number of rounds that are left; the invariant holds wherever one starts
  have hrepeat : ∀ fuel state j, I state j → Leads text j (Rule.repeatUpTo round fuel state) Q := by
    intro fuel
    induction fuel with
    | zero => exact fun _ _ _ => .failure
    | succ fuel ih =>
      intro state j hstate
      rw [Rule.repeatUpTo]
      refine (hround state j hstate).bind fun r k hr => ?_
      cases r with
      | again next => exact ih next k hr
      | done result => exact .pure hr
  exact .get fun _ => hrepeat _ state i h

end Sequence

/-! ## Looking ahead -/

section Look

variable {α β : Type}

theorem Looks.pure (a : α) : Looks (pure a : Rule α) := by
  intro c b c' h
  cases h
  rfl

theorem Looks.bind {x : Rule α} {f : α → Rule β} (hx : Looks x) (hf : ∀ a, Looks (f a)) :
    Looks (x >>= f) := by
  intro c b c' h
  obtain ⟨a, d, ha, hb⟩ := bind_eq_some h
  obtain rfl := hx c a d ha
  exact hf a d b c' hb

theorem Looks.get : Looks (get : Rule Cursor) := by
  intro c a c' h
  cases h
  rfl

theorem looks_upcoming : Looks upcoming := Looks.get.bind fun _ => .pure _

theorem looks_peekPunctuator : Looks peekPunctuator := looks_upcoming.bind fun _ => .pure _

theorem looks_peekWord : Looks peekWord := looks_upcoming.bind fun _ => .pure _

theorem looks_behindWord : Looks behindWord := looks_upcoming.bind fun _ => .pure _

theorem looks_upcomingAfterWord : Looks upcomingAfterWord := looks_behindWord.bind fun _ => .pure _

theorem looks_punctuatorAfterWord : Looks punctuatorAfterWord :=
  looks_upcomingAfterWord.bind fun _ => .pure _

theorem looks_endsHere (early : Bool) : Looks (endsHere early) := Looks.get.bind fun _ => .pure _

theorem looks_endsIn (s : Setting) : Looks (endsIn s) := by
  unfold endsIn
  split
  · exact looks_endsHere false
  · exact .pure false

end Look

/-! ## Tokens -/

theorem triviaFrom_drop (skip : Nat) (cs : List Char) :
    triviaLength (cs.drop (triviaFrom skip cs)) = 0 := by
  fun_induction triviaFrom skip cs with
  | case1 => rfl
  | case2 skip c cs ih => rwa [Nat.add_comm, List.drop_succ_cons]
  | case3 c cs hspace ih => rwa [Nat.add_comm, List.drop_succ_cons]
  | case4 c cs hspace n hn => simp [triviaLength, triviaFrom, hspace, hn, n]
  | case5 c cs hspace n hn ih => rwa [Nat.add_comm, List.drop_succ_cons]

section Token

variable {α : Type} {text : List Char} {i : Nat} {Q : α → Nat → Prop}

theorem skip_leads (text : List Char) (i : Nat) (count : List Char → Nat) :
    Leads text i (modify fun c => c.skip (count c.rest))
      fun _ j => j = min (i + count (text.drop i)) text.length := by
  intro hi u c h
  have hskip : (modify fun c => c.skip (count c.rest) : Rule PUnit) (cursorAt text i) =
      some (⟨⟩, (cursorAt text i).skip (count (text.drop i))) := rfl
  rw [hskip, cursorAt_skip] at h
  cases h
  exact ⟨_, Nat.min_le_right .., rfl, rfl⟩

/-- The cursor passes white space and comments and stands before a token then. -/
theorem passTrivia_leads (text : List Char) (i : Nat) :
    Leads text i passTrivia fun _ j => i ≤ j ∧ triviaLength (text.drop j) = 0 ∧
      (triviaLength (text.drop i) = 0 → j = i) := by
  intro hi
  refine (skip_leads text i triviaLength).mono ?_ hi
  rintro - _ rfl
  refine ⟨by omega, ?_, by omega⟩
  -- what is left behind the cursor starts with a token, by how trivia are counted
  have hdrop := congrArg Cursor.rest (cursorAt_skip text i (triviaLength (text.drop i)))
  change (text.drop i).drop _ = text.drop _ at hdrop
  rw [← hdrop]
  exact triviaFrom_drop 0 (text.drop i)

theorem Leads.place {f : Place → Rule α}
    (h : ∀ s, i ≤ s → triviaLength (text.drop s) = 0 → Leads text s (f (placeAt text s)) Q) :
    Leads text i (place >>= f) Q := by
  have hplace : Leads text i Syntax.place
      fun start j => start = placeAt text j ∧ i ≤ j ∧ triviaLength (text.drop j) = 0 :=
    (passTrivia_leads text i).bind fun _ j hj => .get fun _ => .pure ⟨rfl, hj.1, hj.2.1⟩
  refine hplace.bind ?_
  rintro _ s ⟨rfl, hs, hfresh⟩
  exact h s hs hfresh

theorem pass_leads (text : List Char) (i n : Nat) :
    Leads text i (pass n) fun raw j => raw = String.ofList (slice text i j) ∧ i ≤ j ∧
      (n ≠ 0 → text.drop i ≠ [] → i < j) := by
  intro hi raw c h
  have hpass : pass n (cursorAt text i) =
      some (String.ofList ((text.drop i).take n), (cursorAt text i).skip n) := rfl
  rw [hpass, cursorAt_skip, ← slice_pass] at h
  cases h
  refine ⟨_, Nat.min_le_right .., rfl, rfl, by omega, fun hn hrest => ?_⟩
  rw [ne_eq, List.drop_eq_nil_iff] at hrest
  omega

theorem Leads.pass {n : Nat} {f : String → Rule α}
    (h : ∀ raw j, i ≤ j → Leads text j (f raw) Q) : Leads text i (pass n >>= f) Q :=
  (pass_leads text i n).bind fun raw j hraw => h raw j hraw.2.1

theorem Leads.spanFrom {s : Nat} {f : Span → Rule α} (h : Leads text i (f (spanOf text s i)) Q) :
    Leads text i (spanFrom (placeAt text s) >>= f) Q :=
  h

theorem Leads.node {s : Nat} {kind : String} {parts : List Node} {f : Node → Rule α}
    (hparts : Within text s i parts) (hkind : plainKind kind = true)
    (h : ∀ n, Covers text s i n → Leads text i (f n) Q) :
    Leads text i (node (placeAt text s) kind parts >>= f) Q :=
  h _ (hparts.other hkind)

theorem node_leads {s k : Nat} {kind : String} {parts : List Node} (hparts : Within text s i parts)
    (hk : k ≤ s) (hkind : plainKind kind = true) :
    Leads text i (node (placeAt text s) kind parts) (Reaches text k) :=
  .pure ⟨s, hk, hparts.other hkind⟩

theorem punct_leads (text : List Char) (i : Nat) (p : String) :
    Leads text i (punct p) fun _ j => i ≤ j ∧ (p ≠ "" → i < j) := by
  refine (passTrivia_leads text i).bind fun _ a ⟨ha, _⟩ => .get fun hinside => ?_
  split
  · next hp =>
    rw [cursorAt_skip]
    refine .set (Nat.min_le_right ..) ⟨by omega, fun hne => ?_⟩
    -- where a text ends, no punctuator comes
    have hrest : text.drop a ≠ [] := by
      intro hnil
      rw [beq_iff_eq, cursorAt, hnil] at hp
      exact hne hp.symm
    rw [ne_eq, List.drop_eq_nil_iff] at hrest
    have hlength : p.length ≠ 0 := by simpa using hne
    omega
  · exact .failure

theorem Leads.punct {p : String} {f : PUnit → Rule α} (h : ∀ j, i ≤ j → Leads text j (f ⟨⟩) Q) :
    Leads text i (punct p >>= f) Q :=
  (punct_leads text i p).bind fun _ j hj => h j hj.1

theorem optionalPunct_leads (text : List Char) (i : Nat) (p : String) :
    Leads text i (optionalPunct p) fun found j => i ≤ j ∧ (found = false → j = i) := by
  refine .look looks_peekPunctuator fun next => ?_
  split
  · exact .punct fun j hj => .pure ⟨hj, nofun⟩
  · exact .pure ⟨Nat.le_refl i, fun _ => rfl⟩

theorem Leads.optionalPunct {p : String} {f : Bool → Rule α}
    (hyes : ∀ j, i ≤ j → Leads text j (f true) Q) (hno : Leads text i (f false) Q) :
    Leads text i (optionalPunct p >>= f) Q := by
  refine (optionalPunct_leads text i p).bind ?_
  rintro (_ | _) j ⟨hj, hstay⟩
  · rw [hstay rfl]
    exact hno
  · exact hyes j hj

end Token

/-! ## Words and leaves -/

section Word

variable {α : Type} {text : List Char} {i : Nat} {Q : α → Nat → Prop}

/-- A word is not empty, and where the cursor stands before it, it starts there. -/
theorem word_leads (text : List Char) (i : Nat) :
    Leads text i word fun w j => i < j ∧
      (triviaLength (text.drop i) = 0 → w = String.ofList (slice text i j)) := by
  refine (passTrivia_leads text i).bind fun _ a hpassed => .get fun _ => ?_
  obtain ⟨ha, -, hstay⟩ := hpassed
  simp only
  split
  · exact .failure
  · next hword =>
    have hrest : text.drop a ≠ [] := by
      intro hnil
      rw [cursorAt, hnil] at hword
      exact hword rfl
    refine (pass_leads text a _).mono fun w j hpassed => ?_
    obtain ⟨hw, -, hlt⟩ := hpassed
    refine ⟨Nat.lt_of_le_of_lt ha (hlt hword hrest), fun hfresh => ?_⟩
    rw [hw, hstay hfresh]

theorem Leads.word {f : String → Rule α} (h : ∀ w j, i < j → Leads text j (f w) Q) :
    Leads text i (word >>= f) Q :=
  (word_leads text i).bind fun w j hw => h w j hw.1

theorem keyword_leads (text : List Char) (i : Nat) (k : String) :
    Leads text i (keyword k) fun _ j => i < j ∧
      (triviaLength (text.drop i) = 0 → k = String.ofList (slice text i j)) := by
  refine (word_leads text i).bind fun w j hj => ?_
  split
  · next hk => exact .pure (beq_iff_eq.mp hk ▸ hj)
  · exact .failure

theorem Leads.keyword {k : String} {f : PUnit → Rule α} (h : ∀ j, i < j → Leads text j (f ⟨⟩) Q) :
    Leads text i (keyword k >>= f) Q :=
  (keyword_leads text i k).bind fun _ j hj => h j hj.1

theorem Leads.optionalKeyword {k : String} {f : Bool → Rule α}
    (h : ∀ found j, i ≤ j → Leads text j (f found) Q) :
    Leads text i (optionalKeyword k >>= f) Q := by
  refine Leads.bind (P := fun _ j => i ≤ j) ?_ h
  refine .look looks_peekWord fun next => ?_
  split
  · exact .keyword fun j hj => .pure (Nat.le_of_lt hj)
  · exact .pure (Nat.le_refl i)

theorem wordNode_leads (text : List Char) (i : Nat) {kind : String}
    (hkind : plainKind kind = true) :
    Leads text i (wordNode kind) (Reaches text i) := by
  refine .place fun s hs _ => .word fun w j hj => ?_
  exact node_leads (.nil (Nat.le_of_lt hj)) hs hkind

theorem identifier_leads (text : List Char) (i : Nat) :
    Leads text i identifier (Reaches text i) := by
  refine .place fun s hs hfresh => (word_leads text s).bind fun w j ⟨hj, hw⟩ => ?_
  split
  · rw [hw hfresh]
    exact .spanFrom (.pure ⟨s, hs, .identifier hj⟩)
  · exact .failure

/-! ### Numbers and strings -/

theorem basedNumber?_pos {cs : List Char} {n : Nat} (h : basedNumber? cs = some n) : n ≠ 0 := by
  unfold basedNumber? at h
  split at h
  · split at h
    · simp only at h
      split at h
      · cases h
      · cases h
        omega
    · cases h
  · cases h

theorem plainNumber?_pos {cs : List Char} {n : Nat} (h : plainNumber? cs = some n) : n ≠ 0 := by
  unfold plainNumber? at h
  simp only at h
  split at h
  · split at h
    · split at h
      · cases h
      · cases h
        omega
    · cases h
  · split at h
    · cases h
      omega
    · split at h
      · split at h <;> cases h <;> omega
      · cases h
        omega

theorem numberToken?_pos {cs : List Char} {n : Nat} (h : numberToken? cs = some n) :
    n ≠ 0 ∧ cs ≠ [] := by
  constructor
  · rcases Option.or_eq_some_iff.mp h with hbased | ⟨-, hplain⟩
    · exact basedNumber?_pos hbased
    · exact plainNumber?_pos hplain
  · rintro rfl
    cases h

theorem stringToken?_pos {cs : List Char} {n : Nat} (h : stringToken? cs = some n) :
    n ≠ 0 ∧ cs ≠ [] := by
  cases cs with
  | nil => cases h
  | cons c cs =>
    rw [stringToken?] at h
    split at h
    · obtain ⟨m, -, rfl⟩ := Option.map_eq_some_iff.mp h
      exact ⟨Nat.succ_ne_zero m, List.cons_ne_nil c cs⟩
    · cases h

theorem numberLiteral_leads (text : List Char) (i : Nat) :
    Leads text i numberLiteral (Reaches text i) := by
  refine .place fun s hs _ => .get fun _ => ?_
  split
  · exact .failure
  · next n hn =>
    obtain ⟨hpos, hrest⟩ := numberToken?_pos hn
    refine (pass_leads text s n).bind fun raw j ⟨hraw, _, hj⟩ => ?_
    rw [hraw]
    split
    · next hvalue => exact .spanFrom (.pure ⟨s, hs, .literal (hj hpos hrest) hvalue⟩)
    · exact .failure

theorem stringLiteral_leads (text : List Char) (i : Nat) :
    Leads text i stringLiteral (Reaches text i) := by
  refine .place fun s hs _ => .get fun _ => ?_
  split
  · exact .failure
  · next n hn =>
    obtain ⟨hpos, hrest⟩ := stringToken?_pos hn
    refine (pass_leads text s n).bind fun raw j ⟨hraw, _, hj⟩ => ?_
    rw [hraw]
    exact .spanFrom (.pure ⟨s, hs, .literal (hj hpos hrest) rfl⟩)

theorem regexLiteral_leads (text : List Char) (i : Nat) :
    Leads text i regexLiteral (Reaches text i) := by
  refine .place fun s hs _ => .pass fun _ a ha => .get fun _ => ?_
  split
  · exact .failure
  · refine .get fun _ => .pass fun _ b hb => .node (.nil hb) (by decide) fun body hbody => ?_
    refine .pass fun _ c hc => .get fun _ => .get fun _ => ?_
    simp only
    split
    · exact node_leads (hbody.cons ha (.nil hc)) hs (by decide)
    · refine .pass fun _ d hd => .node (.nil hd) (by decide) fun flags hflags => ?_
      exact node_leads (hbody.cons ha (hflags.cons hc (.nil (Nat.le_refl d)))) hs (by decide)

end Word

/-! ## Ends of statements -/

section Ending

variable {α : Type} {text : List Char} {i : Nat} {Q : α → Nat → Prop}

theorem Leads.passToEnd {early : Bool} {f : PUnit → Rule α}
    (h : ∀ j, i ≤ j → Leads text j (f ⟨⟩) Q) : Leads text i (passToEnd early >>= f) Q := by
  refine Leads.bind (P := fun _ j => i ≤ j) (.get fun _ => ?_) fun _ => h
  split
  · next n hn =>
    intro hi
    exact (skip_leads text i fun _ => n).mono (fun _ j hj => by omega) hi
  · exact .pure (Nat.le_refl i)

theorem Leads.endStatement {early : Bool} {f : PUnit → Rule α}
    (h : ∀ j, i ≤ j → Leads text j (f ⟨⟩) Q) : Leads text i (endStatement early >>= f) Q := by
  refine Leads.bind (P := fun _ j => i ≤ j) (.look (looks_endsHere early) fun ends => ?_) fun _ => h
  split
  · exact .pure (Nat.le_refl i)
  · exact (punct_leads text i ";").mono fun _ j hj => hj.1

end Ending

end LiveChain.Syntax
