/-!
# Computations that can fail

A chain of steps gives a result when every step does, and a traversal when every entry does; else
the error is that of the first one which does not.
-/

set_option autoImplicit false

namespace LiveChain

variable {ε α β : Type}

theorem exists_of_bind_ok {x : Except ε α} {f : α → Except ε β} {b : β}
    (h : x >>= f = .ok b) : ∃ a, x = .ok a ∧ f a = .ok b := by
  cases x with
  | error e => cases h
  | ok a => exact ⟨a, rfl, h⟩

theorem exists_of_map_ok {x : Except ε α} {f : α → β} {b : β}
    (h : f <$> x = .ok b) : ∃ a, x = .ok a ∧ f a = b := by
  cases x with
  | error e => cases h
  | ok a => exact ⟨a, rfl, Except.ok.inj h⟩

theorem exists_of_toOption_map {x : Except ε α} {f : α → β} {b : β}
    (h : x.toOption.map f = some b) : ∃ a, x = .ok a ∧ f a = b := by
  cases x with
  | error e => cases h
  | ok a => exact ⟨a, rfl, Option.some.inj h⟩

theorem mapError_eq_ok {ε' : Type} {f : ε → ε'} {x : Except ε α} {a : α} :
    x.mapError f = .ok a ↔ x = .ok a := by
  cases x with
  | error e => exact iff_of_false nofun nofun
  | ok b => exact ⟨fun h => congrArg _ (Except.ok.inj h), fun h => congrArg _ (Except.ok.inj h)⟩

theorem mapM_isOk_iff {f : α → Except ε β} {xs : List α} :
    (∃ ys, xs.mapM f = .ok ys) ↔ ∀ x ∈ xs, ∃ y, f x = .ok y := by
  induction xs with
  | nil => exact iff_of_true ⟨[], rfl⟩ (by simp)
  | cons x xs ih =>
    rw [List.mapM_cons, List.forall_mem_cons, ← ih]
    cases hx : f x with
    | error e => exact iff_of_false nofun fun h => nomatch h.1
    | ok y =>
      cases hxs : xs.mapM f with
      | error e => exact iff_of_false nofun fun h => nomatch h.2
      | ok ys => exact iff_of_true ⟨_, rfl⟩ ⟨⟨_, rfl⟩, _, rfl⟩

/-- A traversal fails with the first entry that does. -/
theorem mapM_eq_error_iff {f : α → Except ε β} {xs : List α} {e : ε} :
    xs.mapM f = .error e ↔ ∃ before x behind, xs = before ++ x :: behind ∧
      (∀ y ∈ before, ∃ b, f y = .ok b) ∧ f x = .error e := by
  induction xs with
  | nil => simp [pure, Except.pure]
  | cons x xs ih =>
    rw [List.mapM_cons]
    cases hx : f x with
    | error e' =>
      constructor
      · intro h
        cases h
        exact ⟨[], x, xs, rfl, nofun, hx⟩
      · rintro ⟨_ | ⟨y, before⟩, x', behind, heq, hbefore, hx'⟩
        · cases heq
          rw [hx] at hx'
          cases hx'
          rfl
        · cases heq
          obtain ⟨b, hb⟩ := hbefore x List.mem_cons_self
          rw [hx] at hb
          cases hb
    | ok b =>
      have hrest : (do let bs ← xs.mapM f; pure (b :: bs) : Except ε (List β)) = .error e ↔
          xs.mapM f = .error e := by
        cases xs.mapM f <;> simp [bind, Except.bind, pure, Except.pure]
      refine hrest.trans (ih.trans ⟨?_, ?_⟩)
      · rintro ⟨before, x', behind, rfl, hbefore, hx'⟩
        exact ⟨x :: before, x', behind, rfl, List.forall_mem_cons.mpr ⟨⟨b, hx⟩, hbefore⟩, hx'⟩
      · rintro ⟨_ | ⟨y, before⟩, x', behind, heq, hbefore, hx'⟩
        · cases heq
          rw [hx] at hx'
          cases hx'
        · cases heq
          exact ⟨before, x', behind, rfl, (List.forall_mem_cons.mp hbefore).2, hx'⟩

end LiveChain
