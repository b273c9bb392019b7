import LiveChain.Proofs.Syntax.Detached
import LiveChain.Proofs.Syntax.Leaves

/-!
# The ends of the numbers of a tree

Each numeric literal of a tree holds the characters of its span, and a condition holds of the offset
at which it ends. Building larger trees and reading expressions as patterns keep the numbers.
-/

set_option autoImplicit false

namespace LiveChain

open Syntax

/-- A numeric literal is one literal of the grammar, with the span and the characters of it, and a
condition holds of its end. Nothing is said of other nodes. -/
def Node.NumberEnds (text : List Char) (P : Nat → Prop) : Node → Prop
  | .literal span (.number _) raw => ∃ s e, e ≤ text.length ∧ span = spanOf text s e ∧
      raw = String.ofList (slice text s e) ∧ numberToken? (text.drop s) = some (e - s) ∧ P e
  | _ => True

/-- A condition holds of the ends of all numbers of a tree. -/
def NumbersEnd (text : List Char) (P : Nat → Prop) (n : Node) : Prop :=
  ∀ m ∈ n.walk, m.NumberEnds text P

theorem forall_mem_reverse {α : Type} {p : α → Prop} {items : List α} (h : ∀ a ∈ items, p a) :
    ∀ a ∈ items.reverse, p a :=
  fun a ha => h a (List.mem_reverse.mp ha)

section Tree

variable {text : List Char} {P P' : Nat → Prop} {n : Node}

/-- The numbers of a tree are its root, if that is a number, and the numbers of its parts. -/
theorem numbersEnd_iff : NumbersEnd text P n ↔
    n.NumberEnds text P ∧ ∀ c ∈ n.children, NumbersEnd text P c := by
  simp only [NumbersEnd]
  rw [Node.walk_eq, List.forall_mem_cons, List.forall_mem_flatMap]

theorem NumbersEnd.mono (h : NumbersEnd text P n) (hP : ∀ e, P e → P' e) :
    NumbersEnd text P' n := by
  intro m hm
  have hends := h m hm
  unfold Node.NumberEnds at hends ⊢
  split at hends
  · obtain ⟨s, e, hle, hspan, hraw, htoken, he⟩ := hends
    exact ⟨s, e, hle, hspan, hraw, htoken, hP e he⟩
  · trivial

@[simp] theorem numbersEnd_other {span : Span} {kind : String} {nodes : List Node} :
    NumbersEnd text P (.other span kind nodes) ↔ ∀ n ∈ nodes, NumbersEnd text P n :=
  numbersEnd_iff.trans (and_iff_right trivial)

@[simp] theorem numbersEnd_call {span : Span} {callee : Node} {arguments : List Node} :
    NumbersEnd text P (.call span callee arguments) ↔
      ∀ n ∈ callee :: arguments, NumbersEnd text P n :=
  numbersEnd_iff.trans (and_iff_right trivial)

@[simp] theorem numbersEnd_member {span nameSpan : Span} {object : Node} {property : String} :
    NumbersEnd text P (.member span object property nameSpan) ↔ NumbersEnd text P object :=
  numbersEnd_iff.trans ((and_iff_right trivial).trans List.forall_mem_singleton)

@[simp] theorem numbersEnd_unary {span : Span} {operator : String} {argument : Node} :
    NumbersEnd text P (.unary span operator argument) ↔ NumbersEnd text P argument :=
  numbersEnd_iff.trans ((and_iff_right trivial).trans List.forall_mem_singleton)

@[simp] theorem numbersEnd_identifier {span : Span} {name : String} :
    NumbersEnd text P (.identifier span name) :=
  numbersEnd_iff.mpr ⟨trivial, nofun⟩

theorem numbersEnd_literal {span : Span} {value : Literal} {raw : String}
    (h : ∀ v, value ≠ .number v) : NumbersEnd text P (.literal span value raw) := by
  refine numbersEnd_iff.mpr ⟨?_, nofun⟩
  cases value with
  | number v => exact absurd rfl (h v)
  | _ => trivial

/-! ## Numbers that run on -/

/-- Behind no number of a tree stands what it could run on into. -/
def Closed (text : List Char) (n : Node) : Prop :=
  NumbersEnd text (fun e => Detached (text.drop e)) n

/-- Behind no number of a tree stands what it could run on into, or the number ends at an offset. -/
def Trailing (text : List Char) (n : Node) (j : Nat) : Prop :=
  NumbersEnd text (fun e => e = j ∨ Detached (text.drop e)) n

theorem Closed.trailing (h : Closed text n) (j : Nat) : Trailing text n j :=
  h.mono fun _ => .inr

theorem Trailing.close {j : Nat} (h : Trailing text n j) (hj : Detached (text.drop j)) :
    Closed text n :=
  h.mono fun _ he => he.elim (fun heq => heq ▸ hj) id

end Tree

namespace Syntax

/-! ## Operands and operators -/

section Operand

variable {text : List Char} {P : Nat → Prop}

theorem joined_numbersEnd {l r : Node} (hl : NumbersEnd text P l) (hr : NumbersEnd text P r) :
    NumbersEnd text P (joined l r) := by
  simp [joined, hl, hr]

theorem settle_numbersEnd {right : Node} {waiting : List Waiting} (hright : NumbersEnd text P right)
    (h : ∀ w ∈ waiting, NumbersEnd text P w.left) (strength : Nat) :
    NumbersEnd text P (settle strength right waiting).1 ∧
      ∀ w ∈ (settle strength right waiting).2, NumbersEnd text P w.left := by
  induction waiting generalizing right with
  | nil => exact ⟨hright, nofun⟩
  | cons w rest ih =>
    obtain ⟨hw, hrest⟩ := List.forall_mem_cons.mp h
    rw [settle]
    split
    · exact ih (joined_numbersEnd hw hright) hrest
    · exact ⟨hright, h⟩

theorem settleAll_numbersEnd {right : Node} {waiting : List Waiting}
    (hright : NumbersEnd text P right) (h : ∀ w ∈ waiting, NumbersEnd text P w.left) :
    NumbersEnd text P (settleAll right waiting) := by
  induction waiting generalizing right with
  | nil => exact hright
  | cons w rest ih =>
    obtain ⟨hw, hrest⟩ := List.forall_mem_cons.mp h
    exact ih (joined_numbersEnd hw hright) hrest

theorem combineFrom_numbersEnd {waiting : List Waiting} {last : Node} {rest : List (Nat × Node)}
    (hlast : NumbersEnd text P last) (h : ∀ w ∈ waiting, NumbersEnd text P w.left)
    (hrest : ∀ operand ∈ rest, NumbersEnd text P operand.2) :
    NumbersEnd text P (combineFrom waiting last rest) := by
  induction rest generalizing waiting last with
  | nil => exact settleAll_numbersEnd hlast h
  | cons operand rest ih =>
    obtain ⟨hoperand, hrest⟩ := List.forall_mem_cons.mp hrest
    obtain ⟨hleft, houter⟩ := settle_numbersEnd hlast h operand.1
    exact ih hoperand (List.forall_mem_cons.mpr ⟨hleft, houter⟩) hrest

/-- Operands joined by operators have the numbers of the operands. -/
theorem combine_numbersEnd {first : Node} {rest : List (Nat × Node)}
    (hfirst : NumbersEnd text P first) (hrest : ∀ operand ∈ rest, NumbersEnd text P operand.2) :
    NumbersEnd text P (combine first rest) :=
  combineFrom_numbersEnd hfirst nofun hrest

theorem sequenceOf_numbersEnd {items : List Node} (h : ∀ n ∈ items, NumbersEnd text P n) (i : Nat) :
    Leads text i (sequenceOf items) fun n j => j = i ∧ NumbersEnd text P n := by
  unfold sequenceOf
  split
  · exact .failure
  · exact .pure ⟨rfl, h _ List.mem_cons_self⟩
  · exact .pure ⟨rfl, numbersEnd_other.mpr h⟩

end Operand

end Syntax

/-! ## Patterns -/

section Pattern

variable {text : List Char} {P : Nat → Prop}

theorem NumbersEnd.exchange {items items' : List Node} (h : ∀ n ∈ items, NumbersEnd text P n)
    (hitems : List.Forall₂ (fun n p => NumbersEnd text P n → NumbersEnd text P p) items items') :
    ∀ n ∈ items', NumbersEnd text P n := by
  induction hitems with
  | nil => exact h
  | cons hn _ ih =>
    obtain ⟨hfirst, hmore⟩ := List.forall_mem_cons.mp h
    exact List.forall_mem_cons.mpr ⟨hn hfirst, ih hmore⟩

/-- Patterns have the numbers of the expressions that they were read as. -/
theorem numbersEnd_kept (text : List Char) (P : Nat → Prop) :
    KeptByPatterns fun n p => NumbersEnd text P n → NumbersEnd text P p where
  same _ h := h
  bare _ _ _ _ _ _ := numbersEnd_other.mpr nofun
  parts hparts _ h := numbersEnd_other.mpr (NumbersEnd.exchange (numbersEnd_other.mp h) hparts)

theorem parameters?_numbersEnd {items items' : List Node} (h : ∀ n ∈ items, NumbersEnd text P n)
    (hp : Node.parameters? items = some items') : ∀ n ∈ items', NumbersEnd text P n :=
  NumbersEnd.exchange h ((numbersEnd_kept text P).parameters hp)

theorem pattern?_numbersEnd {n p : Node} (h : NumbersEnd text P n) (hp : n.pattern? = some p) :
    NumbersEnd text P p :=
  ((numbersEnd_kept text P).related n).1 p hp h

theorem target?_numbersEnd {n p : Node} (h : NumbersEnd text P n) (hp : n.target? = some p) :
    NumbersEnd text P p :=
  (numbersEnd_kept text P).target hp h

end Pattern

namespace Syntax

/-! ## Rules that make nodes -/

section Rule

variable {α : Type} {text : List Char} {i : Nat} {Q : α → Nat → Prop} {start : Place}
  {kind : String} {parts : List Node}

theorem Leads.spanFrom_any {f : Span → Rule α} (h : ∀ span, Leads text i (f span) Q) :
    Leads text i (Syntax.spanFrom start >>= f) Q :=
  h _

theorem node_closed (h : ∀ n ∈ parts, Closed text n) :
    Leads text i (node start kind parts) fun n _ => Closed text n :=
  .pure (numbersEnd_other.mpr h)

theorem node_trailing (h : ∀ n ∈ parts, Trailing text n i) :
    Leads text i (node start kind parts) (Trailing text) :=
  .pure (numbersEnd_other.mpr h)

theorem leaf_closed : Leads text i (node start kind []) fun n _ => Closed text n :=
  node_closed (List.forall_mem_nil _)

theorem wordNode_closed (text : List Char) (i : Nat) (kind : String) :
    Leads text i (wordNode kind) fun n _ => Closed text n :=
  .place fun _ _ _ => .word fun _ _ _ => leaf_closed

theorem identifier_closed (text : List Char) (i : Nat) :
    Leads text i identifier fun n _ => Closed text n := by
  refine .place fun _ _ _ => .word fun _ _ _ => .ite ?_ .failure
  exact .spanFrom_any fun _ => .pure numbersEnd_identifier

/-- A number ends where the rule for numbers leaves the cursor. -/
theorem numberLiteral_trailing (text : List Char) (i : Nat) :
    Leads text i numberLiteral (Trailing text) := by
  refine .place fun s _ _ => .get fun hs => ?_
  split
  · exact .failure
  · next n htoken =>
    have htoken : numberToken? (text.drop s) = some n := htoken
    obtain ⟨raw, rest, hsplit, rfl, -, -⟩ := numberToken?_split htoken
    have hlength := congrArg List.length hsplit
    rw [List.length_drop, List.length_append] at hlength
    -- the literal is not longer than the text, so all of it is passed
    refine (pass_taken text s _).bind ?_
    rintro _ j ⟨rfl, rfl⟩
    rw [← slice_pass]
    split
    · refine .spanFrom (.pure (numbersEnd_iff.mpr ⟨?_, nofun⟩))
      refine ⟨s, _, Nat.min_le_right .., rfl, rfl, ?_, .inl rfl⟩
      rw [htoken]
      congr 1
      omega
    · exact .failure

theorem stringLiteral_closed (text : List Char) (i : Nat) :
    Leads text i stringLiteral fun n _ => Closed text n := by
  refine .place fun _ _ _ => .get fun _ => ?_
  split
  · exact .failure
  · refine .pass fun _ _ _ => .spanFrom_any fun _ => .pure ?_
    exact numbersEnd_literal fun _ => Literal.noConfusion

theorem regexLiteral_closed (text : List Char) (i : Nat) :
    Leads text i regexLiteral fun n _ => Closed text n := by
  refine .place fun _ _ _ => .pass fun _ _ _ => .get fun _ => ?_
  split
  · exact .failure
  · refine .get fun _ => .pass fun _ _ _ => (leaf_closed).bind fun body _ hbody => ?_
    refine .pass fun _ _ _ => .get fun _ => .get fun _ => ?_
    simp only
    split
    · exact node_closed (by simp [hbody])
    · refine .pass fun _ _ _ => (leaf_closed).bind fun flags _ hflags => ?_
      exact node_closed (by simp [hbody, hflags])

end Rule

end Syntax

end LiveChain
