import LiveChain.Proofs.Syntax.Statements
import LiveChain.Syntax.Parse

/-!
# Parsed trees fit their text

The grammar gives trees that fit the text, at every depth of nesting. A walk over such a tree finds
the leaves one after the other.
-/

set_option autoImplicit false

namespace LiveChain

namespace Syntax

/-! ## The grammar -/

theorem grammar_fits (text : List Char) (depth : Nat) : (grammar depth).Fits text := by
  induction depth with
  | zero =>
    exact ⟨fun _ _ => .failure, fun _ => .failure, fun _ _ _ => .failure, fun _ _ => .failure⟩
  | succ depth ih =>
    exact ⟨Grammar.expressionRule_leads ih, Grammar.statementRule_leads ih,
      Grammar.operandRule_leads ih, Grammar.constructibleRule_leads ih⟩

theorem programRule_leads {text : List Char} {g : Grammar} (hg : g.Fits text) (i : Nat) :
    Leads text i (programRule g) fun body j => Within text i j body := by
  refine .iterate (fun found j => Within text i j found.reverse) (fun found j hfound => ?_)
    (.nil (Nat.le_refl i))
  refine .look looks_upcoming fun cs => .ite (.pure hfound) ?_
  exact (hg.statement j).bind fun n k hn => .pure (hfound.push hn.within)

theorem statements?_within {text : List Char} {body : List Node}
    (h : statements? text = some body) : Within text 0 text.length body := by
  obtain ⟨⟨found, c⟩, hrun, rfl⟩ := Option.map_eq_some_iff.mp h
  obtain ⟨j, hj, -, hfound⟩ := programRule_leads (grammar_fits text _) 0 (Nat.zero_le _) _ _ hrun
  exact hfound.mono (Nat.le_refl 0) hj

end Syntax

/-! ## Walks -/

def Node.walk (n : Node) : List Node := (n.visits []).map (·.node)

def Program.walk (p : Program) : List Node := p.visits.map (·.node)

mutual

theorem visits_nodes (path : List Crumb) (n : Node) :
    (n.visits path).map (·.node) = n :: n.children.flatMap Node.walk := by
  cases n with
  | literal s v r => rfl
  | identifier s name => rfl
  | member s object p ps =>
    rw [Node.visits, List.map_cons, visits_nodes _ object, Node.children, List.flatMap_singleton,
      Node.walk, visits_nodes [] object]
  | call s callee arguments =>
    rw [Node.visits, List.map_cons, List.map_append, visits_nodes _ callee,
      argumentVisits_nodes _ path 0 arguments, Node.children, List.flatMap_cons, Node.walk,
      visits_nodes [] callee]
  | unary s o argument =>
    rw [Node.visits, List.map_cons, visits_nodes _ argument, Node.children, List.flatMap_singleton,
      Node.walk, visits_nodes [] argument]
  | other s kind nodes => rw [Node.visits, List.map_cons, visitsAll_nodes path nodes, Node.children]

theorem argumentVisits_nodes (callee : Option (String × Int)) (path : List Crumb) (index : Nat)
    (arguments : List Node) : (Node.argumentVisits callee path index arguments).map (·.node) =
      arguments.flatMap Node.walk := by
  cases arguments with
  | nil => rfl
  | cons a rest =>
    rw [Node.argumentVisits, List.map_append, visits_nodes _ a,
      argumentVisits_nodes callee path (index + 1) rest, List.flatMap_cons, Node.walk,
      visits_nodes [] a]

theorem visitsAll_nodes (path : List Crumb) (nodes : List Node) :
    (Node.visitsAll path nodes).map (·.node) = nodes.flatMap Node.walk := by
  cases nodes with
  | nil => rfl
  | cons n rest =>
    rw [Node.visitsAll, List.map_append, visits_nodes _ n, visitsAll_nodes path rest,
      List.flatMap_cons, Node.walk, visits_nodes [] n]

end

/-- A walk visits a node before its parts, and the parts in order. -/
theorem Node.walk_eq (n : Node) : n.walk = n :: n.children.flatMap Node.walk := visits_nodes [] n

theorem Program.walk_eq (p : Program) : p.walk = p.body.flatMap Node.walk :=
  visitsAll_nodes [] p.body

variable {text : List Char}

/-! ## Visited nodes -/

theorem Covers.parts {s e : Nat} {n : Node} (h : Covers text s e n) :
    Within text s e n.children := by
  cases h with
  | literal h _ => exact .nil (Nat.le_of_lt h)
  | identifier h => exact .nil (Nat.le_of_lt h)
  | member h hc ha => exact ⟨_, h, Nat.le_trans hc (Nat.le_of_lt ha)⟩
  | call h hc => exact ⟨_, h, hc⟩
  | unary operator hs h => exact h.cons (Nat.le_of_lt hs) (.nil (Nat.le_refl e))
  | other h hc _ => exact ⟨_, h, hc⟩

/-- Every node of a row covers its part of the text. -/
theorem Within.mem {s e : Nat} {nodes : List Node} {n : Node} (h : Within text s e nodes)
    (hn : n ∈ nodes) : ∃ a b, s ≤ a ∧ b ≤ e ∧ Covers text a b n := by
  induction nodes generalizing s with
  | nil => cases hn
  | cons m rest ih =>
    obtain ⟨a, b, ha, hm, hrest⟩ := h.first
    rcases List.mem_cons.mp hn with rfl | hn
    · exact ⟨a, b, ha, hrest.le, hm⟩
    · obtain ⟨a', b', ha', hb', hcovers⟩ := ih hrest hn
      exact ⟨a', b', Nat.le_trans ha (Nat.le_trans hm.le ha'), hb', hcovers⟩

/-- Every node that a walk visits covers its part of the text. -/
theorem Covers.mem_walk {s e : Nat} {n m : Node} (h : Covers text s e n) (hm : m ∈ n.walk) :
    ∃ a b, b ≤ e ∧ Covers text a b m := by
  induction n using Node.induction_children generalizing s e with
  | h n ih =>
    rw [Node.walk_eq, List.mem_cons, List.mem_flatMap] at hm
    rcases hm with rfl | ⟨c, hc, hm⟩
    · exact ⟨s, e, Nat.le_refl e, h⟩
    · obtain ⟨a, b, -, hb, hcovers⟩ := h.parts.mem hc
      obtain ⟨a', b', hb', hm⟩ := ih c hc hcovers hm
      exact ⟨a', b', Nat.le_trans hb' hb, hm⟩

theorem Within.mem_walk {s e : Nat} {nodes : List Node} {m : Node} (h : Within text s e nodes)
    (hm : m ∈ nodes.flatMap Node.walk) : ∃ a b, b ≤ e ∧ Covers text a b m := by
  obtain ⟨n, hn, hm⟩ := List.mem_flatMap.mp hm
  obtain ⟨a, b, -, hb, hcovers⟩ := h.mem hn
  obtain ⟨a', b', hb', hm⟩ := hcovers.mem_walk hm
  exact ⟨a', b', Nat.le_trans hb' hb, hm⟩

/-! ## Spans one after the other -/

/-- Spans between two offsets that are not empty and stand one after the other. -/
inductive Spread (text : List Char) : Nat → Nat → List Span → Prop
  | nil {s e : Nat} (h : s ≤ e) : Spread text s e []
  | cons {s a b e : Nat} {rest : List Span} (hs : s ≤ a) (hab : a < b)
      (hrest : Spread text b e rest) :
    Spread text s e (spanOf text a b :: rest)

namespace Spread

theorem le {s e : Nat} {spans : List Span} (h : Spread text s e spans) : s ≤ e := by
  induction h with
  | nil h => exact h
  | cons hs hab hrest ih => omega

theorem mono {s s' e e' : Nat} {spans : List Span} (h : Spread text s e spans) (hs : s' ≤ s)
    (he : e ≤ e') : Spread text s' e' spans := by
  induction h generalizing s' with
  | nil h => exact .nil (by omega)
  | cons ha hab hrest ih => exact .cons (Nat.le_trans hs ha) hab (ih (Nat.le_refl _) he)

theorem append {s c e : Nat} {xs ys : List Span} (hx : Spread text s c xs)
    (hy : Spread text c e ys) : Spread text s e (xs ++ ys) := by
  induction hx with
  | nil h => exact hy.mono h (Nat.le_refl e)
  | cons ha hab hrest ih => exact .cons ha hab (ih hy)

theorem single {s e : Nat} (h : s < e) : Spread text s e [spanOf text s e] :=
  .cons (Nat.le_refl s) h (.nil (Nat.le_refl e))

/-- What nodes in a row contribute stands one after the other if each contribution stands inside its
node. -/
theorem flatMap {s e : Nat} {nodes : List Node} {f : Node → List Span}
    (h : Within text s e nodes)
    (hf : ∀ n ∈ nodes, ∀ a b, Covers text a b n → Spread text a b (f n)) :
    Spread text s e (nodes.flatMap f) := by
  induction nodes generalizing s with
  | nil => exact .nil h.le
  | cons n rest ih =>
    obtain ⟨a, b, ha, hn, hrest⟩ := h.first
    have hfirst := (hf n List.mem_cons_self a b hn).mono ha (Nat.le_refl b)
    exact hfirst.append (ih hrest fun m hm => hf m (List.mem_cons_of_mem n hm))

end Spread

def Node.isLeaf : Node → Bool
  | .literal _ _ _ => true
  | .identifier _ _ => true
  | _ => false

/-- The spans of the identifiers and literals among some nodes. -/
def leafSpans (nodes : List Node) : List Span := (nodes.filter Node.isLeaf).map Node.span

theorem leafSpans_flatMap (nodes : List Node) :
    leafSpans (nodes.flatMap Node.walk) = nodes.flatMap fun n => leafSpans n.walk := by
  rw [leafSpans, List.filter_flatMap, List.map_flatMap]
  rfl

/-- A walk finds the leaves of a tree one after the other. -/
theorem Covers.leafSpans_spread {s e : Nat} {n : Node} (h : Covers text s e n) :
    Spread text s e (leafSpans n.walk) := by
  induction n using Node.induction_children generalizing s e with
  | h n ih =>
    cases hleaf : n.isLeaf with
    | true =>
      cases h with
      | literal h _ => exact .single h
      | identifier h => exact .single h
      | member => cases hleaf
      | call => cases hleaf
      | unary => cases hleaf
      | other => cases hleaf
    | false =>
      have hparts : leafSpans n.walk = leafSpans (n.children.flatMap Node.walk) := by
        rw [Node.walk_eq, leafSpans, List.filter_cons_of_neg (by simp [hleaf])]
        rfl
      rw [hparts, leafSpans_flatMap]
      exact .flatMap h.parts fun c hc a b hcovers => ih c hc hcovers

theorem Within.leafSpans_spread {s e : Nat} {nodes : List Node} (h : Within text s e nodes) :
    Spread text s e (leafSpans (nodes.flatMap Node.walk)) := by
  rw [leafSpans_flatMap]
  exact .flatMap h fun n _ a b hn => hn.leafSpans_spread

end LiveChain
