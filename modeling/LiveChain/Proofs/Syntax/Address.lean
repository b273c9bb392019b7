import LiveChain.Proofs.Syntax.Leaves
import Mathlib.Data.List.Nodup

/-!
# Addresses of nodes

Nodes of a tree can be equal in content and still be different nodes. The address of a node tells
them apart: it says which part to take at each step of the way down.
-/

set_option autoImplicit false

namespace LiveChain

/-- Which part is taken at each step of the way down from the program to a node, the last step
first. -/
abbrev Address := List Nat

/-! ## Nodes at addresses -/

/-- The parts of the node at an address; at the empty address, those of the program. -/
def Program.parts (p : Program) : Address → List Node
  | [] => p.body
  | i :: up => (((p.parts up)[i]?).map Node.children).getD []

def Program.node? (p : Program) : Address → Option Node
  | [] => none
  | i :: up => (p.parts up)[i]?

def Node.crumb (i : Nat) : Node → Crumb
  | .call _ callee _ => if i = 0 then .elsewhere else .argument callee.calleeName? (i - 1)
  | .unary s operator _ => .operand operator s
  | _ => .elsewhere

/-- The way up from an address. -/
def Program.path (p : Program) : Address → List Crumb
  | [] => []
  | i :: up => ((p.node? up).map (Node.crumb i)).getD .elsewhere :: p.path up

variable {p : Program} {a b : Address} {n m : Node}

theorem parts_of_node? (h : p.node? a = some n) : p.parts a = n.children := by
  cases a with
  | nil => cases h
  | cons i up =>
    have h : (p.parts up)[i]? = some n := h
    rw [Program.parts, h]
    rfl

theorem node?_part (h : p.node? a = some n) (i : Nat) : p.node? (i :: a) = n.children[i]? := by
  rw [Program.node?, parts_of_node? h]

theorem path_part (h : p.node? a = some n) (i : Nat) :
    p.path (i :: a) = n.crumb i :: p.path a := by
  rw [Program.path, h]
  rfl

/-- Where there is a node, there is one above it, unless it is a part of the program. -/
theorem exists_above {i j : Nat} (h : p.node? (i :: j :: a) = some n) :
    ∃ m, p.node? (j :: a) = some m ∧ m.children[i]? = some n := by
  cases hup : p.node? (j :: a) with
  | none =>
    have hparts : p.parts (j :: a) = [] := by
      have hup : (p.parts a)[j]? = none := hup
      rw [Program.parts, hup]
      rfl
    rw [Program.node?, hparts] at h
    cases h
  | some m => exact ⟨m, rfl, node?_part hup i ▸ h⟩

/-! ## Addresses in walking order -/

mutual

/-- The addresses of a node at `a` and of all nodes below it. -/
def Node.addresses (a : Address) : Node → List Address
  | .literal _ _ _ => [a]
  | .identifier _ _ => [a]
  | .member _ object _ _ => a :: Node.addresses (0 :: a) object
  | .call _ callee arguments =>
    a :: (Node.addresses (0 :: a) callee ++ Node.addressesFrom a 1 arguments)
  | .unary _ _ argument => a :: Node.addresses (0 :: a) argument
  | .other _ _ nodes => a :: Node.addressesFrom a 0 nodes

/-- The addresses of the parts of the node at `a` from the `i`-th on. -/
def Node.addressesFrom (a : Address) : Nat → List Node → List Address
  | _, [] => []
  | i, n :: rest => Node.addresses (i :: a) n ++ Node.addressesFrom a (i + 1) rest

end

def Program.addresses (p : Program) : List Address := Node.addressesFrom [] 0 p.body

theorem Node.addresses_eq (a : Address) (n : Node) :
    n.addresses a = a :: Node.addressesFrom a 0 n.children := by
  cases n with
  | literal => rfl
  | identifier => rfl
  | member s object property propertySpan =>
    rw [Node.addresses, Node.children, Node.addressesFrom, Node.addressesFrom, List.append_nil]
  | call => rfl
  | unary s operator argument =>
    rw [Node.addresses, Node.children, Node.addressesFrom, Node.addressesFrom, List.append_nil]
  | other => rfl

theorem mem_addressesFrom {i : Nat} {nodes : List Node} :
    b ∈ Node.addressesFrom a i nodes ↔
      ∃ (k : Nat) (m : Node), nodes[k]? = some m ∧ b ∈ m.addresses ((i + k) :: a) := by
  induction nodes generalizing i with
  | nil => simp [Node.addressesFrom]
  | cons n rest ih =>
    rw [Node.addressesFrom, List.mem_append, ih]
    constructor
    · rintro (hb | ⟨k, m, hm, hb⟩)
      · exact ⟨0, n, rfl, hb⟩
      · exact ⟨k + 1, m, hm, by rwa [Nat.add_assoc, Nat.add_comm 1] at hb⟩
    · rintro ⟨_ | k, m, hm, hb⟩
      · cases hm
        exact .inl hb
      · exact .inr ⟨k, m, hm, by rwa [Nat.add_assoc, Nat.add_comm 1]⟩

/-- What is below a node has an address that leads through that of the node. -/
theorem suffix_of_mem_addresses (h : b ∈ n.addresses a) : a <:+ b := by
  induction n using Node.induction_children generalizing a with
  | h n ih =>
    rw [Node.addresses_eq, List.mem_cons, mem_addressesFrom] at h
    rcases h with rfl | ⟨k, m, hm, hb⟩
    · exact List.suffix_rfl
    · exact (List.suffix_cons _ a).trans (ih m (List.mem_of_getElem? hm) hb)

/-- Addresses below different parts of a node are different. -/
theorem part_eq_of_suffix {i j : Nat} (hi : i :: a <:+ b) (hj : j :: a <:+ b) : i = j := by
  obtain ⟨front, rfl⟩ := hi
  obtain ⟨front', heq⟩ := hj
  have hparts := (List.append_inj' heq rfl).2
  exact (List.cons.inj hparts).1.symm

theorem Node.addresses_nodup (a : Address) (n : Node) : (n.addresses a).Nodup := by
  induction n using Node.induction_children generalizing a with
  | h n ih =>
    rw [Node.addresses_eq, List.nodup_cons]
    constructor
    · -- a node is not below one of its parts
      rw [mem_addressesFrom]
      rintro ⟨k, m, hm, ha⟩
      have hlength := (suffix_of_mem_addresses ha).length_le
      rw [List.length_cons] at hlength
      omega
    · generalize n.children = nodes at ih
      generalize 0 = i
      induction nodes generalizing i with
      | nil => exact List.nodup_nil
      | cons m rest ihrest =>
        rw [Node.addressesFrom]
        refine List.nodup_append.mpr ⟨ih m List.mem_cons_self (i :: a),
          ihrest (fun c hc => ih c (List.mem_cons_of_mem m hc)) (i + 1), ?_⟩
        rintro b hb c hc rfl
        obtain ⟨k, m', hm', hb'⟩ := mem_addressesFrom.mp hc
        have := part_eq_of_suffix (suffix_of_mem_addresses hb) (suffix_of_mem_addresses hb')
        omega

/-- Addresses below a node of a program are those of nodes. -/
theorem node?_of_mem_addresses (hn : p.node? a = some n) (h : b ∈ n.addresses a) :
    ∃ m, p.node? b = some m := by
  induction n using Node.induction_children generalizing a with
  | h n ih =>
    rw [Node.addresses_eq, List.mem_cons, mem_addressesFrom] at h
    rcases h with rfl | ⟨k, m, hm, hb⟩
    · exact ⟨n, hn⟩
    · rw [Nat.zero_add] at hb
      exact ih m (List.mem_of_getElem? hm) (node?_part hn k ▸ hm) hb

/-- With a node, its parts are among the nodes below another one. -/
theorem part_mem_addresses {i : Nat} {c : Node} (hn : p.node? a = some n) (h : b ∈ n.addresses a)
    (hm : p.node? b = some m) (hc : m.children[i]? = some c) : i :: b ∈ n.addresses a := by
  induction n using Node.induction_children generalizing a with
  | h n ih =>
    rw [Node.addresses_eq, List.mem_cons, mem_addressesFrom] at h ⊢
    right
    rcases h with rfl | ⟨k, m', hm', hb⟩
    · cases hn.symm.trans hm
      refine ⟨i, c, hc, ?_⟩
      rw [Nat.zero_add, Node.addresses_eq]
      exact List.mem_cons_self
    · rw [Nat.zero_add] at hb
      refine ⟨k, m', hm', ?_⟩
      rw [Nat.zero_add]
      exact ih m' (List.mem_of_getElem? hm') (node?_part hn k ▸ hm') hb

/-- The addresses of a program are those at which there is a node. -/
theorem mem_addresses_iff : a ∈ p.addresses ↔ ∃ n, p.node? a = some n := by
  constructor
  · rw [Program.addresses, mem_addressesFrom]
    rintro ⟨k, m, hm, ha⟩
    rw [Nat.zero_add] at ha
    exact node?_of_mem_addresses (p := p) (a := [k]) hm ha
  · rintro ⟨n, hn⟩
    induction a generalizing n with
    | nil => cases hn
    | cons i up ih =>
      rw [Program.addresses, mem_addressesFrom]
      cases up with
      | nil =>
        refine ⟨i, n, hn, ?_⟩
        rw [Nat.zero_add, Node.addresses_eq]
        exact List.mem_cons_self
      | cons j up =>
        obtain ⟨m, hm, hpart⟩ := exists_above hn
        have habove := ih m hm
        rw [Program.addresses, mem_addressesFrom] at habove
        obtain ⟨k, first, hfirst, hmem⟩ := habove
        rw [Nat.zero_add] at hmem
        refine ⟨k, first, hfirst, ?_⟩
        rw [Nat.zero_add]
        exact part_mem_addresses (p := p) (a := [k]) hfirst hmem hm hpart

theorem Program.addresses_nodup (p : Program) : p.addresses.Nodup := by
  have hnode := Node.addresses_nodup [] (.other default "" p.body)
  rw [Node.addresses] at hnode
  exact (List.nodup_cons.mp hnode).2

end LiveChain
