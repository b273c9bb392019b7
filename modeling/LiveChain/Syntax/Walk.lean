import LiveChain.Syntax.Node

/-!
# Walking a syntax tree

A walk visits every node before its parts and the parts in order. Each visited node comes with
the way that leads to it.
-/

set_option autoImplicit false

namespace LiveChain

/-- The place of a node in its parent: the `index`-th argument of a call, together with the name
that the call goes by; the operand of a unary operator; or anywhere else. -/
inductive Crumb where
  | argument (callee : Option (String × Int)) (index : Nat)
  | operand (operator : String) (span : Span)
  | elsewhere

/-- A node together with the way up to the root. -/
structure Visit where
  node : Node
  path : List Crumb

mutual

def Node.visits (path : List Crumb) : Node → List Visit
  | .literal s v r => [⟨.literal s v r, path⟩]
  | .identifier s n => [⟨.identifier s n, path⟩]
  | .member s o p ps => ⟨.member s o p ps, path⟩ :: Node.visits (.elsewhere :: path) o
  | .call s c as =>
    ⟨.call s c as, path⟩ ::
      (Node.visits (.elsewhere :: path) c ++ Node.argumentVisits c.calleeName? path 0 as)
  | .unary s o a => ⟨.unary s o a, path⟩ :: Node.visits (.operand o s :: path) a
  | .other s k ns => ⟨.other s k ns, path⟩ :: Node.visitsAll path ns

/-- The visits of the arguments of a call, numbered from `index`. -/
def Node.argumentVisits (callee : Option (String × Int)) (path : List Crumb) :
    Nat → List Node → List Visit
  | _, [] => []
  | index, a :: rest =>
    Node.visits (.argument callee index :: path) a ++
      Node.argumentVisits callee path (index + 1) rest

def Node.visitsAll (path : List Crumb) : List Node → List Visit
  | [] => []
  | n :: rest => Node.visits (.elsewhere :: path) n ++ Node.visitsAll path rest

end

def Program.visits (p : Program) : List Visit := Node.visitsAll [] p.body

end LiveChain
