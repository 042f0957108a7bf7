/-
**Live locals.**

A local is live at the start of a node if it is used on some path from there before it is stored.
Exceptions count: before each instruction that may throw, and at the end of a node, control can go
to every handler that covers the node.  For each local this is a search: it starts at the nodes that
use the local before storing it and goes backwards through nodes that let the local pass.

A local may be defined at the end of a node if it is a parameter or stored in some node on a path to
that node.

What has to be saved when a method is parked is what is live where it goes on, or in a handler
there, and may have been defined before.
-/

import Resumable.Graph

set_option autoImplicit false

namespace Resumable

/-! ### One local and one node -/

/-- The instructions before the first one that stores `l`. -/
def beforeStore (l : Nat) (is : List Instr) : List Instr := is.takeWhile (·.defines? ≠ some l)

namespace Node

/-- Whether the node uses `l` before it stores it. -/
def exposes (n : Node) (l : Nat) : Bool := (beforeStore l n.instrs).any (·.uses? = some l)

/-- Whether the node leaves `l` as it is from its start to its end. -/
def passes (n : Node) (l : Nat) : Bool := n.instrs.all (·.defines? ≠ some l)

/-- Whether an exception can leave the node before `l` is stored. -/
def passesThrow (n : Node) (l : Nat) : Bool :=
  n.passes l || (beforeStore l n.instrs).any (·.mayThrow)

/-- The locals that the node stores. -/
def stored (n : Node) : List Nat := n.instrs.filterMap (·.defines?)

/-- The locals that the node uses. -/
def used (n : Node) : List Nat := n.instrs.filterMap (·.uses?)

end Node

namespace Graph

/-! ### Searches -/

/-- Whether control can carry the value of `l` from the start of node `p` to the start of node
`q`. -/
def carries (g : Graph) (l : Nat) (p q : Nat) : Bool :=
  match g.node? p with
  | some node =>
    (node.passes l && q ∈ node.successors) || (node.passesThrow l && q ∈ g.handlers p)
  | none => false

/-- The nodes among `reached` at whose start `l` is live. -/
def liveNodes (g : Graph) (reached : IdSet) (l : Nat) : List Nat :=
  Search.preorder g.size (fun q => reached.toList.filter fun p => g.carries l p q)
    (reached.toList.filter fun p => ((g.node? p).map (·.exposes l)).getD false)

/-- The nodes among `reached` from which control can get to `n`, itself included. -/
def ancestors (g : Graph) (reached : IdSet) (n : Nat) : List Nat :=
  Search.preorder g.size (fun q => reached.toList.filter fun p => q ∈ g.next p) [n]

end Graph

/-! ### The analysis -/

/-- What is known about the locals of a graph. -/
structure Liveness where
  /-- The locals that are used, each with the nodes at whose start it is live. -/
  live : List (Nat × IdSet)
  /-- The locals that are given a value by the caller. -/
  params : List Nat
deriving DecidableEq

/-- The analysis of the part of a graph that control gets to. -/
def Graph.liveness (g : Graph) (reached : IdSet) (params : List Nat) : Liveness :=
  let used := IdSet.ofList (g.nodes.flatMap Node.used)
  { live := used.toList.map fun l => (l, IdSet.ofList (g.liveNodes reached l)), params := params }

namespace Liveness

/-- The locals that are live at the start of a node. -/
def liveIn (a : Liveness) (n : Nat) : IdSet :=
  IdSet.ofList ((a.live.filter (n ∈ ·.2)).map (·.1))

/-- The locals that may be defined at the end of a node. -/
def definedOut (a : Liveness) (g : Graph) (reached : IdSet) (n : Nat) : IdSet :=
  IdSet.ofList (a.params ++
    (g.ancestors reached n).flatMap fun p => ((g.node? p).map Node.stored).getD [])

end Liveness

/-! ### Saved locals -/

/-- Locals with their types, in ascending order: the position of a local is its frame slot. -/
abbrev LiveSet := List (Nat × Ty)

/-- The set with a local added; a local that is there gets the new type. -/
def LiveSet.insert (l : Nat) (ty : Ty) : LiveSet → LiveSet
  | [] => [(l, ty)]
  | p :: ps =>
    if l < p.1 then (l, ty) :: p :: ps
    else if l = p.1 then (l, ty) :: ps
    else p :: LiveSet.insert l ty ps

/-- The locals that are live at the start of a node or in a handler that covers it. -/
def Liveness.needed (a : Liveness) (g : Graph) (n : Nat) : IdSet :=
  (g.handlers n).foldl (fun s h => s.union (a.liveIn h)) (a.liveIn n)

/-- **The locals to save** when the method is parked at the end of node `suspend` and goes on at
node `resume`. -/
def Liveness.across (a : Liveness) (g : Graph) (m : Method) (reached : IdSet)
    (suspend resume : Nat) : LiveSet :=
  let defined := a.definedOut g reached suspend
  (((a.needed g resume).filter (· ∈ defined)).toList).map fun l => (l, m.localTy l)

end Resumable
