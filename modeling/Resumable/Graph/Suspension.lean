/-
**Suspension points.**

The marker calls that control gets to, numbered from one in the order of a depth-first walk from the
entry that takes the successors of a node in the order in which they are written and then its
handlers by priority.  The number of a point is the state in which the converted method is resumed
there.
-/

import Resumable.Graph.Liveness

set_option autoImplicit false

namespace Resumable

/-- One marker call. -/
structure Suspension where
  /-- The state in which the method is resumed here. -/
  index : Nat
  /-- The node that ends with the marker call. -/
  node : Nat
  resume : Nat
  location : Location
  /-- The instruction that left the future on the stack, when it stands in the same node. -/
  producer : Option Location
  /-- The type of the awaited value. -/
  ty : Ty
  /-- Whether a handler of the method can see a failure of the awaited future. -/
  guarded : Bool
  /-- The locals saved while the method is parked. -/
  live : LiveSet
deriving DecidableEq, Inhabited

/-- The nodes that control gets to, in the order of the walk. -/
def Graph.walk (g : Graph) (reached : IdSet) : List Nat :=
  Search.preorder g.size (fun n => (g.next n).filter (· ∈ reached))
    ([g.entry].filter (· ∈ reached))

/-- Goes backwards through instructions, the last one first, to the one that pushes the value which
lies `depth` deep, counted from one, at their end; the answer counts from the first instruction. -/
def producerIndex? (depth : Nat) : List Instr → Option Nat
  | [] => none
  | i :: before =>
    if depth ≤ i.pushes then some before.length
    else producerIndex? (depth - i.pushes + i.pops) before

/-- The position of the instruction of the node that left on the stack what the marker takes. -/
def Node.producer? (n : Node) : Option Location :=
  (producerIndex? 1 n.instrs.reverse).map n.location

/-- The point at a node, if the node ends with a marker call. -/
def Graph.suspensionAt? (g : Graph) (m : Method) (reached : IdSet) (a : Liveness) (index : Nat)
    (n : Nat) : Option Suspension :=
  match g.node? n with
  | none => none
  | some node =>
    match node.exit with
    | .leave _ => none
    | .suspend marker resume =>
      some
        { index := index, node := n, resume := resume, location := node.exitLocation
          producer := node.producer?, ty := marker.ret
          guarded := !(g.covering n).isEmpty
          live := a.across g m reached n resume }

/-- The points at the given nodes, numbered from `index` on. -/
def Graph.suspensionsAlong (g : Graph) (m : Method) (reached : IdSet) (a : Liveness) (index : Nat) :
    List Nat → List Suspension
  | [] => []
  | n :: ns =>
    match g.suspensionAt? m reached a index n with
    | some s => s :: g.suspensionsAlong m reached a (index + 1) ns
    | none => g.suspensionsAlong m reached a index ns

/-- **The suspension points**, in the order of the walk. -/
def Graph.suspensions (g : Graph) (m : Method) (reached : IdSet) (a : Liveness) : List Suspension :=
  g.suspensionsAlong m reached a 1 (g.walk reached)

end Resumable
