/-
**The blocks of a dispatcher.**

A dispatcher is one method that stands for all segments of a converted method.  Each of its blocks
has a role.  The layout lists the roles in order, and the number of a block is the position of its
role:

* `head` reads the state and goes to `start` or to the block of a resumption;
* `start` restores the arguments; `resume k` restores the locals saved at point `k` and takes the
  outcome of the awaited future;
* `node n` holds the code of node `n`; where the node ends with marker `k`, `fast k` goes on at once
  with the value of a settled future, and `park k` saves the locals and leaves;
* `fail` gets every exception that leaves the method: `rethrow` throws it to the caller in state 0,
  and `reject` gives it to the outer future otherwise;
* `badState` is for states that do not exist.
-/

import Resumable.Graph.Segment

set_option autoImplicit false

namespace Resumable.Dispatcher

/-! ### Roles -/

/-- What a block of a dispatcher is for. -/
inductive Role where
  | head
  | start
  | resume (point : Nat)
  | node (n : Nat)
  | fast (point : Nat)
  | park (point : Nat)
  | fail
  | rethrow
  | reject
  | badState
deriving DecidableEq, Inhabited

/-- The roles of a node: its code and, if it ends with a marker, what follows. -/
def nodeRoles (points : List Suspension) (n : Nat) : List Role :=
  match pointAt? points n with
  | some p => [.node n, .fast p.index, .park p.index]
  | none => [.node n]

/-- The roles of a segment: its resumption, unless it is the first, and its nodes. -/
def segmentRoles (points : List Suspension) (s : Segment) : List Role :=
  (if s.index = 0 then [] else [.resume s.index]) ++ s.nodes.flatMap (nodeRoles points)

/-- The roles of all blocks, in order. -/
def layout (points : List Suspension) (segments : List Segment) : List Role :=
  [.head, .start] ++ segments.flatMap (segmentRoles points) ++ [.fail, .rethrow, .reject, .badState]

/-- The block with a role; a role that is not laid out has the block of `badState`. -/
def blockOf (roles : List Role) (r : Role) : Nat :=
  if r ∈ roles then roles.idxOf r else roles.idxOf .badState

/-- The block with a role, if it is laid out. -/
def blockOf? (roles : List Role) (r : Role) : Option Nat :=
  if r ∈ roles then some (roles.idxOf r) else none

/-! ### Locals -/

/-- The locals of a dispatcher that its own code uses, and where the locals of the method went. -/
structure Slots where
  state : Nat
  resume : Nat
  frame : Nat
  outer : Nat
  pending : Nat
  next : Nat
  /-- Where the returned value is kept, if there is one. -/
  ret : Option Nat
  exc : Nat
  /-- The locals of the method with their numbers in the dispatcher. -/
  moved : List (Nat × Nat)
deriving DecidableEq

/-- The number of a local of the method in the dispatcher. -/
def Slots.local (s : Slots) (l : Nat) : Nat := (s.moved.lookup l).getD l

/-- The locals of the dispatcher of a method: the three parameters, the locals of the method, then
those of its own.  If the method declares a local twice, the later declaration counts. -/
def Slots.ofMethod (m : Method) : Slots :=
  let own := 3 + m.locals.length
  let valued := !m.ret.isVoid
  { state := 0, resume := 1, frame := 2, outer := own, pending := own + 1, next := own + 2
    ret := if valued then some (own + 3) else none
    exc := if valued then own + 4 else own + 3
    moved := (m.locals.mapIdx fun i l => (l.id, 3 + i)).reverse }

/-- The declarations of the parameters of a dispatcher. -/
def params : List Local :=
  [⟨0, some "__state", .int, true⟩, ⟨1, some "__resume", .outcome, true⟩,
    ⟨2, some "__frame", .frame, true⟩]

/-- The declarations of all locals of the dispatcher of a method. -/
def locals (m : Method) : List Local :=
  let s := Slots.ofMethod m
  params ++ m.locals.mapIdx (fun i l => ⟨3 + i, l.name, l.ty, false⟩) ++
  [⟨s.outer, some "__outer", .future, false⟩, ⟨s.pending, some "__pending", .future, false⟩,
    ⟨s.next, some "__next", .frame, false⟩] ++
  (s.ret.map fun r => (⟨r, some "__ret", m.ret, false⟩ : Local)).toList ++
  [⟨s.exc, some "__exc", .object "Throwable", false⟩]

end Resumable.Dispatcher
