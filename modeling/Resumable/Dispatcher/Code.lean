/-
**The code of a dispatcher.**

For each role the instructions and the terminator of its block.  Code of the method is taken over
with its locals renumbered; a marker call becomes a test whether the future has settled, so that a
chain of settled futures never leaves the dispatcher.
-/

import Resumable.Dispatcher.Layout

set_option autoImplicit false

namespace Resumable

/-- The part of an exception region that lies in one segment. -/
structure RegionPiece where
  /-- The number of the region of the method. -/
  origin : Nat
  segment : Nat
  blocks : IdSet
  handler : Nat
  kind : RegionKind
deriving DecidableEq, Inhabited

namespace Dispatcher

/-- What a dispatcher is made from: the name it gets, the method without cleanup regions, its graph,
its suspension points and its segments. -/
structure Plan where
  name : String
  method : Method
  graph : Graph
  points : List Suspension
  segments : List Segment

namespace Plan

/-- The roles of the blocks. -/
def roles (p : Plan) : List Role := layout p.points p.segments

/-- The locals. -/
def slots (p : Plan) : Slots := Slots.ofMethod p.method

/-- The block with a role. -/
def block (p : Plan) (r : Role) : Nat := blockOf p.roles r

/-- The block with the code of a node. -/
def nodeBlock (p : Plan) (n : Nat) : Nat := p.block (.node n)

/-- The point with a number. -/
def point? (p : Plan) (k : Nat) : Option Suspension := p.points.find? (·.index == k)

/-! ### Protocol code -/

/-- Copies frame slots `0, 1, …` to locals of the method. -/
def restore (p : Plan) (ls : List Nat) : List Instr :=
  (ls.mapIdx fun i l => [Instr.frameLoad p.slots.frame i, .store (p.slots.local l)]).flatten

/-- Copies locals of the method to slots `0, 1, …` of the next frame. -/
def save (p : Plan) (ls : List Nat) : List Instr :=
  (ls.mapIdx fun i l => [Instr.load (p.slots.local l), .frameStore p.slots.next i]).flatten

/-- Drops the value of an awaited future that has none. -/
def dropVoid (ty : Ty) : List Instr := if ty.isVoid then [.pop] else []

/-- Gives the returned value to the outer future and returns that. -/
def fulfill (p : Plan) : List Instr :=
  (match p.slots.ret with
    | some r => [.store r, .load p.slots.outer, .load r]
    | none => [.load p.slots.outer, .push .null]) ++
  [.futureFulfill, .load p.slots.outer]

/-- Saves the locals in a new frame, has the dispatcher called when the future settles, and returns
the outer future. -/
def parkCode (p : Plan) (s : Suspension) : List Instr :=
  [.store p.slots.pending, .load p.slots.outer, .frameNew s.live.length, .store p.slots.next] ++
  p.save (s.live.map (·.1)) ++
  [.load p.slots.pending, .resume p.name s.index p.slots.next, .load p.slots.outer]

/-- The code of a node. -/
def nodeCode (p : Plan) (n : Node) : List Instr × Terminator :=
  let body := n.instrs.map (·.mapLocals p.slots.local)
  match n.exit with
  | .leave .ret => (body ++ p.fulfill, .ret)
  | .leave t => (body, t.mapTargets p.nodeBlock)
  | .suspend _ _ =>
    match pointAt? p.points n.id with
    | some s =>
      (body ++ [.dup, .futureIsDone],
        .branch (p.block (.fast s.index)) (p.block (.park s.index)))
    | none => (body, .unreachable)

/-- The states and the blocks that they start at. -/
def cases (p : Plan) : List (Int64 × Nat) :=
  (0, p.block .start) ::
    p.points.map fun s => (Int64.ofNat s.index, p.block (.resume s.index))

/-- **The code of a role.** -/
def code (p : Plan) : Role → List Instr × Terminator
  | .head =>
    ([.frameOuter p.slots.frame, .store p.slots.outer, .load p.slots.state],
      .switch p.cases (p.block .badState))
  | .start => (p.restore (p.method.params.map (·.id)), .goto (p.nodeBlock p.graph.entry))
  | .resume k =>
    match p.point? k with
    | some s =>
      (p.restore (s.live.map (·.1)) ++ [.load p.slots.resume, .outcomeUnwrap] ++ dropVoid s.ty,
        .goto (p.nodeBlock s.resume))
    | none => ([], .unreachable)
  | .node n =>
    match p.graph.node? n with
    | some node => p.nodeCode node
    | none => ([], .unreachable)
  | .fast k =>
    match p.point? k with
    | some s => (.futureJoin :: dropVoid s.ty, .goto (p.nodeBlock s.resume))
    | none => ([], .unreachable)
  | .park k =>
    match p.point? k with
    | some s => (p.parkCode s, .ret)
    | none => ([], .unreachable)
  | .fail =>
    ([.store p.slots.exc, .load p.slots.state, .push (.int 0), .binary .eq],
      .branch (p.block .rethrow) (p.block .reject))
  | .rethrow => ([.load p.slots.exc], .raise)
  | .reject =>
    ([.load p.slots.outer, .load p.slots.exc, .futureReject, .load p.slots.outer], .ret)
  | .badState => ([], .unreachable)

/-- The blocks. -/
def blocks (p : Plan) : List Block :=
  p.roles.mapIdx fun i r => { id := i, instrs := (p.code r).1, terminator := (p.code r).2 }

/-! ### The exception table -/

/-- The roles that stand for a covered node of a segment: its code and, where it ends with a marker,
the way on with a settled future. -/
def coveredRoles (p : Plan) (n : Nat) : List Role :=
  .node n :: ((pointAt? p.points n).map fun s => Role.fast s.index).toList

/-- The roles that a region covers in a segment.  The resumption is covered like the marker call it
continues: a failed future shows where the call stood. -/
def regionRoles (p : Plan) (r : GraphRegion) (s : Segment) : List Role :=
  (r.nodes.toList.filter fun n => owner? p.segments n = some s.index).flatMap p.coveredRoles ++
  (match p.point? s.index with
    | some q => if q.resume ∈ r.nodes then [.resume q.index] else []
    | none => [])

/-- The piece of a region in a segment, unless it is empty. -/
def piece? (p : Plan) (r : GraphRegion) (handler : Nat) (s : Segment) : Option RegionPiece :=
  let blocks := IdSet.ofList ((p.regionRoles r s).filterMap (blockOf? p.roles))
  if blocks.isEmpty then none
  else some { origin := r.origin, segment := s.index, blocks := blocks, handler := handler
              kind := r.kind }

/-- The pieces of all regions whose handlers control gets to, by priority and then by segment. -/
def pieces (p : Plan) : List RegionPiece :=
  p.graph.regions.flatMap fun r =>
    match blockOf? p.roles (.node r.handler) with
    | some handler => p.segments.filterMap (p.piece? r handler)
    | none => []

/-- Whether an exception in a block with this role goes to `fail` when no handler takes it. -/
def isGuarded : Role → Bool
  | .start | .resume _ | .node _ | .fast _ | .park _ => true
  | .head | .fail | .rethrow | .reject | .badState => false

/-- The blocks from which exceptions go to `fail`. -/
def guarded (p : Plan) : IdSet :=
  IdSet.ofList (p.roles.zipIdx.filterMap fun c => if isGuarded c.1 then some c.2 else none)

/-- The exception table: the pieces, then a region that catches everything. -/
def regions (p : Plan) : List Region :=
  (p.pieces.mapIdx fun i q =>
    { id := i, blocks := q.blocks, handler := q.handler, kind := q.kind }) ++
  [{ id := p.pieces.length, blocks := p.guarded, handler := p.block .fail, kind := .catchAll }]

/-- **The dispatcher**, a private generated method. -/
def dispatcher (p : Plan) : Method :=
  { name := p.name, params := params, ret := .future, locals := locals p.method
    blocks := p.blocks, entry := 0, regions := p.regions, annotations := []
    throws := p.method.throws
    flags := { isStatic := p.method.flags.isStatic, isSynthetic := true } }

end Plan

end Dispatcher

end Resumable
