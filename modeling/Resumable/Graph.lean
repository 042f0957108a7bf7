/-
**The flow graph of a method, cut at its markers.**

Every block becomes a chain of nodes: a marker call ends a node, and what follows it in the block
starts the next.  The first node of block `b` has the number `b`, so the targets of terminators are
numbers of nodes; the nodes after markers are numbered from the number of blocks on, block by block.
-/

import Resumable.Code.Check

set_option autoImplicit false

namespace Resumable

/-- How a node ends. -/
inductive Exit where
  /-- With the terminator of the block. -/
  | leave (t : Terminator)
  /-- With a marker call, which takes the future on the stack; `resume` is what follows. -/
  | suspend (marker : Callee) (resume : Nat)
deriving DecidableEq, Inhabited

/-- A piece of a block without marker calls. -/
structure Node where
  id : Nat
  origin : Nat
  /-- The offset of the first instruction in its block. -/
  start : Nat
  instrs : List Instr
  exit : Exit
deriving DecidableEq, Inhabited

namespace Node

/-- The position of the instruction with the given index. -/
def location (n : Node) (index : Nat) : Location := ⟨n.origin, n.start + index⟩

/-- The position of the marker call or terminator that ends the node. -/
def exitLocation (n : Node) : Location := n.location n.instrs.length

/-- The nodes that control goes to when nothing is thrown, in the order in which they are written.
-/
def successors (n : Node) : List Nat :=
  match n.exit with
  | .leave t => t.successors
  | .suspend _ resume => [resume]

/-- Whether the node ends with a marker call. -/
def isSuspend (n : Node) : Bool :=
  match n.exit with
  | .suspend _ _ => true
  | .leave _ => false

end Node

/-- An exception region over nodes. -/
structure GraphRegion where
  /-- The number of the region of the method. -/
  origin : Nat
  nodes : IdSet
  handler : Nat
  kind : RegionKind
deriving DecidableEq, Inhabited

/-- A flow graph; the number of a node is its position. -/
structure Graph where
  nodes : List Node
  entry : Nat
  /-- In order of priority. -/
  regions : List GraphRegion
deriving DecidableEq, Inhabited

/-! ### Cutting blocks -/

/-- Instructions between markers: the offset of the first, the instructions, and the marker call
that follows, if one does. -/
structure Piece where
  start : Nat
  instrs : List Instr
  marker : Option Callee
deriving DecidableEq

/-- The instruction put in front of a list of pieces. -/
def Piece.prepend (start : Nat) (i : Instr) : List Piece → List Piece
  | [] => [⟨start, [i], none⟩]
  | p :: ps => ⟨start, i :: p.instrs, p.marker⟩ :: ps

/-- Instructions cut at the marker calls; `start` is the offset of the first. -/
def cut (isMarker : String → Bool) (start : Nat) : List Instr → List Piece
  | [] => [⟨start, [], none⟩]
  | i :: is =>
    match i.callee? isMarker with
    | some callee => ⟨start, [], some callee⟩ :: cut isMarker (start + 1) is
    | none => Piece.prepend start i (cut isMarker (start + 1) is)

/-- The nodes of the pieces of a block: the first one is numbered `id`, those after it from `next`
on. -/
def chain (origin : Nat) (t : Terminator) (id next : Nat) : List Piece → List Node
  | [] => []
  | p :: ps =>
    let exit :=
      match p.marker with
      | some callee => .suspend callee next
      | none => .leave t
    { id := id, origin := origin, start := p.start, instrs := p.instrs, exit := exit } ::
      chain origin t next (next + 1) ps

/-- The chains of all blocks; `next` is the first number that no chain has used. -/
def chains (isMarker : String → Bool) (next : Nat) : List Block → List (List Node)
  | [] => []
  | b :: bs =>
    let c := chain b.id b.terminator b.id next (cut isMarker 0 b.instrs)
    c :: chains isMarker (next + (c.length - 1)) bs

namespace Graph

/-- **The flow graph of a method.**  A region of the graph has the chains of the blocks that the
region of the method has. -/
def ofMethod (m : Method) (isMarker : String → Bool) : Graph :=
  let cs := chains isMarker m.blocks.length m.blocks
  { nodes := cs.flatMap (·.take 1) ++ cs.flatMap (·.drop 1)
    entry := m.entry
    regions := m.regions.map fun r =>
      { origin := r.id
        nodes := IdSet.ofList (r.blocks.toList.flatMap fun b => (cs[b]?.getD []).map (·.id))
        handler := r.handler
        kind := r.kind } }

/-! ### Look-up -/

/-- The number of nodes. -/
def size (g : Graph) : Nat := g.nodes.length

/-- The node with the given number. -/
def node? (g : Graph) (n : Nat) : Option Node := g.nodes[n]?

/-- The regions that cover a node, in order of priority. -/
def covering (g : Graph) (n : Nat) : List GraphRegion := g.regions.filter (n ∈ ·.nodes)

/-- The handlers of the regions that cover a node, in order of priority. -/
def handlers (g : Graph) (n : Nat) : List Nat := (g.covering n).map (·.handler)

/-- The nodes that control goes to when nothing is thrown. -/
def successors (g : Graph) (n : Nat) : List Nat :=
  match g.node? n with
  | some node => node.successors
  | none => []

/-- The nodes that control can go to: the successors, then the handlers. -/
def next (g : Graph) (n : Nat) : List Nat := g.successors n ++ g.handlers n

end Graph

end Resumable
