/-
**Segments.**

Segment 0 starts at the entry of the method, segment `k` where point `k` resumes.  A node belongs to
the first segment that gets to it without crossing a marker.  So what follows the back edge of a
loop stays with the segment that entered the loop first, and a loop has as many segments of its own
as it has markers.
-/

import Resumable.Graph.Suspension

set_option autoImplicit false

namespace Resumable

/-- A way out of a segment. -/
inductive SegmentExit where
  | suspends (point : Nat)
  | returns
  | throws
  /-- Control goes on in a node of an earlier segment. -/
  | continues (segment : Nat)
deriving DecidableEq, Inhabited

/-- A segment. -/
structure Segment where
  index : Nat
  entry : Nat
  /-- The nodes that belong to the segment, in order of discovery. -/
  nodes : List Nat
  /-- The locals that have their values where the segment starts. -/
  live : LiveSet
  exits : List SegmentExit
deriving DecidableEq, Inhabited

/-- The segment that a node belongs to. -/
def owner? (segments : List Segment) (n : Nat) : Option Nat :=
  (segments.find? (n ∈ ·.nodes)).map (·.index)

/-- The point at a node. -/
def pointAt? (points : List Suspension) (n : Nat) : Option Suspension :=
  points.find? (·.node == n)

/-- The items without the repetitions. -/
def firstOccurrences {α : Type} [DecidableEq α] (items : List α) : List α :=
  items.foldl (fun done x => if x ∈ done then done else done ++ [x]) []

namespace Graph

/-- The nodes that control can go to without crossing a marker: the successors, unless the node ends
with a marker, and the handlers. -/
def withinSegment (g : Graph) (n : Nat) : List Nat :=
  match g.node? n with
  | none => []
  | some node =>
    match node.exit with
    | .leave _ => g.next n
    | .suspend _ _ => g.handlers n

/-- The way out of a segment that a step of its search shows: a node met for the first time ends
with a marker, returns or throws; a node met again belongs to an earlier segment. -/
def exitOf? (g : Graph) (points : List Suspension) (earlier : List Segment) :
    Visit → Option SegmentExit
  | .again n => (owner? earlier n).map .continues
  | .fresh n =>
    match (g.node? n).map Node.exit with
    | some (.suspend _ _) => (pointAt? points n).map fun p => .suspends p.index
    | some (.leave .ret) => some .returns
    | some (.leave .raise) => some .throws
    | _ => none

/-- The segment that starts at a node, given the earlier ones. -/
def segmentFrom (g : Graph) (reached : IdSet) (points : List Suspension) (earlier : List Segment)
    (index : Nat) (entry : Nat) (live : LiveSet) : Segment :=
  let visits := Search.visits g.size (fun n => (g.withinSegment n).filter (· ∈ reached))
    ([entry].filter (· ∈ reached)) (earlier.flatMap (·.nodes))
  { index := index, entry := entry
    nodes := visits.filterMap Visit.fresh?
    live := live
    exits := firstOccurrences (visits.filterMap (g.exitOf? points earlier)) }

/-- **The segments**: the entry's, then one for each point. -/
def segments (g : Graph) (m : Method) (reached : IdSet) (points : List Suspension) : List Segment :=
  let params := m.params.foldl (fun s p => LiveSet.insert p.id p.ty s) []
  points.foldl (fun done p => done ++ [g.segmentFrom reached points done p.index p.resume p.live])
    [g.segmentFrom reached points [] 0 g.entry params]

end Graph

end Resumable
