/-
**Converting methods.**

A method that calls a suspend marker is replaced by an entry and a dispatcher; any other method
stays as it is.
-/

import Resumable.Code.Cleanup
import Resumable.Dispatcher.Code
import Resumable.Dispatcher.Entry
import Resumable.Graph.Balance
import Resumable.Options

set_option autoImplicit false

namespace Resumable

/-! ### Analysis -/

/-- What is found out about a method without cleanup regions whose flow is in balance. -/
structure Analysis where
  method : Method
  graph : Graph
  reached : IdSet
  liveness : Liveness
  walk : List Nat
  points : List Suspension
  segments : List Segment

namespace Analysis

/-- The analysis of a method, given its graph and the nodes that control gets to. -/
def ofGraph (m : Method) (g : Graph) (reached : IdSet) : Analysis :=
  let liveness := g.liveness reached (m.params.map (·.id))
  let points := g.suspensions m reached liveness
  { method := m, graph := g, reached := reached, liveness := liveness, walk := g.walk reached
    points := points, segments := g.segments m reached points }

/-- The plan of the dispatcher. -/
def plan (a : Analysis) (name : String) : Dispatcher.Plan :=
  { name := name, method := a.method, graph := a.graph, points := a.points, segments := a.segments }

end Analysis

/-! ### Conversion -/

/-- What a method is replaced by, and what shaped it. -/
structure Conversion.Pair where
  entry : Method
  dispatcher : Method
  points : List Suspension
  segments : List Segment
  pieces : List RegionPiece
deriving DecidableEq, Inhabited

/-- The result of converting a method. -/
inductive Conversion where
  | converted (pair : Conversion.Pair)
  /-- The method calls no marker. -/
  | unchanged (m : Method)
deriving DecidableEq, Inhabited

/-- The methods that take the place of the given one. -/
def Conversion.methods : Conversion → List Method
  | .converted pair => [pair.entry, pair.dispatcher]
  | .unchanged m => [m]

namespace Method

/-- Whether the method calls a marker. -/
def suspends (m : Method) (o : Options) : Bool := m.callsAny o.isMarker

/-- The checks of the method as it is given, one after the other. -/
def check (m : Method) (o : Options) : Except Defect Unit := do
  report m.referenceDefects
  report (m.arityDefects o.isMarker)
  report m.shapeDefects
  report (m.deadMarkerDefects o.isMarker)

/-- The analysis of a method that passes all checks. -/
def analyze (m : Method) (o : Options) : Except Defect Analysis := do
  m.check o
  let n ← m.withoutCleanup
  let g := Graph.ofMethod n o.isMarker
  let levels ← g.balance n.ret
  let reached := Graph.reached levels
  report (g.unenteredDefects reached m.blocks.length)
  return Analysis.ofGraph n g reached

/-- The entry and the dispatcher of an analysed method. -/
def pair (m : Method) (o : Options) (a : Analysis) : Conversion.Pair :=
  let plan := a.plan (o.dispatcherName m.name)
  { entry := Dispatcher.entry m plan.name, dispatcher := plan.dispatcher, points := a.points
    segments := a.segments, pieces := plan.pieces }

/-- **Converts a method** of the class with the given name. -/
def convert (m : Method) (cls : String) (o : Options) : Except Rejection Conversion :=
  if m.suspends o then
    match m.analyze o with
    | .ok a => .ok (.converted (m.pair o a))
    | .error d => .error (d.ofMethod (m.qualified cls))
  else .ok (.unchanged m)

end Method

end Resumable
