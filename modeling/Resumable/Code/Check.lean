/-
**Checks of a method before it is converted.**

Each check lists all the defects of one sort in the order in which they are met; a method passes
when the list is empty, and otherwise its first defect is reported.
-/

import Resumable.Rejection
import Resumable.Search

set_option autoImplicit false

namespace Resumable

/-- The first of the defects, if there is one, is reported. -/
def report (ds : List Defect) : Except Defect Unit :=
  match ds with
  | [] => .ok ()
  | d :: _ => .error d

theorem report_eq_ok_iff {ds : List Defect} : report ds = .ok () ↔ ds = [] := by
  cases ds <;> simp [report]

namespace Method

/-! ### References -/

/-- Undeclared locals of an instruction. -/
def instrDefects (m : Method) (at' : Location) (i : Instr) : List Defect :=
  (i.uses?.toList ++ i.defines?.toList).filterMap fun l =>
    if (m.local? l).isNone then some ⟨at', .undeclaredLocal l⟩ else none

/-- A wrong number, undeclared locals and missing targets of the block at a position. -/
def blockDefects (m : Method) (position : Nat) (b : Block) : List Defect :=
  (if b.id = position then [] else [⟨⟨position, 0⟩, .misnumberedBlock position b.id⟩]) ++
  b.instrs.zipIdx.flatMap (fun c => m.instrDefects ⟨b.id, c.2⟩ c.1) ++
  b.terminator.successors.filterMap fun target =>
    if target < m.blocks.length then none
    else some ⟨⟨b.id, b.instrs.length⟩, .missingTarget target⟩

/-- A missing handler and missing blocks of a region. -/
def regionDefects (m : Method) (r : Region) : List Defect :=
  (if r.handler < m.blocks.length then [] else [⟨⟨r.handler, 0⟩, .missingHandler r.id⟩]) ++
  r.blocks.toList.filterMap fun b =>
    if b < m.blocks.length then none else some ⟨⟨b, 0⟩, .missingCovered r.id⟩

/-- Whatever the method names must exist. -/
def referenceDefects (m : Method) : List Defect :=
  (if m.entry < m.blocks.length then [] else [⟨⟨m.entry, 0⟩, .missingEntry⟩]) ++
  m.blocks.zipIdx.flatMap (fun c => m.blockDefects c.2 c.1) ++
  m.regions.flatMap m.regionDefects

/-! ### The shape of the exception table -/

/-- How a region conflicts with one that is listed after it. -/
def clash? (first second : Region) : Option Defect :=
  match (first.blocks.filter (· ∈ second.blocks)).toList with
  | [] => none
  | shared :: _ =>
    let inner := first.blocks.isSubset second.blocks
    let outer := second.blocks.isSubset first.blocks
    let defect (c : RegionClash) : Defect :=
      ⟨⟨shared, 0⟩, .ambiguousRegions first.id second.id first.handler second.handler c⟩
    if !inner && !outer then some (defect .overlap)
    else if outer && !inner then some (defect .outerFirst)
    else none

/-- The conflicts between any two regions of a table. -/
def clashes : List Region → List Defect
  | [] => []
  | r :: rs => rs.filterMap (clash? r) ++ clashes rs

/-- Regions must nest, and an inner one must come before those that strictly contain it. -/
def shapeDefects (m : Method) : List Defect := clashes m.regions

/-! ### Markers -/

/-- A marker call must take exactly the awaited future. -/
def arityDefects (m : Method) (isMarker : String → Bool) : List Defect :=
  m.blocks.flatMap fun b => b.instrs.zipIdx.filterMap fun c =>
    match c.1.callee? isMarker with
    | some callee =>
      if callee.argc = 1 then none
      else some ⟨⟨b.id, c.2⟩, .markerArity callee.name callee.argc⟩
    | none => none

/-- The blocks that control can get to from the entry, exceptions included.  A block that is named
but missing counts. -/
def reachable (m : Method) : IdSet :=
  IdSet.ofList (Search.preorder m.blocks.length m.exits [m.entry])

/-- A marker in dead code would get a state that nothing can enter. -/
def deadMarkerDefects (m : Method) (isMarker : String → Bool) : List Defect :=
  let live := m.reachable
  m.blocks.filterMap fun b =>
    if b.id ∈ live then none
    else (b.instrs.findIdx? fun i => (i.callee? isMarker).isSome).map fun offset =>
      ⟨⟨b.id, offset⟩, .unreachableSuspension⟩

end Method

end Resumable
