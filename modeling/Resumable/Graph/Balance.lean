/-
**Stack depth and monitors along the flow.**

Along every path the operand stack must hold enough operands, monitors must be released in balance,
and paths that meet must agree on both.  A marker call is allowed only when the stack holds nothing
but the awaited future and no monitor is held.  The check follows control from the entry and gives
each node that it gets to its level: the stack depth and the number of monitors at its start.
-/

import Resumable.Graph

set_option autoImplicit false

namespace Resumable

/-- The depth of the operand stack and the number of monitors held. -/
structure Level where
  stack : Nat
  monitors : Nat
deriving DecidableEq, Inhabited

/-- The level at which a handler is entered: the stack holds the exception only. -/
def Level.caught (l : Level) : Level := { l with stack := 1 }

/-- A way from a position to a node, which is entered at a level. -/
structure Edge where
  target : Nat
  level : Level
  source : Location
deriving DecidableEq, Inhabited

/-! ### Through one node -/

/-- The level after an instruction. -/
def Instr.level (i : Instr) (l : Level) : Except Cause Level :=
  if l.stack < i.pops then .error (.underflow i.text)
  else
    let stack := l.stack - i.pops + i.pushes
    match i with
    | .monitorEnter => .ok ⟨stack, l.monitors + 1⟩
    | .monitorExit =>
      if l.monitors = 0 then .error .unmatchedMonitorExit else .ok ⟨stack, l.monitors - 1⟩
    | _ => .ok ⟨stack, l.monitors⟩

/-- The edges to the handlers from a position. -/
def caughtEdges (handlers : List Nat) (l : Level) (source : Location) : List Edge :=
  handlers.map fun h => ⟨h, l.caught, source⟩

/-- The edges to the handlers from a run of instructions, and the level after it. -/
def throughInstrs (handlers : List Nat) (origin : Nat) (offset : Nat) (l : Level) :
    List Instr → Except Defect (List Edge × Level)
  | [] => .ok ([], l)
  | i :: is =>
    match i.level l with
    | .error c => .error ⟨⟨origin, offset⟩, c⟩
    | .ok after =>
      match throughInstrs handlers origin (offset + 1) after is with
      | .error d => .error d
      | .ok (es, last) =>
        let here := if i.mayThrow then caughtEdges handlers l ⟨origin, offset⟩ else []
        .ok (here ++ es, last)

/-- The edges from a terminator. -/
def Terminator.edges (t : Terminator) (ret : Ty) (handlers : List Nat) (l : Level)
    (source : Location) : Except Cause (List Edge) :=
  if l.stack < t.pops ret then .error (.underflow t.text)
  else
    let after : Level := ⟨l.stack - t.pops ret, l.monitors⟩
    match t with
    | .raise => .ok (caughtEdges handlers l source)
    | .ret => if l.monitors = 0 then .ok [] else .error (.returnsHolding l.monitors)
    | .endCleanup => .error .strayEndCleanup
    | t => .ok (t.successors.map fun s => ⟨s, after, source⟩)

/-- The edges from a marker call. -/
def suspendEdges (marker : Callee) (resume : Nat) (handlers : List Nat) (l : Level)
    (source : Location) : Except Cause (List Edge) :=
  if l.stack = 0 then .error .noFuture
  else if l.stack ≠ 1 then .error (.valuesBeneath (l.stack - 1))
  else if l.monitors ≠ 0 then .error (.suspendsHolding l.monitors)
  else .ok (caughtEdges handlers l source ++ [⟨resume, ⟨marker.ret.slots, 0⟩, source⟩])

/-- The edges from a node that is entered at a level. -/
def Node.edges (n : Node) (ret : Ty) (handlers : List Nat) (l : Level) :
    Except Defect (List Edge) :=
  match throughInstrs handlers n.origin n.start l n.instrs with
  | .error d => .error d
  | .ok (es, last) =>
    let ending :=
      match n.exit with
      | .suspend marker resume => suspendEdges marker resume handlers last n.exitLocation
      | .leave t => t.edges ret handlers last n.exitLocation
    match ending with
    | .error c => .error ⟨n.exitLocation, c⟩
    | .ok fs => .ok (es ++ fs)

/-! ### Through the graph -/

/-- The levels known so far and the nodes whose edges are still to be followed. -/
structure Spread where
  levels : List (Option Level)
  queue : List Nat

namespace Spread

/-- The number of nodes without a level, and of nodes to be followed. -/
def work (s : Spread) : Nat := s.levels.countP Option.isNone + s.queue.length

/-- Takes in an edge: a node that is entered for the first time gets its level, any other must be
entered at the level it has. -/
def absorb (g : Graph) (s : Spread) (e : Edge) : Except Defect Spread :=
  match s.levels[e.target]? with
  | none => .ok s
  | some none =>
    .ok { levels := s.levels.set e.target (some e.level), queue := s.queue ++ [e.target] }
  | some (some l) =>
    if l = e.level then .ok s
    else
      let meeting := ((g.node? e.target).map (·.location 0)).getD ⟨e.target, 0⟩
      if l.stack = e.level.stack then
        .error ⟨e.source, .monitorMismatch e.level.monitors l.monitors meeting⟩
      else .error ⟨e.source, .depthMismatch e.level.stack l.stack meeting⟩

/-- Takes in edges one after the other. -/
def absorbAll (g : Graph) (s : Spread) : List Edge → Except Defect Spread
  | [] => .ok s
  | e :: es =>
    match s.absorb g e with
    | .error d => .error d
    | .ok s' => s'.absorbAll g es

theorem countP_set_none {levels : List (Option Level)} {n : Nat} {l : Level}
    (h : levels[n]? = some none) :
    (levels.set n (some l)).countP Option.isNone + 1 = levels.countP Option.isNone := by
  induction levels generalizing n with
  | nil => simp at h
  | cons x xs ih =>
    cases n with
    | zero =>
      simp only [List.getElem?_cons_zero, Option.some.injEq] at h
      subst h
      simp
    | succ n =>
      simp only [List.getElem?_cons_succ] at h
      have := ih h
      simp only [List.set_cons_succ, List.countP_cons]
      omega

/-- Taking in an edge leaves the work as it is. -/
theorem work_absorb {g : Graph} {s t : Spread} {e : Edge} (h : s.absorb g e = .ok t) :
    t.work = s.work := by
  unfold absorb at h
  split at h
  · cases h
    rfl
  · rename_i hn
    cases h
    have := countP_set_none (l := e.level) hn
    simp only [work, List.length_append, List.length_cons, List.length_nil]
    omega
  · split at h
    · cases h
      rfl
    · split at h <;> cases h

theorem work_absorbAll {g : Graph} {es : List Edge} {s t : Spread} (h : s.absorbAll g es = .ok t) :
    t.work = s.work := by
  induction es generalizing s with
  | nil =>
    cases h
    rfl
  | cons e es ih =>
    unfold absorbAll at h
    split at h
    · cases h
    · rename_i hs
      rw [ih h, work_absorb hs]

end Spread

namespace Graph

/-- The edges from the node with the given number, entered at a level. -/
def edgesOf (g : Graph) (ret : Ty) (n : Nat) (l : Level) : Except Defect (List Edge) :=
  match g.node? n with
  | some node => node.edges ret (g.handlers n) l
  | none => .ok []

/-- Follows the edges of the nodes in the queue, first come first served, until none is left. -/
def spread (g : Graph) (ret : Ty) (levels : List (Option Level)) (queue : List Nat) :
    Except Defect (List (Option Level)) :=
  match queue with
  | [] => .ok levels
  | n :: rest =>
    match levels[n]?.join with
    | none => g.spread ret levels rest
    | some l =>
      match g.edgesOf ret n l with
      | .error d => .error d
      | .ok es =>
        match _h : Spread.absorbAll g ⟨levels, rest⟩ es with
        | .error d => .error d
        | .ok s => g.spread ret s.levels s.queue
termination_by levels.countP Option.isNone + queue.length
decreasing_by
  · simp
  · have := Spread.work_absorbAll _h
    simp only [Spread.work] at this
    simp only [List.length_cons]
    omega

/-- **The level of every node that control gets to**, or the first defect on the way. -/
def balance (g : Graph) (ret : Ty) : Except Defect (List (Option Level)) :=
  g.spread ret ((List.replicate g.size none).set g.entry (some ⟨0, 0⟩)) [g.entry]

/-- The nodes that have a level. -/
def reached (levels : List (Option Level)) : IdSet :=
  IdSet.ofList (levels.zipIdx.filterMap fun c => if c.1.isSome then some c.2 else none)

/-- Markers of the given method, which has `blocks` blocks, in nodes that control does not get to.
Nodes of copied blocks do not count. -/
def unenteredDefects (g : Graph) (reached : IdSet) (blocks : Nat) : List Defect :=
  g.nodes.filterMap fun n =>
    if n.isSuspend ∧ ¬ n.id ∈ reached ∧ n.origin < blocks then
      some ⟨n.exitLocation, .unreachableSuspension⟩
    else none

end Graph

end Resumable
