/-
**Checked passes over the flow graph.**

The graph of a sound method has its nodes at their numbers, and whatever a node can go to is a node.
So the check of the levels finds all that it looks up, and it takes as many steps as there are
nodes.  The counts of operands and monitors go down only after a test.

Main results:

* `Checked.graph_eq`, `Checked.balance_eq` — **the passes over the graph of a sound method never get
  stuck**.
-/

import Resumable.Proofs.CheckedCleanup
import Resumable.Proofs.LiveRounds

set_option autoImplicit false

namespace Resumable.Checked

open List

theorem forM_some {α : Type} {f : α → Option Unit} {xs : List α} (h : ∀ x ∈ xs, f x = some ()) :
    xs.forM f = some () := by
  induction xs with
  | nil => rfl
  | cons x xs ih =>
    rw [forM_eq_forM, forM_cons, h x (mem_cons_self ..)]
    exact ih fun y hy => h y (mem_cons_of_mem _ hy)

/-! ### The graph -/

/-- Gets stuck if the node is not in the graph, or its instructions are not in its block. -/
def placed (m : Method) (g : Graph) (n : Node) : Option Unit := do
  within g.size [n.id]
  let block ← m.block? n.origin
  within (block.instrs.length + 1) [n.start + n.instrs.length]

/-- The flow graph of a method. -/
def graph (m : Method) (isMarker : String → Bool) : Option Graph := do
  within m.blocks.length (m.blocks.map (·.id) ++ m.regions.flatMap (·.blocks.toList))
  let g := Graph.ofMethod m isMarker
  g.nodes.forM (placed m g)
  return g

/-- **Making the graph of a sound method does not get stuck.** -/
theorem graph_eq {m : Method} (h : m.Sound) (isMarker : String → Bool) :
    graph m isMarker = some (Graph.ofMethod m isMarker) := by
  have hblocks : ∀ b ∈ m.blocks.map (·.id) ++ m.regions.flatMap (·.blocks.toList),
      b < m.blocks.length := by
    rw [Graph.map_id_blocks h, forall_mem_append]
    refine ⟨fun b hb => mem_range.1 hb, fun b hb => ?_⟩
    obtain ⟨r, hr, hb⟩ := mem_flatMap.1 hb
    exact (h.regions r hr).covered b hb
  have hplaced : ∀ n ∈ (Graph.ofMethod m isMarker).nodes,
      placed m (Graph.ofMethod m isMarker) n = some () := by
    intro n hn
    obtain ⟨block, hblock, hpiece⟩ := Graph.pieceOf h hn
    have hlt : n.id < (Graph.ofMethod m isMarker).size :=
      (List.getElem?_eq_some_iff.1 (Graph.node?_of_mem h hn)).1
    obtain ⟨rest, hslice⟩ := hpiece.drop_eq
    have hslice := congrArg List.length hslice
    have hle := hpiece.start_le
    unfold placed
    rw [within_eq (forall_mem_singleton.2 hlt), hblock]
    refine within_eq (forall_mem_singleton.2 ?_)
    rw [length_drop, length_append] at hslice
    omega
  unfold graph
  rw [within_eq hblocks, Option.bind_eq_bind, Option.bind_some]
  dsimp only
  rw [forM_some hplaced]
  rfl

/-! ### Levels -/

/-- The level after an instruction. -/
def level (i : Instr) (l : Level) : Checked Cause Level :=
  if l.stack < i.pops then throw (.underflow i.text)
  else do
    let rest ← minus? l.stack i.pops
    match i with
    | .monitorEnter => return ⟨rest + i.pushes, l.monitors + 1⟩
    | .monitorExit =>
      if l.monitors = 0 then throw .unmatchedMonitorExit
      else return ⟨rest + i.pushes, ← minus? l.monitors 1⟩
    | _ => return ⟨rest + i.pushes, l.monitors⟩

/-- The edges to the handlers from a run of instructions, and the level after it. -/
def throughInstrs (handlers : List Nat) (origin : Nat) (offset : Nat) (l : Level) :
    List Instr → Checked Defect (List Edge × Level)
  | [] => return ([], l)
  | i :: is => do
    let after ← (level i l).adapt fun c => (⟨⟨origin, offset⟩, c⟩ : Defect)
    let (es, last) ← throughInstrs handlers origin (offset + 1) after is
    return ((if i.mayThrow then caughtEdges handlers l ⟨origin, offset⟩ else []) ++ es, last)

/-- The edges from a terminator. -/
def leaveEdges (t : Terminator) (ret : Ty) (handlers : List Nat) (l : Level) (source : Location) :
    Checked Cause (List Edge) :=
  if l.stack < t.pops ret then throw (.underflow t.text)
  else do
    let stack ← minus? l.stack (t.pops ret)
    match t with
    | .raise => return caughtEdges handlers l source
    | .ret => if l.monitors = 0 then return [] else throw (.returnsHolding l.monitors)
    | .endCleanup => throw .strayEndCleanup
    | t => return t.successors.map fun s => ⟨s, ⟨stack, l.monitors⟩, source⟩

/-- The edges from a marker call. -/
def suspendEdges (marker : Callee) (resume : Nat) (handlers : List Nat) (l : Level)
    (source : Location) : Checked Cause (List Edge) :=
  if l.stack = 0 then throw .noFuture
  else if l.stack ≠ 1 then do throw (.valuesBeneath (← minus? l.stack 1))
  else if l.monitors ≠ 0 then throw (.suspendsHolding l.monitors)
  else return caughtEdges handlers l source ++ [⟨resume, ⟨marker.ret.slots, 0⟩, source⟩]

/-- The edges from a node that is entered at a level. -/
def edges (n : Node) (ret : Ty) (handlers : List Nat) (l : Level) : Checked Defect (List Edge) := do
  let (es, last) ← throughInstrs handlers n.origin n.start l n.instrs
  let ending :=
    match n.exit with
    | .suspend marker resume => suspendEdges marker resume handlers last n.exitLocation
    | .leave t => leaveEdges t ret handlers last n.exitLocation
  let fs ← ending.adapt fun c => (⟨n.exitLocation, c⟩ : Defect)
  return es ++ fs

/-- Takes in an edge, whose target has an entry and is a node. -/
def absorb (g : Graph) (s : Spread) (e : Edge) : Checked Defect Spread := do
  within s.levels.length [e.target]
  within g.size [e.target]
  plain (s.absorb g e)

/-- Follows the edges of the nodes in the queue until none is left, in so many steps. -/
def spread (g : Graph) (ret : Ty) :
    Nat → List (Option Level) → List Nat → Checked Defect (List (Option Level))
  | _, levels, [] => return levels
  | 0, _, _ :: _ => (none : Option (List (Option Level)))
  | steps + 1, levels, n :: rest => do
    let known ← (levels[n]? : Option (Option Level))
    match known with
    | none => spread g ret steps levels rest
    | some l =>
      let node ← g.node? n
      let es ← edges node ret (g.handlers n) l
      let s ← es.foldlM (absorb g) ⟨levels, rest⟩
      spread g ret steps s.levels s.queue

/-- The level of every node that control gets to, found in one step for each node. -/
def balance (g : Graph) (ret : Ty) : Checked Defect (List (Option Level)) := do
  within g.size [g.entry]
  spread g ret g.size ((replicate g.size none).set g.entry (some ⟨0, 0⟩)) [g.entry]

theorem level_eq (i : Instr) (l : Level) : level i l = plain (i.level l) := by
  unfold level Instr.level
  split
  · rfl
  · rename_i hlt
    rw [minus?_eq (Nat.le_of_not_lt hlt), lift_some_bind]
    cases i with
    | monitorExit =>
      dsimp only
      split
      · rfl
      · rename_i hheld
        rw [minus?_eq (Nat.one_le_iff_ne_zero.2 hheld)]
        rfl
    | _ => rfl

theorem throughInstrs_eq (handlers : List Nat) (origin offset : Nat) (l : Level) (is : List Instr) :
    throughInstrs handlers origin offset l is =
      plain (Resumable.throughInstrs handlers origin offset l is) := by
  induction is generalizing offset l with
  | nil => rfl
  | cons i is ih =>
    rw [throughInstrs, Resumable.throughInstrs, level_eq]
    cases i.level l with
    | error c => rfl
    | ok after =>
      show (throughInstrs handlers origin (offset + 1) after is >>= _) = _
      rw [ih]
      cases hrest : Resumable.throughInstrs handlers origin (offset + 1) after is <;>
        simp only [hrest] <;> rfl

theorem leaveEdges_eq (t : Terminator) (ret : Ty) (handlers : List Nat) (l : Level)
    (source : Location) :
    leaveEdges t ret handlers l source = plain (t.edges ret handlers l source) := by
  unfold leaveEdges Terminator.edges
  split
  · rfl
  · rename_i hlt
    rw [minus?_eq (Nat.le_of_not_lt hlt), lift_some_bind]
    cases t with
    | ret =>
      dsimp only
      split <;> rfl
    | _ => rfl

theorem suspendEdges_eq (marker : Callee) (resume : Nat) (handlers : List Nat) (l : Level)
    (source : Location) : suspendEdges marker resume handlers l source =
      plain (Resumable.suspendEdges marker resume handlers l source) := by
  unfold suspendEdges Resumable.suspendEdges
  split
  · rfl
  · rename_i hzero
    split
    · rw [minus?_eq (Nat.one_le_iff_ne_zero.2 hzero)]
      rfl
    · split <;> rfl

theorem edges_eq (n : Node) (ret : Ty) (handlers : List Nat) (l : Level) :
    edges n ret handlers l = plain (n.edges ret handlers l) := by
  unfold edges Node.edges
  rw [throughInstrs_eq]
  cases Resumable.throughInstrs handlers n.origin n.start l n.instrs with
  | error d => rfl
  | ok c =>
    cases n.exit with
    | suspend marker resume =>
      show (ExceptT.adapt _ (suspendEdges marker resume handlers c.2 n.exitLocation) >>= _) = _
      rw [suspendEdges_eq]
      cases hends : Resumable.suspendEdges marker resume handlers c.2 n.exitLocation <;>
        simp only [hends] <;> rfl
    | leave t =>
      show (ExceptT.adapt _ (leaveEdges t ret handlers c.2 n.exitLocation) >>= _) = _
      rw [leaveEdges_eq]
      cases hends : t.edges ret handlers c.2 n.exitLocation <;> simp only [hends] <;> rfl

variable {g : Graph} {s : Spread}

/-- Taking in an edge puts at most its target into the queue. -/
theorem queue_of_absorb {t : Spread} {e : Edge} (h : s.absorb g e = .ok t) :
    ∀ n ∈ t.queue, n ∈ s.queue ∨ n = e.target := by
  unfold Spread.absorb at h
  split at h
  · cases h
    exact fun n hn => .inl hn
  · cases h
    exact fun n hn => (mem_append.1 hn).imp_right mem_singleton.1
  · split at h
    · cases h
      exact fun n hn => .inl hn
    · split at h <;> cases h

/-- What the check of the levels keeps: there is an entry for each node, and nodes are in the
queue. -/
def Ready (g : Graph) (s : Spread) : Prop := s.levels.length = g.size ∧ ∀ n ∈ s.queue, n < g.size

theorem absorbAll_eq {es : List Edge} (hs : Ready g s) (hes : ∀ e ∈ es, e.target < g.size) :
    es.foldlM (absorb g) s = plain (s.absorbAll g es) ∧
      ∀ t, s.absorbAll g es = .ok t → Ready g t := by
  induction es generalizing s with
  | nil =>
    refine ⟨rfl, fun t ht => ?_⟩
    cases ht
    exact hs
  | cons e es ih =>
    have htarget := hes e (mem_cons_self ..)
    rw [foldlM_cons, absorb, hs.1, within_eq (forall_mem_singleton.2 htarget),
      Spread.absorbAll]
    cases habsorb : s.absorb g e with
    | error d => exact ⟨rfl, nofun⟩
    | ok s' =>
      refine ih ⟨(Spread.absorbs_of_absorb habsorb).length.trans hs.1, fun n hn => ?_⟩
        fun k hk => hes k (mem_cons_of_mem _ hk)
      rcases queue_of_absorb habsorb n hn with hn | rfl
      · exact hs.2 n hn
      · exact htarget

/-- **Following the nodes does not get stuck**, and takes as many steps as there is work. -/
theorem spread_eq (hclosed : g.Closed) (ret : Ty) {steps : Nat} (hs : Ready g s)
    (hsteps : s.work ≤ steps) :
    spread g ret steps s.levels s.queue = plain (g.spread ret s.levels s.queue) := by
  induction steps generalizing s with
  | zero =>
    obtain ⟨levels, _ | ⟨n, rest⟩⟩ := s
    · rw [spread, Graph.spread]
      rfl
    · simp [Spread.work] at hsteps
  | succ steps ih =>
    obtain ⟨levels, _ | ⟨n, rest⟩⟩ := s
    · rw [spread, Graph.spread]
      rfl
    · have hlt := hs.2 n (mem_cons_self ..)
      have hrest : Ready g ⟨levels, rest⟩ := ⟨hs.1, fun k hk => hs.2 k (mem_cons_of_mem _ hk)⟩
      have hwork : Spread.work ⟨levels, rest⟩ ≤ steps := by
        simp only [Spread.work, length_cons] at hsteps ⊢
        omega
      obtain ⟨node, hnode⟩ : ∃ node, g.node? n = some node := ⟨_, List.getElem?_eq_getElem hlt⟩
      obtain ⟨known, hknown⟩ : ∃ known, levels[n]? = some known :=
        ⟨_, List.getElem?_eq_getElem (hs.1 ▸ hlt)⟩
      rw [spread, Graph.spread_eq, hknown, lift_some_bind, Option.join_some]
      cases known with
      | none => exact ih hrest hwork
      | some l =>
        have hedges : g.edgesOf ret n l = node.edges ret (g.handlers n) l := by
          rw [Graph.edgesOf, hnode]
        dsimp only
        rw [hnode, lift_some_bind, edges_eq, ← hedges]
        cases hes : g.edgesOf ret n l with
        | error d => rfl
        | ok es =>
          obtain ⟨heq, hready⟩ := absorbAll_eq hrest fun e he =>
            hclosed.next n _ (Graph.goes_target hes he).mem_next
          show (es.foldlM (absorb g) ⟨levels, rest⟩ >>= _) = _
          rw [heq]
          dsimp only
          cases habsorb : Spread.absorbAll g ⟨levels, rest⟩ es with
          | error d => rfl
          | ok t => exact ih (hready t habsorb) (Spread.work_absorbAll habsorb ▸ hwork)

/-- **The check of the levels does not get stuck.** -/
theorem balance_eq (hclosed : g.Closed) (ret : Ty) : balance g ret = plain (g.balance ret) := by
  have hentry : ∀ n ∈ [g.entry], n < g.size := forall_mem_singleton.2 hclosed.entry
  unfold balance
  rw [within_eq hentry, lift_some_bind]
  refine spread_eq (s := ⟨_, _⟩) hclosed ret ⟨by simp, hentry⟩ ?_
  have hfree : (replicate g.size (none : Option Level))[g.entry]? = some none := by
    rw [getElem?_replicate, if_pos hclosed.entry]
  have hone := Spread.countP_set_none (l := ⟨0, 0⟩) hfree
  have hle := (replicate g.size (none : Option Level)).countP_le_length (p := Option.isNone)
  rw [length_replicate] at hle
  simp only [Spread.work, length_singleton]
  omega

end Resumable.Checked
