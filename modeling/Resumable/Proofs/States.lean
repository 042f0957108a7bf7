/-
**States of a dispatcher.**

The points of a method are numbered along a walk through its graph.  The segments, the blocks of the
dispatcher, the cases of its switch and its resume instructions are made from these numbers, each in
its own way.  So that nothing is lost and nothing is entered twice, each has to be counted: a node
belongs to one segment and is listed there once, so the point at it is parked at in one block, and
only the block that parks at a point has a resume instruction.

Main results:

* `Graph.map_node_suspensions` — the points in the order of the walk;
* `Graph.nodup_nodesOf_segments` — **a node belongs to one segment**;
* `Plan.Made.resumes_perm` — **the resume instructions of a dispatcher**;
* `Plan.Made.numbered`.
-/

import Mathlib.Data.List.Nodup
import Resumable.Proofs.Glue
import Resumable.Proofs.Resumption

set_option autoImplicit false

namespace Resumable

open Dispatcher List

/-! ### Points in the order of the walk -/

namespace Graph

variable {g : Graph} {m : Method} {r : IdSet} {a : Liveness}

/-- Whether the node with a number ends with a marker call. -/
def suspendsAt (g : Graph) (k : Nat) : Bool := (g.node? k).any Node.isSuspend

theorem map_node_suspensionsAlong (index : Nat) (ns : List Nat) :
    (g.suspensionsAlong m r a index ns).map (·.node) = ns.filter g.suspendsAt := by
  induction ns generalizing index with
  | nil => rfl
  | cons n ns ih =>
    rw [suspensionsAlong, filter_cons, suspendsAt]
    cases hn : g.node? n with
    | none => simpa [suspensionAt?, hn] using ih index
    | some node =>
      cases hexit : node.exit with
      | leave t => simpa [suspensionAt?, hn, hexit, Node.isSuspend] using ih index
      | suspend c resume =>
        simpa [suspensionAt?, hn, hexit, Node.isSuspend] using ih (index + 1)

/-- **The points lie at the marker calls that the walk meets**, in its order. -/
theorem map_node_suspensions :
    (g.suspensions m r a).map (·.node) = (g.walk r).filter g.suspendsAt :=
  map_node_suspensionsAlong 1 (g.walk r)

/-! ### The nodes of segments -/

theorem nodup_nodesOf_foldl (points ps : List Suspension) {done : List Segment}
    (h : (nodesOf done).Nodup) :
    (nodesOf (ps.foldl (fun done p =>
      done ++ [g.segmentFrom r points done p.index p.resume p.live]) done)).Nodup := by
  induction ps generalizing done with
  | nil => exact h
  | cons p ps ih =>
    refine ih ?_
    obtain ⟨hnodup, hfresh⟩ := Search.nodup_visited g.size
      (fun n => (g.withinSegment n).filter (· ∈ r)) ([p.resume].filter (· ∈ r)) (nodesOf done)
    rw [nodesOf, flatMap_append, flatMap_singleton, nodes_segmentFrom]
    exact nodup_append.2 ⟨h, hnodup, fun k hk q hq heq => hfresh q hq (heq ▸ hk)⟩

/-- **A node belongs to one segment**, and is listed there once. -/
theorem nodup_nodesOf_segments (points : List Suspension) :
    (nodesOf (g.segments m r points)).Nodup := by
  refine nodup_nodesOf_foldl points points ?_
  rw [nodesOf, flatMap_singleton]
  exact (Search.nodup_visited ..).1

end Graph

/-! ### Resume instructions -/

/-- The dispatcher and the state that a resume instruction names. -/
def Instr.resumes? : Instr → Option (String × Nat)
  | .resume dispatcher state _ => some (dispatcher, state)
  | _ => none

/-- What the resume instructions of a method name, in order. -/
def Method.resumes (m : Method) : List (String × Nat) :=
  m.blocks.flatMap fun b => b.instrs.filterMap Instr.resumes?

theorem Instr.resumes?_of_plain {i : Instr} (h : i.isProtocol = false) (f : Nat → Nat) :
    (i.mapLocals f).resumes? = none := by
  cases i <;> first | rfl | cases h

namespace Dispatcher

/-- The point at which a role parks the method. -/
def Role.parks? : Role → Option Nat
  | .park k => some k
  | _ => none

namespace Plan

variable {p : Plan} {isMarker : String → Bool} {r : IdSet}

theorem resumes_restore (ls : List Nat) : (p.restore ls).filterMap Instr.resumes? = [] := by
  refine filterMap_eq_nil_iff.2 fun i hi => ?_
  rcases exists_of_mem_restore hi with ⟨k, rfl⟩ | ⟨l, rfl⟩ <;> rfl

theorem resumes_save (ls : List Nat) : (p.save ls).filterMap Instr.resumes? = [] := by
  refine filterMap_eq_nil_iff.2 fun i hi => ?_
  rcases exists_of_mem_save hi with ⟨l, rfl⟩ | ⟨k, rfl⟩ <;> rfl

theorem resumes_dropVoid (ty : Ty) : (dropVoid ty).filterMap Instr.resumes? = [] := by
  unfold dropVoid
  split <;> rfl

theorem resumes_fulfill : p.fulfill.filterMap Instr.resumes? = [] := by
  unfold fulfill
  split <;> rfl

theorem resumes_parkCode (s : Suspension) :
    (p.parkCode s).filterMap Instr.resumes? = [(p.name, s.index)] := by
  rw [parkCode, filterMap_append, filterMap_append, resumes_save]
  rfl

theorem resumes_nodeCode {n : Node} (hplain : ∀ i ∈ n.instrs, i.isProtocol = false) :
    (p.nodeCode n).1.filterMap Instr.resumes? = [] := by
  have hbody : (n.instrs.map (·.mapLocals p.slots.local)).filterMap Instr.resumes? = [] := by
    rw [filterMap_map]
    exact filterMap_eq_nil_iff.2 fun i hi => Instr.resumes?_of_plain (hplain i hi) _
  unfold nodeCode
  split
  · rw [filterMap_append, hbody, resumes_fulfill]
    rfl
  · exact hbody
  · split
    · rw [filterMap_append, hbody]
      rfl
    · exact hbody

/-- The parking roles are those of the points at the nodes of segments. -/
theorem parks_roles : p.roles.filterMap Role.parks? =
    (Graph.nodesOf p.segments).filterMap fun n => (pointAt? p.points n).map (·.index) := by
  have hnode : ∀ n, (nodeRoles p.points n).filterMap Role.parks? =
      ((pointAt? p.points n).map (·.index)).toList := by
    intro n
    unfold nodeRoles
    cases pointAt? p.points n <;> rfl
  have hsegment : ∀ s, (segmentRoles p.points s).filterMap Role.parks? =
      s.nodes.filterMap fun n => (pointAt? p.points n).map (·.index) := by
    intro s
    have hresume :
        (if s.index = 0 then [] else [Role.resume s.index]).filterMap Role.parks? = [] := by
      split <;> rfl
    rw [segmentRoles, filterMap_append, hresume, filterMap_flatMap,
      filterMap_eq_flatMap_toList]
    exact flatMap_congr fun n _ => hnode n
  rw [roles, layout, filterMap_append, filterMap_append, filterMap_flatMap,
    Graph.nodesOf, filterMap_flatMap, flatMap_congr fun s _ => hsegment s]
  exact append_nil _

theorem pointAt?_eq_some {points : List Suspension} {k : Nat} {q : Suspension}
    (h : pointAt? points k = some q) : q ∈ points ∧ q.node = k :=
  ⟨mem_of_find?_eq_some h, by simpa using find?_some h⟩

namespace Made

variable (h : p.Made isMarker r)
include h

theorem mem_parks_iff {k : Nat} :
    k ∈ p.roles.filterMap Role.parks? ↔ ∃ q ∈ p.points, q.index = k := by
  simp only [parks_roles, mem_filterMap, Option.map_eq_some_iff]
  constructor
  · rintro ⟨n, -, q, hq, rfl⟩
    exact ⟨q, (pointAt?_eq_some hq).1, rfl⟩
  · rintro ⟨q, hq, rfl⟩
    refine ⟨q.node, ?_, q, h.pointAt?_node hq, rfl⟩
    rw [h.segments, h.points]
    exact Graph.mem_nodesOf_segments h.flow (h.isAt hq).reached

theorem nodup_parks : (p.roles.filterMap Role.parks?).Nodup := by
  rw [parks_roles]
  refine List.Nodup.filterMap (fun n n' k hk hk' => ?_) ?_
  · obtain ⟨q, hq, rfl⟩ := Option.map_eq_some_iff.1 hk
    obtain ⟨q', hq', hindex⟩ := Option.map_eq_some_iff.1 hk'
    obtain ⟨hmem, rfl⟩ := pointAt?_eq_some hq
    obtain ⟨hmem', rfl⟩ := pointAt?_eq_some hq'
    have hpoint := h.point?_index hmem
    rw [← hindex, h.point?_index hmem'] at hpoint
    rw [Option.some.inj hpoint]
  · rw [h.segments]
    exact Graph.nodup_nodesOf_segments p.points

/-- **Each point is parked at in one block.** -/
theorem parks_perm : (p.roles.filterMap Role.parks?).Perm (range' 1 p.points.length) := by
  refine (perm_ext_iff_of_nodup h.nodup_parks nodup_range').2 fun k => ?_
  rw [h.mem_parks_iff, ← mem_map (f := Suspension.index), h.points,
    Graph.map_index_suspensions]

theorem resumes_code (hplain : p.method.Plain) {ρ : Role} (hρ : ρ ∈ p.roles) :
    (p.code ρ).1.filterMap Instr.resumes? = (ρ.parks?.map fun k => (p.name, k)).toList := by
  cases ρ with
  | start => exact resumes_restore _
  | resume k =>
    simp only [code]
    split
    · rw [filterMap_append, filterMap_append, resumes_restore, resumes_dropVoid]
      rfl
    · rfl
  | node k =>
    simp only [code]
    split
    · rename_i n hn
      rw [h.graph] at hn
      obtain ⟨b, hb, hpiece⟩ := Graph.pieceOf h.sound (Graph.mem_of_node? hn)
      refine resumes_nodeCode fun i hi => ?_
      obtain ⟨j, hj⟩ := mem_iff_getElem?.1 hi
      exact hplain b (mem_of_getElem? hb) i (mem_of_getElem? (hpiece.getElem? hj))
    · rfl
  | fast k =>
    simp only [code]
    split
    · rw [filterMap_cons, resumes_dropVoid]
      rfl
    · rfl
  | park k =>
    obtain ⟨q, hq, rfl⟩ := h.mem_parks_iff.1 (mem_filterMap.2 ⟨_, hρ, rfl⟩)
    simp only [code, h.point?_index hq]
    exact resumes_parkCode q
  | head => rfl
  | fail => rfl
  | rethrow => rfl
  | reject => rfl
  | badState => rfl

/-- **The resume instructions of a dispatcher** name it, and each state of a point once. -/
theorem resumes_perm (hplain : p.method.Plain) :
    p.dispatcher.resumes.Perm ((range' 1 p.points.length).map fun k => (p.name, k)) := by
  have hblocks : p.dispatcher.resumes =
      p.roles.flatMap fun ρ => (p.code ρ).1.filterMap Instr.resumes? := by
    rw [Method.resumes, flatMap_def, flatMap_def]
    congr 1
    refine ext_getElem? fun i => ?_
    simp [dispatcher, blocks, Function.comp_def]
  have hparks : p.dispatcher.resumes =
      (p.roles.filterMap Role.parks?).map fun k => (p.name, k) := by
    rw [hblocks, map_filterMap, filterMap_eq_flatMap_toList]
    exact flatMap_congr fun ρ hρ => h.resumes_code hplain hρ
  rw [hparks]
  exact h.parks_perm.map _

/-- **The states that a dispatcher knows.** -/
theorem map_cases : p.cases.map (·.1) = (range (p.points.length + 1)).map Int64.ofNat := by
  have hindex : p.points.map (·.index) = range' 1 p.points.length := by
    rw [h.points, Graph.map_index_suspensions]
  rw [cases, map_cons, List.map_map, range_eq_range', range'_succ, map_cons,
    ← hindex, List.map_map]
  rfl

end Made

/-- Up to the width of a state the states are different. -/
theorem nodup_states {n : Nat} (h : n < 2 ^ 64) : ((range (n + 1)).map Int64.ofNat).Nodup := by
  refine List.Nodup.map_on (fun a ha b hb heq => ?_) nodup_range
  have hbound : ∀ k ∈ range (n + 1), k < 2 ^ 64 := fun k hk =>
    Nat.lt_of_le_of_lt (Nat.le_of_lt_succ (mem_range.1 hk)) h
  exact ofNat_inj (hbound a ha) (hbound b hb) heq

end Plan

end Dispatcher

/-! ### The states of a conversion -/

/-- **The states of a converted method are its marker calls**: the points are the nodes of the set
that suspend, each once, numbered from one in the order of the walk; the dispatcher switches over
the numbers from zero to that of the last point; and its resume instructions name it and each number
of a point once. -/
structure Conversion.Pair.Numbered (pair : Conversion.Pair) (g : Graph) (r : IdSet) : Prop where
  walked : pair.points.map (·.node) = (g.walk r).filter g.suspendsAt
  nodup : (pair.points.map (·.node)).Nodup
  mem_iff : ∀ k, k ∈ pair.points.map (·.node) ↔ k ∈ r ∧ g.suspendsAt k = true
  indices : pair.points.map (·.index) = range' 1 pair.points.length
  states : ∃ b cases default, pair.dispatcher.block? pair.dispatcher.entry = some b ∧
    b.terminator = .switch cases default ∧
    cases.map (·.1) = (range (pair.points.length + 1)).map Int64.ofNat ∧
    (pair.points.length < 2 ^ 64 → (cases.map (·.1)).Nodup)
  resumes : pair.dispatcher.resumes.Perm
    ((range' 1 pair.points.length).map fun k => (pair.dispatcher.name, k))

theorem Dispatcher.Plan.Made.numbered {p : Plan} {isMarker : String → Bool} {r : IdSet}
    (h : p.Made isMarker r) (hplain : p.method.Plain) {pair : Conversion.Pair}
    (hpoints : pair.points = p.points) (hdispatcher : pair.dispatcher = p.dispatcher) :
    pair.Numbered p.graph r where
  walked := by
    rw [hpoints, h.points]
    exact Graph.map_node_suspensions
  nodup := by
    rw [hpoints, h.points]
    exact Graph.nodup_node_suspensions
  mem_iff k := by
    rw [hpoints, h.points, Graph.map_node_suspensions, mem_filter, Graph.mem_walk_iff h.flow]
  indices := by
    rw [hpoints, h.points]
    exact Graph.map_index_suspensions
  states := by
    have hhead := Plan.block?_dispatcher (p := p) (Plan.mem_roles_fixed (ρ := .head) (by simp))
    rw [Plan.block_head] at hhead
    rw [hpoints, hdispatcher]
    exact ⟨_, p.cases, _, hhead, rfl, h.map_cases, fun hlt => h.map_cases ▸ Plan.nodup_states hlt⟩
  resumes := by
    rw [hpoints, hdispatcher]
    exact h.resumes_perm hplain

end Resumable
