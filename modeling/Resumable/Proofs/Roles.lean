/-
**The blocks and the exception table of a dispatcher.**

Every node that control gets to has its block in the dispatcher, and every point its three blocks.
The exception table of the dispatcher is that of the method, cut by segments: an exception in the
block of a node goes to the block of the handler that the method chooses, and to `fail` where the
method has no handler.  The ways on after a marker, at once or by a resumption, are covered like the
marker call itself.

Main results:

* `Plan.block?_dispatcher` — the block of a role holds the code of the role;
* `Plan.block_inj` — different roles have different blocks;
* `Plan.mem_roles_node`, `Plan.mem_roles_fast`, `Plan.mem_roles_park`, `Plan.mem_roles_resume`;
* `Plan.handler?_node`, `Plan.handler?_fast`, `Plan.handler?_resume` — **the dispatcher handles an
  exception where the method does**, or in `fail`;
* `Slots.local_inj`, `Slots.local_bounds` — the locals of the method do not meet each other, nor the
  dispatcher's own.
-/

import Resumable.Dispatcher.Code
import Resumable.Machine.Program
import Resumable.Proofs.Segments

set_option autoImplicit false

namespace Resumable

open List

theorem find?_key {α : Type} {key : α → Nat} {xs : List α} (hn : (xs.map key).Nodup) {x : α}
    (hx : x ∈ xs) : xs.find? (key · == key x) = some x := by
  induction xs with
  | nil => cases hx
  | cons y ys ih =>
    obtain ⟨hy, hys⟩ := nodup_cons.1 hn
    rcases mem_cons.1 hx with rfl | hx
    · simp
    · have hne : key y ≠ key x := fun heq => hy (mem_map.2 ⟨x, hx, heq.symm⟩)
      rw [find?_cons_of_neg (by simpa using hne), ih hys hx]

namespace Dispatcher

/-! ### Locals -/

section Slots

variable {m : Method} {l : Nat}

theorem Slots.mem_moved {c : Nat × Nat} :
    c ∈ (Slots.ofMethod m).moved ↔ ∃ i v, m.locals[i]? = some v ∧ c = (v.id, 3 + i) := by
  rw [Slots.ofMethod, mem_reverse, mem_iff_getElem?]
  simp only [getElem?_mapIdx, Option.map_eq_some_iff]
  constructor
  · rintro ⟨i, v, hv, rfl⟩
    exact ⟨i, v, hv, rfl⟩
  · rintro ⟨i, v, hv, rfl⟩
    exact ⟨i, v, hv, rfl⟩

/-- A declared local has a place among the locals of the dispatcher that is its own. -/
theorem Slots.local_eq (h : l ∈ m.localIds) :
    ∃ i v, m.locals[i]? = some v ∧ v.id = l ∧ (Slots.ofMethod m).local l = 3 + i := by
  cases hlookup : (Slots.ofMethod m).moved.lookup l with
  | none =>
    obtain ⟨v, hv, rfl⟩ := mem_map.1 h
    obtain ⟨i, hi⟩ := mem_iff_getElem?.1 hv
    have := lookup_eq_none_iff.1 hlookup (v.id, 3 + i) (mem_moved.2 ⟨i, v, hi, rfl⟩)
    simp at this
  | some k =>
    obtain ⟨i, v, hv, hc⟩ := mem_moved.1 (mem_of_lookup_eq_some hlookup)
    cases hc
    exact ⟨i, v, hv, rfl, by simp [Slots.local, hlookup]⟩

/-- **Different locals have different places.** -/
theorem Slots.local_inj {k : Nat} (hl : l ∈ m.localIds) (hk : k ∈ m.localIds)
    (h : (Slots.ofMethod m).local l = (Slots.ofMethod m).local k) : l = k := by
  obtain ⟨i, v, hv, rfl, hi⟩ := Slots.local_eq hl
  obtain ⟨j, w, hw, rfl, hj⟩ := Slots.local_eq hk
  have hij : i = j := by omega
  subst hij
  rw [hv] at hw
  cases hw
  rfl

/-- The places lie between the parameters of the dispatcher and its own locals. -/
theorem Slots.local_bounds (h : l ∈ m.localIds) :
    3 ≤ (Slots.ofMethod m).local l ∧ (Slots.ofMethod m).local l < 3 + m.locals.length := by
  obtain ⟨i, v, hv, _, hi⟩ := Slots.local_eq h
  have := (List.getElem?_eq_some_iff.1 hv).1
  omega

end Slots

namespace Plan

variable {p : Plan}

/-! ### Blocks -/

variable {ρ σ : Role} {s : Segment} {R : GraphRegion}

theorem block?_dispatcher (h : ρ ∈ p.roles) :
    p.dispatcher.block? (p.block ρ) =
      some ⟨p.block ρ, (p.code ρ).1, (p.code ρ).2⟩ := by
  have hlt : p.roles.idxOf ρ < p.roles.length := idxOf_lt_length_iff.2 h
  simp only [block, blockOf, if_pos h, Method.block?, dispatcher, blocks, getElem?_mapIdx,
    List.getElem?_eq_getElem hlt, getElem_idxOf hlt, Option.map_some]

theorem block_inj (hρ : ρ ∈ p.roles) (hσ : σ ∈ p.roles) (h : p.block ρ = p.block σ) : ρ = σ := by
  simp only [block, blockOf, if_pos hρ, if_pos hσ] at h
  have h₁ := getElem_idxOf (idxOf_lt_length_iff.2 hρ)
  have h₂ := getElem_idxOf (idxOf_lt_length_iff.2 hσ)
  simp only [h] at h₁
  exact h₁.symm.trans h₂

theorem blockOf?_eq_some_iff (h : σ ∈ p.roles) : blockOf? p.roles ρ = some (p.block σ) ↔ ρ = σ := by
  constructor
  · intro hb
    unfold blockOf? at hb
    split at hb
    · rename_i hρ
      refine block_inj hρ h ?_
      rw [block, blockOf, if_pos hρ]
      exact Option.some.inj hb
    · cases hb
  · rintro rfl
    rw [blockOf?, if_pos h, block, blockOf, if_pos h]

theorem mem_roles_fixed (h : ρ ∈ [Role.head, .start, .fail, .rethrow, .reject, .badState]) :
    ρ ∈ p.roles := by
  simp only [roles, layout, mem_append, mem_cons, not_mem_nil, or_false] at h ⊢
  rcases h with h | h | h | h | h | h <;> simp [h]

theorem mem_roles_of_mem_segment (hs : s ∈ p.segments) (hρ : ρ ∈ segmentRoles p.points s) :
    ρ ∈ p.roles := by
  refine mem_append_left _ (mem_append_right _ ?_)
  exact mem_flatMap.2 ⟨s, hs, hρ⟩

/-! ### Plans of analysed methods -/

/-- The plan is made from a sound method: graph, points and segments are those of the method, and
`r` is the set of nodes that control gets to. -/
structure Made (p : Plan) (isMarker : String → Bool) (r : IdSet) : Prop where
  sound : p.method.Sound
  graph : p.graph = Graph.ofMethod p.method isMarker
  flow : p.graph.FlowSet r
  points : p.points = p.graph.suspensions p.method r
    (p.graph.liveness r (p.method.params.map (·.id)))
  segments : p.segments = p.graph.segments p.method r p.points

/-- The liveness that the plan is made with. -/
def liveness (p : Plan) (r : IdSet) : Liveness :=
  p.graph.liveness r (p.method.params.map (·.id))

namespace Made

variable {isMarker : String → Bool} {r : IdSet} (h : p.Made isMarker r)
include h

variable {q : Suspension} {k : Nat}

theorem isAt (hq : q ∈ p.points) : q.IsAt p.graph p.method r (p.liveness r) := by
  rw [h.points] at hq
  exact Graph.isAt_of_mem_suspensions h.flow hq

theorem exists_point {n : Node} (hk : k ∈ r) (hn : p.graph.node? k = some n)
    (hs : n.isSuspend = true) : ∃ q ∈ p.points, q.node = k := by
  rw [h.points]
  exact Graph.exists_suspension h.flow hk hn hs

theorem one_le_index (hq : q ∈ p.points) : 1 ≤ q.index ∧ q.index ≤ p.points.length := by
  have hmem : q.index ∈ p.points.map (·.index) := mem_map.2 ⟨q, hq, rfl⟩
  rw [h.points, Graph.map_index_suspensions, ← h.points, mem_range'_1] at hmem
  omega

theorem point?_index (hq : q ∈ p.points) : p.point? q.index = some q := by
  refine find?_key ?_ hq
  rw [h.points, Graph.map_index_suspensions]
  exact nodup_range'

theorem pointAt?_node (hq : q ∈ p.points) : pointAt? p.points q.node = some q := by
  refine find?_key ?_ hq
  rw [h.points]
  exact Graph.nodup_node_suspensions

/-! ### What is laid out -/

theorem exists_owner (hk : k ∈ r) :
    ∃ s ∈ p.segments, k ∈ s.nodes ∧ owner? p.segments k = some s.index := by
  rw [h.segments, h.points]
  exact Graph.exists_owner h.flow hk

theorem mem_roles_of_mem_nodeRoles {ρ : Role} (hk : k ∈ r) (hρ : ρ ∈ nodeRoles p.points k) :
    ρ ∈ p.roles := by
  obtain ⟨s, hs, hks, _⟩ := h.exists_owner hk
  refine mem_roles_of_mem_segment hs (mem_append_right _ ?_)
  exact mem_flatMap.2 ⟨k, hks, hρ⟩

theorem mem_roles_node (hk : k ∈ r) : .node k ∈ p.roles := by
  refine h.mem_roles_of_mem_nodeRoles hk ?_
  unfold nodeRoles
  split <;> simp

theorem nodeRoles_point (hq : q ∈ p.points) :
    nodeRoles p.points q.node = [.node q.node, .fast q.index, .park q.index] := by
  rw [nodeRoles, h.pointAt?_node hq]

theorem mem_roles_fast (hq : q ∈ p.points) : .fast q.index ∈ p.roles :=
  h.mem_roles_of_mem_nodeRoles (h.isAt hq).reached (by simp [h.nodeRoles_point hq])

theorem mem_roles_park (hq : q ∈ p.points) : .park q.index ∈ p.roles :=
  h.mem_roles_of_mem_nodeRoles (h.isAt hq).reached (by simp [h.nodeRoles_point hq])

theorem map_index_segments : p.segments.map (·.index) = 0 :: p.points.map (·.index) := by
  rw [h.segments]
  exact (Graph.segmentsIn_segments h.flow p.points).2.2.2

theorem exists_segment (hq : q ∈ p.points) : ∃ s ∈ p.segments, s.index = q.index := by
  have hmem : q.index ∈ p.segments.map (·.index) := by
    rw [h.map_index_segments]
    exact mem_cons_of_mem _ (mem_map.2 ⟨q, hq, rfl⟩)
  exact mem_map.1 hmem

theorem mem_roles_resume (hq : q ∈ p.points) : .resume q.index ∈ p.roles := by
  obtain ⟨s, hs, hindex⟩ := h.exists_segment hq
  have hne : s.index ≠ 0 := by
    have := (h.one_le_index hq).1
    omega
  refine mem_roles_of_mem_segment hs (mem_append_left _ ?_)
  rw [if_neg hne, hindex]
  exact mem_singleton_self _

end Made

/-! ### The exception table -/

theorem piece?_eq_some {handler : Nat} {c : RegionPiece} (h : p.piece? R handler s = some c) :
    c.handler = handler ∧ c.kind = R.kind ∧
      c.blocks = IdSet.ofList ((p.regionRoles R s).filterMap (blockOf? p.roles)) := by
  simp only [piece?] at h
  split at h
  · cases h
  · cases h
    exact ⟨rfl, rfl, rfl⟩

theorem mem_regionBlocks_iff (hσ : σ ∈ p.roles) :
    p.block σ ∈ IdSet.ofList ((p.regionRoles R s).filterMap (blockOf? p.roles)) ↔
      σ ∈ p.regionRoles R s := by
  rw [IdSet.mem_ofList, mem_filterMap]
  constructor
  · rintro ⟨ρ, hρ, hb⟩
    rwa [← (blockOf?_eq_some_iff hσ).1 hb]
  · intro h
    exact ⟨σ, h, (blockOf?_eq_some_iff hσ).2 rfl⟩

theorem exists_piece (handler : Nat) (hσ : σ ∈ p.roles) (h : σ ∈ p.regionRoles R s) :
    ∃ c, p.piece? R handler s = some c := by
  have hmem := (mem_regionBlocks_iff (R := R) (s := s) hσ).2 h
  simp only [piece?]
  split
  · rename_i hempty
    rw [IdSet.isEmpty, List.isEmpty_iff] at hempty
    rw [IdSet.mem_def, hempty] at hmem
    cases hmem
  · exact ⟨_, rfl⟩

/-- The handler of the first piece of a region that covers the block of a role and takes an
exception: all pieces of the region have the same. -/
theorem find?_regionPieces (hσ : σ ∈ p.roles) (takes : RegionKind → Bool) (handler : Nat)
    {cover : Bool} (hcover : cover = true ↔ ∃ s ∈ p.segments, σ ∈ p.regionRoles R s) :
    ((p.segments.filterMap (p.piece? R handler)).find?
        fun c => p.block σ ∈ c.blocks && takes c.kind).map (·.handler) =
      if cover && takes R.kind then some handler else none := by
  cases hfind : (p.segments.filterMap (p.piece? R handler)).find?
      fun c => p.block σ ∈ c.blocks && takes c.kind with
  | some c =>
    obtain ⟨s, hs, hc⟩ := mem_filterMap.1 (mem_of_find?_eq_some hfind)
    obtain ⟨hhandler, hkind, hblocks⟩ := piece?_eq_some hc
    have hP := find?_some hfind
    simp only [Bool.and_eq_true, decide_eq_true_eq, hblocks, hkind] at hP
    have hcov : cover = true := hcover.2 ⟨s, hs, (mem_regionBlocks_iff hσ).1 hP.1⟩
    simp [hcov, hP.2, hhandler]
  | none =>
    rw [find?_eq_none] at hfind
    rw [Option.map_none, if_neg]
    intro hboth
    rw [Bool.and_eq_true] at hboth
    obtain ⟨s, hs, hσs⟩ := hcover.1 hboth.1
    obtain ⟨c, hc⟩ := exists_piece handler hσ hσs
    obtain ⟨_, hkind, hblocks⟩ := piece?_eq_some hc
    refine hfind c (mem_filterMap.2 ⟨s, hs, hc⟩) ?_
    simp only [Bool.and_eq_true, decide_eq_true_eq, hblocks, hkind]
    exact ⟨(mem_regionBlocks_iff hσ).2 hσs, hboth.2⟩

/-- **The first piece that covers the block of a role and takes an exception** comes from the first
region that does, provided that the handlers of the regions around the role are laid out. -/
theorem find?_pieces (hσ : σ ∈ p.roles) (takes : RegionKind → Bool) (cover : GraphRegion → Bool)
    (hcover : ∀ R, cover R = true ↔ ∃ s ∈ p.segments, σ ∈ p.regionRoles R s)
    (hlaid : ∀ R ∈ p.graph.regions, cover R = true → .node R.handler ∈ p.roles) :
    (p.pieces.find? fun c => p.block σ ∈ c.blocks && takes c.kind).map (·.handler) =
      (p.graph.regions.find? fun R => cover R && takes R.kind).map
        fun R => p.nodeBlock R.handler := by
  unfold pieces
  generalize p.graph.regions = Rs at hlaid ⊢
  induction Rs with
  | nil => rfl
  | cons R Rs ih =>
    have ih := ih fun R' hR' => hlaid R' (mem_cons_of_mem _ hR')
    rw [flatMap_cons, find?_append, Option.map_or, ih]
    have hb : cover R = true → blockOf? p.roles (.node R.handler) = some (p.nodeBlock R.handler) :=
      fun hR => (blockOf?_eq_some_iff (hlaid R (by simp) hR)).2 rfl
    cases hblock : blockOf? p.roles (.node R.handler) with
    | none =>
      have hR : cover R = false := by
        cases hR : cover R with
        | false => rfl
        | true =>
          rw [hb hR] at hblock
          cases hblock
      simp [hR]
    | some handler =>
      simp only [find?_regionPieces hσ takes _ (hcover R), find?_cons]
      cases hR : cover R with
      | false => simp
      | true =>
        rw [hb hR] at hblock
        cases hblock
        cases takes R.kind <;> simp

/-- What is looked for and what is taken of it do not depend on the positions. -/
theorem map_find?_mapIdx {α β γ : Type} {f : Nat → α → β} {P : β → Bool} {Q : α → Bool} {H : β → γ}
    {K : α → γ} (hP : ∀ i a, P (f i a) = Q a) (hH : ∀ i a, H (f i a) = K a) (xs : List α) :
    ((xs.mapIdx f).find? P).map H = (xs.find? Q).map K := by
  induction xs generalizing f with
  | nil => rfl
  | cons x xs ih =>
    have ih := ih (f := fun i => f (i + 1)) (fun i a => hP (i + 1) a) (fun i a => hH (i + 1) a)
    rw [mapIdx_cons, find?_cons, find?_cons, hP]
    cases Q x with
    | true => simp [hH]
    | false => exact ih

/-- The handler of the dispatcher: that of the first piece, or `fail`. -/
theorem handler?_dispatcher (prog : Program) (b : Nat) (e : Value) :
    prog.handler? p.dispatcher b e =
      ((p.pieces.find? fun c => b ∈ c.blocks && prog.takes e c.kind).map (·.handler)).or
        (if b ∈ p.guarded then some (p.block .fail) else none) := by
  have hregions : p.dispatcher.regions = p.regions := rfl
  rw [Program.handler?, Method.covering, hregions, regions, find?_filter, find?_append,
    Option.map_or]
  congr 1
  · apply map_find?_mapIdx
    · intro i c
      simp
    · intro i c
      rfl
  · rw [find?_cons]
    by_cases hb : b ∈ p.guarded <;> simp [hb, Program.takes]

theorem mem_guarded_iff (hσ : σ ∈ p.roles) : p.block σ ∈ p.guarded ↔ isGuarded σ = true := by
  have hlt : p.roles.idxOf σ < p.roles.length := idxOf_lt_length_iff.2 hσ
  have hget : p.roles[p.roles.idxOf σ]? = some σ := by
    rw [List.getElem?_eq_getElem hlt, getElem_idxOf hlt]
  simp only [guarded, IdSet.mem_ofList, mem_filterMap, block, blockOf, if_pos hσ]
  constructor
  · rintro ⟨⟨ρ, i⟩, hc, hi⟩
    split at hi
    · rename_i hg
      have hi : i = p.roles.idxOf σ := Option.some.inj hi
      have hc : p.roles[i]? = some ρ := mem_zipIdx_iff_getElem?.1 hc
      rw [hi, hget] at hc
      cases hc
      exact hg
    · cases hi
  · intro hg
    exact ⟨(σ, p.roles.idxOf σ), mem_zipIdx_iff_getElem?.2 hget, by simp [hg]⟩

/-- A role that no region covers: its exceptions go to `fail`, or leave the dispatcher. -/
theorem handler?_uncovered (hσ : σ ∈ p.roles) (h : ∀ R, ∀ s ∈ p.segments, σ ∉ p.regionRoles R s)
    (prog : Program) (e : Value) :
    prog.handler? p.dispatcher (p.block σ) e =
      if isGuarded σ then some (p.block .fail) else none := by
  have hpieces := find?_pieces hσ (prog.takes e) (fun _ => false)
    (fun R => by simpa using h R) (by simp)
  have hnone : (p.graph.regions.find? fun R => false && prog.takes e R.kind) = none :=
    find?_eq_none.2 (by simp)
  rw [handler?_dispatcher, hpieces, hnone]
  simp [mem_guarded_iff hσ]

theorem mem_regionRoles :
    σ ∈ p.regionRoles R s ↔
      (∃ n ∈ R.nodes, owner? p.segments n = some s.index ∧ σ ∈ p.coveredRoles n) ∨
        ∃ q, p.point? s.index = some q ∧ q.resume ∈ R.nodes ∧ σ = .resume q.index := by
  rw [regionRoles, mem_append, mem_flatMap]
  refine or_congr ?_ ?_
  · simp only [mem_filter, decide_eq_true_eq, and_assoc]
    rfl
  · cases p.point? s.index with
    | none => simp
    | some q =>
      by_cases hq : q.resume ∈ R.nodes <;> simp [hq]

/-- A role whose exceptions are never handled inside the method. -/
theorem not_mem_regionRoles (h : ∀ k, σ ≠ .node k ∧ σ ≠ .fast k ∧ σ ≠ .resume k) :
    σ ∉ p.regionRoles R s := by
  rw [mem_regionRoles]
  rintro (⟨n, _, _, hσ⟩ | ⟨q, _, _, hσ⟩)
  · rcases mem_cons.1 hσ with hσ | hσ
    · exact (h n).1 hσ
    · simp only [Option.mem_toList, Option.map_eq_some_iff] at hσ
      obtain ⟨q, _, hq⟩ := hσ
      exact (h q.index).2.1 hq.symm
  · exact (h q.index).2.2 hσ

namespace Made

variable {isMarker : String → Bool} {r : IdSet} (h : p.Made isMarker r)
include h

variable {n : Node} {q : Suspension}

/-- **A covered role**: if the regions around it are those around node `k`, and all their handlers
are laid out, then an exception goes to the block of the handler that the method chooses, and to
`fail` if the method has none. -/
theorem handler?_covered {σ : Role} (hσ : σ ∈ p.roles) (hg : isGuarded σ = true)
    (hn : n ∈ p.graph.nodes)
    (hcover : ∀ R : GraphRegion, n.id ∈ R.nodes ↔ ∃ s ∈ p.segments, σ ∈ p.regionRoles R s)
    (hlaid : ∀ k ∈ p.graph.handlers n.id, k ∈ r) (prog : Program) (e : Value) :
    prog.handler? p.dispatcher (p.block σ) e =
      some (((prog.handler? p.method n.origin e).map p.nodeBlock).getD (p.block .fail)) := by
  have hfind := find?_pieces hσ (prog.takes e) (fun R => decide (n.id ∈ R.nodes))
    (fun R => by rw [decide_eq_true_eq]; exact hcover R) fun R hR hc => by
      refine h.mem_roles_node (hlaid _ (mem_map.2 ⟨R, mem_filter.2 ⟨hR, hc⟩, rfl⟩))
  have hmethod : (p.graph.regions.find? fun R => decide (n.id ∈ R.nodes) && prog.takes e R.kind).map
      (fun R => p.nodeBlock R.handler) = (prog.handler? p.method n.origin e).map p.nodeBlock := by
    have hcov := Graph.covering_eq h.sound (h.graph ▸ hn)
    rw [← h.graph] at hcov
    have hsplit : (p.graph.regions.find? fun R => decide (n.id ∈ R.nodes) && prog.takes e R.kind) =
        (p.graph.covering n.id).find? fun R => prog.takes e R.kind := by
      rw [Graph.covering, find?_filter]
      simp
    rw [hsplit, hcov, find?_map, Program.handler?]
    simp only [Option.map_map, Function.comp_def]
  rw [handler?_dispatcher, hfind, hmethod, if_pos ((mem_guarded_iff hσ).2 hg)]
  cases (prog.handler? p.method n.origin e).map p.nodeBlock <;> rfl

theorem mem_nodes {k : Nat} (hn : p.graph.node? k = some n) : n ∈ p.graph.nodes ∧ n.id = k := by
  refine ⟨Graph.mem_of_node? hn, ?_⟩
  rw [h.graph] at hn
  exact Graph.node?_id h.sound hn

theorem handlers_eq {k : Nat} (hn : p.graph.node? k = some n) :
    p.graph.handlers k = p.method.handlers n.origin := by
  obtain ⟨hmem, rfl⟩ := h.mem_nodes hn
  rw [h.graph] at hmem ⊢
  exact Graph.handlers_eq h.sound hmem

theorem mem_handlers {k : Nat} (hn : p.graph.node? k = some n) {prog : Program} {e : Value}
    {j : Nat} (hj : prog.handler? p.method n.origin e = some j) : j ∈ p.graph.handlers k := by
  rw [h.handlers_eq hn]
  exact Program.mem_handlers_of_handler? hj

/-- The node after a marker: the next piece of the same block. -/
theorem exists_resume (hq : q ∈ p.points) (hn : p.graph.node? q.node = some n) :
    ∃ k, p.graph.node? q.resume = some k ∧ k.origin = n.origin ∧
      k.start = n.start + n.instrs.length + 1 := by
  obtain ⟨n', c, hn', hexit, _⟩ := (h.isAt hq).node
  rw [hn] at hn'
  cases hn'
  have hmem := (h.mem_nodes hn).1
  rw [h.graph] at hmem ⊢
  obtain ⟨b, _, hpiece⟩ := Graph.pieceOf h.sound hmem
  have hends := hpiece.ends
  simp only [Node.Ends, hexit] at hends
  obtain ⟨_, _, k, hk, hid, horigin, hstart⟩ := hends
  exact ⟨k, hid ▸ Graph.node?_of_mem h.sound hk, horigin, hstart⟩

/-- Marker and resumption are pieces of one block, so the same regions cover them. -/
theorem handlers_resume (hq : q ∈ p.points) (hn : p.graph.node? q.node = some n) :
    p.graph.handlers q.resume = p.graph.handlers q.node := by
  obtain ⟨k, hk, horigin, _⟩ := h.exists_resume hq hn
  rw [h.handlers_eq hk, h.handlers_eq hn, horigin]

theorem handler?_node {k : Nat} (hk : k ∈ r) (hn : p.graph.node? k = some n)
    (hthrow : n.canThrow = true) (prog : Program) (e : Value) :
    prog.handler? p.dispatcher (p.nodeBlock k) e =
      some (((prog.handler? p.method n.origin e).map p.nodeBlock).getD (p.block .fail)) := by
  obtain ⟨hmem, rfl⟩ := h.mem_nodes hn
  refine h.handler?_covered (h.mem_roles_node hk) rfl hmem (fun R => ?_)
    (h.flow.handlers n.id hk n hn hthrow) prog e
  constructor
  · intro hR
    obtain ⟨s, hs, _, howner⟩ := h.exists_owner hk
    exact ⟨s, hs, mem_regionRoles.2 (.inl ⟨n.id, hR, howner, by simp [coveredRoles]⟩)⟩
  · rintro ⟨s, _, hσ⟩
    rcases mem_regionRoles.1 hσ with ⟨j, hj, _, hcov⟩ | ⟨q, _, _, hσ⟩
    · rcases mem_cons.1 hcov with hcov | hcov
      · cases hcov
        exact hj
      · simp at hcov
    · cases hσ

theorem canThrow_point (hq : q ∈ p.points) (hn : p.graph.node? q.node = some n) :
    n.canThrow = true := by
  obtain ⟨n', c, hn', hexit, _⟩ := (h.isAt hq).node
  rw [hn] at hn'
  cases hn'
  simp [Node.canThrow, Node.isSuspend, hexit]

/-- **The way on with a settled future** is covered like the marker call. -/
theorem handler?_fast (hq : q ∈ p.points) (hn : p.graph.node? q.node = some n) (prog : Program)
    (e : Value) :
    prog.handler? p.dispatcher (p.block (.fast q.index)) e =
      some (((prog.handler? p.method n.origin e).map p.nodeBlock).getD (p.block .fail)) := by
  obtain ⟨hmem, hid⟩ := h.mem_nodes hn
  have hreach := (h.isAt hq).reached
  refine h.handler?_covered (h.mem_roles_fast hq) rfl hmem (fun R => ?_)
    (hid ▸ h.flow.handlers q.node hreach n hn (h.canThrow_point hq hn)) prog e
  rw [hid]
  constructor
  · intro hR
    obtain ⟨s, hs, _, howner⟩ := h.exists_owner hreach
    refine ⟨s, hs, mem_regionRoles.2 (.inl ⟨q.node, hR, howner, ?_⟩)⟩
    simp [coveredRoles, h.pointAt?_node hq]
  · rintro ⟨s, _, hσ⟩
    rcases mem_regionRoles.1 hσ with ⟨j, hj, _, hcov⟩ | ⟨q', _, _, hσ⟩
    · rcases mem_cons.1 hcov with hcov | hcov
      · cases hcov
      · simp only [Option.mem_toList, Option.map_eq_some_iff, Role.fast.injEq] at hcov
        obtain ⟨q', hfind, hindex⟩ := hcov
        have hq' := mem_of_find?_eq_some hfind
        have heq := h.point?_index hq'
        rw [hindex, h.point?_index hq] at heq
        cases heq
        have hnode : q.node = j := by simpa using find?_some hfind
        rwa [hnode]
    · cases hσ

/-- **A resumption** is covered like the marker call that it continues. -/
theorem handler?_resume (hq : q ∈ p.points) (hn : p.graph.node? q.node = some n) (prog : Program)
    (e : Value) :
    prog.handler? p.dispatcher (p.block (.resume q.index)) e =
      some (((prog.handler? p.method n.origin e).map p.nodeBlock).getD (p.block .fail)) := by
  obtain ⟨k, hk, horigin, _⟩ := h.exists_resume hq hn
  obtain ⟨hkmem, hkid⟩ := h.mem_nodes hk
  have hlaid : ∀ j ∈ p.graph.handlers k.id, j ∈ r := by
    rw [hkid, h.handlers_resume hq hn]
    exact h.flow.handlers q.node (h.isAt hq).reached n hn (h.canThrow_point hq hn)
  rw [← horigin]
  refine h.handler?_covered (h.mem_roles_resume hq) rfl hkmem (fun R => ?_) hlaid prog e
  rw [hkid]
  constructor
  · intro hR
    obtain ⟨s, hs, hindex⟩ := h.exists_segment hq
    exact ⟨s, hs, mem_regionRoles.2 (.inr ⟨q, hindex ▸ h.point?_index hq, hR, rfl⟩)⟩
  · rintro ⟨s, _, hσ⟩
    rcases mem_regionRoles.1 hσ with ⟨j, hj, _, hcov⟩ | ⟨q', hfind, hR, hσ⟩
    · rcases mem_cons.1 hcov with hcov | hcov
      · cases hcov
      · simp at hcov
    · have hq' := mem_of_find?_eq_some hfind
      have heq := h.point?_index hq'
      rw [← Role.resume.inj hσ, h.point?_index hq] at heq
      cases heq
      exact hR

end Made

end Plan

end Dispatcher

end Resumable
