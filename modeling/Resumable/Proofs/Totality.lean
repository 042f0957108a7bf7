/-
**Totality of the passes.**

A conversion runs its passes one after the other: cleanup regions go, the graph is made, its levels
are checked, points and segments are found, and the dispatcher is written.  On a method that names
only what exists, none of them gets stuck, whatever else is wrong with the method.  The method
without cleanup regions and the dispatcher name only what exists, too.

Main results:

* `Dispatcher.Plan.Made.sound_dispatcher` — a dispatcher names only what exists;
* `Method.passes_total` — **the passes never get stuck**.
-/

import Resumable.Proofs.CheckedFlow

set_option autoImplicit false

namespace Resumable

open Dispatcher List

/-! ### The dispatcher -/

namespace Dispatcher.Plan

variable {p : Plan} {isMarker : String → Bool} {r : IdSet}

theorem block_lt (p : Plan) (ρ : Role) : p.block ρ < p.roles.length := by
  have hbad : Role.badState ∈ p.roles := mem_roles_fixed (by simp)
  unfold block blockOf
  split
  · rename_i hρ
    exact idxOf_lt_length_iff.2 hρ
  · exact idxOf_lt_length_iff.2 hbad

theorem mem_localIds_dispatcher {l : Nat} : l ∈ p.dispatcher.localIds ↔ l ≤ p.slots.exc := by
  have hmoved :
      (p.method.locals.mapIdx fun i v => (⟨3 + i, v.name, v.ty, false⟩ : Local)).map (·.id) =
      range' 3 p.method.locals.length :=
    ext_getElem (by simp) fun i hi hi' => by simp
  show l ∈ (Dispatcher.locals p.method).map (·.id) ↔ _
  simp only [Dispatcher.locals, Dispatcher.params, map_append, hmoved, mem_append,
    mem_range'_1, slots, Slots.ofMethod]
  cases p.method.ret.isVoid <;> simp <;> omega

theorem local_mem {l : Nat} (h : l ∈ p.method.localIds) :
    p.slots.local l ∈ p.dispatcher.localIds := by
  have hlt : p.slots.local l < 3 + p.method.locals.length := (Slots.local_bounds h).2
  have hexc : 3 + p.method.locals.length ≤ p.slots.exc := by
    simp only [slots, Slots.ofMethod]
    split <;> omega
  exact mem_localIds_dispatcher.2 (by omega)

theorem slots_mem (p : Plan) : ∀ l ∈ [p.slots.state, p.slots.resume, p.slots.frame, p.slots.outer,
    p.slots.pending, p.slots.next, p.slots.exc] ++ p.slots.ret.toList,
      l ∈ p.dispatcher.localIds := by
  simp only [mem_localIds_dispatcher, slots, Slots.ofMethod]
  cases p.method.ret.isVoid <;> simp

/-- The instructions mention locals of the dispatcher only. -/
def Within (p : Plan) (is : List Instr) : Prop :=
  ∀ i ∈ is, ∀ l, i.Mentions l → l ∈ p.dispatcher.localIds

theorem within_append {is js : List Instr} :
    p.Within (is ++ js) ↔ p.Within is ∧ p.Within js := forall_mem_append

variable {ls : List Nat}

theorem within_flatten {f : Nat → Nat → List Instr} (h : ∀ k, ∀ l ∈ ls, p.Within (f k l)) :
    p.Within (ls.mapIdx f).flatten := by
  intro i hi
  obtain ⟨c, hc, hi⟩ := mem_flatten.1 hi
  obtain ⟨k, hk, rfl⟩ := mem_mapIdx.1 hc
  exact h k _ (List.getElem_mem hk) i hi

theorem within_mapLocals {is : List Instr}
    (h : ∀ i ∈ is, ∀ l, i.Mentions l → l ∈ p.method.localIds) :
    p.Within (is.map (·.mapLocals p.slots.local)) := by
  intro i hi l hl
  obtain ⟨j, hj, rfl⟩ := mem_map.1 hi
  rw [Instr.Mentions, Instr.uses?_mapLocals, Instr.defines?_mapLocals] at hl
  rcases hl with hl | hl
  · obtain ⟨k, hk, rfl⟩ := Option.map_eq_some_iff.1 hl
    exact local_mem (h j hj k (.inl hk))
  · obtain ⟨k, hk, rfl⟩ := Option.map_eq_some_iff.1 hl
    exact local_mem (h j hj k (.inr hk))

theorem within_restore (h : ∀ l ∈ ls, l ∈ p.method.localIds) : p.Within (p.restore ls) := by
  refine within_flatten fun k l hl => ?_
  simp [Within, Instr.Mentions, Instr.uses?, Instr.defines?, local_mem (h l hl), p.slots_mem]

theorem within_save (h : ∀ l ∈ ls, l ∈ p.method.localIds) : p.Within (p.save ls) := by
  refine within_flatten fun k l hl => ?_
  simp [Within, Instr.Mentions, Instr.uses?, Instr.defines?, local_mem (h l hl), p.slots_mem]

theorem within_dropVoid (ty : Ty) : p.Within (dropVoid ty) := by
  unfold dropVoid
  split <;> simp [Within, Instr.Mentions, Instr.uses?, Instr.defines?]

theorem Made.within_nodeCode (h : p.Made isMarker r) {n : Node} (hn : n ∈ p.graph.nodes) :
    p.Within (p.nodeCode n).1 := by
  have hbody := within_mapLocals (h.declared hn)
  simp only [nodeCode]
  split
  · refine within_append.2 ⟨hbody, ?_⟩
    unfold fulfill
    cases hret : p.slots.ret <;>
      simp [Within, Instr.Mentions, Instr.uses?, Instr.defines?, p.slots_mem, hret]
  · exact hbody
  · split
    · exact within_append.2 ⟨hbody, by simp [Within, Instr.Mentions, Instr.uses?, Instr.defines?]⟩
    · exact hbody

/-- **The code of every role** mentions locals of the dispatcher only. -/
theorem Made.within_code (h : p.Made isMarker r)
    (hparams : p.method.DeclaresParams) (ρ : Role) :
    p.Within (p.code ρ).1 := by
  have hlive : ∀ {k s}, p.point? k = some s → ∀ l ∈ s.live.map (·.1), l ∈ p.method.localIds := by
    intro k s hs l hl
    have hq := mem_of_find?_eq_some hs
    obtain ⟨n, c, hn, -⟩ := (h.isAt hq).node
    exact (mem_live h hq hn hl).1
  cases ρ with
  | start =>
    exact within_restore fun l hl => hparams.mem_localIds hl
  | node n =>
    simp only [code]
    split
    · rename_i node hnode
      exact h.within_nodeCode (mem_of_getElem? hnode)
    · simp [Within]
  | resume k =>
    simp only [code]
    split
    · rename_i s hs
      refine within_append.2 ⟨within_append.2 ⟨within_restore (hlive hs), ?_⟩, within_dropVoid _⟩
      simp [Within, Instr.Mentions, Instr.uses?, Instr.defines?, p.slots_mem]
    · simp [Within]
  | fast k =>
    simp only [code]
    split
    · refine forall_mem_cons.2 ⟨?_, within_dropVoid _⟩
      simp [Instr.Mentions, Instr.uses?, Instr.defines?]
    · simp [Within]
  | park k =>
    simp only [code]
    split
    · rename_i s hs
      refine within_append.2 ⟨within_append.2 ⟨?_, within_save (hlive hs)⟩, ?_⟩ <;>
        simp [Within, Instr.Mentions, Instr.uses?, Instr.defines?, p.slots_mem]
    · simp [Within]
  | head | fail | rethrow | reject | badState =>
    simp [code, Within, Instr.Mentions, Instr.uses?, Instr.defines?, p.slots_mem]

/-- **Every jump in a dispatcher** goes to one of its blocks. -/
theorem successors_code_lt (p : Plan) (ρ : Role) :
    ∀ t ∈ (p.code ρ).2.successors, t < p.roles.length := by
  have hnode : ∀ n : Node, ∀ t ∈ (p.nodeCode n).2.successors, t < p.roles.length := by
    intro n
    simp only [nodeCode]
    split
    · simp [Terminator.successors]
    · simp [nodeBlock, p.block_lt]
    · split <;> simp [Terminator.successors, p.block_lt]
  cases ρ with
  | head =>
    intro t ht
    simp only [code, cases, Terminator.successors, map_cons, List.map_map, mem_append,
      mem_cons, mem_map, not_mem_nil, or_false] at ht
    rcases ht with (rfl | ⟨s, -, rfl⟩) | rfl <;> exact p.block_lt _
  | node n =>
    simp only [code]
    split
    · exact hnode _
    · simp [Terminator.successors]
  | resume k | fast k | park k =>
    simp only [code]
    split <;> simp [Terminator.successors, nodeBlock, p.block_lt]
  | start | fail | rethrow | reject | badState =>
    simp [code, Terminator.successors, nodeBlock, p.block_lt]

theorem blockOf?_lt {ρ : Role} {b : Nat} (h : blockOf? p.roles ρ = some b) :
    b < p.roles.length := by
  unfold blockOf? at h
  split at h
  · rename_i hρ
    cases h
    exact idxOf_lt_length_iff.2 hρ
  · cases h

theorem Made.closed (h : p.Made isMarker r) : p.graph.Closed :=
  h.graph ▸ Graph.closed_ofMethod h.sound

/-- **A dispatcher names only what exists.** -/
theorem Made.sound_dispatcher (h : p.Made isMarker r)
    (hparams : p.method.DeclaresParams) : p.dispatcher.Sound := by
  have hlen : p.dispatcher.blocks.length = p.roles.length := length_mapIdx
  have hat : ∀ {i : Nat} {b : Block}, p.dispatcher.blocks[i]? = some b →
      ∃ ρ, b = { id := i, instrs := (p.code ρ).1, terminator := (p.code ρ).2 } := by
    intro i b hb
    obtain ⟨ρ, -, rfl⟩ := Option.map_eq_some_iff.1 (getElem?_mapIdx.symm.trans hb)
    exact ⟨ρ, rfl⟩
  refine ⟨?_, ?_, ?_, ?_⟩
  · rw [hlen]
    exact Nat.zero_lt_of_lt (p.block_lt .head)
  · intro i b hb
    obtain ⟨ρ, rfl⟩ := hat hb
    rfl
  · intro b hb
    obtain ⟨i, hi⟩ := mem_iff_getElem?.1 hb
    obtain ⟨ρ, rfl⟩ := hat hi
    exact ⟨h.within_code hparams ρ, hlen ▸ p.successors_code_lt ρ⟩
  · intro R hR
    rw [hlen]
    rcases mem_append.1 hR with hR | hR
    · obtain ⟨i, hi, rfl⟩ := mem_mapIdx.1 hR
      obtain ⟨G, -, hG⟩ := mem_flatMap.1 (List.getElem_mem hi)
      split at hG
      · rename_i handler hhandler
        obtain ⟨s, -, hs⟩ := mem_filterMap.1 hG
        obtain ⟨rfl, -, hblocks⟩ := piece?_eq_some hs
        refine ⟨blockOf?_lt hhandler, fun b hb => ?_⟩
        simp only [hblocks, IdSet.mem_ofList, mem_filterMap] at hb
        obtain ⟨ρ, -, hρ⟩ := hb
        exact blockOf?_lt hρ
      · cases hG
    · rw [mem_singleton.1 hR]
      refine ⟨p.block_lt _, fun b hb => ?_⟩
      simp only [guarded, IdSet.mem_ofList, mem_filterMap] at hb
      obtain ⟨⟨ρ, i⟩, hi, hb⟩ := hb
      split at hb
      · cases hb
        simpa using (mem_zipIdx hi).2.1
      · cases hb

end Dispatcher.Plan

/-! ### Points, segments and code -/

namespace Checked

/-- Goes backwards through instructions, the last one first, to the one that pushes a value. -/
def producerIndex? (depth : Nat) : List Instr → Option (Option Nat)
  | [] => return none
  | i :: before =>
    if depth ≤ i.pushes then return some before.length
    else do producerIndex? ((← minus? depth i.pushes) + i.pops) before

/-- Gets stuck unless the point is at a node and goes on at one, with nodes for handlers, and saves
declared locals. -/
def point (m : Method) (g : Graph) (p : Suspension) : Option Unit := do
  let n ← g.node? p.node
  let _ ← producerIndex? 1 n.instrs.reverse
  within g.size (p.resume :: g.handlers p.resume)
  p.live.forM fun c => do let _ ← m.local? c.1

/-- The analysis of the nodes that control gets to. -/
def analysis (m : Method) (g : Graph) (reached : IdSet) : Option Analysis := do
  within g.size (g.entry :: reached.toList ++ reached.toList.flatMap g.next)
  let a := Analysis.ofGraph m g reached
  within g.size (a.walk ++ a.segments.flatMap (·.nodes))
  a.points.forM (point m g)
  return a

/-- The dispatcher: its code is made from nodes, its table from the nodes of the regions, and every
role has a block. -/
def dispatcher (p : Plan) : Option Method := do
  within p.graph.size (p.segments.flatMap (·.nodes) ++ p.graph.regions.flatMap (·.nodes.toList))
  within p.blocks.length (p.roles.map p.block)
  return p.dispatcher

theorem producerIndex?_eq (depth : Nat) (is : List Instr) :
    producerIndex? depth is = some (Resumable.producerIndex? depth is) := by
  induction is generalizing depth with
  | nil => rfl
  | cons i before ih =>
    unfold producerIndex? Resumable.producerIndex?
    split
    · rfl
    · rename_i hlt
      rw [minus?_eq (Nat.le_of_not_le hlt)]
      exact ih _

variable {p : Plan} {isMarker : String → Bool} {r : IdSet}

theorem point_eq (h : p.Made isMarker r) {q : Suspension} (hq : q ∈ p.points) :
    point p.method p.graph q = some () := by
  have hclosed := h.closed
  obtain ⟨n, c, hn, hexit, -⟩ := (h.isAt hq).node
  have hresume : q.resume ∈ p.graph.next q.node := by
    refine mem_append_left _ ?_
    simp only [Graph.successors, hn, Node.successors, hexit, mem_singleton]
  have hnodes : ∀ k ∈ q.resume :: p.graph.handlers q.resume, k < p.graph.size :=
    forall_mem_cons.2 ⟨hclosed.next _ _ hresume,
      fun k hk => hclosed.next q.resume k (mem_append_right _ hk)⟩
  have hlive : ∀ c ∈ q.live, (do let _ ← p.method.local? c.1) = some () := by
    intro c hc
    have hdeclared := (Plan.mem_live h hq hn (mem_map.2 ⟨c, hc, rfl⟩)).1
    cases hlocal : p.method.local? c.1 with
    | some v => rfl
    | none => exact absurd hdeclared (Method.local?_isNone_iff.1 (by rw [hlocal]; rfl))
  unfold point
  simp only [hn, producerIndex?_eq, within_eq hnodes, Option.bind_eq_bind, Option.bind_some]
  exact forM_some hlive

theorem segments_lt (h : p.Made isMarker r) :
    ∀ k ∈ p.segments.flatMap (·.nodes), k < p.graph.size := by
  intro k hk
  rw [h.segments] at hk
  exact h.flow.bound k ((Graph.segmentsIn_segments h.flow p.points).1.inside k hk)

/-- **The analysis does not get stuck.** -/
theorem analysis_eq {m : Method} {g : Graph}
    (h : ((Analysis.ofGraph m g r).plan "").Made isMarker r) :
    analysis m g r = some (Analysis.ofGraph m g r) := by
  have hclosed : g.Closed := h.closed
  have hnext : ∀ k ∈ g.entry :: r.toList ++ r.toList.flatMap g.next, k < g.size := by
    refine forall_mem_append.2 ⟨forall_mem_cons.2 ⟨hclosed.entry, h.flow.bound⟩, ?_⟩
    intro k hk
    obtain ⟨n, -, hk⟩ := mem_flatMap.1 hk
    exact hclosed.next n k hk
  have hvisited : ∀ k ∈ (Analysis.ofGraph m g r).walk ++
      (Analysis.ofGraph m g r).segments.flatMap (·.nodes), k < g.size :=
    forall_mem_append.2
      ⟨fun k hk => h.flow.bound k ((Graph.mem_walk_iff h.flow).1 hk), segments_lt h⟩
  have hpoints : (Analysis.ofGraph m g r).points.forM (point m g) = some () :=
    forM_some fun q hq => point_eq h hq
  unfold analysis
  simp only [within_eq hnext, within_eq hvisited, hpoints, Option.bind_eq_bind, Option.bind_some]
  rfl

/-- **Making the dispatcher does not get stuck.** -/
theorem dispatcher_eq (h : p.Made isMarker r) : dispatcher p = some p.dispatcher := by
  have hnodes : ∀ k ∈ p.segments.flatMap (·.nodes) ++ p.graph.regions.flatMap (·.nodes.toList),
      k < p.graph.size := by
    refine forall_mem_append.2 ⟨segments_lt h, fun k hk => ?_⟩
    obtain ⟨R, hR, hk⟩ := mem_flatMap.1 hk
    rw [h.graph, Graph.regions_eq h.sound] at hR
    obtain ⟨R', -, rfl⟩ := mem_map.1 hR
    obtain ⟨n, hn, rfl⟩ := mem_map.1 (IdSet.mem_ofList.1 hk)
    rw [h.graph]
    exact (List.getElem?_eq_some_iff.1 (Graph.node?_of_mem h.sound (mem_filter.1 hn).1)).1
  have hroles : ∀ b ∈ p.roles.map p.block, b < p.blocks.length := by
    intro b hb
    obtain ⟨ρ, -, rfl⟩ := mem_map.1 hb
    rw [Plan.blocks, length_mapIdx]
    exact p.block_lt ρ
  unfold dispatcher
  simp only [within_eq hnodes, within_eq hroles, Option.bind_eq_bind, Option.bind_some]
  rfl

end Checked

/-! ### The passes -/

/-- **The passes one after the other**, without the checks of the method: the analysis, and the
dispatcher with the given name. -/
def Method.passes (m : Method) (o : Options) (name : String) :
    Except Defect (Analysis × Method) := do
  let n ← m.withoutCleanup
  let g := Graph.ofMethod n o.isMarker
  let levels ← g.balance n.ret
  let a := Analysis.ofGraph n g (Graph.reached levels)
  return (a, (a.plan name).dispatcher)

/-- The checked passes one after the other. -/
def Checked.passes (m : Method) (o : Options) (name : String) :
    Checked Defect (Analysis × Method) := do
  let n ← withoutCleanup m
  let g ← graph n o.isMarker
  let levels ← balance g n.ret
  let a ← analysis n g (Graph.reached levels)
  return (a, ← dispatcher (a.plan name))

theorem made_of_balance {n : Method} (h : n.Sound) {isMarker : String → Bool}
    {levels : List (Option Level)}
    (hlevels : (Graph.ofMethod n isMarker).balance n.ret = .ok levels) (name : String) :
    ((Analysis.ofGraph n (Graph.ofMethod n isMarker)
      (Graph.reached levels)).plan name).Made isMarker (Graph.reached levels) :=
  ⟨h, rfl, Graph.flowSet_reached h hlevels, rfl, rfl⟩

theorem Checked.passes_eq {m : Method} (h : m.Sound)
    (hroom : m.nextLocal + 2 * m.cleanupCount ≤ 2 ^ 32) (o : Options) (name : String) :
    Checked.passes m o name = plain (m.passes o name) := by
  unfold Checked.passes Method.passes
  rw [withoutCleanup_eq h hroom]
  refine plain_bind fun n hn => ?_
  have hsound := (Method.grows_withoutCleanup h hn).sound
  rw [graph_eq hsound, lift_some_bind, balance_eq (Graph.closed_ofMethod hsound)]
  refine plain_bind fun levels hlevels => ?_
  rw [analysis_eq (made_of_balance hsound hlevels ""), lift_some_bind,
    dispatcher_eq (made_of_balance hsound hlevels name)]
  rfl

namespace Method

variable {m : Method}

theorem nextLocal_le_max (m : Method) : m.nextLocal ≤ m.localIds.max?.getD 0 + 1 := by
  have hfold : ∀ (ls : List Local) (start bound : Nat), start ≤ bound → (∀ v ∈ ls, v.id < bound) →
      ls.foldl (fun n l => max n (l.id + 1)) start ≤ bound := by
    intro ls
    induction ls with
    | nil => exact fun _ _ hstart _ => hstart
    | cons v ls ih =>
      intro start bound hstart hall
      obtain ⟨hv, hrest⟩ := forall_mem_cons.1 hall
      exact ih _ _ (Nat.max_le.2 ⟨hstart, hv⟩) hrest
  refine hfold m.locals 0 _ (Nat.zero_le _) fun v hv => Nat.lt_succ_of_le ?_
  exact le_max?_getD_of_mem (mem_map.2 ⟨v, hv, rfl⟩)

/-- The new locals of the method without cleanup regions. -/
theorem exists_added {n : Method} (h : m.Sound) (hn : m.withoutCleanup = .ok n)
    (hroom : m.nextLocal + 2 * m.cleanupCount ≤ 2 ^ 32) :
    ∃ added : List Local, n.locals = m.locals ++ added ∧ (added.map (·.id)).Nodup ∧
      ∀ v ∈ added, v.id ∉ m.localIds ∧ v.id < 2 ^ 32 := by
  obtain ⟨count, hcount, added, hlocals, hids⟩ := declares_withoutCleanup h hn
  refine ⟨added, hlocals, hids ▸ nodup_range', fun v hv => ?_⟩
  have hv : v.id ∈ range' m.nextLocal count := hids ▸ mem_map.2 ⟨v, hv, rfl⟩
  obtain ⟨hlow, hhigh⟩ := mem_range'_1.1 hv
  refine ⟨fun hmem => ?_, by omega⟩
  have := lt_nextLocal hmem
  omega

theorem passes_eq_ok {o : Options} {name : String} {a : Analysis} {d : Method}
    (h : m.passes o name = .ok (a, d)) : ∃ n levels, m.withoutCleanup = .ok n ∧
      (Graph.ofMethod n o.isMarker).balance n.ret = .ok levels ∧
      a = Analysis.ofGraph n (Graph.ofMethod n o.isMarker) (Graph.reached levels) ∧
      d = (a.plan name).dispatcher := by
  obtain ⟨n, hn, h⟩ := bind_eq_ok h
  obtain ⟨levels, hlevels, h⟩ := bind_eq_ok h
  cases h
  exact ⟨n, levels, hn, hlevels, rfl, rfl⟩

/-- **The passes never get stuck** on a method that names only what exists and whose local numbers
leave room for two more for each cleanup region, whatever the other checks say: every number that
they look up is in range, no difference is below zero, and the rounds of both tables end.  What has
no cleanup regions names only what exists, with new locals that are different from all others; the
dispatcher does so, too, if the parameters are declared.  The passes of `analyze` are these. -/
theorem passes_total (m : Method) (o : Options) (name : String) (hrefs : m.referenceDefects = [])
    (hroom : m.localIds.max?.getD 0 + 2 * m.cleanupCount < 2 ^ 32) :
    Checked.passes m o name = Checked.plain (m.passes o name) ∧
      (∀ n, m.withoutCleanup = .ok n → n.referenceDefects = [] ∧
        ∃ added : List Local, n.locals = m.locals ++ added ∧ (added.map (·.id)).Nodup ∧
          ∀ v ∈ added, v.id ∉ m.localIds ∧ v.id < 2 ^ 32) ∧
      (∀ a d, m.passes o name = .ok (a, d) →
        (∃ t, Settles (a.graph.liveRound a.reached) (fun _ => ∅) t ∧
          ∀ n, t n = a.liveness.liveIn n) ∧
        (∃ t, Settles (a.graph.definedRound a.reached) (a.graph.definedFirst a.liveness.params) t ∧
          ∀ n ∈ a.reached, t.after n = a.liveness.definedOut a.graph a.reached n) ∧
        (m.DeclaresParams → d.referenceDefects = [])) ∧
      ∀ a, m.analyze o = .ok a → m.passes o name = .ok (a, (a.plan name).dispatcher) := by
  have hm := referenceDefects_eq_nil_iff.1 hrefs
  have hnext : m.nextLocal + 2 * m.cleanupCount ≤ 2 ^ 32 := by
    have := m.nextLocal_le_max
    omega
  refine ⟨Checked.passes_eq hm hnext o name, fun n hn => ?_, fun a d hok => ?_, fun a ha => ?_⟩
  · exact ⟨referenceDefects_eq_nil_iff.2 (grows_withoutCleanup hm hn).sound,
      exists_added hm hn hnext⟩
  · obtain ⟨n, levels, hn, hlevels, rfl, rfl⟩ := passes_eq_ok hok
    have hgrows := grows_withoutCleanup hm hn
    have hmade := made_of_balance hgrows.sound hlevels name
    refine ⟨?_, ?_, fun hparams =>
      referenceDefects_eq_nil_iff.2 (hmade.sound_dispatcher (hparams.of_grows hgrows))⟩
    · obtain ⟨t, ht, hexact⟩ := Graph.exists_settles_live
      exact ⟨t, ht, fun k => IdSet.ext fun l =>
        (hexact k l).trans (Liveness.mem_liveIn_iff hmade.closed.next).symm⟩
    · obtain ⟨t, ht, hexact⟩ := Graph.exists_settles_defined hmade.closed.next hmade.flow
      exact ⟨t, ht, fun k hk => IdSet.ext fun l =>
        (hexact k hk l).trans (Liveness.mem_definedOut_iff hmade.flow hk).symm⟩
  · obtain ⟨-, n, levels, hn, hlevels, -, rfl⟩ := analyze_eq_ok ha
    simp only [passes, hn, hlevels, bind, Except.bind]
    rfl

/-- The passes on a method whose cleanup body waits: an exception is kept in a new local while the
body runs. -/
theorem passes_total_cleanupAwaits :
    cleanupAwaits.referenceDefects = [] ∧ cleanupAwaits.cleanupCount = 1 ∧
      Checked.passes cleanupAwaits {} "m$dispatch" =
        Checked.plain (cleanupAwaits.passes {} "m$dispatch") ∧
      (∃ n, cleanupAwaits.withoutCleanup = .ok n ∧ n.localIds = [0, 1] ∧ n.referenceDefects = []) ∧
      ∃ a d, cleanupAwaits.passes {} "m$dispatch" = .ok (a, d) ∧ d.blocks.length = 23 ∧
        d.referenceDefects = [] := by
  have hrefs : cleanupAwaits.referenceDefects = [] := by decide +kernel
  have hroom : cleanupAwaits.localIds.max?.getD 0 + 2 * cleanupAwaits.cleanupCount < 2 ^ 32 := by
    decide +kernel
  have hids : cleanupAwaits.withoutCleanup.map localIds = .ok [0, 1] := by decide +kernel
  obtain ⟨hpasses, hclean, hmade, hanalyze⟩ :=
    passes_total cleanupAwaits {} "m$dispatch" hrefs hroom
  obtain ⟨a, n, ha, hpair, hn⟩ := exists_analysis cleanupAwaits.convert_eq
  have hok := hanalyze a ha
  have hdispatcher : cleanupAwaits.pair.dispatcher = (a.plan "m$dispatch").dispatcher :=
    congrArg (·.dispatcher) hpair
  rw [hn] at hids
  refine ⟨hrefs, by decide +kernel, hpasses, ⟨n, hn, Except.ok.inj hids, (hclean n hn).1⟩,
    a, _, hok, ?_, (hmade a _ hok).2.2 (by decide +kernel)⟩
  rw [← hdispatcher]
  decide +kernel

/-- **An undeclared parameter.**  All that the code of the method names exists, but its dispatcher
stores the argument in a local that there is not. -/
theorem passes_undeclared :
    (undeclared [100] [.push (.int 7)] .ret).referenceDefects = [] ∧
      (undeclared [100] [.push (.int 7)] .ret).localIds.max?.getD 0 < 2 ^ 32 ∧
      (undeclared [100] [.push (.int 7)] .ret).cleanupCount = 0 ∧
      ((undeclared [100] [.push (.int 7)] .ret).passes {} "m$dispatch").map (·.2.referenceDefects) =
        .ok [⟨⟨1, 1⟩, .undeclaredLocal 100⟩] := by
  exact ⟨by decide +kernel, by decide +kernel, by decide +kernel, by decide +kernel⟩

end Method

end Resumable
