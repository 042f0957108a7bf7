/-
**The exception table of a dispatcher agrees with that of the method.**

The table of a dispatcher is made from pieces: each region of the method is cut by segments, the
pieces of all regions stand in one list, and a region that catches everything comes last.  What
counts is which handler an exception finds.  For every node of the method from which an exception
can come, for the way on with a settled future and for the resumption of every point, it is the
handler that the method has at the block of the node, or `fail` where the method has none.  The
blocks that only move values between frames and locals are covered by the last region alone.

Main results:

* `Dispatcher.Plan.covering_uncovered` — the blocks that the last region alone covers;
* `Conversion.tableAgrees_of_convert` — **the tables agree**.
-/

import Resumable.Proofs.EntryRuns

set_option autoImplicit false

namespace Resumable

open List

namespace Dispatcher.Plan

/-- **An exception in block `b` of the dispatcher is handled like one in block `origin` of the
method**: if the method has a handler, its first node is laid out and its block is the handler in
the dispatcher; `fail` is the handler exactly when the method has none. -/
structure Mirrors (p : Plan) (r : IdSet) (prog : Program) (e : Value) (b origin : Nat) : Prop where
  handled : ∀ k, prog.handler? p.method origin e = some k →
    k ∈ r ∧ .node k ∈ p.roles ∧
      (∃ head, p.graph.node? k = some head ∧ head.origin = k ∧ head.start = 0) ∧
      prog.handler? p.dispatcher b e = some (p.nodeBlock k)
  failed : prog.handler? p.dispatcher b e = some (p.block .fail) ↔
    prog.handler? p.method origin e = none

/-- **The two exception tables agree** about the exception `e`, for the subclasses of a program.
`r` is the set of nodes that control gets to. -/
structure TableAgrees (p : Plan) (r : IdSet) (prog : Program) (e : Value) : Prop where
  node : ∀ k ∈ r, ∀ n, p.graph.node? k = some n → n.canThrow = true →
    p.Mirrors r prog e (p.nodeBlock k) n.origin
  fast : ∀ q ∈ p.points, p.Mirrors r prog e (p.block (.fast q.index)) q.location.block
  resume : ∀ q ∈ p.points, p.Mirrors r prog e (p.block (.resume q.index)) q.location.block
  start : p.dispatcher.covering (p.block .start) = p.dispatcher.regions.getLast?.toList ∧
    prog.handler? p.dispatcher (p.block .start) e = some (p.block .fail)
  park : ∀ q ∈ p.points,
    p.dispatcher.covering (p.block (.park q.index)) = p.dispatcher.regions.getLast?.toList ∧
      prog.handler? p.dispatcher (p.block (.park q.index)) e = some (p.block .fail)

variable {p : Plan}

/-- A piece of the table covers the block of a role only if its region does so in a segment. -/
theorem exists_regionRoles_of_mem_pieces {σ : Role} (hσ : σ ∈ p.roles) {c : RegionPiece}
    (hc : c ∈ p.pieces) (hb : p.block σ ∈ c.blocks) :
    ∃ R, ∃ s ∈ p.segments, σ ∈ p.regionRoles R s := by
  obtain ⟨R, -, hR⟩ := mem_flatMap.1 hc
  split at hR
  · obtain ⟨s, hs, hpiece⟩ := mem_filterMap.1 hR
    rw [(piece?_eq_some hpiece).2.2] at hb
    exact ⟨R, s, hs, (mem_regionBlocks_iff hσ).1 hb⟩
  · cases hR

/-- **What no region of the method covers, the last region alone covers.** -/
theorem covering_uncovered {σ : Role} (hσ : σ ∈ p.roles) (hg : isGuarded σ = true)
    (h : ∀ R, ∀ s ∈ p.segments, σ ∉ p.regionRoles R s) :
    p.dispatcher.covering (p.block σ) = p.dispatcher.regions.getLast?.toList := by
  have hregions : p.dispatcher.regions = p.regions := rfl
  rw [Method.covering, hregions, regions, filter_append, getLast?_concat]
  have hpieces : (p.pieces.mapIdx fun i q =>
      ({ id := i, blocks := q.blocks, handler := q.handler, kind := q.kind } : Region)).filter
        (p.block σ ∈ ·.blocks) = [] := by
    rw [filter_eq_nil_iff]
    intro region hregion hb
    obtain ⟨i, hi⟩ := mem_iff_getElem?.1 hregion
    rw [getElem?_mapIdx] at hi
    obtain ⟨c, hc, rfl⟩ := Option.map_eq_some_iff.1 hi
    obtain ⟨R, s, hs, hroles⟩ := exists_regionRoles_of_mem_pieces hσ (mem_of_getElem? hc)
      (of_decide_eq_true hb)
    exact h R s hs hroles
  rw [hpieces]
  simp [(mem_guarded_iff hσ).2 hg]

namespace Made

variable {isMarker : String → Bool} {r : IdSet} (h : p.Made isMarker r)
include h

/-- The handler of a method is the number of its first node, which is laid out if it is among the
nodes that control gets to. -/
theorem mirrors {prog : Program} {e : Value} {b origin : Nat}
    (hlaid : ∀ k, prog.handler? p.method origin e = some k → k ∈ r)
    (hhandler : prog.handler? p.dispatcher b e =
      some (((prog.handler? p.method origin e).map p.nodeBlock).getD (p.block .fail))) :
    p.Mirrors r prog e b origin where
  handled k hk := by
    have hr := hlaid k hk
    have hblock : k < p.method.blocks.length := by
      obtain ⟨region, hregion, rfl⟩ := Option.map_eq_some_iff.1 hk
      exact (h.sound.regions region (mem_filter.1 (mem_of_find?_eq_some hregion)).1).handler
    refine ⟨hr, h.mem_roles_node hr, ?_, ?_⟩
    · rw [h.graph]
      exact Graph.exists_head h.sound hblock
    · rw [hhandler, hk]
      rfl
  failed := by
    rw [hhandler]
    cases hk : prog.handler? p.method origin e with
    | none => simp
    | some k =>
      have hne : p.nodeBlock k ≠ p.block .fail := fun heq => by
        cases block_inj (h.mem_roles_node (hlaid k hk)) (mem_roles_fixed (by simp)) heq
      simpa using hne

/-- If an exception can leave a node, control gets to the handlers that the method has there. -/
theorem mem_of_handler? {k : Nat} (hk : k ∈ r) {n : Node} (hn : p.graph.node? k = some n)
    (hthrow : n.canThrow = true) {prog : Program} {e : Value} {j : Nat}
    (hj : prog.handler? p.method n.origin e = some j) : j ∈ r :=
  h.flow.handlers k hk n hn hthrow j (h.mem_handlers hn hj)

theorem exists_node {q : Suspension} (hq : q ∈ p.points) :
    ∃ n, p.graph.node? q.node = some n ∧ q.location.block = n.origin := by
  obtain ⟨n, _, hn, -, hlocation, -⟩ := (h.isAt hq).node
  exact ⟨n, hn, by rw [hlocation]; rfl⟩

/-- **The table of a dispatcher agrees with that of its method.** -/
theorem tableAgrees (prog : Program) (e : Value) : p.TableAgrees r prog e where
  node k hk n hn hthrow :=
    h.mirrors (fun _ => h.mem_of_handler? hk hn hthrow) (h.handler?_node hk hn hthrow prog e)
  fast q hq := by
    obtain ⟨n, hn, hblock⟩ := h.exists_node hq
    rw [hblock]
    exact h.mirrors (fun _ => h.mem_of_handler? (h.isAt hq).reached hn (h.canThrow_point hq hn))
      (h.handler?_fast hq hn prog e)
  resume q hq := by
    obtain ⟨n, hn, hblock⟩ := h.exists_node hq
    rw [hblock]
    exact h.mirrors (fun _ => h.mem_of_handler? (h.isAt hq).reached hn (h.canThrow_point hq hn))
      (h.handler?_resume hq hn prog e)
  start := by
    have hrole : Role.start ∈ p.roles := mem_roles_fixed (by simp)
    have hfree : ∀ R, ∀ s ∈ p.segments, Role.start ∉ p.regionRoles R s :=
      fun _ _ _ => not_mem_regionRoles (by simp)
    exact ⟨covering_uncovered hrole rfl hfree, handler?_uncovered hrole hfree prog e⟩
  park q hq := by
    have hrole := h.mem_roles_park hq
    have hfree : ∀ R, ∀ s ∈ p.segments, Role.park q.index ∉ p.regionRoles R s :=
      fun _ _ _ => not_mem_regionRoles (by simp)
    exact ⟨covering_uncovered hrole rfl hfree, handler?_uncovered hrole hfree prog e⟩

end Made

end Dispatcher.Plan

/-- A method that is converted has been analysed, and its pair is made from the analysis. -/
theorem Method.exists_analysis {m : Method} {cls : String} {o : Options} {pair : Conversion.Pair}
    (h : m.convert cls o = .ok (.converted pair)) :
    ∃ a n, m.analyze o = .ok a ∧ pair = m.pair o a ∧ m.withoutCleanup = .ok n := by
  rw [convert] at h
  split at h
  · split at h
    · rename_i a ha
      cases h
      obtain ⟨⟨⟩, -, hrest⟩ := bind_eq_ok ha
      obtain ⟨n, hn, -⟩ := bind_eq_ok hrest
      exact ⟨a, n, ha, rfl, hn⟩
    · cases h
  · cases h

/-- **The exception tables agree.**  The dispatcher of a converted method is that of a plan for the
method without cleanup regions, and for every exception and every inheritance of classes the two
tables choose the same handlers. -/
theorem Conversion.tableAgrees_of_convert {m : Method} {cls : String} {o : Options}
    {pair : Conversion.Pair} (hconvert : m.convert cls o = .ok (.converted pair)) :
    ∃ a, m.analyze o = .ok a ∧ m.withoutCleanup = .ok a.method ∧ pair = m.pair o a ∧
      pair.dispatcher = (a.plan (o.dispatcherName m.name)).dispatcher ∧
      ∀ prog e, (a.plan (o.dispatcherName m.name)).TableAgrees a.reached prog e := by
  obtain ⟨a, n, ha, hpair, hn⟩ := m.exists_analysis hconvert
  obtain ⟨-, -, hmethod, hmade⟩ := Method.made_of_analyze ha hn (o.dispatcherName m.name)
  exact ⟨a, ha, hmethod ▸ hn, hpair, hpair ▸ rfl, hmade.tableAgrees⟩

/-- A method whose only handler covers the marker. -/
theorem tableAgrees_awaitAndAdd :
    awaitAndAdd.convert "C" {} = .ok (.converted awaitAndAdd.pair) ∧
      ∃ a, awaitAndAdd.analyze {} = .ok a ∧ awaitAndAdd.withoutCleanup = .ok a.method ∧
        awaitAndAdd.pair = Method.pair awaitAndAdd {} a ∧
        awaitAndAdd.pair.dispatcher = (a.plan "m$dispatch").dispatcher ∧
        ∀ prog e, (a.plan "m$dispatch").TableAgrees a.reached prog e :=
  ⟨awaitAndAdd.convert_eq, Conversion.tableAgrees_of_convert awaitAndAdd.convert_eq⟩

end Resumable
