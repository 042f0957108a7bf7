/-
**Every node has its segment, and every marker its point.**

The walk that numbers the suspension points meets all nodes that control gets to.  So every marker
call among them is a point, and the points are numbered from one on without a gap.  The segments
together contain all these nodes: what a segment can get to without crossing a marker it contains,
unless an earlier one does, and where a marker is crossed the segment of its point goes on.

Main results:

* `Graph.mem_walk_iff` — the walk meets what control gets to;
* `Graph.isAt_of_mem_suspensions`, `Graph.exists_suspension` — **the points are the marker calls
  that control gets to**;
* `Graph.map_index_suspensions` — the points are numbered `1, 2, …`;
* `Graph.exists_owner` — **every node that control gets to belongs to a segment**.
-/

import Resumable.Graph.Segment
import Resumable.Proofs.LiveLocals

set_option autoImplicit false

namespace Resumable

open Relation List

/-! ### Points -/

/-- The point describes a marker call of the graph. -/
structure Suspension.IsAt (g : Graph) (m : Method) (r : IdSet) (a : Liveness) (p : Suspension) :
    Prop where
  reached : p.node ∈ r
  live : p.live = a.across g m r p.node p.resume
  node : ∃ n c, g.node? p.node = some n ∧ n.exit = .suspend c p.resume ∧
    p.location = n.exitLocation ∧ p.ty = c.ret

namespace Graph

variable {g : Graph} {m : Method} {r : IdSet} {a : Liveness} {k : Nat}

theorem mem_of_mem_visited {next : Nat → List Nat} {stack seen : List Nat}
    (hstack : ∀ s ∈ stack, s ∈ r) (hnext : ∀ n, ∀ q ∈ next n, q ∈ r)
    (h : k ∈ Search.visited g.size next stack seen) : k ∈ r := by
  obtain ⟨s, hs, hreach⟩ := Search.reaches_of_mem_visited h
  have hsr := hstack s hs
  clear hs h
  induction hreach with
  | refl _ => exact hsr
  | step _ hb _ ih => exact ih (hnext _ _ hb)

/-- **The walk meets exactly the nodes that control gets to.** -/
theorem mem_walk_iff (hr : g.FlowSet r) : k ∈ g.walk r ↔ k ∈ r := by
  have sound : ∀ k, k ∈ g.walk r → k ∈ r := fun k hk =>
    mem_of_mem_visited (by simp) (by simp) hk
  refine ⟨sound k, fun hk => ?_⟩
  have hpath := hr.path k hk
  clear hk
  induction hpath with
  | refl =>
    refine (Search.mem_visited_of_mem_stack ?_).resolve_left not_mem_nil
    simp [hr.entry]
  | tail _ hbc ih =>
    refine (Search.mem_visited_of_mem_next ih (hr.bound _ (sound _ ih)) ?_).resolve_left
      not_mem_nil
    exact mem_filter.2 ⟨hbc.1.mem_next, by simpa using hbc.2⟩

theorem suspensionAt?_eq_some {index : Nat} {p : Suspension}
    (h : g.suspensionAt? m r a index k = some p) :
    p.index = index ∧ p.node = k ∧ (k ∈ r → p.IsAt g m r a) := by
  unfold suspensionAt? at h
  split at h
  · cases h
  · rename_i n hn
    split at h
    · cases h
    · rename_i c resume hexit
      cases h
      exact ⟨rfl, rfl, fun hk => ⟨hk, rfl, n, c, hn, hexit, rfl, rfl⟩⟩

/-- The points along a list of nodes lie at nodes of the list, in its order, and are numbered one
after the other. -/
theorem suspensionsAlong_spec (index : Nat) (ns : List Nat) :
    ((g.suspensionsAlong m r a index ns).map (·.node)).Sublist ns ∧
      (g.suspensionsAlong m r a index ns).map (·.index) =
        range' index (g.suspensionsAlong m r a index ns).length ∧
      ∀ p ∈ g.suspensionsAlong m r a index ns, p.node ∈ r → p.IsAt g m r a := by
  induction ns generalizing index with
  | nil => simp [suspensionsAlong]
  | cons n ns ih =>
    rw [suspensionsAlong]
    split
    · rename_i p hp
      obtain ⟨hindex, hnode, hat⟩ := suspensionAt?_eq_some hp
      obtain ⟨hsub, hrange, hall⟩ := ih (index + 1)
      refine ⟨?_, ?_, ?_⟩
      · rw [map_cons, hnode]
        exact hsub.cons_cons n
      · rw [map_cons, length_cons, range'_succ, hrange, hindex]
      · intro q hq
        rcases mem_cons.1 hq with rfl | hq
        · exact fun hr => hat (hnode ▸ hr)
        · exact hall q hq
    · obtain ⟨hsub, hrange, hall⟩ := ih index
      exact ⟨hsub.cons n, hrange, hall⟩

theorem exists_mem_suspensionsAlong (index : Nat) {ns : List Nat} {n : Node} (hk : k ∈ ns)
    (hn : g.node? k = some n) (hs : n.isSuspend = true) :
    ∃ p ∈ g.suspensionsAlong m r a index ns, p.node = k := by
  induction ns generalizing index with
  | nil => cases hk
  | cons n' ns ih =>
    rw [suspensionsAlong]
    rcases mem_cons.1 hk with rfl | hk
    · cases hexit : n.exit with
      | leave t => simp [Node.isSuspend, hexit] at hs
      | suspend c resume =>
        simp only [suspensionAt?, hn, hexit]
        exact ⟨_, mem_cons_self .., rfl⟩
    · split
      · obtain ⟨p, hp, hnode⟩ := ih (index + 1) hk
        exact ⟨p, mem_cons_of_mem _ hp, hnode⟩
      · exact ih index hk

/-- **Every point is a marker call that control gets to.** -/
theorem isAt_of_mem_suspensions (hr : g.FlowSet r) {p : Suspension}
    (hp : p ∈ g.suspensions m r a) : p.IsAt g m r a := by
  obtain ⟨hsub, _, hall⟩ := suspensionsAlong_spec (g := g) (m := m) (r := r) (a := a) 1 (g.walk r)
  refine hall p hp ((mem_walk_iff hr).1 ?_)
  exact hsub.subset (mem_map.2 ⟨p, hp, rfl⟩)

/-- **Every marker call that control gets to is a point.** -/
theorem exists_suspension (hr : g.FlowSet r) {n : Node} (hk : k ∈ r) (hn : g.node? k = some n)
    (hs : n.isSuspend = true) : ∃ p ∈ g.suspensions m r a, p.node = k :=
  exists_mem_suspensionsAlong 1 ((mem_walk_iff hr).2 hk) hn hs

theorem map_index_suspensions :
    (g.suspensions m r a).map (·.index) = range' 1 (g.suspensions m r a).length :=
  (suspensionsAlong_spec 1 (g.walk r)).2.1

theorem nodup_node_suspensions : ((g.suspensions m r a).map (·.node)).Nodup :=
  (suspensionsAlong_spec 1 (g.walk r)).1.nodup (Search.nodup_preorder ..)

/-! ### Segments -/

/-- The nodes of segments. -/
def nodesOf (segments : List Segment) : List Nat := segments.flatMap (·.nodes)

/-- The segments lie in the set, and control that stays in it leaves them only across a marker. -/
structure SegmentsIn (g : Graph) (r : IdSet) (segments : List Segment) : Prop where
  inside : ∀ k ∈ nodesOf segments, k ∈ r
  closed : ∀ k ∈ nodesOf segments, ∀ q ∈ g.withinSegment k, q ∈ r → q ∈ nodesOf segments

theorem nodes_segmentFrom (points : List Suspension) (earlier : List Segment) (index entry : Nat)
    (live : LiveSet) :
    (g.segmentFrom r points earlier index entry live).nodes =
      Search.visited g.size (fun n => (g.withinSegment n).filter (· ∈ r))
        ([entry].filter (· ∈ r)) (nodesOf earlier) := rfl

/-- A further segment keeps the segments closed and takes in its entry. -/
theorem SegmentsIn.add {segments : List Segment} (h : g.SegmentsIn r segments)
    (hr : g.FlowSet r) (points : List Suspension) (index entry : Nat) (live : LiveSet) :
    g.SegmentsIn r (segments ++ [g.segmentFrom r points segments index entry live]) ∧
      (entry ∈ r →
        entry ∈ nodesOf (segments ++ [g.segmentFrom r points segments index entry live])) := by
  have hnodes : nodesOf (segments ++ [g.segmentFrom r points segments index entry live]) =
      nodesOf segments ++ Search.visited g.size (fun n => (g.withinSegment n).filter (· ∈ r))
        ([entry].filter (· ∈ r)) (nodesOf segments) := by
    simp only [nodesOf, flatMap_append, flatMap_cons, flatMap_nil, append_nil]
    rw [nodes_segmentFrom]
    rfl
  rw [hnodes]
  refine ⟨⟨?_, ?_⟩, ?_⟩
  · intro k hk
    rw [hnodes] at hk
    rcases mem_append.1 hk with hk | hk
    · exact h.inside k hk
    · exact mem_of_mem_visited (by simp) (by simp) hk
  · intro k hk q hq hqr
    rw [hnodes] at hk ⊢
    rcases mem_append.1 hk with hk | hk
    · exact mem_append_left _ (h.closed k hk q hq hqr)
    · have hk' : k ∈ r := mem_of_mem_visited (by simp) (by simp) hk
      exact mem_append.2 (Search.mem_visited_of_mem_next hk (hr.bound k hk')
        (mem_filter.2 ⟨hq, by simpa using hqr⟩))
  · intro he
    exact mem_append.2 (Search.mem_visited_of_mem_stack (by simp [he]))

/-- The segments of points, added one after the other. -/
theorem SegmentsIn.foldl {done : List Segment} (h : g.SegmentsIn r done) (hr : g.FlowSet r)
    (points ps : List Suspension) :
    let all := ps.foldl (fun done p =>
      done ++ [g.segmentFrom r points done p.index p.resume p.live]) done
    g.SegmentsIn r all ∧ (∀ k ∈ nodesOf done, k ∈ nodesOf all) ∧
      (∀ p ∈ ps, p.resume ∈ r → p.resume ∈ nodesOf all) ∧
      all.map (·.index) = done.map (·.index) ++ ps.map (·.index) := by
  induction ps generalizing done with
  | nil => exact ⟨h, fun _ hk => hk, by simp, by simp⟩
  | cons p ps ih =>
    obtain ⟨hadd, hentry⟩ := h.add hr points p.index p.resume p.live
    obtain ⟨hall, hkept, hresume, hindex⟩ := ih hadd
    refine ⟨hall, ?_, ?_, ?_⟩
    · intro k hk
      refine hkept k ?_
      rw [nodesOf, flatMap_append]
      exact mem_append_left _ hk
    · intro q hq hqr
      rcases mem_cons.1 hq with rfl | hq
      · exact hkept _ (hentry hqr)
      · exact hresume q hq hqr
    · simp only [foldl_cons, hindex, map_append, map_cons, map_nil,
        append_assoc, cons_append, nil_append]
      rfl

theorem segmentsIn_segments (hr : g.FlowSet r) (points : List Suspension) :
    g.SegmentsIn r (g.segments m r points) ∧ g.entry ∈ nodesOf (g.segments m r points) ∧
      (∀ p ∈ points, p.resume ∈ r → p.resume ∈ nodesOf (g.segments m r points)) ∧
      (g.segments m r points).map (·.index) = 0 :: points.map (·.index) := by
  have hnil : g.SegmentsIn r [] := ⟨by simp [nodesOf], by simp [nodesOf]⟩
  obtain ⟨hfirst, hentry⟩ := hnil.add hr points 0 g.entry
    (m.params.foldl (fun s p => LiveSet.insert p.id p.ty s) [])
  obtain ⟨hall, hkept, hresume, hindex⟩ := hfirst.foldl hr points points
  exact ⟨hall, hkept _ (hentry hr.entry), hresume, hindex⟩

/-- The points of a graph and its segments: every node that control gets to is in a segment. -/
theorem mem_nodesOf_segments (hr : g.FlowSet r) (hk : k ∈ r) :
    k ∈ nodesOf (g.segments m r (g.suspensions m r a)) := by
  obtain ⟨hin, hentry, hresume, _⟩ :=
    segmentsIn_segments (m := m) hr (g.suspensions m r a)
  have hpath := hr.path k hk
  clear hk
  -- along the path: a step that crosses a marker gets to the resumption of its point
  induction hpath with
  | refl => exact hentry
  | @tail b c _ hbc ih =>
    have hbr := hin.inside b ih
    obtain ⟨n, hn⟩ : ∃ n, g.node? b = some n :=
      ⟨_, List.getElem?_eq_getElem (hr.bound b hbr)⟩
    cases hexit : n.exit with
    | leave t =>
      refine hin.closed b ih c ?_ hbc.2
      simp only [withinSegment, hn, hexit]
      exact hbc.1.mem_next
    | suspend callee resume =>
      rcases mem_append.1 hbc.1.mem_next with hc | hc
      · simp only [successors, hn, Node.successors, hexit, mem_singleton] at hc
        obtain ⟨p, hp, hnode⟩ := exists_suspension (m := m) (a := a) hr hbr hn
          (by simp [Node.isSuspend, hexit])
        obtain ⟨n', c', hn', hexit', _⟩ := (isAt_of_mem_suspensions hr hp).node
        rw [hnode, hn] at hn'
        cases hn'
        rw [hexit] at hexit'
        cases hexit'
        rw [hc]
        exact hresume p hp (hc ▸ hbc.2)
      · refine hin.closed b ih c ?_ hbc.2
        simp only [withinSegment, hn, hexit]
        exact hc

/-- **Every node that control gets to belongs to a segment.** -/
theorem exists_owner (hr : g.FlowSet r) (hk : k ∈ r) :
    ∃ s ∈ g.segments m r (g.suspensions m r a), k ∈ s.nodes ∧
      owner? (g.segments m r (g.suspensions m r a)) k = some s.index := by
  obtain ⟨s, hs, hks⟩ := mem_flatMap.1 (mem_nodesOf_segments (m := m) (a := a) hr hk)
  cases hfind : (g.segments m r (g.suspensions m r a)).find? (k ∈ ·.nodes) with
  | none =>
    rw [find?_eq_none] at hfind
    exact absurd hks (by simpa using hfind s hs)
  | some t =>
    refine ⟨t, mem_of_find?_eq_some hfind, by simpa using find?_some hfind, ?_⟩
    rw [owner?, hfind, Option.map_some]

end Graph

end Resumable
