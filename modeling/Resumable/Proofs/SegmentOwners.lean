/-
**Every node belongs to the first segment that gets to it.**

Segments are searched for one after the other, and a search stops at the nodes of earlier segments.
What earlier segments have taken is closed under control that crosses no marker: a path that enters
it stays in it.  So a search that passes it over misses nothing, and a node belongs to the first
segment from whose start control gets to it without crossing a marker.

A segment starts where its point resumes, and control gets there in no other way: jumps and handlers
lead to the first node of a block.  So no earlier segment has taken the start of a segment, and none
is empty.

Main results:

* `Search.again_mem_visits_iff` — when a search comes back to what was seen before it;
* `Graph.Built.mem_nodes_iff` — what belongs to a segment;
* `Dispatcher.Plan.Made.built_segments` — the segments of a method are made one after the other,
  each from a new start;
* `Analysis.partitioned_of_analyze` — **the segments of an accepted method divide its nodes**.
-/

import Mathlib.Order.Bounds.Basic
import Resumable.Proofs.Markers

set_option autoImplicit false

namespace Resumable

open Relation List

/-! ### Searches that stop -/

namespace Search

variable {size : Nat} {next : Nat → List Nat} {stack seen : List Nat} {x : Nat}

theorem fresh_mem_visits_iff : .fresh x ∈ visits size next stack seen ↔
    x ∈ visited size next stack seen := by
  rw [visited, mem_filterMap]
  constructor
  · intro h
    exact ⟨_, h, rfl⟩
  · rintro ⟨v, hv, hx⟩
    cases v with
    | fresh id =>
      cases hx
      exact hv
    | again id => cases hx

/-- **A search comes back to what was seen before it** if that lies on the stack or behind a number
that it visits. -/
theorem again_mem_visits_iff (hx : x ∈ seen) :
    .again x ∈ visits size next stack seen ↔
      x ∈ stack ∨ ∃ a ∈ visited size next stack seen, a < size ∧ x ∈ next a := by
  induction stack, seen using visits.induct size next with
  | case1 seen => simp [visits]
  | case2 seen id rest h ih =>
    rw [visits, dif_pos h, visited_of_mem h, mem_cons, ih hx, mem_cons, or_assoc,
      Visit.again.injEq]
  | case3 seen id rest h hs ih =>
    have hne : x ≠ id := by
      rintro rfl
      exact h hx
    rw [visits, dif_neg h, dif_pos hs, visited_of_lt h hs, mem_cons,
      ih (mem_cons_of_mem _ hx), mem_append, mem_cons]
    simp only [mem_cons, exists_eq_or_imp, hs, true_and, hne, false_or, reduceCtorEq]
    tauto
  | case4 seen id rest h hs ih =>
    have hne : x ≠ id := by
      rintro rfl
      exact h hx
    rw [visits, dif_neg h, dif_neg hs, visited_of_not_lt h hs, mem_cons,
      ih (mem_cons_of_mem _ hx), mem_cons]
    simp only [mem_cons, exists_eq_or_imp, hs, false_and, hne, false_or, reduceCtorEq]

theorem head?_visited (h : x ∉ seen) : (visited size next (x :: stack) seen).head? = some x := by
  by_cases hs : x < size
  · rw [visited_of_lt h hs, head?_cons]
  · rw [visited_of_not_lt h hs, head?_cons]

end Search

/-- Dropping repetitions keeps the items, each once. -/
theorem firstOccurrences_spec {α : Type} [DecidableEq α] (items : List α) :
    (firstOccurrences items).Nodup ∧ ∀ x, x ∈ firstOccurrences items ↔ x ∈ items := by
  have general : ∀ (items done : List α), done.Nodup →
      (items.foldl (fun done x => if x ∈ done then done else done ++ [x]) done).Nodup ∧
        ∀ x, x ∈ items.foldl (fun done x => if x ∈ done then done else done ++ [x]) done ↔
          x ∈ done ∨ x ∈ items := by
    intro items
    induction items with
    | nil => intro done hdone; simpa using hdone
    | cons y ys ih =>
      intro done hdone
      rw [foldl_cons]
      split
      · rename_i hy
        refine ⟨(ih done hdone).1, fun x => ?_⟩
        rw [(ih done hdone).2, mem_cons]
        constructor
        · tauto
        · rintro (h | rfl | h) <;> tauto
      · rename_i hy
        have hnew : (done ++ [y]).Nodup := by
          refine nodup_append.2 ⟨hdone, nodup_singleton y, ?_⟩
          rintro a ha b hb rfl
          exact hy (mem_singleton.1 hb ▸ ha)
        refine ⟨(ih _ hnew).1, fun x => ?_⟩
        rw [(ih _ hnew).2, mem_append, mem_singleton, mem_cons, or_assoc]
  obtain ⟨hnodup, hmem⟩ := general items [] nodup_nil
  exact ⟨hnodup, fun x => by rw [firstOccurrences, hmem]; simp⟩

/-! ### What segments are for -/

/-- **Control goes from one node to another without crossing a marker**, inside a set of nodes:
along a successor of a node that does not end with a marker, or to the handler of a region around
the node. -/
inductive Graph.Within (g : Graph) (r : IdSet) : Nat → Nat → Prop where
  | along {n q : Nat} {node : Node} : n ∈ r → q ∈ r → g.node? n = some node →
      node.isSuspend = false → q ∈ node.successors → Within g r n q
  | caught {n : Nat} {R : GraphRegion} : n ∈ r → R.handler ∈ r → R ∈ g.regions → n ∈ R.nodes →
      Within g r n R.handler

/-- **The ways out of a segment**: it ends at the markers that it contains, returns or throws if a
node of it does, and goes on in another segment if control gets there from a node of it without
crossing a marker. -/
inductive Segment.Leaves (g : Graph) (r : IdSet) (points : List Suspension)
    (segments : List Segment) (s : Segment) : SegmentExit → Prop where
  | suspends {p : Suspension} : p ∈ points → p.node ∈ s.nodes →
      Leaves g r points segments s (.suspends p.index)
  | returns {n : Nat} {node : Node} : n ∈ s.nodes → g.node? n = some node →
      node.exit = .leave .ret → Leaves g r points segments s .returns
  | throws {n : Nat} {node : Node} : n ∈ s.nodes → g.node? n = some node →
      node.exit = .leave .raise → Leaves g r points segments s .throws
  | continues {n q k : Nat} : n ∈ s.nodes → g.Within r n q → owner? segments q = some k →
      k ≠ s.index → Leaves g r points segments s (.continues k)

/-- **The segments divide a set of nodes.** -/
structure Graph.Partitioned (g : Graph) (r : IdSet) (points : List Suspension)
    (segments : List Segment) : Prop where
  /-- Segments are numbered from zero, points from one. -/
  indices : segments.map (·.index) = range (points.length + 1) ∧
    points.map (·.index) = range' 1 points.length
  /-- Segment 0 starts at the entry, segment `k` where point `k` resumes. -/
  starts : segments.map (·.entry) = g.entry :: points.map (·.resume)
  /-- The start of a segment is the first of its nodes. -/
  first : ∀ s ∈ segments, s.nodes.head? = some s.entry
  /-- No node is listed twice, in one segment or in two. -/
  once : (segments.flatMap (·.nodes)).Nodup
  /-- The nodes of the segments are those of the set. -/
  covers : ∀ n, n ∈ segments.flatMap (·.nodes) ↔ n ∈ r
  /-- A node belongs to the first segment from whose start control gets to it without crossing a
  marker. -/
  owner : ∀ n k, owner? segments n = some k ↔
    IsLeast {k | ∃ s ∈ segments, s.index = k ∧ ReflTransGen (g.Within r) s.entry n} k
  /-- There is one point for each marker in a segment. -/
  marked : ∀ s ∈ segments, ∀ n ∈ s.nodes, ∀ node, g.node? n = some node → node.isSuspend = true →
    ∃! p, p ∈ points ∧ p.node = n
  /-- A segment lists its ways out, each once. -/
  exits : ∀ s ∈ segments, s.exits.Nodup ∧ ∀ x, x ∈ s.exits ↔ s.Leaves g r points segments x
  /-- A segment goes on in earlier ones only. -/
  earlier : ∀ s ∈ segments, ∀ k, .continues k ∈ s.exits → k < s.index

namespace Graph

variable {g : Graph} {m : Method} {r : IdSet} {a : Liveness} {points : List Suspension}

/-! ### Control that crosses no marker -/

variable {n q : Nat}

theorem within_iff (hr : g.FlowSet r) :
    g.Within r n q ↔ n ∈ r ∧ q ∈ (g.withinSegment n).filter (· ∈ r) := by
  rw [mem_filter, decide_eq_true_eq]
  constructor
  · intro h
    cases h with
    | @along _ node hn hq hnode hleave hsucc =>
      refine ⟨hn, ?_, hq⟩
      cases hexit : node.exit with
      | leave t =>
        simp only [withinSegment, hnode, hexit]
        exact mem_append_left _ (by simpa only [successors, hnode] using hsucc)
      | suspend c resume => simp [Node.isSuspend, hexit] at hleave
    | @caught R hn hq hR hmem =>
      have hhandler : R.handler ∈ g.handlers n := by
        simp only [handlers, covering, mem_map, mem_filter, decide_eq_true_eq]
        exact ⟨R, ⟨hR, hmem⟩, rfl⟩
      obtain ⟨node, hnode⟩ : ∃ node, g.node? n = some node :=
        ⟨_, List.getElem?_eq_getElem (hr.bound n hn)⟩
      refine ⟨hn, ?_, hq⟩
      cases hexit : node.exit with
      | leave t =>
        simp only [withinSegment, hnode, hexit]
        exact mem_append_right _ hhandler
      | suspend c resume =>
        simp only [withinSegment, hnode, hexit]
        exact hhandler
  · rintro ⟨hn, hwithin, hq⟩
    have caught : q ∈ g.handlers n → g.Within r n q := by
      intro hq'
      obtain ⟨R, hR, rfl⟩ := mem_map.1 hq'
      obtain ⟨hR, hmem⟩ := mem_filter.1 hR
      exact .caught hn hq hR (by simpa using hmem)
    unfold withinSegment at hwithin
    split at hwithin
    · cases hwithin
    · rename_i node hnode
      split at hwithin
      · rename_i t hexit
        rcases mem_append.1 hwithin with hsucc | hcaught
        · refine .along hn hq hnode (by simp [Node.isSuspend, hexit]) ?_
          simpa only [successors, hnode] using hsucc
        · exact caught hcaught
      · exact caught hwithin

theorem Within.mem (h : g.Within r n q) : q ∈ r := by
  cases h <;> assumption

/-- The search for a segment follows control that crosses no marker. -/
theorem reaches_iff (hr : g.FlowSet r) (hn : n ∈ r) :
    Search.Reaches g.size (fun k => (g.withinSegment k).filter (· ∈ r)) n q ↔
      ReflTransGen (g.Within r) n q := by
  constructor
  · intro h
    induction h with
    | refl k => exact .refl
    | step _ hb _ ih =>
      have hstep := (within_iff hr).2 ⟨hn, hb⟩
      exact .head hstep (ih hstep.mem)
  · intro h
    induction h using ReflTransGen.head_induction_on with
    | refl => exact .refl q
    | head hstep _ ih =>
      obtain ⟨ha, hb⟩ := (within_iff hr).1 hstep
      exact .step (hr.bound _ ha) hb (ih hstep.mem)

/-! ### One segment after the other -/

/-- **Segments that are made one after the other**, each from a start in the set that no segment
before it contains. -/
inductive Built (g : Graph) (r : IdSet) (points : List Suspension) : List Segment → Prop where
  | nil : Built g r points []
  | snoc {earlier : List Segment} (index entry : Nat) (live : LiveSet) : Built g r points earlier →
      entry ∈ r → entry ∉ nodesOf earlier →
      Built g r points (earlier ++ [g.segmentFrom r points earlier index entry live])

namespace Built

variable {earlier later segments : List Segment} {s : Segment}

/-- A segment among others is made from those before it. -/
theorem split (h : g.Built r points (earlier ++ s :: later)) :
    g.Built r points earlier ∧ s.entry ∈ r ∧ s.entry ∉ nodesOf earlier ∧
      s = g.segmentFrom r points earlier s.index s.entry s.live := by
  generalize hall : earlier ++ s :: later = all at h
  induction h generalizing later with
  | nil => simp at hall
  | @snoc before index entry live hbefore hin hnew ih =>
    rcases eq_nil_or_concat later with rfl | ⟨later, last, rfl⟩
    · obtain ⟨rfl, hs⟩ := append_inj' hall rfl
      cases hs
      exact ⟨hbefore, hin, hnew, rfl⟩
    · rw [concat_eq_append, ← cons_append, ← append_assoc] at hall
      exact ih (append_inj' hall rfl).1

theorem segmentsIn (h : g.Built r points segments) (hr : g.FlowSet r) :
    g.SegmentsIn r segments := by
  induction h with
  | nil => exact ⟨by simp [nodesOf], by simp [nodesOf]⟩
  | snoc index entry live _ _ _ ih => exact (ih.add hr points index entry live).1

variable {n k : Nat}

theorem closed (h : g.Built r points segments) (hr : g.FlowSet r) {q : Nat}
    (hn : n ∈ nodesOf segments) (hq : ReflTransGen (g.Within r) n q) : q ∈ nodesOf segments := by
  induction hq with
  | refl => exact hn
  | tail _ hstep ih =>
    obtain ⟨-, hq⟩ := (within_iff hr).1 hstep
    obtain ⟨hq, hqr⟩ := mem_filter.1 hq
    exact (h.segmentsIn hr).closed _ ih _ hq (by simpa using hqr)

theorem nodes_eq (h : g.Built r points (earlier ++ s :: later)) :
    s.nodes = Search.visited g.size (fun n => (g.withinSegment n).filter (· ∈ r)) [s.entry]
      (nodesOf earlier) := by
  obtain ⟨-, hin, -, hs⟩ := h.split
  have hstack : [s.entry].filter (· ∈ r) = [s.entry] := by simp [hin]
  rw [hs, nodes_segmentFrom, hstack]
  rfl

/-- **What belongs to a segment**: the nodes that control gets to from its start without crossing a
marker, but for those of earlier segments. -/
theorem mem_nodes_iff (h : g.Built r points (earlier ++ s :: later)) (hr : g.FlowSet r) :
    n ∈ s.nodes ↔ n ∉ nodesOf earlier ∧ ReflTransGen (g.Within r) s.entry n := by
  obtain ⟨hearlier, hin, -, -⟩ := h.split
  have hclosed : ∀ x ∈ nodesOf earlier, ∀ q ∈ (g.withinSegment x).filter (· ∈ r),
      q ∈ nodesOf earlier := by
    intro x hx q hq
    obtain ⟨hq, hqr⟩ := mem_filter.1 hq
    exact (hearlier.segmentsIn hr).closed x hx q hq (by simpa using hqr)
  rw [h.nodes_eq, Search.mem_visited_iff hclosed, ← reaches_iff hr hin]
  simp

theorem head?_nodes (h : g.Built r points (earlier ++ s :: later)) :
    s.nodes.head? = some s.entry := by
  rw [h.nodes_eq, Search.head?_visited h.split.2.2.1]

theorem nodup (h : g.Built r points segments) : (nodesOf segments).Nodup := by
  induction h with
  | nil => exact nodup_nil
  | snoc index entry live _ _ _ ih =>
    rw [nodesOf, flatMap_append, flatMap_singleton, nodes_segmentFrom]
    obtain ⟨hnodup, hfresh⟩ := Search.nodup_visited g.size
      (fun n => (g.withinSegment n).filter (· ∈ r)) ([entry].filter (· ∈ r)) (nodesOf _)
    exact nodup_append.2 ⟨ih, hnodup, fun n hn q hq heq => hfresh q hq (heq ▸ hn)⟩

/-- A node of the segments is the start of one, or control gets to it from a node without crossing a
marker. -/
theorem start_or_within (h : g.Built r points segments) (hr : g.FlowSet r)
    (hn : n ∈ nodesOf segments) : n ∈ segments.map (·.entry) ∨ ∃ k, g.Within r k n := by
  obtain ⟨s, hs, hns⟩ := mem_flatMap.1 hn
  obtain ⟨earlier, later, rfl⟩ := append_of_mem hs
  obtain ⟨-, hreach⟩ := (h.mem_nodes_iff hr).1 hns
  rcases hreach.cases_tail with rfl | ⟨k, -, hstep⟩
  · exact .inl (mem_map.2 ⟨s, hs, rfl⟩)
  · exact .inr ⟨k, hstep⟩

/-! ### Owners -/

/-- The owner of a node is the segment that lists it. -/
theorem owner?_eq (h : g.Built r points (earlier ++ s :: later)) (hn : n ∈ s.nodes) :
    owner? (earlier ++ s :: later) n = some s.index := by
  have hnot : ∀ t ∈ earlier, n ∉ t.nodes := by
    intro t ht hnt
    have hnodup := h.nodup
    rw [nodesOf, flatMap_append, flatMap_cons] at hnodup
    refine (nodup_append.1 hnodup).2.2 n (mem_flatMap.2 ⟨t, ht, hnt⟩) n ?_ rfl
    exact mem_append_left _ hn
  have hnone : earlier.find? (n ∈ ·.nodes) = none :=
    find?_eq_none.2 fun t ht => by simpa using hnot t ht
  rw [owner?, find?_append, hnone, Option.none_or, find?_cons_of_pos (by simpa using hn),
    Option.map_some]

theorem exists_of_owner? (h : owner? segments n = some k) :
    ∃ earlier s later, segments = earlier ++ s :: later ∧ n ∈ s.nodes ∧ s.index = k := by
  obtain ⟨s, hs, rfl⟩ := Option.map_eq_some_iff.1 h
  obtain ⟨earlier, later, hsplit⟩ := append_of_mem (mem_of_find?_eq_some hs)
  exact ⟨earlier, s, later, hsplit, by simpa using find?_some hs, rfl⟩

theorem mem_nodesOf_of_owner? (h : owner? segments n = some k) :
    n ∈ nodesOf segments ∧ k ∈ segments.map (·.index) := by
  obtain ⟨earlier, s, later, rfl, hn, rfl⟩ := exists_of_owner? h
  exact ⟨mem_flatMap.2 ⟨s, by simp, hn⟩, by simp⟩

theorem owner?_append (hn : n ∈ nodesOf earlier) :
    owner? (earlier ++ later) n = owner? earlier n := by
  obtain ⟨s, hs, hns⟩ := mem_flatMap.1 hn
  rw [owner?, owner?, find?_append]
  cases hfind : earlier.find? (n ∈ ·.nodes) with
  | none => exact absurd hns (by simpa using find?_eq_none.1 hfind s hs)
  | some t => rfl

/-- **A node belongs to the first segment that gets to it.** -/
theorem isLeast_owner (h : g.Built r points segments) (hr : g.FlowSet r)
    (hindex : (segments.map (·.index)).Pairwise (· < ·)) (hk : owner? segments n = some k) :
    IsLeast {k | ∃ s ∈ segments, s.index = k ∧ ReflTransGen (g.Within r) s.entry n} k := by
  obtain ⟨earlier, s, later, rfl, hn, rfl⟩ := exists_of_owner? hk
  obtain ⟨hnew, hreach⟩ := (h.mem_nodes_iff hr).1 hn
  refine ⟨⟨s, by simp, rfl, hreach⟩, ?_⟩
  rintro j ⟨t, ht, rfl, hreach'⟩
  rw [map_append, map_cons] at hindex
  obtain ⟨-, htail, hcross⟩ := pairwise_append.1 hindex
  rcases mem_append.1 ht with ht | ht
  · -- an earlier segment would have taken the node
    obtain ⟨before, after, rfl⟩ := append_of_mem ht
    have hentry : t.entry ∈ nodesOf (before ++ t :: after) :=
      mem_flatMap.2 ⟨t, ht, mem_of_head? (h.split.1.head?_nodes)⟩
    exact absurd (h.split.1.closed hr hentry hreach') hnew
  · rcases mem_cons.1 ht with rfl | ht
    · exact Nat.le_refl _
    · exact Nat.le_of_lt (rel_of_pairwise_cons htail (mem_map.2 ⟨t, ht, rfl⟩))

/-! ### Ways out -/

/-- A segment goes on in the segments of the earlier nodes that control gets to without crossing a
marker. -/
theorem continues_mem_exits_iff (h : g.Built r points (earlier ++ s :: later)) (hr : g.FlowSet r) :
    .continues k ∈ s.exits ↔
      ∃ n ∈ s.nodes, ∃ q, g.Within r n q ∧ owner? earlier q = some k := by
  obtain ⟨hearlier, hin, hnew, hs⟩ := h.split
  have hstack : [s.entry].filter (· ∈ r) = [s.entry] := by simp [hin]
  have hexits : s.exits = firstOccurrences ((Search.visits g.size
      (fun n => (g.withinSegment n).filter (· ∈ r)) [s.entry] (nodesOf earlier)).filterMap
      (g.exitOf? points earlier)) := by
    rw [hs]
    simp only [segmentFrom, hstack]
    rfl
  rw [hexits, (firstOccurrences_spec _).2, mem_filterMap]
  constructor
  · rintro ⟨v, hv, hk⟩
    cases v with
    | fresh n =>
      simp only [exitOf?] at hk
      split at hk
      · obtain ⟨_, -, hp⟩ := Option.map_eq_some_iff.1 hk
        cases hp
      all_goals cases hk
    | again q =>
      obtain ⟨k', howner, hk'⟩ := Option.map_eq_some_iff.1 hk
      cases hk'
      have hq := (mem_nodesOf_of_owner? howner).1
      rcases (Search.again_mem_visits_iff hq).1 hv with hq' | ⟨n, hn, -, hnq⟩
      · exact absurd (mem_singleton.1 hq' ▸ hq) hnew
      · rw [← h.nodes_eq] at hn
        have hnr : n ∈ r := by
          have hmem : n ∈ nodesOf (earlier ++ s :: later) := mem_flatMap.2 ⟨s, by simp, hn⟩
          exact (h.segmentsIn hr).inside n hmem
        exact ⟨n, hn, q, (within_iff hr).2 ⟨hnr, hnq⟩, howner⟩
  · rintro ⟨n, hn, q, hstep, howner⟩
    obtain ⟨hnr, hnq⟩ := (within_iff hr).1 hstep
    refine ⟨.again q, ?_, by rw [exitOf?, howner]; rfl⟩
    refine (Search.again_mem_visits_iff (mem_nodesOf_of_owner? howner).1).2 (.inr ?_)
    exact ⟨n, h.nodes_eq ▸ hn, hr.bound n hnr, hnq⟩

/-- The other ways out of a segment are those that its nodes show. -/
theorem mem_exits_iff (h : g.Built r points (earlier ++ s :: later)) {x : SegmentExit}
    (hx : ∀ k, x ≠ .continues k) : x ∈ s.exits ↔
      ∃ n ∈ s.nodes, g.exitOf? points earlier (.fresh n) = some x := by
  obtain ⟨-, -, -, hs⟩ := h.split
  rw [hs]
  simp only [segmentFrom]
  rw [(firstOccurrences_spec _).2, mem_filterMap]
  constructor
  · rintro ⟨v, hv, hk⟩
    cases v with
    | fresh n => exact ⟨n, Search.fresh_mem_visits_iff.1 hv, hk⟩
    | again q =>
      obtain ⟨k, -, rfl⟩ := Option.map_eq_some_iff.1 hk
      exact absurd rfl (hx k)
  · rintro ⟨n, hn, hk⟩
    exact ⟨.fresh n, Search.fresh_mem_visits_iff.2 hn, hk⟩

/-- Control that leaves a segment without crossing a marker goes on in it or in an earlier one. -/
theorem owner?_of_within (h : g.Built r points (earlier ++ s :: later)) (hr : g.FlowSet r)
    (hindex : s.index ∉ earlier.map (·.index)) {q : Nat} (hn : n ∈ s.nodes)
    (hstep : g.Within r n q) :
    owner? earlier q = some k ↔ owner? (earlier ++ s :: later) q = some k ∧ k ≠ s.index := by
  constructor
  · intro hk
    obtain ⟨hq, hmem⟩ := mem_nodesOf_of_owner? hk
    refine ⟨(owner?_append hq).trans hk, ?_⟩
    rintro rfl
    exact hindex hmem
  · rintro ⟨hk, hne⟩
    obtain ⟨hearlier, hin, hnew, hs⟩ := h.split
    have hboth : g.Built r points (earlier ++ [s]) := by
      have hbuilt := hearlier.snoc s.index s.entry s.live hin hnew
      rwa [← hs] at hbuilt
    have hn' : n ∈ nodesOf (earlier ++ [s]) := mem_flatMap.2 ⟨s, by simp, hn⟩
    have hq := hboth.closed hr hn' (.single hstep)
    rw [nodesOf, flatMap_append, flatMap_singleton] at hq
    rcases mem_append.1 hq with hq | hq
    · rw [← owner?_append hq]
      exact hk
    · rw [h.owner?_eq hq] at hk
      exact absurd (Option.some.inj hk).symm hne

/-- What a node of a segment shows when it is met first is a way out. -/
theorem leaves_of_exitOf? {segments : List Segment} {x : SegmentExit} (hn : n ∈ s.nodes)
    (hx : g.exitOf? points earlier (.fresh n) = some x) : s.Leaves g r points segments x := by
  simp only [exitOf?] at hx
  split at hx
  · obtain ⟨q, hq, rfl⟩ := Option.map_eq_some_iff.1 hx
    obtain ⟨hmem, rfl⟩ := Dispatcher.Plan.pointAt?_eq_some hq
    exact .suspends hmem hn
  · rename_i hexit
    cases hx
    obtain ⟨node, hnode, hexit⟩ := Option.map_eq_some_iff.1 hexit
    exact .returns hn hnode hexit
  · rename_i hexit
    cases hx
    obtain ⟨node, hnode, hexit⟩ := Option.map_eq_some_iff.1 hexit
    exact .throws hn hnode hexit
  · cases hx

/-- **A segment lists its ways out.** -/
theorem mem_exits_iff_leaves (h : g.Built r points (earlier ++ s :: later)) (hr : g.FlowSet r)
    (hpoints : points = g.suspensions m r a) (hindex : s.index ∉ earlier.map (·.index))
    (x : SegmentExit) : x ∈ s.exits ↔ s.Leaves g r points (earlier ++ s :: later) x := by
  constructor
  · intro hx
    cases x with
    | continues k =>
      obtain ⟨n, hn, q, hstep, hk⟩ := (h.continues_mem_exits_iff hr).1 hx
      obtain ⟨hk, hne⟩ := (h.owner?_of_within hr hindex hn hstep).1 hk
      exact .continues hn hstep hk hne
    | suspends k | returns | throws =>
      obtain ⟨n, hn, hx⟩ := (h.mem_exits_iff (by simp)).1 hx
      exact leaves_of_exitOf? hn hx
  · intro hx
    cases hx with
    | continues hn hstep hk hne =>
      refine (h.continues_mem_exits_iff hr).2 ⟨_, hn, _, hstep, ?_⟩
      exact (h.owner?_of_within hr hindex hn hstep).2 ⟨hk, hne⟩
    | @suspends p hp hn =>
      refine (h.mem_exits_iff (by simp)).2 ⟨p.node, hn, ?_⟩
      have hfound : pointAt? points p.node = some p :=
        find?_key (hpoints ▸ nodup_node_suspensions) hp
      obtain ⟨node, c, hnode, hexit, -⟩ :=
        (isAt_of_mem_suspensions (m := m) (a := a) hr (hpoints ▸ hp)).node
      simp only [exitOf?, hnode, Option.map_some, hexit, hfound]
    | @returns n node hn hnode hexit | @throws n node hn hnode hexit =>
      refine (h.mem_exits_iff (by simp)).2 ⟨n, hn, ?_⟩
      simp only [exitOf?, hnode, Option.map_some, hexit]

end Built

/-! ### Where segments start -/

section Starts

variable {isMarker : String → Bool} {n q : Nat}

/-- Without crossing a marker, control goes to the first nodes of blocks. -/
theorem Within.lt_blocks (h : m.Sound) (hstep : (ofMethod m isMarker).Within r n q) :
    q < m.blocks.length := by
  cases hstep with
  | @along _ node _ _ hnode hleave hsucc =>
    obtain ⟨b, hb, hpiece⟩ := pieceOf h (mem_of_node? hnode)
    cases hexit : node.exit with
    | leave t =>
      obtain ⟨rfl, -⟩ := hpiece.of_leave hexit
      rw [Node.successors, hexit] at hsucc
      exact (h.blocks b (mem_of_getElem? hb)).targets q hsucc
    | suspend c resume => simp [Node.isSuspend, hexit] at hleave
  | @caught R _ _ hR _ =>
    rw [regions_eq h] at hR
    obtain ⟨R', hR', rfl⟩ := mem_map.1 hR
    exact (h.regions R' hR').handler

theorem blocks_le_resume (h : m.Sound) {node : Node} {c : Callee}
    (hnode : (ofMethod m isMarker).node? n = some node) (hexit : node.exit = .suspend c q) :
    m.blocks.length ≤ q := by
  refine Nat.le_of_not_lt fun hq => ?_
  obtain ⟨b, -, hpiece⟩ := pieceOf h (mem_of_node? hnode)
  obtain ⟨-, -, k, hk, rfl, -, hstart⟩ := hpiece.of_suspend hexit
  obtain ⟨k', hk', -, hstart'⟩ := exists_head h hq
  rw [node?_of_mem h hk] at hk'
  cases hk'
  omega

/-- Different markers are followed by different nodes. -/
theorem resume_inj (h : m.Sound) {n' : Nat} {node node' : Node} {c c' : Callee}
    (hnode : (ofMethod m isMarker).node? n = some node) (hexit : node.exit = .suspend c q)
    (hnode' : (ofMethod m isMarker).node? n' = some node') (hexit' : node'.exit = .suspend c' q) :
    n = n' := by
  obtain ⟨b, -, hpiece⟩ := pieceOf h (mem_of_node? hnode)
  obtain ⟨b', -, hpiece'⟩ := pieceOf h (mem_of_node? hnode')
  obtain ⟨-, -, k, hk, hid, horigin, hstart⟩ := hpiece.of_suspend hexit
  obtain ⟨-, -, k', hk', hid', horigin', hstart'⟩ := hpiece'.of_suspend hexit'
  have hkk : k = k' := by
    have hfound := node?_of_mem h hk
    rw [hid, ← hid', node?_of_mem h hk'] at hfound
    exact (Option.some.inj hfound).symm
  subst hkk
  -- both nodes end at the position before the one that follows
  have hends : node.Holds node.exitLocation := ⟨rfl, by simp [Node.exitLocation, Node.location],
    by simp [Node.exitLocation, Node.location]⟩
  have hends' : node'.Holds node.exitLocation := by
    refine ⟨horigin.symm.trans horigin', ?_, ?_⟩
    · simp only [Node.exitLocation, Node.location]
      omega
    · simp only [Node.exitLocation, Node.location]
      omega
  have hsame := node_unique h (mem_of_node? hnode) (mem_of_node? hnode') hends hends'
  rw [← node?_id h hnode, ← node?_id h hnode', hsame]

end Starts

/-- The segments of further points, if control gets to where they resume in no other way. -/
theorem Built.foldl {done : List Segment} (h : g.Built r points done) (hr : g.FlowSet r)
    {ps : List Suspension} (hin : ∀ p ∈ ps, p.resume ∈ r)
    (hapart : ∀ p ∈ ps, ∀ n, ¬ g.Within r n p.resume)
    (hnodup : (done.map (·.entry) ++ ps.map (·.resume)).Nodup) :
    let all := ps.foldl (fun done p =>
      done ++ [g.segmentFrom r points done p.index p.resume p.live]) done
    g.Built r points all ∧ all.map (·.entry) = done.map (·.entry) ++ ps.map (·.resume) := by
  induction ps generalizing done with
  | nil => exact ⟨h, by simp⟩
  | cons p ps ih =>
    have hnew : p.resume ∉ nodesOf done := by
      intro hmem
      rcases h.start_or_within hr hmem with hstart | ⟨n, hstep⟩
      · exact (nodup_append.1 hnodup).2.2 _ hstart _ (by simp) rfl
      · exact hapart p (by simp) n hstep
    have hbuilt := h.snoc p.index p.resume p.live (hin p (by simp)) hnew
    have hentries : (done ++ [g.segmentFrom r points done p.index p.resume p.live]).map (·.entry) =
        done.map (·.entry) ++ [p.resume] := by
      rw [map_append]
      rfl
    obtain ⟨hall, hstarts⟩ := ih hbuilt (fun q hq => hin q (mem_cons_of_mem _ hq))
      (fun q hq => hapart q (mem_cons_of_mem _ hq)) (by rw [hentries]; simpa using hnodup)
    refine ⟨hall, hstarts.trans ?_⟩
    rw [hentries, append_assoc]
    rfl

end Graph

namespace Dispatcher.Plan.Made

variable {p : Plan} {isMarker : String → Bool} {r : IdSet} (h : p.Made isMarker r)
include h

theorem exists_suspend {q : Suspension} (hq : q ∈ p.points) :
    ∃ node c, (Graph.ofMethod p.method isMarker).node? q.node = some node ∧
      node.exit = .suspend c q.resume := by
  obtain ⟨node, c, hnode, hexit, -⟩ := (h.isAt hq).node
  exact ⟨node, c, h.graph ▸ hnode, hexit⟩

theorem resume_mem {q : Suspension} (hq : q ∈ p.points) : q.resume ∈ r := by
  obtain ⟨node, c, hnode, hexit, -⟩ := (h.isAt hq).node
  refine h.flow.successors q.node (h.isAt hq).reached q.resume ?_
  simp [Graph.successors, hnode, Node.successors, hexit]

/-- **The segments are made one after the other**, each from a new start. -/
theorem built_segments : p.graph.Built r p.points p.segments ∧
    p.segments.map (·.entry) = p.graph.entry :: p.points.map (·.resume) := by
  have hentry : p.graph.entry < p.method.blocks.length := by
    rw [h.graph]
    exact h.sound.entry
  have hfirst : p.graph.Built r p.points
      ([] ++ [p.graph.segmentFrom r p.points [] 0 p.graph.entry
        (p.method.params.foldl (fun s q => LiveSet.insert q.id q.ty s) [])]) :=
    Graph.Built.nil.snoc _ _ _ h.flow.entry (by simp [Graph.nodesOf])
  have hapart : ∀ q ∈ p.points, ∀ n, ¬ p.graph.Within r n q.resume := by
    intro q hq n hstep
    obtain ⟨node, c, hnode, hexit⟩ := h.exists_suspend hq
    rw [h.graph] at hstep
    have hlt := hstep.lt_blocks h.sound
    have hle := Graph.blocks_le_resume h.sound hnode hexit
    omega
  have hnodup : (p.graph.entry :: p.points.map (·.resume)).Nodup := by
    refine nodup_cons.2 ⟨fun hmem => ?_, ?_⟩
    · obtain ⟨q, hq, heq⟩ := mem_map.1 hmem
      obtain ⟨node, c, hnode, hexit⟩ := h.exists_suspend hq
      have hle := Graph.blocks_le_resume h.sound hnode hexit
      omega
    · have hnodes : (p.points.map (·.node)).Nodup := by
        rw [h.points]
        exact Graph.nodup_node_suspensions
      refine List.Nodup.map_on (fun q hq q' hq' heq => ?_) (List.Nodup.of_map _ hnodes)
      obtain ⟨node, c, hnode, hexit⟩ := h.exists_suspend hq
      obtain ⟨node', c', hnode', hexit'⟩ := h.exists_suspend hq'
      have hsame := Graph.resume_inj h.sound hnode hexit hnode' (heq ▸ hexit')
      exact inj_on_of_nodup_map hnodes hq hq' hsame
  rw [h.segments]
  exact hfirst.foldl h.flow (fun q hq => h.resume_mem hq) hapart hnodup

/-- **The segments divide the nodes that control gets to.** -/
theorem partitioned : p.graph.Partitioned r p.points p.segments := by
  obtain ⟨hbuilt, hstarts⟩ := h.built_segments
  have hindex : p.segments.map (·.index) = range (p.points.length + 1) := by
    rw [h.map_index_segments, h.points, Graph.map_index_suspensions, range_eq_range',
      range'_succ]
  have hsorted : (p.segments.map (·.index)).Pairwise (· < ·) := hindex ▸ pairwise_lt_range
  have hcovers : ∀ n, n ∈ Graph.nodesOf p.segments ↔ n ∈ r := by
    refine fun n => ⟨(hbuilt.segmentsIn h.flow).inside n, fun hn => ?_⟩
    rw [h.segments, h.points]
    exact Graph.mem_nodesOf_segments h.flow hn
  -- the segments before one of them have other, smaller numbers
  have hbefore : ∀ {earlier s later}, p.segments = earlier ++ s :: later →
      ∀ k ∈ earlier.map (·.index), k < s.index := by
    intro earlier s later hsplit k hk
    rw [hsplit, map_append, map_cons] at hsorted
    exact (pairwise_append.1 hsorted).2.2 k hk s.index (by simp)
  refine ⟨⟨hindex, ?_⟩, hstarts, ?_, hbuilt.nodup, hcovers, ?_, ?_, ?_, ?_⟩
  · rw [h.points]
    exact Graph.map_index_suspensions
  · intro s hs
    obtain ⟨earlier, later, hsplit⟩ := append_of_mem hs
    exact (hsplit ▸ hbuilt).head?_nodes
  · intro n k
    refine ⟨hbuilt.isLeast_owner h.flow hsorted, fun hk => ?_⟩
    obtain ⟨⟨s, hs, rfl, hreach⟩, -⟩ := id hk
    have hentry : s.entry ∈ Graph.nodesOf p.segments := by
      obtain ⟨earlier, later, hsplit⟩ := append_of_mem hs
      exact mem_flatMap.2 ⟨s, hs, mem_of_head? (hsplit ▸ hbuilt).head?_nodes⟩
    have hn := (hcovers n).1 (hbuilt.closed h.flow hentry hreach)
    obtain ⟨t, -, -, howner⟩ := h.exists_owner hn
    rw [howner, (hbuilt.isLeast_owner h.flow hsorted howner).unique hk]
  · intro s hs n hn node hnode hsuspend
    have hnr : n ∈ r := (hcovers n).1 (mem_flatMap.2 ⟨s, hs, hn⟩)
    obtain ⟨q, hq, hqn⟩ := h.exists_point hnr hnode hsuspend
    refine ⟨q, ⟨hq, hqn⟩, ?_⟩
    rintro q' ⟨hq', hqn'⟩
    have hnodes : (p.points.map (·.node)).Nodup := by
      rw [h.points]
      exact Graph.nodup_node_suspensions
    exact inj_on_of_nodup_map hnodes hq' hq (hqn'.trans hqn.symm)
  · intro s hs
    obtain ⟨earlier, later, hsplit⟩ := append_of_mem hs
    have hnew : s.index ∉ earlier.map (·.index) := fun hmem =>
      Nat.lt_irrefl _ (hbefore hsplit s.index hmem)
    refine ⟨?_, fun x => ?_⟩
    · obtain ⟨-, -, -, hfrom⟩ := (hsplit ▸ hbuilt).split
      rw [hfrom]
      exact (firstOccurrences_spec _).1
    · have hexits := (hsplit ▸ hbuilt).mem_exits_iff_leaves h.flow h.points hnew x
      rwa [← hsplit] at hexits
  · intro s hs k hk
    obtain ⟨earlier, later, hsplit⟩ := append_of_mem hs
    obtain ⟨n, -, q, -, howner⟩ := ((hsplit ▸ hbuilt).continues_mem_exits_iff h.flow).1 hk
    exact hbefore hsplit k (Graph.Built.mem_nodesOf_of_owner? howner).2

end Dispatcher.Plan.Made

/-! ### Analysed methods -/

theorem Graph.FlowSet.mem_iff {g : Graph} {r : IdSet} (h : g.FlowSet r) {n : Nat} :
    n ∈ r ↔ ReflTransGen g.Goes g.entry n := by
  constructor
  · intro hn
    exact (h.path n hn).lift id fun _ _ hstep => hstep.1
  · intro hpath
    induction hpath with
    | refl => exact h.entry
    | tail _ hstep ih => exact h.goes ih hstep

/-- **The segments of an accepted method divide the nodes that control gets to.**  Each of these
belongs to the first segment that gets to it, and the segments list their ways out. -/
theorem Analysis.partitioned_of_analyze {m : Method} {o : Options} {a : Analysis}
    (h : m.analyze o = .ok a) :
    m.withoutCleanup = .ok a.method ∧ a.graph = Graph.ofMethod a.method o.isMarker ∧
      (∀ n, n ∈ a.reached ↔ ReflTransGen a.graph.Goes a.graph.entry n) ∧
      a.graph.Partitioned a.reached a.points a.segments ∧
      ∀ cls pair, m.convert cls o = .ok (.converted pair) →
        pair.points = a.points ∧ pair.segments = a.segments := by
  obtain ⟨-, n, levels, hn, -, -, rfl⟩ := Method.analyze_eq_ok h
  obtain ⟨-, -, -, hmade⟩ := Method.made_of_analyze h hn ""
  refine ⟨hn, rfl, fun k => hmade.flow.mem_iff, hmade.partitioned, fun cls pair hconvert => ?_⟩
  obtain ⟨a', -, ha', rfl, -⟩ := m.exists_analysis hconvert
  cases h.symm.trans ha'
  exact ⟨rfl, rfl⟩

/-- A loop with a wait in it and a wait in the handler of the loop.  The second segment goes back to
the first one, which also has the handler. -/
theorem partitioned_sumOfWaits :
    ∃ a, sumOfWaits.analyze {} = .ok a ∧
      a.segments.map (·.nodes) = [[0, 1, 2, 4, 3], [5], [6]] ∧
      a.segments.map (·.exits) =
        [[.suspends 1, .suspends 2, .returns], [.continues 0], [.returns]] ∧
      a.graph.Partitioned a.reached a.points a.segments := by
  have hconvert : sumOfWaits.convert "C" {} = .ok (.converted sumOfWaits.pair) := by decide +kernel
  obtain ⟨a, -, ha, hpair, -⟩ := Method.exists_analysis hconvert
  obtain ⟨-, -, -, hpartitioned, -⟩ := Analysis.partitioned_of_analyze ha
  have hsegments : a.segments = sumOfWaits.pair.segments := by
    rw [hpair]
    rfl
  refine ⟨a, ha, ?_, ?_, hpartitioned⟩
  · rw [hsegments]
    decide +kernel
  · rw [hsegments]
    decide +kernel

end Resumable
