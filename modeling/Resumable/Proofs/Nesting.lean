/-
**Exception tables stay nested.**

The regions of a method nest, inner ones first, if of two regions that share a block the first lies
in the second.  Nothing that is done to a method spoils that.

Expanding a cleanup region copies blocks.  A new block lies in the regions of one old block, its
*origin*, and an old block is its own origin.  So what two regions share, and whether one lies in
the other, can be asked of the origins.  Emptying dead blocks cuts all regions down to the same set.

The table of a dispatcher has one piece for each region and segment.  The code that a piece covers
stands for nodes, and says which segment it belongs to and with which node it is covered.  So the
pieces of different segments share no block, and those of one segment nest as the regions do.  The
last region covers all that pieces cover.

Main results:

* `Method.shapeDefects_eq_nil_iff` — what the check of the table accepts;
* `Method.Spread.exists_origin` — the blocks of an expanded region have origins;
* `Method.Nested.withoutCleanup` — expanding cleanup regions keeps the nesting;
* `Dispatcher.Plan.Made.nests_piece`, `Dispatcher.Plan.Made.apart_piece`;
* `Method.nested_preserved` — **tables stay nested**.
-/

import Resumable.Proofs.CleanupLayout
import Resumable.Proofs.States
import Resumable.Proofs.WithoutCleanup

set_option autoImplicit false

namespace Resumable

open List

/-! ### Tables that nest -/

namespace IdSet

/-- If the sets share a member, the first lies in the second. -/
def Nests (s t : IdSet) : Prop := (∃ x ∈ s, x ∈ t) → ∀ x ∈ s, x ∈ t

/-- The sets share no member. -/
def Apart (s t : IdSet) : Prop := ∀ x ∈ s, x ∉ t

theorem Apart.nests {s t : IdSet} (h : s.Apart t) : s.Nests t := by
  rintro ⟨x, hs, ht⟩
  exact absurd ht (h x hs)

theorem Nests.filter {s t : IdSet} (h : s.Nests t) (keep : Nat → Bool) :
    (s.filter keep).Nests (t.filter keep) := by
  rintro ⟨x, hs, ht⟩ y hy
  rw [mem_filter] at hs ht hy ⊢
  exact ⟨h ⟨x, hs.1, ht.1⟩ y hy.1, hy.2⟩

end IdSet

namespace Method

variable {m n : Method}

/-- Of two regions of the table that share a block, the first lies in the second. -/
def Nested (m : Method) : Prop := m.regions.Pairwise fun r r' => r.blocks.Nests r'.blocks

theorem clash?_eq_none_iff {r r' : Region} : clash? r r' = none ↔ r.blocks.Nests r'.blocks := by
  constructor
  · rintro h ⟨b, hb, hb'⟩
    exact IdSet.isSubset_iff.1 (isSubset_of_clash? h hb hb')
  · intro h
    unfold clash?
    split
    · rfl
    · rename_i b _ hshared
      have hb : b ∈ r.blocks.filter (· ∈ r'.blocks) := by
        rw [IdSet.mem_def, hshared]
        exact mem_cons_self
      rw [IdSet.mem_filter, decide_eq_true_eq] at hb
      have hinner := IdSet.isSubset_iff.2 (h ⟨b, hb⟩)
      simp [hinner]

/-- **What the check of the table accepts.** -/
theorem shapeDefects_eq_nil_iff : m.shapeDefects = [] ↔ m.Nested := by
  rw [shapeDefects, clashes_eq_nil_iff]
  exact ⟨fun h => h.imp fun hc => clash?_eq_none_iff.1 hc,
    fun h => h.imp fun hc => clash?_eq_none_iff.2 hc⟩

/-- The nesting, said of positions of the table. -/
theorem nested_iff : m.Nested ↔
    ∀ i j, i < j → (∃ b, m.Covers i b ∧ m.Covers j b) → ∀ b, m.Covers i b → m.Covers j b := by
  constructor
  · rintro h i j hij ⟨b, ⟨r, hr, hb⟩, ⟨r', hr', hb'⟩⟩ c hc
    rw [covers_iff hr] at hc
    exact (covers_iff hr' c).2 (pairwise_getElem? h hij hr hr' ⟨b, hb, hb'⟩ c hc)
  · intro h
    refine pairwise_iff_getElem.2 fun i j hi hj hij => ?_
    rintro ⟨b, hb, hb'⟩ c hc
    have hr := List.getElem?_eq_getElem hi
    have hr' := List.getElem?_eq_getElem hj
    exact (covers_iff hr' c).1
      (h i j hij ⟨b, (covers_iff hr b).2 hb, (covers_iff hr' b).2 hb'⟩ c ((covers_iff hr c).2 hc))

/-! ### Cleanup regions -/

/-- **Every block of an expanded region has an origin**, a block of the method that lies in the same
regions. -/
theorem Spread.exists_origin {index : Nat} {region : Region} {ways : List Completion}
    {saved : Option Nat} {caught : Nat} (h : m.Spread index region n ways saved caught) {b : Nat}
    (hb : b < n.blocks.length) : ∃ o, ∀ k, n.Covers k b ↔ m.Covers k o := by
  rcases h.block_cases hb with hold | ⟨j, c, x, s, hj, hx, rfl⟩ | rfl
  · exact ⟨b, fun k => h.expanded.covers k b hold⟩
  · exact ⟨s, fun k => (h.copies j c hj).covers k x s hx⟩
  · exact ⟨region.handler, h.covers⟩

theorem Nested.of_origins (h : m.Nested) (hn : n.Sound)
    (horigin : ∀ b < n.blocks.length, ∃ o, ∀ k, n.Covers k b ↔ m.Covers k o) : n.Nested := by
  rw [nested_iff] at h ⊢
  rintro i j hij ⟨b, hi, hj⟩ c hc
  obtain ⟨o, ho⟩ := horigin b (hn.lt_of_covers hi)
  obtain ⟨o', ho'⟩ := horigin c (hn.lt_of_covers hc)
  exact (ho' j).2 (h i j hij ⟨o, (ho i).1 hi, (ho j).1 hj⟩ o' ((ho' i).1 hc))

theorem Nested.expandAt (h : m.Nested) (hm : m.Sound) {index : Nat}
    (hn : m.expandAt index = .ok n) : n.Nested := by
  have hsound := (grows_expandAt hm hn).sound
  rw [Method.expandAt] at hn
  split at hn
  · rename_i region hlisted
    split at hn
    · obtain ⟨ways, saved, caught, hspread⟩ := spread_of_expandCleanup hm hlisted hn
      exact h.of_origins hsound fun b hb => hspread.exists_origin hb
    · cases hn
      exact h
  · cases hn
    exact h

theorem Nested.dropUnreachable (h : m.Nested) : m.dropUnreachable.Nested := by
  have hcut :
      (m.regions.map fun r => { r with blocks := r.blocks.filter (· ∈ m.reachable) }).Pairwise
      fun r r' => r.blocks.Nests r'.blocks := by
    rw [pairwise_map]
    exact h.imp fun hr => hr.filter _
  exact hcut.sublist filter_sublist

/-- **Expanding cleanup regions keeps the nesting.** -/
theorem Nested.withoutCleanup (h : m.Nested) (hm : m.Sound) (hn : m.withoutCleanup = .ok n) :
    n.Nested := by
  unfold Method.withoutCleanup at hn
  split at hn
  · cases hn
  · split at hn
    · split at hn
      · cases hn
      · rename_i k hk
        cases hn
        have hexpanded : k.Sound ∧ k.Nested := by
          refine foldlM_ok_induction (P := fun k => k.Sound ∧ k.Nested) hk ⟨hm, h⟩ ?_
          rintro m₀ i - m₁ ⟨hsound, hnested⟩ hm₁
          exact ⟨(grows_expandAt hsound hm₁).sound, hnested.expandAt hsound hm₁⟩
        exact hexpanded.2.dropUnreachable
    · cases hn
      exact h

end Method

/-! ### The regions of the graph -/

theorem Graph.nests_regions {m : Method} (hm : m.Sound) (h : m.Nested) (isMarker : String → Bool) :
    (ofMethod m isMarker).regions.Pairwise fun R R' => R.nodes.Nests R'.nodes := by
  rw [regions_eq hm, pairwise_map]
  refine h.imp fun {r r'} hr => ?_
  -- a node lies in the region that its block lies in
  have mem : ∀ {blocks : IdSet} {x : Nat},
      x ∈ IdSet.ofList (((ofMethod m isMarker).nodes.filter (·.origin ∈ blocks)).map (·.id)) →
        ∃ n ∈ (ofMethod m isMarker).nodes, n.id = x ∧ n.origin ∈ blocks := by
    intro blocks x hx
    rw [IdSet.mem_ofList, mem_map] at hx
    obtain ⟨n, hn, rfl⟩ := hx
    rw [mem_filter, decide_eq_true_eq] at hn
    exact ⟨n, hn.1, rfl, hn.2⟩
  rintro ⟨x, hx, hx'⟩ y hy
  obtain ⟨n, hn, rfl, horigin⟩ := mem hx
  obtain ⟨k, hk, rfl, hkorigin⟩ := mem hy
  exact (mem_region_iff hm hk).2
    (hr ⟨n.origin, horigin, (mem_region_iff hm hn).1 hx'⟩ k.origin hkorigin)

/-! ### The pieces of a dispatcher -/

namespace Dispatcher.Plan

variable {p : Plan}

/-- The segment that covered code belongs to, and the node with which it is covered. -/
def coverage? (p : Plan) : Role → Option (Nat × Nat)
  | .node n => (owner? p.segments n).map fun s => (s, n)
  | .fast k => (p.point? k).bind fun q => (owner? p.segments q.node).map fun s => (s, q.node)
  | .resume k => (p.point? k).map fun q => (q.index, q.resume)
  | .head | .start | .park _ | .fail | .rethrow | .reject | .badState => none

theorem isGuarded_of_coverage? {σ : Role} {c : Nat × Nat} (h : p.coverage? σ = some c) :
    isGuarded σ = true := by
  cases σ <;> first | rfl | cases h

theorem mem_guarded {b : Nat} :
    b ∈ p.guarded ↔ ∃ σ, p.roles[b]? = some σ ∧ isGuarded σ = true := by
  simp only [guarded, IdSet.mem_ofList, mem_filterMap]
  constructor
  · rintro ⟨⟨σ, i⟩, hσ, hi⟩
    split at hi
    · rename_i hg
      cases hi
      exact ⟨σ, mem_zipIdx_iff_getElem?.1 hσ, hg⟩
    · cases hi
  · rintro ⟨σ, hσ, hg⟩
    exact ⟨(σ, b), mem_zipIdx_iff_getElem?.2 hσ, by simp [hg]⟩

/-- The pieces of one region. -/
def piecesOf (p : Plan) (R : GraphRegion) : List RegionPiece :=
  match blockOf? p.roles (.node R.handler) with
  | some handler => p.segments.filterMap (p.piece? R handler)
  | none => []

theorem pieces_eq (p : Plan) : p.pieces = p.graph.regions.flatMap p.piecesOf := rfl

variable {R : GraphRegion} {c : RegionPiece}

theorem exists_of_mem_piecesOf (h : c ∈ p.piecesOf R) :
    ∃ s ∈ p.segments, ∃ handler, p.piece? R handler s = some c := by
  rw [piecesOf] at h
  split at h
  · obtain ⟨s, hs, hc⟩ := mem_filterMap.1 h
    exact ⟨s, hs, _, hc⟩
  · cases h

/-- A piece covers the blocks of the roles that its region covers in its segment. -/
theorem mem_piece {handler : Nat} {s : Segment} (h : p.piece? R handler s = some c) {b : Nat} :
    b ∈ c.blocks ↔ ∃ σ ∈ p.roles, p.block σ = b ∧ σ ∈ p.regionRoles R s := by
  rw [(piece?_eq_some h).2.2, IdSet.mem_ofList, mem_filterMap]
  constructor
  · rintro ⟨σ, hσ, hb⟩
    unfold blockOf? at hb
    split at hb
    · rename_i hmem
      refine ⟨σ, hmem, ?_, hσ⟩
      rw [block, blockOf, if_pos hmem]
      exact Option.some.inj hb
    · cases hb
  · rintro ⟨σ, hmem, rfl, hσ⟩
    exact ⟨σ, hσ, (blockOf?_eq_some_iff hmem).2 rfl⟩

theorem piece?_nonempty {handler : Nat} {s : Segment} (h : p.piece? R handler s = some c) :
    c.origin = R.origin ∧ ∃ b, b ∈ c.blocks := by
  simp only [piece?] at h
  split at h
  · cases h
  · rename_i hsome
    cases h
    refine ⟨rfl, exists_mem_of_ne_nil _ fun hnil => hsome ?_⟩
    rw [IdSet.isEmpty, hnil]
    rfl

/-- **The table of a dispatcher is nested.** -/
structure TableNests (p : Plan) : Prop where
  /-- The table lists the pieces, and last a region that catches everything in guarded blocks. -/
  table : ∃ last, p.dispatcher.regions = (p.pieces.mapIdx fun i q =>
      { id := i, blocks := q.blocks, handler := q.handler, kind := q.kind }) ++ [last] ∧
    last.handler = p.block .fail ∧ last.kind = .catchAll ∧
    ∀ b, b ∈ last.blocks ↔ ∃ σ, p.roles[b]? = some σ ∧ isGuarded σ = true
  /-- The table passes the check. -/
  shape : p.dispatcher.shapeDefects = []
  /-- The pieces of one region are not empty and share no block. -/
  parts : ∃ parts : List (List RegionPiece), p.pieces = parts.flatten ∧
    List.Forall₂ (fun R part => (∀ q ∈ part, q.origin = R.id ∧ ∃ b, b ∈ q.blocks) ∧
      part.Pairwise fun q q' => q.blocks.Apart q'.blocks) p.method.regions parts
  /-- Each of the regions around a block lies in the next one. -/
  increasing : ∀ b, (p.dispatcher.covering b).Pairwise fun r r' => ∀ x ∈ r.blocks, x ∈ r'.blocks
  /-- The last region around a guarded block catches everything. -/
  guarded : ∀ b σ, p.roles[b]? = some σ → isGuarded σ = true →
    (p.dispatcher.covering b).getLast? = p.dispatcher.regions.getLast?
  /-- There is no region around other blocks. -/
  unguarded : ∀ b σ, p.roles[b]? = some σ → isGuarded σ = false → p.dispatcher.covering b = []

namespace Made

variable {isMarker : String → Bool} {r : IdSet} (h : p.Made isMarker r)
include h

variable {R : GraphRegion} {s : Segment} {c : RegionPiece}

/-- **What a region covers in a segment.** -/
theorem mem_regionRoles_iff {σ : Role} :
    σ ∈ p.regionRoles R s ↔ ∃ n ∈ R.nodes, p.coverage? σ = some (s.index, n) := by
  rw [mem_regionRoles]
  constructor
  · rintro (⟨n, hn, howner, hσ⟩ | ⟨q, hq, hresume, rfl⟩)
    · rcases mem_cons.1 hσ with rfl | hσ
      · exact ⟨n, hn, by simp [coverage?, howner]⟩
      · rw [Option.mem_toList, Option.map_eq_some_iff] at hσ
        obtain ⟨q, hq, rfl⟩ := hσ
        obtain ⟨hmem, rfl⟩ := pointAt?_eq_some hq
        exact ⟨q.node, hn, by simp [coverage?, h.point?_index hmem, howner]⟩
    · have hindex : q.index = s.index := by simpa using find?_some hq
      refine ⟨q.resume, hresume, ?_⟩
      rw [coverage?, h.point?_index (mem_of_find?_eq_some hq), Option.map_some, hindex]
  · rintro ⟨n, hn, hσ⟩
    cases σ with
    | node k =>
      obtain ⟨j, howner, hj⟩ := Option.map_eq_some_iff.1 hσ
      obtain ⟨rfl, rfl⟩ := Prod.mk.inj hj
      exact .inl ⟨k, hn, howner, mem_cons_self⟩
    | fast k =>
      obtain ⟨q, hq, hσ⟩ := Option.bind_eq_some_iff.1 hσ
      obtain ⟨j, howner, hj⟩ := Option.map_eq_some_iff.1 hσ
      obtain ⟨rfl, rfl⟩ := Prod.mk.inj hj
      have hindex : q.index = k := by simpa using find?_some hq
      refine .inl ⟨q.node, hn, howner, ?_⟩
      simp [coveredRoles, h.pointAt?_node (mem_of_find?_eq_some hq), hindex]
    | resume k =>
      obtain ⟨q, hq, hj⟩ := Option.map_eq_some_iff.1 hσ
      have hindex : q.index = k := by simpa using find?_some hq
      obtain ⟨hs, rfl⟩ := Prod.mk.inj hj
      exact .inr ⟨q, by rwa [← hs, hindex], hn, by rw [hindex]⟩
    | head | start | park | fail | rethrow | reject | badState => cases hσ

/-- A block of two pieces belongs to one segment, and both regions cover the node it comes from. -/
theorem shared_piece {R' : GraphRegion} {k k' b : Nat} {s' : Segment} {c' : RegionPiece}
    (hc : p.piece? R k s = some c) (hc' : p.piece? R' k' s' = some c') (hb : b ∈ c.blocks)
    (hb' : b ∈ c'.blocks) : s.index = s'.index ∧ ∃ n, n ∈ R.nodes ∧ n ∈ R'.nodes := by
  obtain ⟨σ, hσ, rfl, hσs⟩ := (mem_piece hc).1 hb
  obtain ⟨σ', hσ', hsame, hσs'⟩ := (mem_piece hc').1 hb'
  cases block_inj hσ' hσ hsame
  obtain ⟨n, hn, hcov⟩ := h.mem_regionRoles_iff.1 hσs
  obtain ⟨n', hn', hcov'⟩ := h.mem_regionRoles_iff.1 hσs'
  obtain ⟨hindex, rfl⟩ : s.index = s'.index ∧ n = n' := by
    rw [hcov] at hcov'
    simpa using hcov'
  exact ⟨hindex, n, hn, hn'⟩

/-- **Pieces nest as their regions do.** -/
theorem nests_piece {R' : GraphRegion} (hR : R.nodes.Nests R'.nodes) {k k' : Nat} {s' : Segment}
    {c' : RegionPiece} (hc : p.piece? R k s = some c) (hc' : p.piece? R' k' s' = some c') :
    c.blocks.Nests c'.blocks := by
  rintro ⟨b, hb, hb'⟩ d hd
  obtain ⟨hindex, hshared⟩ := h.shared_piece hc hc' hb hb'
  obtain ⟨τ, hτ, rfl, hτs⟩ := (mem_piece hc).1 hd
  obtain ⟨i, hi, hcovτ⟩ := h.mem_regionRoles_iff.1 hτs
  have hi' := hR hshared i hi
  exact (mem_piece hc').2 ⟨τ, hτ, rfl, h.mem_regionRoles_iff.2 ⟨i, hi', hindex ▸ hcovτ⟩⟩

/-- **Pieces of different segments share no block.** -/
theorem apart_piece {R' : GraphRegion} {k k' : Nat} {s' : Segment} {c' : RegionPiece}
    (hc : p.piece? R k s = some c) (hc' : p.piece? R' k' s' = some c') (hne : s.index ≠ s'.index) :
    c.blocks.Apart c'.blocks := fun _ hb hb' => hne (h.shared_piece hc hc' hb hb').1

theorem apart_piecesOf (R : GraphRegion) :
    (p.piecesOf R).Pairwise fun c c' => c.blocks.Apart c'.blocks := by
  have hindices : p.segments.Pairwise fun s s' => s.index ≠ s'.index := by
    have hnodup : (p.segments.map (·.index)).Nodup := by
      rw [h.map_index_segments, h.points, Graph.map_index_suspensions, nodup_cons]
      refine ⟨fun hmem => ?_, nodup_range'⟩
      have := (mem_range'_1.1 hmem).1
      omega
    exact pairwise_map.1 hnodup
  rw [piecesOf]
  split
  · rw [pairwise_filterMap]
    refine hindices.imp ?_
    intro s s' hne c hc c' hc'
    exact h.apart_piece hc hc' hne
  · exact List.Pairwise.nil

theorem nests_pieces (hnested : p.method.Nested) :
    p.pieces.Pairwise fun c c' => c.blocks.Nests c'.blocks := by
  rw [pieces_eq, pairwise_flatMap]
  constructor
  · intro R _
    exact (h.apart_piecesOf R).imp fun hc => hc.nests
  · rw [h.graph]
    refine (Graph.nests_regions h.sound hnested isMarker).imp ?_
    intro R R' hR c hc c' hc'
    obtain ⟨s, -, k, hc⟩ := exists_of_mem_piecesOf hc
    obtain ⟨s', -, k', hc'⟩ := exists_of_mem_piecesOf hc'
    exact h.nests_piece hR hc hc'

theorem guarded_of_mem_piece (hc : c ∈ p.pieces) {b : Nat} (hb : b ∈ c.blocks) : b ∈ p.guarded := by
  rw [pieces_eq] at hc
  obtain ⟨R, -, hc⟩ := mem_flatMap.1 hc
  obtain ⟨s, -, k, hc⟩ := exists_of_mem_piecesOf hc
  obtain ⟨σ, hσ, rfl, hσs⟩ := (mem_piece hc).1 hb
  obtain ⟨n, -, hcov⟩ := h.mem_regionRoles_iff.1 hσs
  exact (mem_guarded_iff hσ).2 (isGuarded_of_coverage? hcov)

theorem nested_dispatcher (hnested : p.method.Nested) : p.dispatcher.Nested := by
  refine pairwise_append.2 ⟨?_, pairwise_singleton _ _, ?_⟩
  · refine pairwise_iff_getElem.2 fun i j hi hj hij => ?_
    simp only [getElem_mapIdx]
    exact pairwise_iff_getElem.1 (h.nests_pieces hnested) i j _ _ hij
  · intro r hr last hlast
    rw [mem_singleton] at hlast
    subst hlast
    obtain ⟨i, hi⟩ := mem_iff_getElem?.1 hr
    rw [getElem?_mapIdx] at hi
    obtain ⟨c, hc, rfl⟩ := Option.map_eq_some_iff.1 hi
    rintro - b hb
    exact h.guarded_of_mem_piece (mem_of_getElem? hc) hb

/-- **The table of a dispatcher is nested** if that of the method is. -/
theorem tableNests (hnested : p.method.Nested) : p.TableNests where
  table := ⟨_, rfl, rfl, rfl, fun b => mem_guarded⟩
  shape := Method.shapeDefects_eq_nil_iff.2 (h.nested_dispatcher hnested)
  parts := by
    refine ⟨p.graph.regions.map p.piecesOf, rfl, ?_⟩
    rw [h.graph, Graph.regions_eq h.sound, List.map_map, forall₂_map_right_iff, forall₂_same]
    intro R _
    refine ⟨fun q hq => ?_, h.apart_piecesOf _⟩
    obtain ⟨s, -, k, hq⟩ := exists_of_mem_piecesOf hq
    exact piece?_nonempty hq
  increasing b := by
    refine ((h.nested_dispatcher hnested).filter _).imp_of_mem ?_
    intro r r' hr hr' hnests
    refine hnests ⟨b, ?_, ?_⟩
    · simpa using (mem_filter.1 hr).2
    · simpa using (mem_filter.1 hr').2
  guarded b σ hσ hg := by
    have hb : b ∈ p.guarded := mem_guarded.2 ⟨σ, hσ, hg⟩
    have hregions : p.dispatcher.regions = p.regions := rfl
    rw [Method.covering, hregions, regions, filter_append, filter_cons_of_pos (by simpa using hb),
      filter_nil, getLast?_concat, getLast?_concat]
  unguarded b σ hσ hg := by
    have hb : b ∉ p.guarded := by
      rw [mem_guarded]
      rintro ⟨τ, hτ, hgτ⟩
      rw [hσ] at hτ
      cases hτ
      rw [hg] at hgτ
      cases hgτ
    refine filter_eq_nil_iff.2 fun r hr hmem => ?_
    rw [decide_eq_true_eq] at hmem
    rcases mem_append.1 hr with hr | hr
    · obtain ⟨i, hi⟩ := mem_iff_getElem?.1 hr
      rw [getElem?_mapIdx] at hi
      obtain ⟨c, hc, rfl⟩ := Option.map_eq_some_iff.1 hi
      exact hb (h.guarded_of_mem_piece (mem_of_getElem? hc) hmem)
    · rw [mem_singleton] at hr
      subst hr
      exact hb hmem

end Made

end Dispatcher.Plan

/-! ### Converted methods -/

/-- **Tables stay nested.**  If the table of a method is nested then so are that of the method
without cleanup regions and that of the dispatcher. -/
theorem Method.nested_preserved {m : Method} (hrefs : m.referenceDefects = [])
    (hshape : m.shapeDefects = []) :
    (∀ n, m.withoutCleanup = .ok n → n.shapeDefects = []) ∧
      ∀ cls o pair, m.convert cls o = .ok (.converted pair) →
        ∃ a, m.analyze o = .ok a ∧ m.withoutCleanup = .ok a.method ∧
          pair.dispatcher = (a.plan (o.dispatcherName m.name)).dispatcher ∧
          pair.pieces = (a.plan (o.dispatcherName m.name)).pieces ∧
          (a.plan (o.dispatcherName m.name)).TableNests := by
  have hm := referenceDefects_eq_nil_iff.1 hrefs
  have hnested : ∀ n, m.withoutCleanup = .ok n → n.Nested := fun n hn =>
    (shapeDefects_eq_nil_iff.1 hshape).withoutCleanup hm hn
  refine ⟨fun n hn => shapeDefects_eq_nil_iff.2 (hnested n hn), fun cls o pair hconvert => ?_⟩
  obtain ⟨a, n, ha, rfl, hn⟩ := m.exists_analysis hconvert
  obtain ⟨-, -, rfl, hmade⟩ := made_of_analyze ha hn (o.dispatcherName m.name)
  exact ⟨a, ha, hn, rfl, rfl, hmade.tableNests (hnested _ hn)⟩

/-- A wait in a cleanup region whose body waits too, both in a region that catches everything. -/
def guardedWaits : Method where
  name := "m"
  params := [⟨0, some "f", .future, true⟩]
  ret := .void
  locals := [⟨0, some "f", .future, true⟩]
  blocks :=
    [⟨0, [.load 0, .invoke ⟨"Await.await", 1, .int⟩, .pop], .goto 1⟩,
      ⟨1, [], .ret⟩,
      ⟨2, [.pop, .load 0, .invoke ⟨"Await.await", 1, .int⟩, .pop], .endCleanup⟩,
      ⟨3, [.pop], .ret⟩]
  entry := 0
  regions := [⟨0, IdSet.ofList [0], 2, .cleanup⟩, ⟨1, IdSet.ofList [0, 2], 3, .catchAll⟩]

/-- What the method is converted to. -/
def guardedWaits.pair : Conversion.Pair :=
  match guardedWaits.convert "C" {} with
  | .ok (.converted pair) => pair
  | _ => default

/-- The first two pieces come from the expanded region, and each lies in a piece of the other
one. -/
theorem nested_preserved_guardedWaits :
    guardedWaits.referenceDefects = [] ∧ guardedWaits.shapeDefects = [] ∧
      (∀ n, guardedWaits.withoutCleanup = .ok n → n.shapeDefects = []) ∧
      guardedWaits.convert "C" {} = .ok (.converted guardedWaits.pair) ∧
      guardedWaits.pair.pieces.map (·.blocks.toList) =
        [[2, 3], [10, 11], [2, 3, 5, 6, 7], [10, 11, 12, 13], [15, 16], [18, 19]] ∧
      ∃ a, guardedWaits.analyze {} = .ok a ∧ (a.plan "m$dispatch").TableNests := by
  have hrefs : guardedWaits.referenceDefects = [] := by decide +kernel
  have hshape : guardedWaits.shapeDefects = [] := by decide +kernel
  have hconvert : guardedWaits.convert "C" {} = .ok (.converted guardedWaits.pair) := by
    decide +kernel
  obtain ⟨hclean, htable⟩ := Method.nested_preserved hrefs hshape
  obtain ⟨a, ha, -, -, -, hnests⟩ := htable "C" {} _ hconvert
  exact ⟨hrefs, hshape, hclean, hconvert, by decide +kernel, a, ha, hnests⟩

end Resumable
