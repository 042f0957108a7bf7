/-
**Nodes as pieces of blocks.**

The graph of a method is made by cutting its blocks at the marker calls.  This module says what a
node is in terms of the block it comes from: a run of the block's instructions without marker calls,
followed by the block's terminator, or by a marker call after which the next node of the same block
begins.  The regions that cover a node are those that cover its block.

Main results:

* `Graph.node?_id`, `Graph.node?_of_mem` — the number of a node is its position;
* `Graph.exists_head` — the first node of a block has the number of the block;
* `Graph.pieceOf` — **every node is a piece of its block**;
* `Graph.covering_eq`, `Graph.handlers_eq` — a node is covered like its block.
-/

import Resumable.Graph
import Resumable.Proofs.References

set_option autoImplicit false

namespace Resumable

open List

/-! ### Cutting a run of instructions -/

theorem Instr.eq_invoke_of_callee? {p : String → Bool} {i : Instr} {c : Callee}
    (h : i.callee? p = some c) : i = .invoke c ∧ p c.name = true := by
  cases i with
  | invoke callee =>
    simp only [callee?] at h
    split at h
    · cases h
      exact ⟨rfl, by assumption⟩
    · cases h
  | _ => cases h

/-- The first piece of a run of instructions: it has no marker call in it, and it is followed by the
end of the run, or by a marker call and the pieces of the rest. -/
theorem cut_eq (isMarker : String → Bool) (start : Nat) (is : List Instr) :
    ∃ p ps, cut isMarker start is = p :: ps ∧ p.start = start ∧
      (∀ i ∈ p.instrs, i.callee? isMarker = none) ∧
      ((p.marker = none ∧ ps = [] ∧ is = p.instrs) ∨
        ∃ c rest, p.marker = some c ∧ isMarker c.name = true ∧
          is = p.instrs ++ .invoke c :: rest ∧
          ps = cut isMarker (start + p.instrs.length + 1) rest) := by
  induction is generalizing start with
  | nil => exact ⟨⟨start, [], none⟩, [], rfl, rfl, by simp, .inl ⟨rfl, rfl, rfl⟩⟩
  | cons i is ih =>
    cases hi : i.callee? isMarker with
    | some c =>
      obtain ⟨rfl, hc⟩ := Instr.eq_invoke_of_callee? hi
      refine ⟨⟨start, [], some c⟩, cut isMarker (start + 1) is, ?_, rfl, by simp,
        .inr ⟨c, is, rfl, hc, rfl, rfl⟩⟩
      rw [cut, hi]
    | none =>
      obtain ⟨p, ps, hcut, _, hplain, hend⟩ := ih (start + 1)
      refine ⟨⟨start, i :: p.instrs, p.marker⟩, ps, ?_, rfl, ?_, ?_⟩
      · rw [cut, hi, hcut]
        rfl
      · intro k hk
        rcases mem_cons.1 hk with rfl | hk
        · exact hi
        · exact hplain k hk
      · rcases hend with ⟨hm, hps, his⟩ | ⟨c, rest, hm, hc, his, hps⟩
        · exact .inl ⟨hm, hps, by rw [his]⟩
        · refine .inr ⟨c, rest, hm, hc, by rw [his]; rfl, ?_⟩
          rw [hps, length_cons]
          congr 1
          omega

/-! ### Pieces of a block -/

/-- What stands in the block after the instructions of the node: nothing but the terminator, or a
marker call, after which the next node begins. -/
def Node.Ends (isMarker : String → Bool) (nodes : List Node) (b : Block) (n : Node) : Prop :=
  match n.exit with
  | .leave t => t = b.terminator ∧ b.instrs.drop n.start = n.instrs
  | .suspend c r =>
    isMarker c.name = true ∧
      (∃ rest, b.instrs.drop n.start = n.instrs ++ .invoke c :: rest) ∧
      ∃ k ∈ nodes, k.id = r ∧ k.origin = n.origin ∧ k.start = n.start + n.instrs.length + 1

variable {b : Block}

theorem Node.Ends.mono {isMarker : String → Bool} {nodes nodes' : List Node} {n : Node}
    (h : n.Ends isMarker nodes b) (hsub : ∀ k ∈ nodes, k ∈ nodes') : n.Ends isMarker nodes' b := by
  unfold Node.Ends at h ⊢
  split
  · rename_i t ht
    simpa [ht] using h
  · rename_i c r hr
    simp only [hr] at h
    obtain ⟨hc, hrest, k, hk, hid⟩ := h
    exact ⟨hc, hrest, k, hsub k hk, hid⟩

/-- The node is a piece of the block: it has no marker call in it, and it ends where the block ends
or where a marker call stands. -/
structure Node.PieceOf (isMarker : String → Bool) (nodes : List Node) (b : Block) (n : Node) :
    Prop where
  origin : n.origin = b.id
  start_le : n.start ≤ b.instrs.length
  plain : ∀ i ∈ n.instrs, i.callee? isMarker = none
  ends : n.Ends isMarker nodes b

/-- The nodes made from the rest of a block: the first has the given number, the others are numbered
from `next` on, and all are pieces of the block. -/
theorem chain_cut (isMarker : String → Bool) (id next start : Nat) (is : List Instr)
    (h : b.instrs.drop start = is) (hle : start ≤ b.instrs.length) :
    ∃ n ns, chain b.id b.terminator id next (cut isMarker start is) = n :: ns ∧
      n.id = id ∧ n.start = start ∧ ns.map (·.id) = range' next ns.length ∧
      ∀ k ∈ n :: ns, k.PieceOf isMarker (n :: ns) b := by
  -- the rest of the block after a marker is shorter
  induction hlen : is.length using Nat.strongRecOn generalizing id next start is with
  | _ len ih =>
    obtain ⟨p, ps, hcut, hstart, hplain, ⟨hm, rfl, his⟩ | ⟨c, rest, hm, hc, his, hps⟩⟩ :=
      cut_eq isMarker start is
    · refine ⟨⟨id, b.id, p.start, p.instrs, .leave b.terminator⟩, [], ?_, rfl, hstart, rfl, ?_⟩
      · simp [hcut, chain, hm]
      · intro k hk
        rw [mem_singleton.1 hk]
        refine ⟨rfl, hstart ▸ hle, hplain, rfl, ?_⟩
        rw [hstart, h, his]
    · have hrest : b.instrs.drop (start + p.instrs.length + 1) = rest := by
        rw [Nat.add_assoc, ← drop_drop, h, his]
        simp
      have hshort : rest.length < len := by
        rw [← hlen, his]
        simp
        omega
      have hle' : start + p.instrs.length + 1 ≤ b.instrs.length := by
        have hlength := congrArg List.length (h.trans his)
        simp only [length_drop, length_append, length_cons] at hlength
        omega
      obtain ⟨n, ns, hchain, hid, hs, hids, hpieces⟩ :=
        ih rest.length hshort next (next + 1) (start + p.instrs.length + 1) rest hrest hle'
          rfl
      refine ⟨⟨id, b.id, p.start, p.instrs, .suspend c next⟩, n :: ns, ?_, rfl, hstart, ?_, ?_⟩
      · rw [hcut, chain, hm, hps, hchain]
      · rw [map_cons, hid, hids, length_cons, range'_succ]
      · intro k hk
        rcases mem_cons.1 hk with rfl | hk
        · refine ⟨rfl, hstart ▸ hle, hplain, hc, ⟨rest, by rw [hstart, h, his]⟩, n, by simp, hid,
            ?_, ?_⟩
          · exact (hpieces n (by simp)).origin
          · rw [hs, hstart]
        · have hk' := hpieces k hk
          exact ⟨hk'.origin, hk'.start_le, hk'.plain,
            hk'.ends.mono fun j hj => mem_cons_of_mem _ hj⟩

theorem Node.PieceOf.mono {isMarker : String → Bool} {nodes nodes' : List Node} {n : Node}
    (h : n.PieceOf isMarker nodes b) (hsub : ∀ k ∈ nodes, k ∈ nodes') :
    n.PieceOf isMarker nodes' b where
  origin := h.origin
  start_le := h.start_le
  plain := h.plain
  ends := h.ends.mono hsub

section Piece

variable {isMarker : String → Bool} {nodes : List Node} {b : Block} {n : Node}

theorem Node.PieceOf.drop_eq (h : n.PieceOf isMarker nodes b) :
    ∃ rest, b.instrs.drop n.start = n.instrs ++ rest := by
  have hends := h.ends
  unfold Node.Ends at hends
  split at hends
  · exact ⟨[], by rw [hends.2, append_nil]⟩
  · obtain ⟨-, ⟨rest, hrest⟩, -⟩ := hends
    exact ⟨_, hrest⟩

theorem Node.PieceOf.getElem? (h : n.PieceOf isMarker nodes b) {j : Nat} {i : Instr}
    (hj : n.instrs[j]? = some i) : b.instrs[n.start + j]? = some i := by
  obtain ⟨rest, hrest⟩ := h.drop_eq
  have hlt := (List.getElem?_eq_some_iff.1 hj).1
  rw [← getElem?_drop, hrest, getElem?_append_left hlt, hj]

theorem Node.PieceOf.of_leave (h : n.PieceOf isMarker nodes b) {t : Terminator}
    (hexit : n.exit = .leave t) :
    b.terminator = t ∧ b.instrs.length = n.start + n.instrs.length := by
  have hends := h.ends
  simp only [Node.Ends, hexit] at hends
  have hlength := congrArg List.length hends.2
  rw [length_drop] at hlength
  have hle := h.start_le
  exact ⟨hends.1.symm, by omega⟩

theorem Node.PieceOf.of_suspend (h : n.PieceOf isMarker nodes b) {c : Callee} {r : Nat}
    (hexit : n.exit = .suspend c r) :
    isMarker c.name = true ∧ b.instrs[n.start + n.instrs.length]? = some (.invoke c) ∧
      ∃ k ∈ nodes, k.id = r ∧ k.origin = n.origin ∧ k.start = n.start + n.instrs.length + 1 := by
  have hends := h.ends
  simp only [Node.Ends, hexit] at hends
  obtain ⟨hc, ⟨rest, hrest⟩, hnext⟩ := hends
  refine ⟨hc, ?_, hnext⟩
  rw [← getElem?_drop, hrest, getElem?_append_right (Nat.le_refl _), Nat.sub_self]
  rfl

end Piece

/-! ### The chains of all blocks -/

section Chains

variable (isMarker : String → Bool)

theorem chains_cons (next : Nat) (b : Block) (bs : List Block) :
    ∃ n ns, chains isMarker next (b :: bs) = (n :: ns) :: chains isMarker (next + ns.length) bs ∧
      n.id = b.id ∧ n.start = 0 ∧ ns.map (·.id) = range' next ns.length ∧
      ∀ k ∈ n :: ns, k.PieceOf isMarker (n :: ns) b := by
  obtain ⟨n, ns, hchain, hid, hstart, hids, hpieces⟩ :=
    chain_cut isMarker (b := b) b.id next 0 b.instrs rfl (Nat.zero_le _)
  refine ⟨n, ns, ?_, hid, hstart, hids, hpieces⟩
  rw [chains, hchain]
  simp

theorem map_id_heads (next : Nat) (bs : List Block) :
    ((chains isMarker next bs).flatMap (·.take 1)).map (·.id) = bs.map (·.id) := by
  induction bs generalizing next with
  | nil => rfl
  | cons b bs ih =>
    obtain ⟨n, ns, hc, hid, _⟩ := chains_cons isMarker next b bs
    rw [hc, flatMap_cons, map_append, ih]
    simp [hid]

theorem map_id_tails (next : Nat) (bs : List Block) :
    ((chains isMarker next bs).flatMap (·.drop 1)).map (·.id) =
      range' next ((chains isMarker next bs).flatMap (·.drop 1)).length := by
  induction bs generalizing next with
  | nil => rfl
  | cons b bs ih =>
    obtain ⟨n, ns, hc, _, _, hids, _⟩ := chains_cons isMarker next b bs
    rw [hc, flatMap_cons, map_append, ih, drop_one, tail_cons, hids,
      length_append, range'_append_1]

variable {isMarker}

/-- The chain at a position holds pieces of the block at that position. -/
theorem pieceOf_of_getElem?_chains {next i : Nat} {bs : List Block} {c : List Node}
    (hc : (chains isMarker next bs)[i]? = some c) :
    ∃ b, bs[i]? = some b ∧ ∀ k ∈ c, k.PieceOf isMarker c b := by
  induction bs generalizing next i with
  | nil => cases hc
  | cons b bs ih =>
    obtain ⟨n, ns, hcs, _, _, _, hpieces⟩ := chains_cons isMarker next b bs
    rw [hcs] at hc
    cases i with
    | zero =>
      cases hc
      exact ⟨b, rfl, hpieces⟩
    | succ i => exact ih hc

theorem exists_head_of_mem (next : Nat) {bs : List Block} {b : Block} (hb : b ∈ bs) :
    ∃ n ∈ (chains isMarker next bs).flatMap (·.take 1),
      n.id = b.id ∧ n.origin = b.id ∧ n.start = 0 := by
  induction bs generalizing next with
  | nil => cases hb
  | cons b' bs ih =>
    obtain ⟨n, ns, hcs, hid, hstart, _, hpieces⟩ := chains_cons isMarker next b' bs
    rw [hcs, flatMap_cons]
    rcases mem_cons.1 hb with rfl | hb
    · exact ⟨n, by simp, hid, (hpieces n (by simp)).origin, hstart⟩
    · obtain ⟨k, hk, hk'⟩ := ih (next + ns.length) hb
      exact ⟨k, mem_append_right _ hk, hk'⟩

/-- A member of a list of lists is in the first members or in the rest of its list. -/
theorem mem_heads_or_tails {cs : List (List Node)} {n : Node} :
    n ∈ cs.flatMap (·.take 1) ++ cs.flatMap (·.drop 1) ↔ ∃ c ∈ cs, n ∈ c := by
  simp only [mem_append, mem_flatMap]
  constructor
  · rintro (⟨c, hc, hn⟩ | ⟨c, hc, hn⟩)
    · exact ⟨c, hc, mem_of_mem_take hn⟩
    · exact ⟨c, hc, mem_of_mem_drop hn⟩
  · rintro ⟨c, hc, hn⟩
    rw [← take_append_drop 1 c] at hn
    rcases mem_append.1 hn with hn | hn
    · exact .inl ⟨c, hc, hn⟩
    · exact .inr ⟨c, hc, hn⟩

end Chains

/-! ### The graph of a method -/

namespace Graph

variable {m : Method} {isMarker : String → Bool} {n : Node} {k : Nat}

theorem mem_nodes_iff :
    n ∈ (ofMethod m isMarker).nodes ↔ ∃ c ∈ chains isMarker m.blocks.length m.blocks, n ∈ c :=
  mem_heads_or_tails

theorem map_id_blocks (h : m.Sound) : m.blocks.map (·.id) = range m.blocks.length := by
  refine ext_getElem? fun i => ?_
  rw [getElem?_map]
  by_cases hi : i < m.blocks.length
  · rw [List.getElem?_eq_getElem hi, getElem?_range hi, Option.map_some,
      h.ids i _ (List.getElem?_eq_getElem hi)]
  · rw [getElem?_eq_none (Nat.le_of_not_lt hi), getElem?_eq_none (by simpa using hi)]
    rfl

/-- The nodes are numbered by their positions. -/
theorem map_id_nodes (isMarker : String → Bool) (h : m.Sound) :
    (ofMethod m isMarker).nodes.map (·.id) = range (ofMethod m isMarker).size := by
  have heads : ((chains isMarker m.blocks.length m.blocks).flatMap (·.take 1)).length =
      m.blocks.length := by
    have := congrArg List.length (map_id_heads isMarker m.blocks.length m.blocks)
    simpa only [length_map] using this
  simp only [ofMethod, size, map_append, map_id_heads, map_id_tails, length_append, heads]
  rw [map_id_blocks h, range_eq_range', range_eq_range']
  have := range'_append_1 (s := 0) (m := m.blocks.length)
    (n := ((chains isMarker m.blocks.length m.blocks).flatMap (·.drop 1)).length)
  rw [Nat.zero_add] at this
  exact this

theorem node?_id (h : m.Sound) (hn : (ofMethod m isMarker).node? k = some n) : n.id = k := by
  have hk : k < (ofMethod m isMarker).size := by
    rw [node?] at hn
    exact (List.getElem?_eq_some_iff.1 hn).1
  have := congrArg (·[k]?) (map_id_nodes isMarker h)
  simp only [getElem?_map, getElem?_range hk] at this
  rw [node?] at hn
  rw [hn, Option.map_some] at this
  exact Option.some.inj this

theorem node?_of_mem (h : m.Sound) (hn : n ∈ (ofMethod m isMarker).nodes) :
    (ofMethod m isMarker).node? n.id = some n := by
  obtain ⟨k, hk⟩ := mem_iff_getElem?.1 hn
  rw [node?_id h hk]
  exact hk

theorem mem_of_node? {g : Graph} (hn : g.node? k = some n) : n ∈ g.nodes :=
  mem_of_getElem? hn

/-- **The first node of a block** has the number of the block and starts where the block starts. -/
theorem exists_head (h : m.Sound) (hk : k < m.blocks.length) :
    ∃ n, (ofMethod m isMarker).node? k = some n ∧ n.origin = k ∧ n.start = 0 := by
  obtain ⟨n, hn, hid, horigin, hstart⟩ :=
    exists_head_of_mem m.blocks.length (List.getElem_mem hk)
  rw [h.ids k _ (List.getElem?_eq_getElem hk)] at hid horigin
  refine ⟨n, ?_, horigin, hstart⟩
  rw [← hid]
  exact node?_of_mem h (mem_append_left _ hn)

/-- **Every node is a piece of its block.** -/
theorem pieceOf (h : m.Sound) (hn : n ∈ (ofMethod m isMarker).nodes) :
    ∃ b, m.block? n.origin = some b ∧ n.PieceOf isMarker (ofMethod m isMarker).nodes b := by
  obtain ⟨c, hc, hnc⟩ := mem_nodes_iff.1 hn
  obtain ⟨i, hi⟩ := mem_iff_getElem?.1 hc
  obtain ⟨b, hb, hpieces⟩ := pieceOf_of_getElem?_chains hi
  refine ⟨b, ?_, (hpieces n hnc).mono fun k hk => mem_nodes_iff.2 ⟨c, hc, hk⟩⟩
  rw [Method.block?, (hpieces n hnc).origin, h.ids i b hb]
  exact hb

/-! ### Regions -/

theorem origin_eq_of_mem_chain (h : m.Sound) {i : Nat} {c : List Node}
    (hc : (chains isMarker m.blocks.length m.blocks)[i]? = some c) (hn : n ∈ c) : n.origin = i := by
  obtain ⟨b, hb, hpieces⟩ := pieceOf_of_getElem?_chains hc
  rw [(hpieces n hn).origin, h.ids i b hb]

/-- **The chains of some blocks hold the nodes that come from these blocks.** -/
theorem mem_chains_iff (h : m.Sound) {blocks : IdSet} :
    (k ∈ blocks.toList.flatMap fun b =>
        ((chains isMarker m.blocks.length m.blocks)[b]?.getD []).map (·.id)) ↔
      k ∈ ((ofMethod m isMarker).nodes.filter (·.origin ∈ blocks)).map (·.id) := by
  simp only [mem_flatMap, mem_map, mem_filter, decide_eq_true_eq, ← IdSet.mem_def, mem_nodes_iff]
  constructor
  · rintro ⟨b, hb, n, hn, rfl⟩
    cases hc : (chains isMarker m.blocks.length m.blocks)[b]? with
    | none =>
      rw [hc] at hn
      cases hn
    | some c =>
      rw [hc, Option.getD_some] at hn
      exact ⟨n, ⟨⟨c, mem_of_getElem? hc, hn⟩, origin_eq_of_mem_chain h hc hn ▸ hb⟩, rfl⟩
  · rintro ⟨n, ⟨⟨c, hc, hn⟩, hb⟩, rfl⟩
    obtain ⟨i, hi⟩ := mem_iff_getElem?.1 hc
    refine ⟨i, origin_eq_of_mem_chain h hi hn ▸ hb, n, ?_, rfl⟩
    rw [hi]
    exact hn

theorem regions_eq (h : m.Sound) : (ofMethod m isMarker).regions = m.regions.map fun r =>
    { origin := r.id
      nodes := IdSet.ofList
        (((ofMethod m isMarker).nodes.filter (·.origin ∈ r.blocks)).map (·.id))
      handler := r.handler
      kind := r.kind } := by
  refine map_congr_left fun r _ => ?_
  congr 1
  refine IdSet.ext fun k => ?_
  rw [IdSet.mem_ofList, IdSet.mem_ofList]
  exact mem_chains_iff h

/-- A node is covered by the regions that cover its block. -/
theorem mem_region_iff (h : m.Sound) (hn : n ∈ (ofMethod m isMarker).nodes) {blocks : IdSet} :
    n.id ∈ IdSet.ofList (((ofMethod m isMarker).nodes.filter (·.origin ∈ blocks)).map (·.id)) ↔
      n.origin ∈ blocks := by
  simp only [IdSet.mem_ofList, mem_map, mem_filter, decide_eq_true_eq]
  constructor
  · rintro ⟨k, ⟨hk, hblocks⟩, hid⟩
    have hkn := node?_of_mem h hk
    rw [hid, node?_of_mem h hn] at hkn
    cases hkn
    exact hblocks
  · intro hb
    exact ⟨n, ⟨hn, hb⟩, rfl⟩

/-- **A node is covered like its block**: the regions around the node are made from those around the
block, in the same order. -/
theorem covering_eq (h : m.Sound) (hn : n ∈ (ofMethod m isMarker).nodes) :
    (ofMethod m isMarker).covering n.id = (m.covering n.origin).map fun r =>
      { origin := r.id
        nodes := IdSet.ofList
          (((ofMethod m isMarker).nodes.filter (·.origin ∈ r.blocks)).map (·.id))
        handler := r.handler
        kind := r.kind } := by
  rw [covering, regions_eq h, filter_map, Method.covering]
  congr 1
  refine filter_congr fun r _ => ?_
  simp only [Function.comp_apply, decide_eq_decide]
  exact mem_region_iff h hn

theorem handlers_eq (h : m.Sound) (hn : n ∈ (ofMethod m isMarker).nodes) :
    (ofMethod m isMarker).handlers n.id = m.handlers n.origin := by
  rw [handlers, covering_eq h hn, List.map_map, Method.handlers]
  rfl

end Graph

end Resumable
