/-
**Paths of control.**

Control goes through a method from position to position: to the next instruction, along the
terminator, or to a handler when something is thrown.  A local is assigned before a position if it
is a parameter or if a path from the entry to the position stores it.  The analysis of defined
locals works on the nodes of the graph; here it is compared with paths, which do not mention the
graph.

Main results:

* `Graph.node_unique` — a position belongs to one node;
* `Graph.reaches_of_mem` — control gets to every position of a node in the set;
* `Graph.mem_definedOut_of_assigned` — **what is assigned on a path is found by the analysis**.
-/

import Resumable.Machine.Activation
import Resumable.Proofs.LiveLocals

set_option autoImplicit false

namespace Resumable

open Relation List

/-! ### Control -/

namespace Method

/-- One step of control. -/
inductive Flow (m : Method) : Location → Location → Prop where
  | next {k o : Nat} {b : Block} : m.block? k = some b → o < b.instrs.length →
      m.Flow ⟨k, o⟩ ⟨k, o + 1⟩
  | jump {k q : Nat} {b : Block} : m.block? k = some b → q ∈ b.terminator.successors →
      m.Flow ⟨k, b.instrs.length⟩ ⟨q, 0⟩
  | throw {k o h : Nat} {b : Block} {i : Instr} : m.block? k = some b → b.instrs[o]? = some i →
      i.mayThrow = true → h ∈ m.handlers k → m.Flow ⟨k, o⟩ ⟨h, 0⟩
  | raise {k h : Nat} {b : Block} : m.block? k = some b → b.terminator = .raise →
      h ∈ m.handlers k → m.Flow ⟨k, b.instrs.length⟩ ⟨h, 0⟩

/-- Control gets to the position. -/
def Reaches (m : Method) (at' : Location) : Prop := ReflTransGen m.Flow ⟨m.entry, 0⟩ at'

/-- The instruction at a position. -/
def instrAt? (m : Method) (at' : Location) : Option Instr :=
  (m.block? at'.block).bind fun b => b.instrs[at'.offset]?

/-- Some path from the entry to the position assigns the local, which may be a parameter. -/
def Assigned (m : Method) (at' : Location) (l : Nat) : Prop :=
  l ∈ m.params.map (·.id) ∨
    ∃ k, m.Reaches k ∧ m.instrAt? k = some (.store l) ∧ TransGen m.Flow k at'

/-- A position that control gets to, with locals in which those that no path assigns are null. -/
structure Visits (m : Method) (at' : Location) (ls : Locals) : Prop where
  reaches : m.Reaches at'
  unset : ∀ l, ¬ m.Assigned at' l → ls.get l = .null

variable {m : Method} {k q : Location}

theorem Assigned.flow {l : Nat} (h : m.Assigned k l) (hkq : m.Flow k q) : m.Assigned q l := by
  rcases h with hl | ⟨j, hj, hi, hjk⟩
  · exact .inl hl
  · exact .inr ⟨j, hj, hi, hjk.tail hkq⟩

theorem Visits.flow {ls : Locals} (h : m.Visits k ls) (hkq : m.Flow k q) : m.Visits q ls where
  reaches := h.reaches.tail hkq
  unset l hl := h.unset l fun hk => hl (hk.flow hkq)

theorem Visits.store {ls : Locals} {l : Nat} (h : m.Visits k ls)
    (hi : m.instrAt? k = some (.store l)) (hkq : m.Flow k q) (v : Value) :
    m.Visits q (ls.set l v) where
  reaches := h.reaches.tail hkq
  unset j hj := by
    have hne : j ≠ l := by
      rintro rfl
      exact hj (.inr ⟨k, h.reaches, hi, .single hkq⟩)
    rw [Locals.get_set, if_neg hne]
    exact h.unset j fun hk => hj (hk.flow hkq)

end Method

/-! ### Positions and nodes -/

/-- The pieces of a run of instructions lie one behind the other, with a marker call in between. -/
theorem pairwise_cut (isMarker : String → Bool) (start : Nat) (is : List Instr) :
    (cut isMarker start is).Pairwise (fun p q => p.start + p.instrs.length < q.start) ∧
      ∀ p ∈ cut isMarker start is, start ≤ p.start := by
  induction is generalizing start with
  | nil => simp [cut]
  | cons i is ih =>
    obtain ⟨hpair, hle⟩ := ih (start + 1)
    obtain ⟨p, ps, hcut, hstart, -⟩ := cut_eq isMarker (start + 1) is
    rw [cut]
    split
    · refine ⟨pairwise_cons.2 ⟨fun q hq => ?_, hpair⟩, ?_⟩
      · have := hle q hq
        simp only [length_nil]
        omega
      · intro q hq
        rcases mem_cons.1 hq with rfl | hq
        · exact Nat.le_refl _
        · have := hle q hq
          omega
    · rw [hcut] at hpair hle ⊢
      rw [Piece.prepend]
      obtain ⟨hp, hps⟩ := pairwise_cons.1 hpair
      refine ⟨pairwise_cons.2 ⟨fun q hq => ?_, hps⟩, ?_⟩
      · have := hp q hq
        simp only [length_cons]
        omega
      · intro q hq
        rcases mem_cons.1 hq with rfl | hq
        · exact Nat.le_refl _
        · have := hle q (mem_cons_of_mem _ hq)
          omega

theorem pairwise_chain (origin : Nat) (t : Terminator) (id next : Nat) {ps : List Piece}
    (h : ps.Pairwise fun p q => p.start + p.instrs.length < q.start) :
    (chain origin t id next ps).Pairwise (fun a b => a.start + a.instrs.length < b.start) ∧
      ∀ n ∈ chain origin t id next ps, ∃ p ∈ ps, n.start = p.start := by
  induction ps generalizing id next with
  | nil => simp [chain]
  | cons p ps ih =>
    obtain ⟨hp, hps⟩ := pairwise_cons.1 h
    obtain ⟨hpair, hstarts⟩ := ih next (next + 1) hps
    rw [chain]
    refine ⟨pairwise_cons.2 ⟨fun n hn => ?_, hpair⟩, ?_⟩
    · obtain ⟨q, hq, hstart⟩ := hstarts n hn
      rw [hstart]
      exact hp q hq
    · intro n hn
      rcases mem_cons.1 hn with rfl | hn
      · exact ⟨p, mem_cons_self, rfl⟩
      · obtain ⟨q, hq, hstart⟩ := hstarts n hn
        exact ⟨q, mem_cons_of_mem p hq, hstart⟩

/-- The position is in the node, or at its end. -/
def Node.Holds (n : Node) (at' : Location) : Prop :=
  at'.block = n.origin ∧ n.start ≤ at'.offset ∧ at'.offset ≤ n.start + n.instrs.length

variable {n : Node} {at' : Location}

theorem Node.holds_iff : n.Holds at' ↔ ∃ j ≤ n.instrs.length, at' = n.location j := by
  obtain ⟨b, o⟩ := at'
  simp only [Node.Holds, Node.location, Location.mk.injEq]
  constructor
  · rintro ⟨hb, hlow, hhigh⟩
    exact ⟨o - n.start, by omega, hb, by omega⟩
  · rintro ⟨j, hj, rfl, rfl⟩
    omega

/-- In a list of nodes that lie one behind the other, at most one holds a position. -/
theorem eq_of_pairwise_holds {ns : List Node}
    (h : ns.Pairwise fun a b => a.start + a.instrs.length < b.start) {k : Node} (hn : n ∈ ns)
    (hk : k ∈ ns) (hn' : n.Holds at') (hk' : k.Holds at') : n = k := by
  induction ns with
  | nil => cases hn
  | cons a ns ih =>
    obtain ⟨ha, hns⟩ := pairwise_cons.1 h
    obtain ⟨-, hn₁, hn₂⟩ := hn'
    obtain ⟨-, hk₁, hk₂⟩ := hk'
    rcases mem_cons.1 hn with rfl | hnr
    · rcases mem_cons.1 hk with rfl | hkr
      · rfl
      · have := ha k hkr
        omega
    · rcases mem_cons.1 hk with rfl | hkr
      · have := ha n hnr
        omega
      · exact ih hns hnr hkr

theorem eq_of_mem_chains_holds {isMarker : String → Bool} {next : Nat} {bs : List Block}
    (hids : (bs.map (·.id)).Nodup) {c c' : List Node} (hc : c ∈ chains isMarker next bs)
    (hc' : c' ∈ chains isMarker next bs) {k : Node} (hn : n ∈ c) (hk : k ∈ c') (hn' : n.Holds at')
    (hk' : k.Holds at') : n = k := by
  induction bs generalizing next with
  | nil => cases hc
  | cons b bs ih =>
    have horigin : ∀ {c : List Node} {n : Node}, n ∈ c →
        c = chain b.id b.terminator b.id next (cut isMarker 0 b.instrs) → n.origin = b.id := by
      rintro c n hn rfl
      obtain ⟨a, as, hchain, -, -, -, hpieces⟩ := chain_cut isMarker b.id next 0 b.instrs rfl
        (Nat.zero_le _)
      exact (hpieces n (hchain ▸ hn)).origin
    have hother : ∀ {c : List Node} {n : Node} {next' : Nat}, n ∈ c →
        c ∈ chains isMarker next' bs → n.origin ≠ b.id := by
      intro c n next' hn hc heq
      obtain ⟨i, hi⟩ := mem_iff_getElem?.1 hc
      obtain ⟨b', hb', hpieces⟩ := pieceOf_of_getElem?_chains hi
      have hid : b.id ∈ bs.map (·.id) := by
        rw [← heq, (hpieces n hn).origin]
        exact mem_map_of_mem (mem_of_getElem? hb')
      exact (nodup_cons.1 hids).1 hid
    have hsame : n.origin = k.origin := hn'.1.symm.trans hk'.1
    rw [chains] at hc hc'
    rcases mem_cons.1 hc with hfirst | hrest
    · rcases mem_cons.1 hc' with hfirst' | hrest'
      · have hpair := (pairwise_chain b.id b.terminator b.id next
          (pairwise_cut isMarker 0 b.instrs).1).1
        exact eq_of_pairwise_holds hpair (hfirst ▸ hn) (hfirst' ▸ hk) hn' hk'
      · exact absurd (hsame.symm.trans (horigin hn hfirst)) (hother hk hrest')
    · rcases mem_cons.1 hc' with hfirst' | hrest'
      · exact absurd (hsame.trans (horigin hk hfirst')) (hother hn hrest)
      · exact ih (nodup_cons.1 hids).2 hrest hrest'

namespace Graph

variable {m : Method} {isMarker : String → Bool} {r : IdSet} {n : Node} {j : Nat} {k : Location}

theorem node_unique (h : m.Sound) {k : Node} (hn : n ∈ (ofMethod m isMarker).nodes)
    (hk : k ∈ (ofMethod m isMarker).nodes) {at' : Location} (hn' : n.Holds at')
    (hk' : k.Holds at') :
    n = k := by
  obtain ⟨c, hc, hnc⟩ := mem_nodes_iff.1 hn
  obtain ⟨c', hc', hkc⟩ := mem_nodes_iff.1 hk
  have hids : (m.blocks.map (·.id)).Nodup := by
    rw [map_id_blocks h]
    exact nodup_range
  exact eq_of_mem_chains_holds hids hc hc' hnc hkc hn' hk'

/-- What stands at a position of a node: an instruction of the node, or the marker call that ends
it. -/
theorem instr_cases (h : m.Sound) (hn : n ∈ (ofMethod m isMarker).nodes) (hj : j ≤ n.instrs.length)
    {i : Instr} (hi : m.instrAt? (n.location j) = some i) :
    n.instrs[j]? = some i ∨
      (j = n.instrs.length ∧ ∃ c resume, n.exit = .suspend c resume ∧ i = .invoke c) := by
  obtain ⟨block, hblock, hpiece⟩ := pieceOf h hn
  simp only [Method.instrAt?, Node.location, hblock, Option.bind_some] at hi
  rcases Nat.lt_or_ge j n.instrs.length with hlt | hge
  · have hget := hpiece.getElem? (List.getElem?_eq_getElem hlt)
    cases hi.symm.trans hget
    exact .inl (List.getElem?_eq_getElem hlt)
  · obtain rfl := Nat.le_antisymm hj hge
    refine .inr ⟨rfl, ?_⟩
    cases hexit : n.exit with
    | leave t =>
      rw [← (hpiece.of_leave hexit).2, getElem?_eq_none (Nat.le_refl _)] at hi
      cases hi
    | suspend c resume =>
      cases hi.symm.trans (hpiece.of_suspend hexit).2.1
      exact ⟨c, resume, rfl, rfl⟩

/-- The end of a block is the end of a node that leaves the block. -/
theorem leave_of_end (h : m.Sound) (hn : n ∈ (ofMethod m isMarker).nodes) (hj : j ≤ n.instrs.length)
    {b : Block} (hb : m.block? n.origin = some b) (hend : n.start + j = b.instrs.length) :
    j = n.instrs.length ∧ n.exit = .leave b.terminator := by
  obtain ⟨block, hblock, hpiece⟩ := pieceOf h hn
  cases hb.symm.trans hblock
  cases hexit : n.exit with
  | leave t =>
    obtain ⟨rfl, hlength⟩ := hpiece.of_leave hexit
    exact ⟨by omega, rfl⟩
  | suspend c resume =>
    have hlt := (List.getElem?_eq_some_iff.1 (hpiece.of_suspend hexit).2.1).1
    omega

theorem exists_head_mem (isMarker : String → Bool) (h : m.Sound) {k : Nat}
    (hk : k < m.blocks.length) :
    ∃ n ∈ (ofMethod m isMarker).nodes, n.id = k ∧ n.origin = k ∧ n.start = 0 := by
  obtain ⟨n, hn, horigin, hstart⟩ :
      ∃ n, (ofMethod m isMarker).node? k = some n ∧ n.origin = k ∧ n.start = 0 := exists_head h hk
  exact ⟨n, mem_of_node? hn, node?_id h hn, horigin, hstart⟩

theorem lt_of_mem_handlers (h : m.Sound) {b k : Nat} (hk : k ∈ m.handlers b) :
    k < m.blocks.length := by
  obtain ⟨region, hregion, rfl⟩ := mem_map.1 hk
  exact (h.regions region (mem_filter.1 hregion).1).handler

/-- An instruction that may throw at a position of a node: an exception can leave the node. -/
theorem canThrow_of_instr {b : Block} {nodes : List Node} (hpiece : n.PieceOf isMarker nodes b)
    {o : Nat} (hlow : n.start ≤ o) (hhigh : o ≤ n.start + n.instrs.length) {i : Instr}
    (hi : b.instrs[o]? = some i) (hthrow : i.mayThrow = true) : n.canThrow = true := by
  obtain ⟨j, rfl⟩ := Nat.exists_eq_add_of_le hlow
  rcases Nat.lt_or_ge j n.instrs.length with hj | hj
  · have hget := hpiece.getElem? (List.getElem?_eq_getElem hj)
    rw [hi] at hget
    cases hget
    have hany : n.instrs.any (·.mayThrow) = true :=
      any_eq_true.2 ⟨_, List.getElem_mem hj, hthrow⟩
    rw [Node.canThrow, hany]
    rfl
  · cases hexit : n.exit with
    | suspend c q => simp [Node.canThrow, Node.isSuspend, hexit]
    | leave t =>
      have hlength := (hpiece.of_leave hexit).2
      rw [getElem?_eq_none (by omega)] at hi
      cases hi

/-- **Control stays in the set**: from a position of a node in the set it goes to a position of the
node, or of another in the set that the node can go to. -/
theorem flow_holds (h : m.Sound) (hr : (ofMethod m isMarker).FlowSet r)
    (hn : n ∈ (ofMethod m isMarker).nodes) (hnr : n.id ∈ r) {q : Location} (hk : n.Holds k)
    (hflow : m.Flow k q) :
    ∃ n' ∈ (ofMethod m isMarker).nodes, n'.id ∈ r ∧ n'.Holds q ∧
      (n' = n ∨ n'.id ∈ (ofMethod m isMarker).next n.id) := by
  obtain ⟨b, hb, hpiece⟩ := pieceOf h hn
  have hnode := node?_of_mem h hn
  obtain ⟨horigin, hlow, hhigh⟩ := hk
  -- What a node goes to, given as the start of a block or as the next piece, is in the set.
  have hgo : ∀ {n' : Node}, n' ∈ (ofMethod m isMarker).nodes → n'.Holds q →
      (ofMethod m isMarker).Goes n.id n'.id →
      ∃ n' ∈ (ofMethod m isMarker).nodes, n'.id ∈ r ∧ n'.Holds q ∧
        (n' = n ∨ n'.id ∈ (ofMethod m isMarker).next n.id) :=
    fun hn' hq hgoes => ⟨_, hn', hr.goes hnr hgoes, hq, .inr hgoes.mem_next⟩
  have hhead : ∀ {b' : Nat}, q = ⟨b', 0⟩ → b' < m.blocks.length →
      (ofMethod m isMarker).Goes n.id b' →
      ∃ n' ∈ (ofMethod m isMarker).nodes, n'.id ∈ r ∧ n'.Holds q ∧
        (n' = n ∨ n'.id ∈ (ofMethod m isMarker).next n.id) := by
    rintro b' rfl hlt hgoes
    obtain ⟨n', hn', hid, horigin', hstart⟩ := exists_head_mem isMarker h hlt
    exact hgo hn' ⟨horigin'.symm, by simp [hstart], by simp⟩ (hid ▸ hgoes)
  have hhandler : ∀ {b' : Nat}, q = ⟨b', 0⟩ → b' ∈ m.handlers n.origin → n.canThrow = true →
      ∃ n' ∈ (ofMethod m isMarker).nodes, n'.id ∈ r ∧ n'.Holds q ∧
        (n' = n ∨ n'.id ∈ (ofMethod m isMarker).next n.id) := by
    intro b' hq hb' hthrow
    refine hhead hq (lt_of_mem_handlers h hb') ⟨n, hnode, .inr ⟨hthrow, ?_⟩⟩
    rw [handlers_eq h hn]
    exact hb'
  -- A position after which the block ends is the end of a node that leaves the block.
  have hleave : ∀ {b' : Block}, m.block? n.origin = some b' → k.offset = b'.instrs.length →
      n.exit = .leave b'.terminator := by
    intro b' hb' hoffset
    obtain ⟨j, hj⟩ := Nat.exists_eq_add_of_le hlow
    exact (leave_of_end h hn (by omega) hb' (hj.symm.trans hoffset)).2
  cases hflow with
  | @next k o b' hb' ho =>
    simp only at horigin hlow hhigh
    rw [horigin, hb] at hb'
    cases hb'
    rcases Nat.lt_or_ge o (n.start + n.instrs.length) with hlt | hge
    · exact ⟨n, hn, hnr, ⟨horigin, Nat.le_succ_of_le hlow, hlt⟩, .inl rfl⟩
    · cases hexit : n.exit with
      | leave t =>
        have hlength := (hpiece.of_leave hexit).2
        omega
      | suspend c resume =>
        obtain ⟨-, -, n', hn', hid, horigin', hstart⟩ := hpiece.of_suspend hexit
        refine hgo hn' ⟨horigin.trans horigin'.symm, ?_, ?_⟩ ⟨n, hnode, .inl ?_⟩
        · show n'.start ≤ o + 1
          omega
        · show o + 1 ≤ n'.start + n'.instrs.length
          omega
        · simp [Node.successors, hexit, hid]
  | @jump k q b' hb' hq =>
    simp only at horigin
    rw [horigin] at hb'
    have hexit := hleave hb' rfl
    refine hhead rfl ((h.blocks b' (mem_of_getElem? hb')).targets q hq)
      ⟨n, hnode, .inl ?_⟩
    simpa [Node.successors, hexit] using hq
  | @throw k o q b' i hb' hi hthrow hq =>
    simp only at horigin hlow hhigh
    rw [horigin] at hb' hq
    rw [hb] at hb'
    cases hb'
    exact hhandler rfl hq (canThrow_of_instr hpiece hlow hhigh hi hthrow)
  | @raise k q b' hb' ht hq =>
    simp only at horigin
    rw [horigin] at hb' hq
    have hexit := hleave hb' rfl
    exact hhandler rfl hq (by simp [Node.canThrow, hexit, ht])

theorem reaches_of_start (h : m.Sound) (hn : n ∈ (ofMethod m isMarker).nodes)
    (hstart : m.Reaches ⟨n.origin, n.start⟩) (hj : j ≤ n.instrs.length) :
    m.Reaches ⟨n.origin, n.start + j⟩ := by
  obtain ⟨b, hb, hpiece⟩ := pieceOf h hn
  induction j with
  | zero => exact hstart
  | succ j ih =>
    have hget := hpiece.getElem? (List.getElem?_eq_getElem (Nat.lt_of_succ_le hj))
    exact (ih (Nat.le_of_succ_le hj)).tail (.next hb (List.getElem?_eq_some_iff.1 hget).1)

/-- Control that gets to the start of a node gets to the start of every node that it can go to. -/
theorem reaches_of_goes (h : m.Sound) {k : Node} (hn : n ∈ (ofMethod m isMarker).nodes)
    (hk : k ∈ (ofMethod m isMarker).nodes) (hstart : m.Reaches ⟨n.origin, n.start⟩)
    (hgoes : (ofMethod m isMarker).Goes n.id k.id) : m.Reaches ⟨k.origin, k.start⟩ := by
  obtain ⟨b, hb, hpiece⟩ := pieceOf h hn
  have hend := reaches_of_start h hn hstart (Nat.le_refl _)
  -- The node of the start of a block has the number of the block.
  have hhead : ∀ {q : Nat}, k.id = q → q < m.blocks.length → m.Reaches ⟨q, 0⟩ →
      m.Reaches ⟨k.origin, k.start⟩ := by
    rintro q hid hq hreach
    obtain ⟨k', hk', hid', horigin, hzero⟩ := exists_head_mem isMarker h hq
    have heq : k' = k := by
      have hnode := node?_of_mem h hk
      rw [hid, ← hid', node?_of_mem h hk'] at hnode
      exact Option.some.inj hnode
    rw [← heq, horigin, hzero]
    exact hreach
  obtain ⟨n', hn', hgoes⟩ := hgoes
  rw [node?_of_mem h hn] at hn'
  cases hn'
  rcases hgoes with hsucc | ⟨hthrow, hhandler⟩
  · cases hexit : n.exit with
    | leave t =>
      obtain ⟨ht, hlength⟩ := hpiece.of_leave hexit
      have hmem : k.id ∈ b.terminator.successors := by
        simpa [Node.successors, hexit, ht] using hsucc
      rw [← hlength] at hend
      exact hhead rfl ((h.blocks b (mem_of_getElem? hb)).targets _ hmem)
        (hend.tail (.jump hb hmem))
    | suspend c resume =>
      obtain ⟨-, hi, k', hk', hid, horigin, hnext⟩ := hpiece.of_suspend hexit
      have heq : k' = k := by
        have hnode := node?_of_mem h hk
        have hresume : k.id = resume := by simpa [Node.successors, hexit] using hsucc
        rw [hresume, ← hid, node?_of_mem h hk'] at hnode
        exact Option.some.inj hnode
      rw [← heq, horigin, hnext]
      exact hend.tail (.next hb (List.getElem?_eq_some_iff.1 hi).1)
  · rw [handlers_eq h hn] at hhandler
    refine hhead rfl (lt_of_mem_handlers h hhandler) ?_
    simp only [Node.canThrow, Bool.or_eq_true, any_eq_true, beq_iff_eq] at hthrow
    rcases hthrow with (⟨i, hi, hi'⟩ | hsuspend) | hraise
    · obtain ⟨j, hj, hget⟩ := mem_iff_getElem.1 hi
      have hget' := hpiece.getElem? (List.getElem?_eq_some_iff.2 ⟨hj, hget⟩)
      exact (reaches_of_start h hn hstart (Nat.le_of_lt hj)).tail (.throw hb hget' hi' hhandler)
    · cases hexit : n.exit with
      | leave t => simp [Node.isSuspend, hexit] at hsuspend
      | suspend c resume =>
        exact hend.tail (.throw hb (hpiece.of_suspend hexit).2.1 rfl hhandler)
    · obtain ⟨ht, hlength⟩ := hpiece.of_leave hraise
      rw [← hlength] at hend
      exact hend.tail (.raise hb ht hhandler)

/-- **Control gets to every position of a node in the set.** -/
theorem reaches_of_mem (h : m.Sound) (hr : (ofMethod m isMarker).FlowSet r)
    (hn : n ∈ (ofMethod m isMarker).nodes) (hnr : n.id ∈ r) (hj : j ≤ n.instrs.length) :
    m.Reaches ⟨n.origin, n.start + j⟩ := by
  refine reaches_of_start h hn ?_ hj
  clear hj
  have hpath := hr.path n.id hnr
  generalize hid : n.id = k at hpath
  clear hnr
  induction hpath generalizing n with
  | refl =>
    obtain ⟨n', hn', hid', horigin, hstart⟩ := exists_head_mem isMarker h h.entry
    have heq : n' = n := by
      have hnode := node?_of_mem h hn
      rw [hid] at hnode
      have hnode' := node?_of_mem h hn'
      rw [hid'] at hnode'
      exact Option.some.inj (hnode'.symm.trans hnode)
    rw [← heq, horigin, hstart]
    exact .refl
  | @tail a c _ hac ih =>
    obtain ⟨node, hnode, -⟩ := hac.1
    have hmem := mem_of_node? hnode
    have hida := node?_id h hnode
    refine reaches_of_goes h hmem hn (ih hmem hida) ?_
    rw [hida, hid]
    exact hac.1

/-- Where control gets to from a position of a node in the set: the node is an ancestor. -/
theorem exists_descendant (h : m.Sound) (hr : (ofMethod m isMarker).FlowSet r)
    (hn : n ∈ (ofMethod m isMarker).nodes) (hnr : n.id ∈ r) {q : Location} (hk : n.Holds k)
    (hflow : ReflTransGen m.Flow k q) :
    ∃ n' ∈ (ofMethod m isMarker).nodes, n'.id ∈ r ∧ n'.Holds q ∧
      n.id ∈ (ofMethod m isMarker).ancestors r n'.id := by
  simp only [ancestors, Search.mem_preorder_iff, mem_singleton, exists_eq_left]
  induction hflow with
  | refl => exact ⟨n, hn, hnr, hk, .refl n.id⟩
  | @tail j q _ hjq ih =>
    obtain ⟨n', hn', hnr', hj, hanc⟩ := ih
    obtain ⟨n'', hn'', hnr'', hq, heq | hnext⟩ := flow_holds h hr hn' hnr' hj hjq
    · exact ⟨n', hn', hnr', heq ▸ hq, hanc⟩
    · refine ⟨n'', hn'', hnr'', hq, .step (hr.bound _ hnr'') ?_ hanc⟩
      exact mem_filter.2 ⟨hnr', by simpa using hnext⟩

theorem exists_node_of_reaches (h : m.Sound) (hr : (ofMethod m isMarker).FlowSet r)
    (hk : m.Reaches k) : ∃ n ∈ (ofMethod m isMarker).nodes, n.id ∈ r ∧ n.Holds k := by
  obtain ⟨n, hn, hid, horigin, hstart⟩ := exists_head_mem isMarker h h.entry
  have hentry : n.id ∈ r := hid ▸ hr.entry
  obtain ⟨n', hn', hnr', hholds, -⟩ := exists_descendant h hr hn hentry
    ⟨horigin.symm, by simp [hstart], by simp⟩ hk
  exact ⟨n', hn', hnr', hholds⟩

/-- **What is assigned on a path is found by the analysis.** -/
theorem mem_definedOut_of_assigned (h : m.Sound) (hr : (ofMethod m isMarker).FlowSet r)
    (hn : n ∈ (ofMethod m isMarker).nodes) (hk : n.Holds k) {l : Nat} (hl : m.Assigned k l) :
    l ∈ ((ofMethod m isMarker).liveness r (m.params.map (·.id))).definedOut (ofMethod m isMarker) r
      n.id := by
  rw [Liveness.definedOut, IdSet.mem_ofList, mem_append]
  rcases hl with hl | ⟨j, hj, hi, hjk⟩
  · exact .inl hl
  · obtain ⟨n', hn', hnr', hj'⟩ := exists_node_of_reaches h hr hj
    obtain ⟨n'', hn'', -, hk'', hanc⟩ := exists_descendant h hr hn' hnr' hj' hjk.to_reflTransGen
    rw [node_unique h hn'' hn hk'' hk] at hanc
    refine .inr (mem_flatMap.2 ⟨n'.id, hanc, ?_⟩)
    rw [node?_of_mem h hn']
    -- The store stands in the node: what ends a node is a marker call.
    obtain ⟨i, hlt, rfl⟩ := Node.holds_iff.1 hj'
    rcases instr_cases h hn' hlt hi with hget | ⟨-, c, resume, -, hcall⟩
    · exact mem_filterMap.2 ⟨.store l, mem_of_getElem? hget, rfl⟩
    · cases hcall

end Graph

end Resumable
