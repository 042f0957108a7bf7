/-
**Cutting a method at its markers loses nothing.**

The nodes of a graph are the pieces of the blocks of a method.  A piece that ends with a marker call
is linked to the piece that follows it in the block.  Whoever goes along these links from the first
piece of a block reads the block: the instructions of the pieces, with the marker calls put back
between them, are those of the block, and the last piece has its terminator.

The links are followed by the relation `Graph.Trail`.  What is left of the block gets shorter along
them, so one induction says all of this about the trail from any node of the block.

Main results:

* `Graph.size_ofMethod` — the number of nodes;
* `Graph.exists_recovers` — **the trail from a node meets the pieces that are left**;
* `Graph.splits_ofMethod`.
-/

import Mathlib.Algebra.GroupWithZero.Nat
import Mathlib.Logic.ExistsUnique
import Resumable.Options
import Resumable.Proofs.Paths

set_option autoImplicit false

namespace Resumable

open List

/-- The instructions that a node stands for: its own, and the marker call that ends it. -/
def Node.code (n : Node) : List Instr :=
  match n.exit with
  | .leave _ => n.instrs
  | .suspend c _ => n.instrs ++ [.invoke c]

/-- The number of marker calls in a run of instructions. -/
def markerCalls (isMarker : String → Bool) (is : List Instr) : Nat :=
  is.countP fun i => (i.callee? isMarker).isSome

/-! ### The number of nodes -/

section Count

variable (isMarker : String → Bool)

theorem length_cut (start : Nat) (is : List Instr) :
    (cut isMarker start is).length = markerCalls isMarker is + 1 := by
  induction is generalizing start with
  | nil => rfl
  | cons i is ih =>
    rw [cut, markerCalls, countP_cons, ← markerCalls]
    cases hi : i.callee? isMarker with
    | some c => simp [ih]
    | none =>
      obtain ⟨p, ps, hcut, -⟩ := cut_eq isMarker (start + 1) is
      have hlength := ih (start + 1)
      rw [hcut] at hlength
      simpa [hcut, Piece.prepend] using hlength

theorem length_chain (origin : Nat) (t : Terminator) (id next : Nat) (ps : List Piece) :
    (chain origin t id next ps).length = ps.length := by
  induction ps generalizing id next with
  | nil => rfl
  | cons p ps ih => rw [chain, length_cons, ih, length_cons]

theorem length_chains (next : Nat) (bs : List Block) :
    ((chains isMarker next bs).flatMap (·.take 1)).length +
        ((chains isMarker next bs).flatMap (·.drop 1)).length =
      bs.length + (bs.map fun b => markerCalls isMarker b.instrs).sum := by
  induction bs generalizing next with
  | nil => rfl
  | cons b bs ih =>
    have hchain := length_chain b.id b.terminator b.id next (cut isMarker 0 b.instrs)
    rw [length_cut] at hchain
    have hrest := ih (next + markerCalls isMarker b.instrs)
    simp only [chains, flatMap_cons, length_append, length_take, length_drop, length_cons, map_cons,
      sum_cons, hchain, Nat.add_sub_cancel]
    omega

/-- **The number of nodes**: one for each block and one for each marker call. -/
theorem Graph.size_ofMethod (m : Method) :
    (ofMethod m isMarker).size =
      m.blocks.length + (m.blocks.map fun b => markerCalls isMarker b.instrs).sum := by
  rw [size, ofMethod, length_append]
  exact length_chains isMarker m.blocks.length m.blocks

end Count

/-! ### Along the links -/

namespace Graph

/-- **A trail**: the nodes met from the given one along the links from marker calls to what follows
them, up to the node that leaves the block. -/
inductive Trail (g : Graph) : Node → List Node → Prop where
  | leave {n : Node} {t : Terminator} : n.exit = .leave t → g.Trail n [n]
  | suspend {n q : Node} {c : Callee} {r : Nat} {ns : List Node} : n.exit = .suspend c r →
      g.node? r = some q → g.Trail q ns → g.Trail n (n :: ns)

/-- **The nodes are the pieces of the block** from the node `n` on, in the order in which the links
lead from it to the others. -/
structure Recovers (g : Graph) (b : Block) (n : Node) (ns : List Node) : Prop where
  trail : g.Trail n ns
  pieces : ∀ q, q ∈ ns ↔ q ∈ g.nodes ∧ q.origin = n.origin ∧ n.start ≤ q.start
  once : ns.Nodup
  code : ns.flatMap Node.code = b.instrs.drop n.start
  start : ∀ before q after, ns = before ++ q :: after →
    q.start = n.start + (before.flatMap Node.code).length
  last : ∃ before q, ns = before ++ [q] ∧ q.exit = .leave b.terminator ∧
    ∀ p ∈ before, p.isSuspend = true

/-- The positions of a node are those of its instructions in the method, and its end is where its
marker call or the terminator of its block stands. -/
structure Locates (m : Method) (n : Node) : Prop where
  instr : ∀ j i, n.instrs[j]? = some i → m.instrAt? (n.location j) = some i
  marker : ∀ c r, n.exit = .suspend c r → m.instrAt? n.exitLocation = some (.invoke c)
  terminator : ∀ t, n.exit = .leave t → ∃ b, m.block? n.origin = some b ∧ b.terminator = t ∧
    n.exitLocation = ⟨n.origin, b.instrs.length⟩

/-- **The graph is the method, cut at its markers.** -/
structure Splits (g : Graph) (m : Method) (isMarker : String → Bool) : Prop where
  size : g.size = m.blocks.length + (m.blocks.map fun b => markerCalls isMarker b.instrs).sum
  numbered : ∀ k n, g.node? k = some n → n.id = k
  /-- The node with the number of a block is its first piece. -/
  block : ∀ k b, m.block? k = some b → ∃ n ns, g.node? k = some n ∧ n.origin = k ∧ n.start = 0 ∧
    g.Recovers b n ns ∧ ∀ ns', g.Trail n ns' → ns' = ns
  located : ∀ n ∈ g.nodes, Locates m n
  /-- Marker calls stand at the ends of nodes and nowhere else. -/
  plain : ∀ n ∈ g.nodes, ∀ c, .invoke c ∈ n.instrs → isMarker c.name = false
  marker : ∀ n ∈ g.nodes, ∀ c r, n.exit = .suspend c r → isMarker c.name = true
  /-- A node that is not the first of its block follows one marker call, and control gets there in
  no other way. -/
  resumed : ∀ k, m.blocks.length ≤ k → k < g.size → ∃! n, n ∈ g.nodes ∧ ∃ c, n.exit = .suspend c k
  untargeted : ∀ k, m.blocks.length ≤ k →
    (∀ n ∈ g.nodes, ∀ t, n.exit = .leave t → k ∉ t.successors) ∧ ∀ R ∈ g.regions, R.handler ≠ k
  /-- The exception table has one region for each of the method's, and they cover the pieces of the
  same blocks. -/
  covered : ∃ f : Region → GraphRegion,
    (∀ r, (f r).origin = r.id ∧ (f r).handler = r.handler ∧ (f r).kind = r.kind) ∧
    g.regions = m.regions.map f ∧ ∀ n ∈ g.nodes, g.covering n.id = (m.covering n.origin).map f

variable {g : Graph} {n : Node} {ns : List Node} {k : Nat}

theorem Trail.unique {ns' : List Node} (h : g.Trail n ns) (h' : g.Trail n ns') : ns' = ns := by
  induction h generalizing ns' with
  | leave hexit =>
    cases h' with
    | leave _ => rfl
    | suspend hexit' _ _ => cases hexit.symm.trans hexit'
  | suspend hexit hq _ ih =>
    cases h' with
    | leave hexit' => cases hexit.symm.trans hexit'
    | suspend hexit' hq' hrest' =>
      cases hexit.symm.trans hexit'
      cases hq.symm.trans hq'
      rw [ih hrest']

/-- A trail gets to its other nodes by links. -/
theorem Trail.exists_linked {q : Node} (h : g.Trail n ns) (hq : q ∈ ns) :
    q = n ∨ ∃ p ∈ ns, ∃ c r, p.exit = .suspend c r ∧ g.node? r = some q := by
  induction h with
  | leave _ => exact .inl (mem_singleton.1 hq)
  | @suspend n next c r ns hexit hnext _ ih =>
    rcases mem_cons.1 hq with rfl | hq
    · exact .inl rfl
    · right
      rcases ih hq with rfl | ⟨p, hp, hlink⟩
      · exact ⟨n, mem_cons_self, c, r, hexit, hnext⟩
      · exact ⟨p, mem_cons_of_mem n hp, hlink⟩

section Method

variable {m : Method} {isMarker : String → Bool} {b : Block} (h : m.Sound)
include h

/-- What follows a marker call in its block. -/
theorem exists_resumed (hn : n ∈ (ofMethod m isMarker).nodes) {c : Callee} {r : Nat}
    (hexit : n.exit = .suspend c r) : ∃ q, (ofMethod m isMarker).node? r = some q ∧
      q.origin = n.origin ∧ q.start = n.start + n.instrs.length + 1 := by
  obtain ⟨b, -, hpiece⟩ := pieceOf h hn
  obtain ⟨-, -, q, hq, rfl, horigin, hstart⟩ := hpiece.of_suspend hexit
  exact ⟨q, node?_of_mem h hq, horigin, hstart⟩

/-- A piece that starts within a node is the node. -/
theorem eq_of_start_le (hn : n ∈ (ofMethod m isMarker).nodes) {q : Node}
    (hq : q ∈ (ofMethod m isMarker).nodes ∧ q.origin = n.origin ∧ n.start ≤ q.start)
    (hle : q.start ≤ n.start + n.instrs.length) : q = n := by
  have hstart : q.Holds ⟨n.origin, q.start⟩ :=
    ⟨hq.2.1.symm, Nat.le_refl _, Nat.le_add_right ..⟩
  exact node_unique h hq.1 hn hstart ⟨rfl, hq.2.2, hle⟩

theorem recovers_leave (hn : n ∈ (ofMethod m isMarker).nodes)
    (hb : m.block? n.origin = some b) {t : Terminator} (hexit : n.exit = .leave t) :
    (ofMethod m isMarker).Recovers b n [n] := by
  obtain ⟨b', hb', hpiece⟩ := pieceOf h hn
  obtain rfl : b = b' := Option.some.inj (hb.symm.trans hb')
  obtain ⟨rfl, hlength⟩ := hpiece.of_leave hexit
  have hends := hpiece.ends
  rw [Node.Ends, hexit] at hends
  refine ⟨.leave hexit, fun q => ?_, by simp, ?_, ?_, [], n, rfl, hexit,
    fun q hq => absurd hq not_mem_nil⟩
  · rw [mem_singleton]
    constructor
    · rintro rfl
      exact ⟨hn, rfl, Nat.le_refl _⟩
    · intro hq
      obtain ⟨b', hb', hpiece'⟩ := pieceOf h hq.1
      rw [hq.2.1, hb] at hb'
      cases hb'
      exact eq_of_start_le h hn hq (hlength ▸ hpiece'.start_le)
  · rw [flatMap_singleton, Node.code, hexit, hends.2]
  · intro before q after hns
    cases before with
    | nil =>
      cases hns
      rfl
    | cons p before => simp at hns

/-- A piece in front of those that follow it. -/
theorem recovers_suspend (hn : n ∈ (ofMethod m isMarker).nodes) (hb : m.block? n.origin = some b)
    {c : Callee} {r : Nat} (hexit : n.exit = .suspend c r) {q : Node}
    (hq : (ofMethod m isMarker).node? r = some q) (horigin : q.origin = n.origin)
    (hstart : q.start = n.start + n.instrs.length + 1)
    (hrest : (ofMethod m isMarker).Recovers b q ns) :
    (ofMethod m isMarker).Recovers b n (n :: ns) := by
  obtain ⟨b', hb', hpiece⟩ := pieceOf h hn
  obtain rfl : b = b' := Option.some.inj (hb.symm.trans hb')
  have hends := hpiece.ends
  rw [Node.Ends, hexit] at hends
  obtain ⟨-, ⟨rest, hdrop⟩, -⟩ := hends
  have hbehind : b.instrs.drop q.start = rest := by
    rw [hstart, Nat.add_assoc, ← drop_drop, hdrop]
    simp
  have hcode : n.code = n.instrs ++ [.invoke c] := by rw [Node.code, hexit]
  obtain ⟨before, last, rfl, hlast, hbefore⟩ := hrest.last
  refine ⟨.suspend hexit hq hrest.trail, fun p => ?_, nodup_cons.2 ⟨?_, hrest.once⟩, ?_, ?_,
    n :: before, last, rfl, hlast, ?_⟩
  · rw [mem_cons, hrest.pieces]
    constructor
    · rintro (rfl | ⟨hp, hpq, hle⟩)
      · exact ⟨hn, rfl, Nat.le_refl _⟩
      · exact ⟨hp, hpq.trans horigin, by omega⟩
    · intro hp
      rcases Nat.lt_or_ge p.start q.start with hlt | hge
      · exact .inl (eq_of_start_le h hn hp (by omega))
      · exact .inr ⟨hp.1, hp.2.1.trans horigin.symm, hge⟩
  · intro hmem
    have := ((hrest.pieces n).1 hmem).2.2
    omega
  · rw [flatMap_cons, hrest.code, hbehind, hcode, hdrop, append_assoc, singleton_append]
  · intro before' p after hns
    cases before' with
    | nil =>
      cases hns
      rfl
    | cons x xs =>
      obtain ⟨rfl, hrest'⟩ := cons.inj hns
      rw [hrest.start xs p after hrest', hstart, flatMap_cons, hcode]
      simp only [length_append, length_singleton]
      omega
  · intro p hp
    rcases mem_cons.1 hp with rfl | hp
    · rw [Node.isSuspend, hexit]
    · exact hbefore p hp

/-- **The trail from a node meets the pieces that are left** of its block. -/
theorem exists_recovers (hn : n ∈ (ofMethod m isMarker).nodes) (hb : m.block? n.origin = some b) :
    ∃ ns, (ofMethod m isMarker).Recovers b n ns := by
  induction hleft : b.instrs.length - n.start using Nat.strongRecOn generalizing n with
  | _ left ih =>
    cases hexit : n.exit with
    | leave t => exact ⟨[n], recovers_leave h hn hb hexit⟩
    | suspend c r =>
      obtain ⟨q, hq, horigin, hstart⟩ := exists_resumed h hn hexit
      obtain ⟨b', hb', hpiece⟩ := pieceOf h (mem_of_node? hq)
      rw [horigin, hb] at hb'
      cases hb'
      have hle := hpiece.start_le
      obtain ⟨ns, hns⟩ := ih (b.instrs.length - q.start) (by omega) (mem_of_node? hq)
        (horigin ▸ hb) rfl
      exact ⟨n :: ns, recovers_suspend h hn hb hexit hq horigin hstart hns⟩

theorem exists_block (isMarker : String → Bool) (hb : m.block? k = some b) :
    ∃ n ns, (ofMethod m isMarker).node? k = some n ∧ n.origin = k ∧ n.start = 0 ∧
      (ofMethod m isMarker).Recovers b n ns := by
  obtain ⟨n, hn, horigin, hstart⟩ :
      ∃ n, (ofMethod m isMarker).node? k = some n ∧ n.origin = k ∧ n.start = 0 :=
    exists_head h (List.getElem?_eq_some_iff.1 hb).1
  obtain ⟨ns, hns⟩ := exists_recovers h (mem_of_node? hn) (horigin ▸ hb)
  exact ⟨n, ns, hn, horigin, hstart, hns⟩

theorem locates_of_mem (hn : n ∈ (ofMethod m isMarker).nodes) : Locates m n := by
  obtain ⟨b, hb, hpiece⟩ := pieceOf h hn
  refine ⟨fun j i hi => ?_, fun c r hexit => ?_, fun t hexit => ?_⟩
  · simpa only [Method.instrAt?, Node.location, hb, Option.bind_some] using hpiece.getElem? hi
  · simpa only [Method.instrAt?, Node.exitLocation, Node.location, hb, Option.bind_some] using
      (hpiece.of_suspend hexit).2.1
  · obtain ⟨hterminator, hlength⟩ := hpiece.of_leave hexit
    exact ⟨b, hb, hterminator, by rw [Node.exitLocation, Node.location, hlength]⟩

/-- A node behind the first ones is linked to on the trail of its block. -/
theorem exists_linked (hn : (ofMethod m isMarker).node? k = some n) (hk : m.blocks.length ≤ k) :
    ∃ q ∈ (ofMethod m isMarker).nodes, ∃ c, q.exit = .suspend c k := by
  obtain ⟨b, hb, -⟩ := pieceOf h (mem_of_node? hn)
  have hlt : n.origin < m.blocks.length := (List.getElem?_eq_some_iff.1 hb).1
  obtain ⟨first, ns, hfirst, horigin, hstart, hns⟩ := exists_block h isMarker hb
  have hmem := (hns.pieces n).2 ⟨mem_of_node? hn, horigin.symm, hstart ▸ Nat.zero_le _⟩
  have hid := node?_id h hn
  rcases hns.trail.exists_linked hmem with rfl | ⟨q, hq, c, r, hexit, hr⟩
  · have := node?_id h hfirst
    omega
  · rw [← node?_id h hr, hid] at hexit
    exact ⟨q, ((hns.pieces q).1 hq).1, c, hexit⟩

/-- At most one node is linked to a node. -/
theorem linked_unique {p q : Node} (hp : p ∈ (ofMethod m isMarker).nodes)
    (hq : q ∈ (ofMethod m isMarker).nodes) {c c' : Callee} (hpk : p.exit = .suspend c k)
    (hqk : q.exit = .suspend c' k) : p = q := by
  obtain ⟨x, hx, hxp, hstart⟩ := exists_resumed h hp hpk
  obtain ⟨y, hy, hyq, hstart'⟩ := exists_resumed h hq hqk
  cases hx.symm.trans hy
  have hend : p.Holds p.exitLocation := ⟨rfl, Nat.le_add_right .., Nat.le_refl _⟩
  refine node_unique h hp hq hend ⟨hxp.symm.trans hyq, ?_, ?_⟩
  · simp only [Node.exitLocation, Node.location]
    omega
  · simp only [Node.exitLocation, Node.location]
    omega

end Method

/-- **The graph of a method is the method, cut at its markers.** -/
theorem splits_ofMethod {m : Method} (hrefs : m.referenceDefects = [])
    (isMarker : String → Bool) : (ofMethod m isMarker).Splits m isMarker := by
  have h := Method.referenceDefects_eq_nil_iff.1 hrefs
  refine
    { size := size_ofMethod isMarker m
      numbered := fun k n hn => node?_id h hn
      block := ?_
      located := fun n hn => locates_of_mem h hn
      plain := ?_
      marker := ?_
      resumed := ?_
      untargeted := ?_
      covered := ⟨_, fun r => ⟨rfl, rfl, rfl⟩, regions_eq h, fun n hn => covering_eq h hn⟩ }
  · intro k b hb
    obtain ⟨n, ns, hn, horigin, hstart, hns⟩ := exists_block h isMarker hb
    exact ⟨n, ns, hn, horigin, hstart, hns, fun ns' hns' => hns.trail.unique hns'⟩
  · intro n hn c hc
    obtain ⟨b, -, hpiece⟩ := pieceOf h hn
    simpa [Instr.callee?] using hpiece.plain _ hc
  · intro n hn c r hexit
    obtain ⟨b, -, hpiece⟩ := pieceOf h hn
    exact (hpiece.of_suspend hexit).1
  · intro k hk hlt
    have hn : (ofMethod m isMarker).node? k = some _ := List.getElem?_eq_getElem hlt
    obtain ⟨q, hq, c, hexit⟩ := exists_linked h hn hk
    refine ⟨q, ⟨hq, c, hexit⟩, ?_⟩
    rintro p ⟨hp, c', hexit'⟩
    exact linked_unique h hp hq hexit' hexit
  · intro k hk
    refine ⟨?_, ?_⟩
    · rintro n hn t hexit hmem
      obtain ⟨b, hb, hpiece⟩ := pieceOf h hn
      rw [← (hpiece.of_leave hexit).1] at hmem
      have := (h.blocks b (mem_of_getElem? hb)).targets k hmem
      omega
    · rintro R hR rfl
      rw [regions_eq h] at hR
      obtain ⟨r, hr, rfl⟩ := mem_map.1 hR
      have := (h.regions r hr).handler
      simp only at hk
      omega

end Graph

/-! ### A wait for a wait -/

/-- Waits for a future and at once for the future that this gives; where either fails, it waits for
the first one again. -/
def nestedWaits : Method where
  name := "nested"
  params := [⟨0, some "f", .future, true⟩]
  ret := .int
  locals := [⟨0, some "f", .future, true⟩, ⟨1, some "x", .int, false⟩]
  blocks :=
    [⟨0, [.load 0, .invoke ⟨"Await.await", 1, .future⟩, .invoke ⟨"Await.await", 1, .int⟩, .store 1],
        .goto 1⟩,
      ⟨1, [.load 1], .ret⟩,
      ⟨2, [.pop, .load 0, .invoke ⟨"Await.await", 1, .int⟩], .ret⟩]
  entry := 0
  regions := [⟨0, IdSet.ofList [0], 2, .catchAll⟩]

/-- Three blocks and three marker calls, of which two have nothing between them. -/
theorem splits_nestedWaits :
    nestedWaits.referenceDefects = [] ∧
      (Graph.ofMethod nestedWaits ({} : Options).isMarker).Splits nestedWaits
        ({} : Options).isMarker := by
  have hrefs : nestedWaits.referenceDefects = [] := by decide +kernel
  exact ⟨hrefs, Graph.splits_ofMethod hrefs ({} : Options).isMarker⟩

end Resumable
