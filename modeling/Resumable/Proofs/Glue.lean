/-
**The instructions of generated code.**

Every instruction of a dispatcher or of an entry is taken over from the method, with its locals
renumbered, or it is *glue*: it moves values, belongs to the continuation protocol, or tests the
state.  Glue calls nothing, and registers no dispatcher but the one it belongs to.  So what is true
of the instructions of a method and of glue is true of the generated code.

Main results:

* `Dispatcher.Plan.Made.mem_dispatcher` — **the instructions of a dispatcher**;
* `Dispatcher.mem_entryCode` — the instructions of an entry.
-/

import Resumable.Dispatcher.Entry
import Resumable.Proofs.Roles

set_option autoImplicit false

namespace Resumable

open List

/-- Whether generated code for the given dispatcher has the instruction of its own. -/
def Instr.isGlue (dispatcher : String) : Instr → Bool
  | push _ | load _ | store _ | dup | pop | binary .eq => true
  | resume d _ _ => d == dispatcher
  | i => i.isProtocol

namespace Dispatcher

namespace Plan

variable {p : Plan} {i : Instr}

theorem exists_of_mem_restore {ls : List Nat} (hi : i ∈ p.restore ls) :
    (∃ k, i = .frameLoad p.slots.frame k) ∨ ∃ l, i = .store l := by
  obtain ⟨pair, hpair, hi⟩ := mem_flatten.1 hi
  obtain ⟨k, hk, rfl⟩ := mem_mapIdx.1 hpair
  simp only [mem_cons, not_mem_nil, or_false] at hi
  exact hi.imp (fun h => ⟨k, h⟩) fun h => ⟨_, h⟩

theorem exists_of_mem_save {ls : List Nat} (hi : i ∈ p.save ls) :
    (∃ l, i = .load l) ∨ ∃ k, i = .frameStore p.slots.next k := by
  obtain ⟨pair, hpair, hi⟩ := mem_flatten.1 hi
  obtain ⟨k, hk, rfl⟩ := mem_mapIdx.1 hpair
  simp only [mem_cons, not_mem_nil, or_false] at hi
  exact hi.imp (fun h => ⟨_, h⟩) fun h => ⟨k, h⟩

theorem isGlue_restore (ls : List Nat) : ∀ i ∈ p.restore ls, i.isGlue p.name = true := by
  intro i hi
  rcases exists_of_mem_restore hi with ⟨k, rfl⟩ | ⟨l, rfl⟩ <;> rfl

theorem isGlue_save (ls : List Nat) : ∀ i ∈ p.save ls, i.isGlue p.name = true := by
  intro i hi
  rcases exists_of_mem_save hi with ⟨l, rfl⟩ | ⟨k, rfl⟩ <;> rfl

theorem isGlue_dropVoid (ty : Ty) : ∀ i ∈ dropVoid ty, i.isGlue p.name = true := by
  intro i hi
  unfold dropVoid at hi
  split at hi
  · rw [mem_singleton.1 hi]
    rfl
  · cases hi

theorem isGlue_fulfill : ∀ i ∈ p.fulfill, i.isGlue p.name = true := by
  intro i hi
  unfold fulfill at hi
  split at hi <;> simp only [mem_append, mem_cons, not_mem_nil, or_false] at hi
  · rcases hi with (rfl | rfl | rfl) | (rfl | rfl) <;> rfl
  · rcases hi with (rfl | rfl) | (rfl | rfl) <;> rfl

theorem isGlue_parkCode (s : Suspension) : ∀ i ∈ p.parkCode s, i.isGlue p.name = true := by
  intro i hi
  simp only [parkCode, mem_append, mem_cons, not_mem_nil, or_false] at hi
  rcases hi with ((rfl | rfl | rfl | rfl) | hi) | (rfl | rfl | rfl)
  · rfl
  · rfl
  · rfl
  · rfl
  · exact isGlue_save _ i hi
  · rfl
  · exact beq_self_eq_true p.name
  · rfl

/-- The instructions of a node are those of the node, renumbered; what follows them is glue. -/
theorem mem_nodeCode {n : Node} (hi : i ∈ (p.nodeCode n).1) :
    i.isGlue p.name = true ∨ ∃ j ∈ n.instrs, i = j.mapLocals p.slots.local := by
  have hbody : i ∈ n.instrs.map (·.mapLocals p.slots.local) →
      ∃ j ∈ n.instrs, i = j.mapLocals p.slots.local := by
    intro h
    obtain ⟨j, hj, rfl⟩ := mem_map.1 h
    exact ⟨j, hj, rfl⟩
  unfold nodeCode at hi
  split at hi
  · exact (mem_append.1 hi).elim (fun h => .inr (hbody h)) fun h => .inl (isGlue_fulfill i h)
  · exact .inr (hbody hi)
  · split at hi
    · rcases mem_append.1 hi with hi | hi
      · exact .inr (hbody hi)
      · simp only [mem_cons, not_mem_nil, or_false] at hi
        rcases hi with rfl | rfl <;> exact .inl rfl
    · exact .inr (hbody hi)

/-- The instructions of a role are glue, or taken over from a node. -/
theorem mem_code {ρ : Role} (hi : i ∈ (p.code ρ).1) :
    i.isGlue p.name = true ∨
      ∃ k n, p.graph.node? k = some n ∧ ∃ j ∈ n.instrs, i = j.mapLocals p.slots.local := by
  cases ρ with
  | head =>
    simp only [code, mem_cons, not_mem_nil, or_false] at hi
    rcases hi with rfl | rfl | rfl <;> exact .inl rfl
  | fail | reject =>
    simp only [code, mem_cons, not_mem_nil, or_false] at hi
    rcases hi with rfl | rfl | rfl | rfl <;> exact .inl rfl
  | rethrow =>
    rw [mem_singleton.1 hi]
    exact .inl rfl
  | badState => cases hi
  | start => exact .inl (isGlue_restore _ i hi)
  | resume k =>
    simp only [code] at hi
    split at hi
    · simp only [mem_append, mem_cons, not_mem_nil, or_false] at hi
      rcases hi with (hi | rfl | rfl) | hi
      · exact .inl (isGlue_restore _ i hi)
      · exact .inl rfl
      · exact .inl rfl
      · exact .inl (isGlue_dropVoid _ i hi)
    · cases hi
  | node k =>
    simp only [code] at hi
    split at hi
    · rename_i n hn
      exact (mem_nodeCode hi).imp_right fun h => ⟨k, n, hn, h⟩
    · cases hi
  | fast k =>
    simp only [code] at hi
    split at hi
    · rcases mem_cons.1 hi with rfl | hi
      · exact .inl rfl
      · exact .inl (isGlue_dropVoid _ i hi)
    · cases hi
  | park k =>
    simp only [code] at hi
    split at hi
    · exact .inl (isGlue_parkCode _ i hi)
    · cases hi

theorem exists_role_of_mem_blocks {b : Block} (hb : b ∈ p.dispatcher.blocks) :
    ∃ ρ, b.instrs = (p.code ρ).1 := by
  have hblocks : p.dispatcher.blocks = p.blocks := rfl
  rw [hblocks, blocks] at hb
  obtain ⟨k, hk, rfl⟩ := mem_mapIdx.1 hb
  exact ⟨_, rfl⟩

/-- **The instructions of a dispatcher** are glue, or taken over from the method, in which they call
no marker. -/
theorem Made.mem_dispatcher {isMarker : String → Bool} {r : IdSet} (h : p.Made isMarker r)
    {b : Block} (hb : b ∈ p.dispatcher.blocks) (hi : i ∈ b.instrs) :
    i.isGlue p.name = true ∨ ∃ block ∈ p.method.blocks, ∃ j ∈ block.instrs,
      j.callee? isMarker = none ∧ i = j.mapLocals p.slots.local := by
  obtain ⟨ρ, hρ⟩ := exists_role_of_mem_blocks hb
  rw [hρ] at hi
  refine (mem_code hi).imp_right ?_
  rintro ⟨k, n, hn, j, hj, rfl⟩
  have hmem := (h.mem_nodes hn).1
  rw [h.graph] at hmem
  obtain ⟨block, hblock, hpiece⟩ := Graph.pieceOf h.sound hmem
  obtain ⟨l, hl⟩ := mem_iff_getElem?.1 hj
  exact ⟨block, mem_of_getElem? hblock, j, mem_of_getElem? (hpiece.getElem? hl),
    hpiece.plain j hj, rfl⟩

end Plan

/-- **The instructions of an entry** are glue, but for the call of the dispatcher. -/
theorem mem_entryCode {m : Method} {d : String} {frame : Nat} {i : Instr}
    (hi : i ∈ entryCode m d frame) : i.isGlue d = true ∨ i = .invoke (callee d) := by
  simp only [entryCode, mem_append, mem_cons, not_mem_nil, or_false] at hi
  rcases hi with ((rfl | rfl | rfl) | hi) | (rfl | rfl | rfl | rfl)
  · exact .inl rfl
  · exact .inl rfl
  · exact .inl rfl
  · obtain ⟨pair, hpair, hi⟩ := mem_flatten.1 hi
    obtain ⟨k, hk, rfl⟩ := mem_mapIdx.1 hpair
    simp only [mem_cons, not_mem_nil, or_false] at hi
    rcases hi with rfl | rfl <;> exact .inl rfl
  · exact .inl rfl
  · exact .inl rfl
  · exact .inl rfl
  · exact .inr rfl

end Dispatcher

end Resumable
