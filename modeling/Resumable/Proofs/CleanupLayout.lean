/-
**Where the copies of a cleanup body stand.**

The expansion of a cleanup region appends one copy of the body for each way out of the region, one
after the other, and then the handler that throws again.  So a block behind those of the method is
known by the way out and by the block that it is a copy of, and the expansion fails exactly if the
body meets the region, does not take the exception, or is jumped into from the region.

Main results:

* `Method.spread_of_expandCleanup` — **the layout of one region expanded**;
* `Method.exists_expandCleanup_iff` — **when a region can be expanded**.
-/

import Resumable.Proofs.CleanupPlaces
import Resumable.Proofs.Positions

set_option autoImplicit false

namespace Resumable

open List

namespace Method

/-! ### When a region can be expanded -/

/-- **What the expansion asks of a region**: its body does not meet it, begins by taking the
exception, and is not jumped into from the region. -/
structure Expandable (m : Method) (region : Region) : Prop where
  apart : ∀ b ∈ m.cleanupBody region.handler, b ∉ region.blocks
  takes : (m.takeException? region.handler).isSome = true
  sealed : ∀ b ∈ region.blocks, ∀ t ∈ m.normalExits b, t ∉ region.blocks →
    t ∉ m.cleanupBody region.handler

/-! ### The layout of an expanded region -/

/-- **The ways out of a region**: the jumps and returns that leave it, and the exceptions. -/
def WayOut (m : Method) (region : Region) (saved : Option Nat) (caught : Nat) : Completion → Prop
  | .jump t => ∃ b ∈ region.blocks, t ∈ m.normalExits b ∧ t ∉ region.blocks
  | .ret s => s = saved ∧ ∃ b ∈ region.blocks, (m.blockOrStub b).terminator = .ret
  | .rethrow l => l = caught

/-- The number of the handler of an expanded region, behind the copies. -/
def handlerAt (m : Method) (region : Region) (ways : List Completion) : Nat :=
  m.copyStart (m.cleanupBody region.handler) ways.length

/-- **The layout of an expanded region.**  Behind the blocks of the method stands one copy of the
body for each way out, and then the new handler; the returned value and the exception are saved in
new locals. -/
structure Spread (m : Method) (index : Nat) (region : Region) (n : Method) (ways : List Completion)
    (saved : Option Nat) (caught : Nat) : Prop where
  expanded : m.Expanded index region n
  length : n.blocks.length = m.handlerAt region ways + 1
  nodup : ways.Nodup
  mem_ways : ∀ c, c ∈ ways ↔ m.WayOut region saved caught c
  copies : ∀ j c, ways[j]? = some c →
    m.HasCopy n (m.cleanupBody region.handler) (m.copyStart (m.cleanupBody region.handler) j) c
  routed : ∀ b ∈ region.blocks, m.Routed n region (m.cleanupBody region.handler) ways b
  entries : n.entries = m.entries.set index (m.handlerAt region ways, .catchAll)
  covers : ∀ k, n.Covers k (m.handlerAt region ways) ↔ m.Covers k region.handler
  rescue : ∃ j take, ways[j]? = some (.rethrow caught) ∧
    m.takeException? region.handler = some take ∧
    n.block? (m.handlerAt region ways) = some ⟨m.handlerAt region ways, take ++ [.store caught],
      .goto (m.copyStart (m.cleanupBody region.handler) j)⟩
  saves : .ret saved ∈ ways → (saved = none ↔ m.ret.isVoid = true)
  locals : n.localIds = m.localIds ++ saved.toList ++ [caught]
  fresh : caught ∉ m.localIds ++ saved.toList ∧ ∀ l, saved = some l → l ∉ m.localIds

variable {m n : Method} {index : Nat} {region : Region} {ways : List Completion}

/-- **The blocks of an expanded region**: those of the method, those of the copies, and the
handler. -/
theorem Spread.block_cases {saved : Option Nat} {caught : Nat}
    (h : m.Spread index region n ways saved caught) {b : Nat} (hb : b < n.blocks.length) :
    b < m.blocks.length ∨
      (∃ j c x s, ways[j]? = some c ∧ (m.cleanupBody region.handler)[x]? = some s ∧
        b = m.copyStart (m.cleanupBody region.handler) j + x) ∨
      b = m.handlerAt region ways := by
  have hlen := h.length
  simp only [handlerAt, copyStart] at hlen ⊢
  have hpos : 0 < (m.cleanupBody region.handler).length :=
    length_pos_iff.2 (ne_nil_of_mem (m.mem_cleanupBody_self region.handler))
  generalize hL : (m.cleanupBody region.handler).length = L at *
  rcases Nat.lt_or_ge b m.blocks.length with hlt | hge
  · exact .inl hlt
  rcases Nat.lt_or_ge b (m.blocks.length + ways.length * L) with hcopy | hlast
  · obtain ⟨d, rfl⟩ := Nat.exists_eq_add_of_le hge
    have hj : d / L < ways.length := Nat.div_lt_of_lt_mul (by rw [Nat.mul_comm]; omega)
    have hx : d % L < (m.cleanupBody region.handler).length := by rw [hL]; exact Nat.mod_lt d hpos
    have hd : d / L * L + d % L = d := by rw [Nat.mul_comm]; exact Nat.div_add_mod d L
    exact .inr (.inl ⟨d / L, _, d % L, _, List.getElem?_eq_getElem hj, List.getElem?_eq_getElem hx,
      by omega⟩)
  · exact .inr (.inr (by omega))

/-- The copies that were made when all exits are led are those for the ways out. -/
theorem mem_ways_iff {body : List Nat} {e : Expansion}
    (h : Expansion.Leads m index region body region.blocks.toList e ways) (caught : Nat)
    (c : Completion) : c ∈ ways ++ [.rethrow caught] ↔
      m.WayOut region (e.returns.bind (·.1)) caught c := by
  have hret : ∀ s, Completion.ret s ∈ ways → s = e.returns.bind (·.1) := by
    intro s hs
    obtain ⟨j, hj⟩ := mem_iff_getElem?.1 hs
    rw [(h.laid.returns s _).2 ⟨j, hj, rfl⟩]
    rfl
  rw [mem_append, mem_singleton]
  cases c with
  | jump t =>
    simp only [reduceCtorEq, or_false]
    refine ⟨fun hc => h.laid.leaves _ hc, ?_⟩
    rintro ⟨b, hb, ht, hout⟩
    cases h.routed b hb with
    | ret hk hret => simp [normalExits, hk, hret, Terminator.successors] at ht
    | jumps hk _ _ hroutes =>
      rw [normalExits, hk] at ht
      obtain ⟨j, hj, -⟩ := hroutes t ht hout
      exact mem_of_getElem? hj
  | ret s =>
    simp only [reduceCtorEq, or_false]
    refine ⟨fun hc => ⟨hret s hc, h.laid.leaves _ hc⟩, ?_⟩
    rintro ⟨rfl, b, hb, hterm⟩
    cases h.routed b hb with
    | ret hk _ hj =>
      have hmem := mem_of_getElem? hj
      exact hret _ hmem ▸ hmem
    | jumps hk hne =>
      rw [blockOrStub_of_block? hk] at hterm
      exact absurd hterm hne
  | rethrow l =>
    have hnone : Completion.rethrow l ∉ ways := fun hc => by
      obtain ⟨_, -, hleaves⟩ := h.laid.leaves _ hc
      exact hleaves
    simp [hnone, WayOut]

/-- The layout of one region expanded, after the exits are led through copies. -/
theorem Handles.spread {e : Expansion} {take : List Instr} {handler : Nat}
    (hn : m.Handles index region take e handler n)
    (ha : Expansion.Apart m index region (m.cleanupBody region.handler))
    (h : Expansion.Leads m index region (m.cleanupBody region.handler) region.blocks.toList e ways)
    (htake : m.takeException? region.handler = some take) (hexpanded : m.Expanded index region n) :
    m.Spread index region n (ways ++ [.rethrow e.method.nextLocal]) (e.returns.bind (·.1))
      e.method.nextLocal := by
  have hthrow : Completion.rethrow e.method.nextLocal ∉ ways := fun hl => by
    obtain ⟨_, -, hleaves⟩ := h.laid.leaves _ hl
    exact hleaves
  obtain rfl : handler = m.handlerAt region (ways ++ [.rethrow e.method.nextLocal]) := by
    rw [hn.last, h.laid.length]
    simp only [handlerAt, copyStart, length_append, length_singleton, Nat.succ_mul]
    omega
  refine ⟨hexpanded, hn.length, h.laid.nodup_snoc hthrow, mem_ways_iff h e.method.nextLocal,
    h.laid.copies_snoc (hn.keeps.mono (Nat.zero_le _)) hn.copy,
    fun b hb => (h.routed b hb).mono (prefix_append ..) (hn.keeps.blocks b (Nat.zero_le b)
      (Nat.lt_of_lt_of_le (ha.covered b hb) h.sound.grows.size)),
    hn.entries, hn.covers, ⟨ways.length, take, by simp, htake, h.laid.length ▸ hn.block⟩,
    fun hret => (h.laid.saves _ (by simpa using hret)).1, ?_, ?_, fun l hl => ?_⟩
  · rw [hn.locals, h.laid.locals]
  · rw [← h.laid.locals]
    exact e.method.not_mem_nextLocal
  · obtain ⟨⟨s, copy⟩, hreturns, rfl⟩ := Option.bind_eq_some_iff.1 hl
    obtain ⟨j, hj, -⟩ := (h.laid.returns _ _).1 hreturns
    exact (h.laid.saves _ (mem_of_getElem? hj)).2 l rfl

/-- **The layout of one region expanded.** -/
theorem spread_of_expandCleanup (h : m.Sound) (hlisted : m.regions[index]? = some region)
    (hn : m.expandCleanup index region = .ok n) :
    ∃ ways saved caught, m.Spread index region n ways saved caught := by
  have hexpanded := expanded_of_expandCleanup h hlisted hn
  obtain ⟨e, ways, take, ha, hleads, htake, rfl⟩ := leads_of_expandCleanup h hlisted hn
  obtain ⟨handler, hhandles⟩ := handles_addRethrow ha hleads take
  exact ⟨_, _, _, hhandles.spread ha hleads htake hexpanded⟩

/-- **When a region can be expanded.** -/
theorem exists_expandCleanup_iff (h : m.Sound) (hlisted : m.regions[index]? = some region) :
    (∃ n, m.expandCleanup index region = .ok n) ↔ m.Expandable region := by
  constructor
  · rintro ⟨n, hn⟩
    obtain ⟨e, ways, take, ha, hleads, htake, -⟩ := leads_of_expandCleanup h hlisted hn
    exact ⟨ha.outside, by rw [htake]; rfl, hleads.sealed⟩
  · intro hex
    have hfind : (m.cleanupBody region.handler).find? (· ∈ region.blocks) = none :=
      find?_eq_none.2 fun b hb => by simpa using hex.apart b hb
    obtain ⟨take, htake⟩ := Option.isSome_iff_exists.1 hex.takes
    have ha := apart_cleanupBody h hlisted hfind
    unfold expandCleanup
    simp only [hfind, htake]
    split
    · rename_i d hfold
      -- The first block that fails is as in the method, so it jumps into the body.
      obtain ⟨done, e, b, hb, hnew, ⟨_, hleads⟩, hleave⟩ := foldlM_error_scan hfold
        (by simpa using nodup_toList region.blocks) (Expansion.ledSoFar_start h hlisted)
        (Expansion.ledSoFar_leave h ha)
      have hlt := ha.covered b hb
      obtain ⟨-, t, ht, hout, hbody⟩ := Expansion.error_of_leave hleave
      refine absurd hbody (hex.sealed b hb t ?_ hout)
      rw [blockOrStub, hleads.kept b hlt hnew, block?, List.getElem?_eq_getElem hlt] at ht
      rw [normalExits, block?, List.getElem?_eq_getElem hlt]
      exact ht
    · exact ⟨_, rfl⟩

end Method

end Resumable
