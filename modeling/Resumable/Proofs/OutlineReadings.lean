/-
**Methods that read as outlines.**

A method with some cleanup regions expanded reads as an outline: each of its blocks has a name, and
what the blocks, the regions and the locals of the method are is what the outline says of the names.
The expansion of a region of the method reads as the expansion of the region of the outline, and
can be made if the outline is ready for it.

Main results:

* `Reads.ready_iff` — **when a region can be expanded**, by the outline;
* `Reads.expand` — **the expansion of a region reads as the expansion of the outline**;
* `Reads.runs` — so do the regions expanded one after the other.
-/

import Resumable.Proofs.CleanupLayout
import Resumable.Proofs.Outlines

set_option autoImplicit false

namespace Resumable

open List

/-! ### Named blocks -/

theorem Instr.mapLocals_congr {f g : Nat → Nat} {i : Instr} (h : ∀ l, i.Mentions l → f l = g l) :
    i.mapLocals f = i.mapLocals g := by
  cases i <;> simp_all [mapLocals, Mentions, uses?, defines?]

/-- The block with its targets and its locals named. -/
def Block.named (ν : Nat → Spot) (loc : Nat → Nat) (k : Block) : Stretch where
  instrs := k.instrs.map (Instr.mapLocals loc)
  shape := k.terminator.mapTargets fun _ => 0
  targets := k.terminator.successors.map ν

theorem Block.named_congr {ν ν' : Nat → Spot} {loc loc' : Nat → Nat} {k : Block} {locals : List Nat}
    {size : Nat} (h : k.Sound locals size) (hν : ∀ t < size, ν' t = ν t)
    (hloc : ∀ l ∈ locals, loc' l = loc l) : k.named ν' loc' = k.named ν loc := by
  have hinstrs : k.instrs.map (Instr.mapLocals loc') = k.instrs.map (Instr.mapLocals loc) :=
    map_congr_left fun i hi => Instr.mapLocals_congr fun l hl => hloc l (h.declared i hi l hl)
  have htargets : k.terminator.successors.map ν' = k.terminator.successors.map ν :=
    map_congr_left fun t ht => hν t (h.targets t ht)
  simp only [named, hinstrs, htargets]

/-! ### Readings -/

/-- **The method `n`, which has grown from `m`, reads as the outline.**  Block `b` has the name `ν
b` and local `l` the name `loc l`, and the region that was at position `i` in `m` is at `pos i`. -/
structure Reads (m n : Method) (G : Outline) (ν : Nat → Spot) (loc pos : Nat → Nat) : Prop where
  proper : G.Proper
  void : G.void = m.ret.isVoid
  base : G.base = m.nextLocal
  grows : m.Grows n
  entry : n.entry = m.entry
  given : ∀ b < m.blocks.length, ν b = .given b
  injective : ∀ b < n.blocks.length, ∀ b' < n.blocks.length, ν b = ν b' → b = b'
  block : ∀ b k, n.block? b = some k → G.block (ν b) = some (k.named ν loc)
  onto : ∀ a k, G.block a = some k → ∃ b < n.blocks.length, ν b = a
  covers : ∀ i, ∀ b < n.blocks.length, n.Covers (pos i) b ↔ G.covers i (ν b)
  table : ∀ i < m.regions.length, ∃ r, n.regions[pos i]? = some r ∧ r.kind = G.kind i ∧
    ν r.handler = G.handler i
  apart : ∀ i < m.regions.length, ∀ j < m.regions.length, pos i = pos j → i = j
  listed : ∀ q < n.regions.length, ∃ i < m.regions.length, pos i = q
  locals : ∀ l ∈ n.localIds, ∀ l' ∈ n.localIds, loc l = loc l' → l = l'
  unused : ∀ l ∈ n.localIds, ∀ i, G.kind i = .cleanup → loc l ≠ G.saved i ∧ loc l ≠ G.caught i
  named : ∀ l ∈ n.localIds, l ∈ m.localIds ∧ loc l = l ∨ l ∉ m.localIds ∧ G.base ≤ loc l

namespace Reads

variable {m n : Method} {G : Outline} {ν : Nat → Spot} {loc pos : Nat → Nat} {i : Nat} {r : Region}
  {b : Nat}

theorem exists_block (hb : b < n.blocks.length) : ∃ k, n.block? b = some k :=
  ⟨_, List.getElem?_eq_getElem hb⟩

theorem sound_block (h : Reads m n G ν loc pos) {k : Block} (hk : n.block? b = some k) :
    k.Sound n.localIds n.blocks.length :=
  h.grows.sound.blocks k (mem_of_getElem? hk)

theorem lt_of_mem_exits (h : Reads m n G ν loc pos) {t : Nat} (ht : t ∈ n.normalExits b) :
    t < n.blocks.length := by
  unfold Method.normalExits at ht
  split at ht
  · rename_i k hk
    exact (h.sound_block hk).targets t ht
  · exact absurd ht not_mem_nil

section Region

variable (h : Reads m n G ν loc pos) (hi : i < m.regions.length) (hr : n.regions[pos i]? = some r)
include h hr

theorem mem_blocks_iff {b : Nat} (hb : b < n.blocks.length) : b ∈ r.blocks ↔ G.covers i (ν b) :=
  (Method.covers_iff hr b).symm.trans (h.covers i b hb)

theorem sound_region : r.Sound n.blocks.length := h.grows.sound.regions r (mem_of_getElem? hr)

/-- The blocks that the outline covers by region `i` are the blocks of the region. -/
theorem exists_covered_iff {P : Stretch → Prop} :
    (∃ a k, G.covers i a ∧ G.block a = some k ∧ P k) ↔
      ∃ b ∈ r.blocks, ∃ k, n.block? b = some k ∧ P (k.named ν loc) := by
  constructor
  · rintro ⟨a, k, ha, hk, hP⟩
    obtain ⟨b, hb, rfl⟩ := h.onto a k hk
    obtain ⟨k', hk'⟩ := exists_block hb
    cases hk.symm.trans (h.block b k' hk')
    exact ⟨b, (h.mem_blocks_iff hr hb).2 ha, k', hk', hP⟩
  · rintro ⟨b, hb, k, hk, hP⟩
    have hlt := (h.sound_region hr).covered b hb
    exact ⟨ν b, _, (h.mem_blocks_iff hr hlt).1 hb, h.block b k hk, hP⟩

theorem exits_iff {t : Spot} :
    G.Exits i t ↔ ∃ b ∈ r.blocks, ∃ u ∈ n.normalExits b, u ∉ r.blocks ∧ ν u = t := by
  refine (h.exists_covered_iff hr).trans ?_
  constructor
  · rintro ⟨b, hb, k, hk, ht, hout⟩
    obtain ⟨u, hu, rfl⟩ := mem_map.1 ht
    have hlt := (h.sound_block hk).targets u hu
    refine ⟨b, hb, u, ?_, fun hmem => hout ((h.mem_blocks_iff hr hlt).1 hmem), rfl⟩
    rw [Method.normalExits, hk]
    exact hu
  · rintro ⟨b, hb, u, hu, hout, rfl⟩
    obtain ⟨k, hk⟩ := exists_block ((h.sound_region hr).covered b hb)
    rw [Method.normalExits, hk] at hu
    have hlt := (h.sound_block hk).targets u hu
    exact ⟨b, hb, k, hk, mem_map.2 ⟨u, hu, rfl⟩,
      fun hcov => hout ((h.mem_blocks_iff hr hlt).2 hcov)⟩

theorem returns_iff : G.Returns i ↔ ∃ b ∈ r.blocks, (n.blockOrStub b).terminator = .ret := by
  refine (h.exists_covered_iff hr).trans ?_
  constructor
  · rintro ⟨b, hb, k, hk, hret⟩
    refine ⟨b, hb, ?_⟩
    rw [Method.blockOrStub_of_block? hk]
    exact Terminator.mapTargets_eq_ret.1 hret
  · rintro ⟨b, hb, hret⟩
    obtain ⟨k, hk⟩ := exists_block ((h.sound_region hr).covered b hb)
    rw [Method.blockOrStub_of_block? hk] at hret
    exact ⟨b, hb, k, hk, Terminator.mapTargets_eq_ret.2 hret⟩

include hi

theorem region_eq : r.kind = G.kind i ∧ ν r.handler = G.handler i := by
  obtain ⟨r', hr', hkind, hhandler⟩ := h.table i hi
  cases hr.symm.trans hr'
  exact ⟨hkind, hhandler⟩

theorem mem_body_iff {b : Nat} (hb : b < n.blocks.length) :
    b ∈ n.cleanupBody r.handler ↔ G.Body i (ν b) := by
  obtain ⟨-, hhandler⟩ := h.region_eq hi hr
  have hlt := (h.sound_region hr).handler
  constructor
  · intro hmem
    refine Method.forall_mem_cleanupBody (Q := fun b => G.Body i (ν b))
      (hhandler ▸ .start) ?_ b hmem
    intro c k hc hk t ht
    exact hc.next (h.block c k hk) (mem_map.2 ⟨t, ht, rfl⟩)
  · generalize hs : ν b = s
    intro hbody
    induction hbody generalizing b with
    | start => exact h.injective b hb _ hlt (hs.trans hhandler.symm) ▸ n.mem_cleanupBody_self _
    | next _ hk ht ih =>
      obtain ⟨c, hc, rfl⟩ := h.onto _ _ hk
      obtain ⟨k', hk'⟩ := exists_block hc
      cases hk.symm.trans (h.block c k' hk')
      obtain ⟨u, hu, hut⟩ := mem_map.1 ht
      have hub := h.injective u ((h.sound_block hk').targets u hu) b hb (hut.trans hs.symm)
      exact hub ▸ Method.mem_cleanupBody_next (ih hc rfl) hk' hu

theorem taken_eq : G.taken i =
    (n.takeException? r.handler).map (map (Instr.mapLocals loc)) := by
  obtain ⟨-, hhandler⟩ := h.region_eq hi hr
  obtain ⟨k, hk⟩ := exists_block (h.sound_region hr).handler
  have hblock := h.block _ k hk
  rw [hhandler] at hblock
  simp only [Outline.taken, hblock, Method.takeException?, Method.blockOrStub_of_block? hk,
    Block.named, Option.bind_some]
  cases k.instrs with
  | nil => rfl
  | cons x xs => cases x <;> rfl

/-- **When a region can be expanded**, by the outline. -/
theorem ready_iff : n.Expandable r ↔ G.Ready i := by
  have hregion := h.sound_region hr
  have hbody := (Method.cleanupBody_sound h.grows.sound hregion.handler).2
  have htaken := h.taken_eq hi hr
  constructor
  · intro hex
    refine ⟨fun x hx hcov => ?_, by rw [htaken, Option.isSome_map]; exact hex.takes,
      fun t ht hx => ?_⟩
    · obtain ⟨k, hk⟩ := h.proper.covered hcov
      obtain ⟨b, hb, rfl⟩ := h.onto x k hk
      exact hex.apart b ((h.mem_body_iff hi hr hb).2 hx) ((h.mem_blocks_iff hr hb).2 hcov)
    · obtain ⟨b, hb, u, hu, hout, rfl⟩ := (h.exits_iff hr).1 ht
      exact hex.sealed b hb u hu hout ((h.mem_body_iff hi hr (h.lt_of_mem_exits hu)).2 hx)
  · intro hready
    refine ⟨fun b hb hmem => ?_, ?_, fun b hb t ht hout hmem => ?_⟩
    · exact hready.apart _ ((h.mem_body_iff hi hr (hbody b hb)).1 hb)
        ((h.mem_blocks_iff hr (hbody b hb)).1 hmem)
    · have := hready.takes
      rwa [htaken, Option.isSome_map] at this
    · exact hready.sealed (ν t) ((h.exits_iff hr).2 ⟨b, hb, t, ht, hout, rfl⟩)
        ((h.mem_body_iff hi hr (hbody t hmem)).1 hmem)

end Region

end Reads

/-! ### Names of the blocks of an expansion -/

/-- The name of the copy of a block for a way out of region `i`. -/
def Completion.spot (ν : Nat → Spot) (i : Nat) : Completion → Spot → Spot
  | .jump t => .onward i (ν t)
  | .ret _ => .returning i
  | .rethrow _ => .rethrowing i

/-- What stands at the end of the copies. -/
def Completion.close (G : Outline) (ν : Nat → Spot) (i : Nat) : Completion → Stretch
  | .jump t => ⟨[], .goto 0, [ν t]⟩
  | .ret _ => ⟨G.loading i, .ret, []⟩
  | .rethrow _ => ⟨[.load (G.caught i)], .raise, []⟩

theorem Completion.added_spot (G : Outline) (ν : Nat → Spot) (i : Nat) (c : Completion) (a : Spot) :
    G.added (c.spot ν i a) =
      (G.block a).map (·.copy (G.handler i) a (c.spot ν i) (c.close G ν i)) := by
  cases c <;> rfl

theorem Completion.source_spot (G : Outline) (ν : Nat → Spot) (i : Nat) (c : Completion)
    (a : Spot) :
    G.source (c.spot ν i a) = a := by
  cases c <;> rfl

theorem Completion.maker?_spot (ν : Nat → Spot) (i : Nat) (c : Completion) (a : Spot) :
    (c.spot ν i a).maker? = some i := by
  cases c <;> rfl

/-- The names of the blocks after the expansion of region `i`. -/
def Method.spots (n : Method) (ν : Nat → Spot) (i : Nat) (region : Region) (ways : List Completion)
    (b : Nat) : Spot :=
  if b < n.blocks.length then ν b
  else
    let body := n.cleanupBody region.handler
    match ways[(b - n.blocks.length) / body.length]?,
      body[(b - n.blocks.length) % body.length]? with
    | some c, some s => c.spot ν i (ν s)
    | _, _ => .rescue i

/-- The names of the locals after the expansion of region `i`. -/
def Outline.locals (G : Outline) (i : Nat) (saved : Option Nat) (caught : Nat) (loc : Nat → Nat)
    (l : Nat) : Nat :=
  if l = caught then G.caught i else if saved = some l then G.saved i else loc l

section Spots

variable {n : Method} {ν : Nat → Spot} {i : Nat} {region : Region} {ways : List Completion}

theorem Method.spots_old {b : Nat} (hb : b < n.blocks.length) : n.spots ν i region ways b = ν b :=
  if_pos hb

theorem Method.spots_copy {j x s : Nat} {c : Completion} (hj : ways[j]? = some c)
    (hx : (n.cleanupBody region.handler)[x]? = some s) :
    n.spots ν i region ways (n.copyStart (n.cleanupBody region.handler) j + x) =
      c.spot ν i (ν s) := by
  have hlt := (List.getElem?_eq_some_iff.1 hx).1
  have hsub : n.copyStart (n.cleanupBody region.handler) j + x - n.blocks.length =
      x + j * (n.cleanupBody region.handler).length := by
    simp only [Method.copyStart]
    omega
  have hdiv : (x + j * (n.cleanupBody region.handler).length) /
      (n.cleanupBody region.handler).length = j := by
    rw [Nat.add_mul_div_right _ _ (by omega), Nat.div_eq_of_lt hlt, Nat.zero_add]
  have hmod : (x + j * (n.cleanupBody region.handler).length) %
      (n.cleanupBody region.handler).length = x := by
    rw [Nat.add_mul_mod_self_right, Nat.mod_eq_of_lt hlt]
  have hge : ¬ n.copyStart (n.cleanupBody region.handler) j + x < n.blocks.length := by
    simp only [Method.copyStart]
    omega
  simp only [Method.spots, if_neg hge, hsub, hdiv, hmod, hj, hx]

theorem Method.spots_start {j : Nat} {c : Completion} (hj : ways[j]? = some c) :
    n.spots ν i region ways (n.copyStart (n.cleanupBody region.handler) j) =
      c.spot ν i (ν region.handler) :=
  n.spots_copy hj (n.cleanupBody_head region.handler)

theorem Method.spots_handler : n.spots ν i region ways (n.handlerAt region ways) = .rescue i := by
  have hpos : 0 < (n.cleanupBody region.handler).length :=
    length_pos_iff.2 (ne_nil_of_mem (n.mem_cleanupBody_self region.handler))
  have hdiv : (n.handlerAt region ways - n.blocks.length) / (n.cleanupBody region.handler).length =
      ways.length := by
    simp only [Method.handlerAt, Method.copyStart, Nat.add_sub_cancel_left]
    exact Nat.mul_div_cancel _ hpos
  have hge : ¬ n.handlerAt region ways < n.blocks.length := by
    simp only [Method.handlerAt, Method.copyStart]
    omega
  simp only [Method.spots, if_neg hge, hdiv, getElem?_eq_none (Nat.le_refl _)]

end Spots

namespace Reads

variable {m n n' : Method} {G : Outline} {ν : Nat → Spot} {loc pos : Nat → Nat} {i : Nat}
  {r : Region} {ways : List Completion} {saved : Option Nat} {caught : Nat}

section Expand

variable (h : Reads m n G ν loc pos) (hi : i < m.regions.length) (hr : n.regions[pos i]? = some r)
  (hkind : G.kind i = .cleanup) (hs : n.Spread (pos i) r n' ways saved caught)

include hs

variable {l b s : Nat} {c : Completion}

theorem locals_old (hl : l ∈ n.localIds) : G.locals i saved caught loc l = loc l := by
  have hcaught : l ≠ caught := by
    rintro rfl
    exact hs.fresh.1 (mem_append_left _ hl)
  have hsaved : saved ≠ some l := fun heq => hs.fresh.2 l heq hl
  rw [Outline.locals, if_neg hcaught, if_neg hsaved]

theorem locals_saved (hl : saved = some l) : G.locals i saved caught loc l = G.saved i := by
  have hcaught : l ≠ caught := by
    rintro rfl
    exact hs.fresh.1 (mem_append_right _ (by simp [hl]))
  rw [Outline.locals, if_neg hcaught, if_pos hl]

omit hs in
theorem locals_caught : G.locals i saved caught loc caught = G.caught i := if_pos rfl

include h

theorem named_old {k : Block} (hk : n.block? b = some k) :
    k.named (n.spots ν i r ways) (G.locals i saved caught loc) = k.named ν loc :=
  Block.named_congr (h.sound_block hk) (fun _ ht => Method.spots_old ht) fun _ hl =>
    locals_old hs hl

theorem lt_of_jump {t : Nat} (ht : .jump t ∈ ways) : t < n.blocks.length := by
  obtain ⟨b, -, ht, -⟩ := (hs.mem_ways _).1 ht
  exact h.lt_of_mem_exits ht

theorem saved_cases (hret : .ret saved ∈ ways) :
    saved = none ∧ G.void = true ∨ ∃ l, saved = some l ∧ G.void = false := by
  have hvoid : G.void = n.ret.isVoid := by rw [h.void, h.grows.ret]
  have hsaves := hs.saves hret
  rw [hvoid]
  cases saved with
  | none => exact .inl ⟨rfl, hsaves.1 rfl⟩
  | some l => exact .inr ⟨l, rfl, by simpa using hsaves⟩

/-- What stands at the end of a copy. -/
theorem named_code (hc : c ∈ ways) :
    c.code.1.map (Instr.mapLocals (G.locals i saved caught loc)) = (c.close G ν i).instrs ∧
      c.code.2.mapTargets (fun _ => 0) = (c.close G ν i).shape ∧
      c.code.2.successors.map (n.spots ν i r ways) = (c.close G ν i).targets := by
  match c, hc with
  | .jump t, hc =>
    refine ⟨rfl, rfl, ?_⟩
    simp only [Completion.code, Terminator.successors, map_cons, map_nil,
      Completion.close, Method.spots_old (h.lt_of_jump hs hc)]
  | .ret s, hc =>
    obtain ⟨rfl, -⟩ := (hs.mem_ways _).1 hc
    rcases h.saved_cases hs hc with ⟨rfl, hvoid⟩ | ⟨l, rfl, hvoid⟩
    · exact ⟨by simp [Completion.code, Completion.close, Outline.loading, hvoid], rfl, rfl⟩
    · refine ⟨?_, rfl, rfl⟩
      simp [Completion.code, Completion.close, Outline.loading, hvoid, Instr.mapLocals,
        locals_saved hs rfl]
  | .rethrow l, hc =>
    cases (hs.mem_ways _).1 hc
    refine ⟨?_, rfl, rfl⟩
    simp only [Completion.code, Completion.close, map_cons, map_nil, Instr.mapLocals,
      locals_caught]

include hi hr

/-- What the copies of a body read as. -/
theorem named_copy {j x : Nat} (hj : ways[j]? = some c)
    (hx : (n.cleanupBody r.handler)[x]? = some s) :
    G.added (c.spot ν i (ν s)) = some ((n.copiedBlock (n.cleanupBody r.handler)
      (n.copyStart (n.cleanupBody r.handler) j) c x s).named (n.spots ν i r ways)
        (G.locals i saved caught loc)) := by
  have hmem := mem_of_getElem? hx
  have hregion := h.sound_region hr
  have hbody := (Method.cleanupBody_sound h.grows.sound hregion.handler).2
  have hnodup : (n.cleanupBody r.handler).Nodup := Search.nodup_preorder ..
  obtain ⟨-, hhandler⟩ := h.region_eq hi hr
  obtain ⟨k, hk⟩ := exists_block (hbody s hmem)
  -- The first block of the body is the handler.
  have hhead : ν s = G.handler i ↔ x = 0 := by
    have hzero := n.cleanupBody_head r.handler
    constructor
    · intro heq
      have hsr := h.injective s (hbody s hmem) _ hregion.handler (heq.trans hhandler.symm)
      exact (getElem?_inj (List.getElem?_eq_some_iff.1 hx).1 hnodup).1
        ((hsr ▸ hx).trans hzero.symm)
    · rintro rfl
      cases hx.symm.trans hzero
      exact hhandler
  have hinstrs : (if x = 0 then k.instrs.drop 1 else k.instrs).map
      (Instr.mapLocals (G.locals i saved caught loc)) =
        if ν s = G.handler i then (k.named ν loc).instrs.drop 1 else (k.named ν loc).instrs := by
    rw [← h.named_old hs hk]
    simp only [hhead, Block.named]
    split <;> simp
  obtain ⟨hcode, hshape, htargets⟩ := h.named_code hs (mem_of_getElem? hj)
  rw [Completion.added_spot, h.block s k hk, Option.map_some, Option.some.injEq]
  simp only [Stretch.copy, Method.copiedBlock, Method.blockOrStub_of_block? hk, ← hinstrs]
  by_cases hend : k.terminator = .endCleanup
  · have hend' : (k.named ν loc).shape = .endCleanup := Terminator.mapTargets_eq_endCleanup.2 hend
    rw [if_pos hend, if_pos hend']
    simp only [Block.named, map_append, hcode, hshape, htargets]
  · have hend' : (k.named ν loc).shape ≠ .endCleanup := fun heq =>
      hend (Terminator.mapTargets_eq_endCleanup.1 heq)
    rw [if_neg hend, if_neg hend']
    simp only [Block.named, Terminator.successors_mapTargets, List.map_map,
      Terminator.mapTargets_mapTargets]
    -- A body is closed under jumps, so every target has a copy.
    have hsucc : ∀ t ∈ k.terminator.successors, (c.spot ν i ∘ ν) t =
        (n.spots ν i r ways ∘ Method.copyOf (n.cleanupBody r.handler)
          (n.copyStart (n.cleanupBody r.handler) j)) t := by
      intro t ht
      obtain ⟨y, hy⟩ := mem_iff_getElem?.1 (Method.mem_cleanupBody_next hmem hk ht)
      simp only [Function.comp, Method.copyOf_eq hnodup _ hy, n.spots_copy hj hy]
    rw [map_congr_left hsucc]
    rfl

theorem adds_spot (hc : c ∈ ways) (hmem : s ∈ n.cleanupBody r.handler) :
    G.Adds i (c.spot ν i (ν s)) := by
  have hbody := (Method.cleanupBody_sound h.grows.sound (h.sound_region hr).handler).2
  have hx := (h.mem_body_iff hi hr (hbody s hmem)).1 hmem
  have hway := (hs.mem_ways c).1 hc
  match c, hway with
  | .jump t, ⟨b, hb, ht, hout⟩ => exact ⟨rfl, (h.exits_iff hr).2 ⟨b, hb, t, ht, hout, rfl⟩, hx⟩
  | .ret _, ⟨_, hret⟩ => exact ⟨rfl, (h.returns_iff hr).2 hret, hx⟩
  | .rethrow _, _ => exact ⟨rfl, hx⟩

include hkind

/-- What is added has a block. -/
theorem exists_of_adds {a : Spot} (ha : G.Adds i a) :
    ∃ b < n'.blocks.length, n.spots ν i r ways b = a := by
  have hregion := h.sound_region hr
  have hlen := hs.length
  -- A copy of a block of the body for a way out.
  have copied : ∀ {c : Completion} {x : Spot}, c ∈ ways → G.Body i x →
      ∃ b < n'.blocks.length, n.spots ν i r ways b = c.spot ν i x := by
    intro c x hc hx
    obtain ⟨k, hk⟩ := hx.exists_block h.proper hkind
    obtain ⟨b, hb, rfl⟩ := h.onto x k hk
    obtain ⟨j, hj⟩ := mem_iff_getElem?.1 hc
    obtain ⟨y, hy⟩ := mem_iff_getElem?.1 ((h.mem_body_iff hi hr hb).2 hx)
    have hlast := (hs.copies j c hj).last
    have hlt := (List.getElem?_eq_some_iff.1 hy).1
    exact ⟨_, by omega, n.spots_copy hj hy⟩
  cases a with
  | given => exact ha.elim
  | onward j t x =>
    obtain ⟨rfl, hexits, hx⟩ := ha
    obtain ⟨b, hb, u, hu, hout, rfl⟩ := (h.exits_iff hr).1 hexits
    exact copied ((hs.mem_ways (.jump u)).2 ⟨b, hb, hu, hout⟩) hx
  | returning j x =>
    obtain ⟨rfl, hreturns, hx⟩ := ha
    exact copied ((hs.mem_ways (.ret saved)).2 ⟨rfl, (h.returns_iff hr).1 hreturns⟩) hx
  | rethrowing j x =>
    obtain ⟨rfl, hx⟩ := ha
    exact copied ((hs.mem_ways (.rethrow caught)).2 rfl) hx
  | rescue j =>
    cases (ha : j = i)
    exact ⟨_, by omega, Method.spots_handler⟩

omit hi hr hs in
theorem maker?_old (hb : b < n.blocks.length) : (ν b).maker? ≠ some i := by
  obtain ⟨k, hk⟩ := exists_block hb
  exact h.proper.unmade (h.block b k hk) hkind

omit h hi hr hkind in
theorem maker?_new (hb : b < n'.blocks.length) (hge : ¬ b < n.blocks.length) :
    (n.spots ν i r ways b).maker? = some i := by
  rcases hs.block_cases hb with hlt | ⟨j, c, x, s, hj, hx, rfl⟩ | rfl
  · exact absurd hlt hge
  · rw [n.spots_copy hj hx, c.maker?_spot]
  · rw [Method.spots_handler]
    rfl

omit hi hkind in
/-- The names of copies tell the way out and the block that was copied. -/
theorem spot_inj {c' : Completion} {s' : Nat} (hc : c ∈ ways) (hc' : c' ∈ ways)
    (hmem : s ∈ n.cleanupBody r.handler) (hmem' : s' ∈ n.cleanupBody r.handler)
    (heq : c.spot ν i (ν s) = c'.spot ν i (ν s')) : c = c' ∧ s = s' := by
  have hbody := (Method.cleanupBody_sound h.grows.sound (h.sound_region hr).handler).2
  -- The block that was copied is read off the name; the way out is the constructor and its target.
  have hsource : ν s = ν s' := by
    rw [← c.source_spot G ν i (ν s), heq, c'.source_spot]
  refine ⟨?_, h.injective s (hbody s hmem) s' (hbody s' hmem') hsource⟩
  have hway := (hs.mem_ways c).1 hc
  have hway' := (hs.mem_ways c').1 hc'
  match c, c', heq, hc, hc', hway, hway' with
  | .jump t, .jump t', heq, hc, hc', _, _ =>
    have htt := (Spot.onward.inj heq).2.1
    exact congrArg _ (h.injective t (h.lt_of_jump hs hc) t' (h.lt_of_jump hs hc') htt)
  | .ret _, .ret _, _, _, _, ⟨h₁, _⟩, ⟨h₂, _⟩ => exact congrArg _ (h₁.trans h₂.symm)
  | .rethrow _, .rethrow _, _, _, _, h₁, h₂ => exact congrArg _ (Eq.trans h₁ (Eq.symm h₂))

omit hi in
/-- **Different blocks of the expansion have different names.** -/
theorem injective_spots : ∀ b < n'.blocks.length, ∀ b' < n'.blocks.length,
    n.spots ν i r ways b = n.spots ν i r ways b' → b = b' := by
  have hnodup : (n.cleanupBody r.handler).Nodup := Search.nodup_preorder ..
  intro b hb b' hb' heq
  -- A block of the method has no maker among the regions that are still to be expanded; a new block
  -- was made by region `i`.
  by_cases hlt : b < n.blocks.length
  · have hmaker := h.maker?_old hkind hlt
    rw [Method.spots_old hlt] at heq
    by_cases hlt' : b' < n.blocks.length
    · rw [Method.spots_old hlt'] at heq
      exact h.injective b hlt b' hlt' heq
    · exact absurd (heq ▸ maker?_new hs hb' hlt') hmaker
  by_cases hlt' : b' < n.blocks.length
  · rw [Method.spots_old hlt'] at heq
    exact absurd (heq ▸ maker?_new hs hb hlt) (h.maker?_old hkind hlt')
  rcases hs.block_cases hb with hold | ⟨j, c, x, s, hj, hx, rfl⟩ | rfl
  · exact absurd hold hlt
  · rcases hs.block_cases hb' with hold | ⟨j', c', x', s', hj', hx', rfl⟩ | rfl
    · exact absurd hold hlt'
    · rw [n.spots_copy hj hx, n.spots_copy hj' hx'] at heq
      obtain ⟨rfl, rfl⟩ := h.spot_inj hr hs (mem_of_getElem? hj) (mem_of_getElem? hj')
        (mem_of_getElem? hx) (mem_of_getElem? hx') heq
      have hjj := (getElem?_inj (List.getElem?_eq_some_iff.1 hj).1 hs.nodup).1
        (hj.trans hj'.symm)
      have hxx := (getElem?_inj (List.getElem?_eq_some_iff.1 hx).1 hnodup).1
        (hx.trans hx'.symm)
      rw [hjj, hxx]
    · rw [n.spots_copy hj hx, Method.spots_handler] at heq
      cases c <;> cases heq
  · rcases hs.block_cases hb' with hold | ⟨j', c', x', s', hj', hx', rfl⟩ | rfl
    · exact absurd hold hlt'
    · rw [n.spots_copy hj' hx', Method.spots_handler] at heq
      cases c' <;> cases heq
    · rfl

/-! ### What the blocks of an expansion read as -/

/-- A block of the method, its ways out of the region led through copies. -/
theorem block_old (hb : b < n.blocks.length) {k' : Block} (hk' : n'.block? b = some k') :
    (G.expand i).block (ν b) =
      some (k'.named (n.spots ν i r ways) (G.locals i saved caught loc)) := by
  obtain ⟨-, hhandler⟩ := h.region_eq hi hr
  by_cases hin : b ∈ r.blocks
  · have hcov := (h.mem_blocks_iff hr hb).1 hin
    rw [Outline.block_expand_of_ne (h.maker?_old hkind hb)]
    cases hs.routed b hin with
    | ret hk hret hj hblock =>
      rename_i k saved' j
      cases hk'.symm.trans hblock
      obtain ⟨rfl, -⟩ := (hs.mem_ways _).1 (mem_of_getElem? hj)
      have hret' : (k.named ν loc).shape = .ret := Terminator.mapTargets_eq_ret.2 hret
      have hstore : (saved'.map Instr.store).toList.map
          (Instr.mapLocals (G.locals i saved' caught loc)) = G.storing i := by
        rcases h.saved_cases hs (mem_of_getElem? hj) with ⟨rfl, hvoid⟩ | ⟨l, rfl, hvoid⟩
        · simp [Outline.storing, hvoid]
        · simp [Outline.storing, hvoid, Instr.mapLocals, locals_saved hs rfl]
      have hinstrs := congrArg Stretch.instrs (h.named_old hs hk)
      rw [h.block b k hk, Option.map_some, Outline.redirect, Stretch.leave,
        if_neg (not_not_intro hcov), if_pos hret', Option.some.injEq, ← hinstrs, ← hstore]
      simp only [Block.named, map_append, Terminator.mapTargets, Terminator.successors,
        map_cons, map_nil, n.spots_start hj, Completion.spot, hhandler]
    | jumps hk hret hroute hroutes hblock =>
      rename_i k route
      cases hk'.symm.trans hblock
      have hret' : (k.named ν loc).shape ≠ .ret := fun heq =>
        hret (Terminator.mapTargets_eq_ret.1 heq)
      have hinstrs := congrArg Stretch.instrs (h.named_old hs hk)
      rw [h.block b k hk, Option.map_some, Outline.redirect, Stretch.leave,
        if_neg (not_not_intro hcov), if_neg hret', Option.some.injEq, ← hinstrs]
      simp only [Block.named, Terminator.successors_mapTargets, List.map_map,
        Terminator.mapTargets_mapTargets]
      refine (Stretch.mk.injEq ..).mpr ⟨rfl, rfl, map_congr_left fun t ht => ?_⟩
      have hlt := (h.sound_block hk).targets t ht
      simp only [Function.comp]
      by_cases hstay : t ∈ r.blocks
      · rw [if_pos ((h.mem_blocks_iff hr hlt).1 hstay), hroute t ht hstay, Method.spots_old hlt]
      · obtain ⟨j, hj, hjt⟩ := hroutes t ht hstay
        rw [if_neg fun hcov => hstay ((h.mem_blocks_iff hr hlt).2 hcov), hjt, n.spots_start hj,
          Completion.spot, hhandler]
  · have hk : n.block? b = some k' := (hs.expanded.kept b hb hin).symm.trans hk'
    rw [h.proper.block_expand hkind (h.block b k' hk)
        fun hcov => hin ((h.mem_blocks_iff hr hb).2 hcov),
      h.named_old hs hk]

omit hkind in
theorem block_rescue {k' : Block} (hk' : n'.block? (n.handlerAt r ways) = some k') :
    (G.expand i).block (.rescue i) =
      some (k'.named (n.spots ν i r ways) (G.locals i saved caught loc)) := by
  obtain ⟨-, hhandler⟩ := h.region_eq hi hr
  obtain ⟨j, take, hj, htake, hblock⟩ := hs.rescue
  cases hk'.symm.trans hblock
  have hdeclared := Method.takeException?_sound h.grows.sound (h.sound_region hr).handler htake
  have htake' : take.map (Instr.mapLocals (G.locals i saved caught loc)) =
      take.map (Instr.mapLocals loc) :=
    map_congr_left fun x hx => Instr.mapLocals_congr fun l hl =>
      locals_old hs ((hdeclared x hx).2 l hl)
  rw [Outline.block_expand_of_eq rfl, if_pos (show G.Adds i (.rescue i) from rfl), Outline.added,
    h.taken_eq hi hr, htake, Option.map_some, Option.map_some, ← htake']
  simp only [Block.named, map_append, map_cons, map_nil, Instr.mapLocals,
    locals_caught, Terminator.mapTargets, Terminator.successors, n.spots_start hj, Completion.spot,
    hhandler]

/-- **What the blocks of the expansion read as.** -/
theorem block_expand (b : Nat) (k' : Block) (hk' : n'.block? b = some k') :
    (G.expand i).block (n.spots ν i r ways b) =
      some (k'.named (n.spots ν i r ways) (G.locals i saved caught loc)) := by
  rcases hs.block_cases (List.getElem?_eq_some_iff.1 hk').1 with hlt |
    ⟨j, c, x, s, hj, hx, rfl⟩ | rfl
  · rw [Method.spots_old hlt]
    exact h.block_old hi hr hkind hs hlt hk'
  · cases hk'.symm.trans ((hs.copies j c hj).blocks x s hx)
    have hadds := h.adds_spot hi hr hs (mem_of_getElem? hj) (mem_of_getElem? hx)
    rw [n.spots_copy hj hx, Outline.block_expand_of_eq (c.maker?_spot ν i _), if_pos hadds]
    exact h.named_copy hi hr hs hj hx
  · rw [Method.spots_handler]
    exact h.block_rescue hi hr hs hk'

theorem onto_expand (a : Spot) (k : Stretch) (hk : (G.expand i).block a = some k) :
    ∃ b < n'.blocks.length, n.spots ν i r ways b = a := by
  by_cases hmaker : a.maker? = some i
  · rw [Outline.block_expand_of_eq hmaker] at hk
    split at hk
    · rename_i hadds
      exact h.exists_of_adds hi hr hkind hs hadds
    · cases hk
  · rw [Outline.block_expand_of_ne hmaker] at hk
    obtain ⟨k₀, hk₀, -⟩ := Option.map_eq_some_iff.1 hk
    obtain ⟨b, hb, rfl⟩ := h.onto a k₀ hk₀
    exact ⟨b, Nat.lt_of_lt_of_le hb hs.expanded.grows.size, Method.spots_old hb⟩

/-- **The regions of the expansion.** -/
theorem covers_expand (j b : Nat) (hb : b < n'.blocks.length) :
    n'.Covers (pos j) b ↔ (G.expand i).covers j (n.spots ν i r ways b) := by
  have hregion := h.sound_region hr
  have hbody := (Method.cleanupBody_sound h.grows.sound hregion.handler).2
  rcases hs.block_cases hb with hlt | ⟨l, c, x, s, hl, hx, rfl⟩ | rfl
  · rw [Method.spots_old hlt, Outline.covers_expand_of_ne (h.maker?_old hkind hlt),
      hs.expanded.covers (pos j) b hlt, h.covers j b hlt]
  · have hmem := mem_of_getElem? hx
    have hadds := h.adds_spot hi hr hs (mem_of_getElem? hl) hmem
    rw [n.spots_copy hl hx, Outline.covers_expand_of_eq (c.maker?_spot ν i _), c.source_spot,
      (hs.copies l c hl).covers (pos j) x s hx, h.covers j s (hbody s hmem)]
    exact (and_iff_right hadds).symm
  · obtain ⟨-, hhandler⟩ := h.region_eq hi hr
    rw [Method.spots_handler, Outline.covers_expand_of_eq rfl, hs.covers (pos j),
      h.covers j _ hregion.handler, hhandler]
    exact (and_iff_right rfl).symm

omit h hi hr hkind in
theorem mem_localIds (hl : l ∈ n'.localIds) : l ∈ n.localIds ∨ saved = some l ∨ l = caught := by
  rw [hs.locals, append_assoc, mem_append, mem_append, mem_singleton,
    Option.mem_toList] at hl
  exact hl

omit h hi hr hkind in
theorem length_regions : n'.regions.length = n.regions.length := by
  have hlen := congrArg List.length hs.entries
  simpa only [Method.entries, length_map, length_set] using hlen

theorem table_expand (j : Nat) (hj : j < m.regions.length) : ∃ r', n'.regions[pos j]? = some r' ∧
    r'.kind = (G.expand i).kind j ∧ n.spots ν i r ways r'.handler = (G.expand i).handler j := by
  obtain ⟨r₀, hr₀, hkind₀, hhandler₀⟩ := h.table j hj
  have hlt : pos j < n'.regions.length := by
    rw [length_regions hs]
    exact (List.getElem?_eq_some_iff.1 hr₀).1
  have hr' : n'.regions[pos j]? = some n'.regions[pos j] := List.getElem?_eq_getElem hlt
  have hentry : n'.entries[pos j]? = some (n'.regions[pos j].handler, n'.regions[pos j].kind) := by
    simp [Method.entries, hr']
  refine ⟨_, hr', ?_⟩
  rw [hs.entries] at hentry
  by_cases hji : j = i
  · subst hji
    have hlt' : pos j < n.entries.length := by
      simpa [Method.entries] using (List.getElem?_eq_some_iff.1 hr₀).1
    rw [getElem?_set_self hlt', Option.some.injEq, Prod.mk.injEq] at hentry
    rw [← hentry.1, ← hentry.2, Method.spots_handler]
    exact ⟨Outline.kind_expand_self.symm, (if_pos rfl).symm⟩
  · have hne : pos i ≠ pos j := fun heq => hji (h.apart i hi j hj heq).symm
    rw [getElem?_set_ne hne] at hentry
    simp only [Method.entries, getElem?_map, hr₀, Option.map_some, Option.some.injEq,
      Prod.mk.injEq] at hentry
    rw [← hentry.1, ← hentry.2, Outline.kind_expand_of_ne hji, Outline.handler_expand_of_ne hji,
      Method.spots_old (h.sound_region hr₀).handler]
    exact ⟨hkind₀, hhandler₀⟩

omit hi hr in
/-- **The names of the locals of the expansion** are different, and none is kept for a region that
is still to be expanded. -/
theorem locals_expand :
    (∀ l ∈ n'.localIds, ∀ l' ∈ n'.localIds,
      G.locals i saved caught loc l = G.locals i saved caught loc l' → l = l') ∧
    (∀ l ∈ n'.localIds, ∀ j, (G.expand i).kind j = .cleanup →
      G.locals i saved caught loc l ≠ G.saved j ∧ G.locals i saved caught loc l ≠ G.caught j) ∧
    ∀ l ∈ n'.localIds, l ∈ m.localIds ∧ G.locals i saved caught loc l = l ∨
      l ∉ m.localIds ∧ G.base ≤ G.locals i saved caught loc l := by
  have hnew : ∀ l, l ∉ n.localIds → l ∉ m.localIds := fun l hl hm => hl (h.grows.localIds l hm)
  have hfresh : caught ∉ n.localIds := fun hmem => hs.fresh.1 (mem_append_left _ hmem)
  refine ⟨fun l hl l' hl' heq => ?_, fun l hl j hj => ?_, fun l hl => ?_⟩
  -- Old, for the returned value, for the exception: the nine cases in this order.
  · rcases mem_localIds hs hl with hl | hl | rfl <;> rcases mem_localIds hs hl' with hl' | hl' | rfl
    · rw [locals_old hs hl, locals_old hs hl'] at heq
      exact h.locals l hl l' hl' heq
    · rw [locals_old hs hl, locals_saved hs hl'] at heq
      exact absurd heq (h.unused l hl i hkind).1
    · rw [locals_old hs hl, locals_caught] at heq
      exact absurd heq (h.unused l hl i hkind).2
    · rw [locals_saved hs hl, locals_old hs hl'] at heq
      exact absurd heq.symm (h.unused l' hl' i hkind).1
    · exact Option.some.inj (hl.symm.trans hl')
    · rw [locals_saved hs hl, locals_caught, Outline.saved, Outline.caught] at heq
      omega
    · rw [locals_caught, locals_old hs hl'] at heq
      exact absurd heq.symm (h.unused l' hl' i hkind).2
    · rw [locals_caught, locals_saved hs hl', Outline.saved, Outline.caught] at heq
      omega
    · rfl
  · obtain ⟨hji, hj⟩ := Outline.kind_expand_eq_cleanup.1 hj
    rcases mem_localIds hs hl with hl | hl | rfl
    · rw [locals_old hs hl]
      exact h.unused l hl j hj
    · rw [locals_saved hs hl, Outline.saved, Outline.saved, Outline.caught]
      omega
    · rw [locals_caught, Outline.caught, Outline.saved, Outline.caught]
      omega
  · rcases mem_localIds hs hl with hl | hl | rfl
    · rw [locals_old hs hl]
      exact h.named l hl
    · rw [locals_saved hs hl, Outline.saved]
      exact .inr ⟨hnew l (hs.fresh.2 l hl), Nat.le_add_right _ _⟩
    · rw [locals_caught, Outline.caught]
      exact .inr ⟨hnew l hfresh, by omega⟩

/-- The expanded method reads as the expanded outline. -/
theorem reads_spread (hready : G.Ready i) :
    Reads m n' (G.expand i) (n.spots ν i r ways) (G.locals i saved caught loc) pos where
  proper := h.proper.expand hkind hready
  void := h.void
  base := h.base
  grows := h.grows.trans hs.expanded.grows
  entry := hs.expanded.entry.trans h.entry
  given b hb := (Method.spots_old (Nat.lt_of_lt_of_le hb h.grows.size)).trans (h.given b hb)
  injective := h.injective_spots hr hkind hs
  block := h.block_expand hi hr hkind hs
  onto := h.onto_expand hi hr hkind hs
  covers := h.covers_expand hi hr hkind hs
  table := h.table_expand hi hr hkind hs
  apart := h.apart
  listed q hq := h.listed q (length_regions hs ▸ hq)
  locals := (h.locals_expand hkind hs).1
  unused := (h.locals_expand hkind hs).2.1
  named := (h.locals_expand hkind hs).2.2

end Expand

/-! ### One region after the other -/

theorem expandAt_skip (h : Reads m n G ν loc pos) (hi : i < m.regions.length)
    (hkind : G.kind i ≠ .cleanup) : n.expandAt (pos i) = .ok n := by
  obtain ⟨r, hr, hrkind, -⟩ := h.table i hi
  simp only [Method.expandAt, hr, hrkind, if_neg hkind]

theorem expandAt_cleanup (h : Reads m n G ν loc pos) (hi : i < m.regions.length)
    (hkind : G.kind i = .cleanup) : ∃ r, n.regions[pos i]? = some r ∧
      n.expandAt (pos i) = n.expandCleanup (pos i) r := by
  obtain ⟨r, hr, hrkind, -⟩ := h.table i hi
  exact ⟨r, hr, by simp only [Method.expandAt, hr, hrkind, if_pos hkind]⟩

/-- **The expansion of a region reads as the expansion of the outline.** -/
theorem expand (h : Reads m n G ν loc pos) (hi : i < m.regions.length)
    (hkind : G.kind i = .cleanup) (hn : n.expandAt (pos i) = .ok n') :
    G.Ready i ∧ ∃ ν' loc', Reads m n' (G.expand i) ν' loc' pos := by
  obtain ⟨r, hr, heq⟩ := h.expandAt_cleanup hi hkind
  rw [heq] at hn
  have hready :=
    (h.ready_iff hi hr).1 ((Method.exists_expandCleanup_iff h.grows.sound hr).1 ⟨n', hn⟩)
  obtain ⟨ways, saved, caught, hs⟩ := Method.spread_of_expandCleanup h.grows.sound hr hn
  exact ⟨hready, _, _, h.reads_spread hi hr hkind hs hready⟩

theorem exists_expandAt (h : Reads m n G ν loc pos) (hi : i < m.regions.length)
    (hkind : G.kind i = .cleanup) (hready : G.Ready i) : ∃ n', n.expandAt (pos i) = .ok n' := by
  obtain ⟨r, hr, heq⟩ := h.expandAt_cleanup hi hkind
  rw [heq]
  exact (Method.exists_expandCleanup_iff h.grows.sound hr).2 ((h.ready_iff hi hr).2 hready)

/-- **Regions expanded one after the other** read as the outline with these regions expanded. -/
theorem runs {is : List Nat} (h : Reads m n G ν loc pos) (his : ∀ i ∈ is, i < m.regions.length)
    {k : Method} (hk : (is.map pos).foldlM Method.expandAt n = .ok k) :
    ∃ G' ν' loc', G.Runs is G' ∧ Reads m k G' ν' loc' pos := by
  induction is generalizing n G ν loc with
  | nil =>
    cases hk
    exact ⟨G, ν, loc, .nil G, h⟩
  | cons i is ih =>
    have hi := his i mem_cons_self
    have his := fun j hj => his j (mem_cons_of_mem i hj)
    rw [map_cons, foldlM_cons] at hk
    by_cases hkind : G.kind i = .cleanup
    · obtain ⟨n', hn, hk⟩ := bind_eq_ok hk
      obtain ⟨hready, ν', loc', h'⟩ := h.expand hi hkind hn
      obtain ⟨G', ν'', loc'', hruns, hreads⟩ := ih h' his hk
      exact ⟨G', ν'', loc'', .expand hkind hready hruns, hreads⟩
    · simp only [h.expandAt_skip hi hkind, bind, Except.bind] at hk
      obtain ⟨G', ν', loc', hruns, hreads⟩ := ih h his hk
      exact ⟨G', ν', loc', .skip hkind hruns, hreads⟩

theorem exists_foldlM {is : List Nat} {G' : Outline} (h : Reads m n G ν loc pos)
    (his : ∀ i ∈ is, i < m.regions.length) (hruns : G.Runs is G') :
    ∃ k, (is.map pos).foldlM Method.expandAt n = .ok k := by
  induction hruns generalizing n ν loc with
  | nil => exact ⟨n, rfl⟩
  | skip hkind _ ih =>
    obtain ⟨k, hk⟩ := ih h fun j hj => his j (mem_cons_of_mem _ hj)
    refine ⟨k, ?_⟩
    rw [map_cons, foldlM_cons, h.expandAt_skip (his _ mem_cons_self) hkind]
    exact hk
  | expand hkind hready _ ih =>
    obtain ⟨n', hn'⟩ := h.exists_expandAt (his _ mem_cons_self) hkind hready
    obtain ⟨-, ν', loc', h'⟩ := h.expand (his _ mem_cons_self) hkind hn'
    obtain ⟨k, hk⟩ := ih h' fun j hj => his j (mem_cons_of_mem _ hj)
    refine ⟨k, ?_⟩
    rw [map_cons, foldlM_cons, hn']
    exact hk

end Reads

/-! ### The outline of a method -/

/-- **The outline of a method** of which no region is expanded. -/
def Outline.ofMethod (m : Method) : Outline where
  block
    | .given b => (m.block? b).map (Block.named .given id)
    | _ => none
  covers i
    | .given b => m.Covers i b
    | _ => False
  handler i := .given ((m.regions[i]?).elim 0 (·.handler))
  kind i := (m.regions[i]?).elim .catchAll (·.kind)
  void := m.ret.isVoid
  base := m.nextLocal

namespace Outline

variable {m : Method}

theorem kind_ofMethod {i : Nat} {r : Region} (h : m.regions[i]? = some r) :
    (ofMethod m).kind i = r.kind ∧ (ofMethod m).handler i = .given r.handler := by
  simp [ofMethod, h]

theorem exists_block_ofMethod {b : Nat} (hb : b < m.blocks.length) :
    ∃ k, (ofMethod m).block (.given b) = some k :=
  ⟨_, Option.map_eq_some_iff.2 ⟨_, List.getElem?_eq_getElem hb, rfl⟩⟩

theorem block_ofMethod {a : Spot} {k : Stretch} (h : (ofMethod m).block a = some k) :
    ∃ b k', a = .given b ∧ m.block? b = some k' ∧ k = k'.named .given id := by
  cases a with
  | given b =>
    obtain ⟨k', hk', rfl⟩ := Option.map_eq_some_iff.1 h
    exact ⟨b, k', rfl, hk', rfl⟩
  | _ => cases h

theorem proper_ofMethod (h : m.Sound) : (ofMethod m).Proper where
  targets := by
    intro a k t hk ht
    obtain ⟨b, k', rfl, hk', rfl⟩ := block_ofMethod hk
    obtain ⟨u, hu, rfl⟩ := mem_map.1 ht
    exact exists_block_ofMethod ((h.blocks k' (mem_of_getElem? hk')).targets u hu)
  handlers i hi := by
    cases hr : m.regions[i]? with
    | none => simp [ofMethod, hr] at hi
    | some r =>
      rw [(kind_ofMethod hr).2]
      exact exists_block_ofMethod (h.regions r (mem_of_getElem? hr)).handler
  covered := by
    intro i a ha
    cases a with
    | given b => exact exists_block_ofMethod (h.lt_of_covers ha)
    | _ => exact ha.elim
  unmade := by
    intro a k i hk _ hmaker
    obtain ⟨b, k', rfl, -, -⟩ := block_ofMethod hk
    cases hmaker

/-- **A method whose table was put in another order** reads as the outline of the method. -/
theorem reads_ofMethod (h : m.Sound) {n : Method} {pos : Nat → Nat} (hgrows : m.Grows n)
    (hentry : n.entry = m.entry) (hblocks : n.blocks = m.blocks) (hlocals : n.locals = m.locals)
    (hregions : ∀ i, n.regions[pos i]? = m.regions[i]?)
    (hapart : ∀ i < m.regions.length, ∀ j < m.regions.length, pos i = pos j → i = j)
    (hlisted : ∀ q < n.regions.length, ∃ i < m.regions.length, pos i = q) :
    Reads m n (ofMethod m) .given id pos where
  proper := proper_ofMethod h
  void := rfl
  base := rfl
  grows := hgrows
  entry := hentry
  given _ _ := rfl
  injective _ _ _ _ heq := Spot.given.inj heq
  block b k hk := by
    rw [Method.block?, hblocks] at hk
    exact Option.map_eq_some_iff.2 ⟨k, hk, rfl⟩
  onto a k hk := by
    obtain ⟨b, k', rfl, hk', -⟩ := block_ofMethod hk
    exact ⟨b, hblocks ▸ (List.getElem?_eq_some_iff.1 hk').1, rfl⟩
  covers i b _ := by
    simp only [Method.Covers, hregions]
    rfl
  table i hi := by
    obtain ⟨hkind, hhandler⟩ := kind_ofMethod (List.getElem?_eq_getElem hi)
    exact ⟨_, (hregions i).trans (List.getElem?_eq_getElem hi), hkind.symm, hhandler.symm⟩
  apart := hapart
  listed := hlisted
  locals _ _ _ _ heq := heq
  unused l hl i _ := by
    have hlt : l < (ofMethod m).base := Method.lt_nextLocal (by rwa [Method.localIds, ← hlocals])
    rw [saved, caught, id]
    omega
  named l hl := .inl ⟨by rwa [Method.localIds, ← hlocals], rfl⟩

end Outline

end Resumable
