/-
**What the expansion of a cleanup region leaves behind.**

Expanding a cleanup region copies its body once for every exit of the region and leads the exits
through the copies.  This module says what the expanded method looks like, independently of the
order in which the copies are made: every block outside the region is as before, every way out of a
block of the region goes to a copy of the body that goes on in the right way, exceptions go to a
handler that keeps the exception and runs a copy that throws it again, and a copied block lies in
the regions in which the block that it was copied from lies.

Main results:

* `Method.expanded_of_expandCleanup` — **one region expanded**.
-/

import Resumable.Proofs.References

set_option autoImplicit false

namespace Resumable

open List

namespace Terminator

theorem mapTargets_id (t : Terminator) : t.mapTargets id = t := by
  cases t <;> simp [mapTargets]

@[simp] theorem mapTargets_mapTargets (f g : Nat → Nat) (t : Terminator) :
    (t.mapTargets f).mapTargets g = t.mapTargets (g ∘ f) := by
  cases t <;> simp [mapTargets]

@[simp] theorem mapTargets_eq_endCleanup {f : Nat → Nat} {t : Terminator} :
    t.mapTargets f = .endCleanup ↔ t = .endCleanup := by
  cases t <;> simp [mapTargets]

@[simp] theorem mapTargets_eq_ret {f : Nat → Nat} {t : Terminator} :
    t.mapTargets f = .ret ↔ t = .ret := by
  cases t <;> simp [mapTargets]

end Terminator

namespace Method

/-! ### The exception table by positions -/

/-- The region at position `k` of the table covers the block. -/
def Covers (m : Method) (k b : Nat) : Prop := ∃ r, m.regions[k]? = some r ∧ b ∈ r.blocks

/-- The handlers and kinds of the regions. -/
def entries (m : Method) : List (Nat × RegionKind) := m.regions.map fun r => (r.handler, r.kind)

variable {m n n' : Method} {b : Nat} {body : List Nat}

theorem covers_iff {k : Nat} {r : Region} (h : m.regions[k]? = some r) (b : Nat) :
    m.Covers k b ↔ b ∈ r.blocks := by
  constructor
  · rintro ⟨r', hr', hb⟩
    rw [h] at hr'
    cases hr'
    exact hb
  · exact fun hb => ⟨r, h, hb⟩

theorem Sound.lt_of_covers (h : m.Sound) {k : Nat} (hb : m.Covers k b) : b < m.blocks.length := by
  obtain ⟨r, hr, hb⟩ := hb
  exact (h.regions r (mem_of_getElem? hr)).covered b hb

/-- `n'` has the blocks of `n` from number `size` on, and all blocks of `n` lie in the regions in
which they lie in `n`. -/
structure Keeps (size : Nat) (n n' : Method) : Prop where
  length : n.blocks.length ≤ n'.blocks.length
  blocks : ∀ b, size ≤ b → b < n.blocks.length → n'.block? b = n.block? b
  covers : ∀ k b, b < n.blocks.length → (n'.Covers k b ↔ n.Covers k b)

theorem Keeps.refl (size : Nat) (n : Method) : n.Keeps size n :=
  ⟨Nat.le_refl _, fun _ _ _ => rfl, fun _ _ _ => Iff.rfl⟩

theorem Keeps.trans {size : Nat} {n'' : Method} (h : Keeps size n n') (h' : Keeps size n' n'') :
    Keeps size n n'' where
  length := Nat.le_trans h.length h'.length
  blocks b hsize hb :=
    (h'.blocks b hsize (Nat.lt_of_lt_of_le hb h.length)).trans (h.blocks b hsize hb)
  covers k b hb := (h'.covers k b (Nat.lt_of_lt_of_le hb h.length)).trans (h.covers k b hb)

theorem Keeps.mono {size size' : Nat} (h : Keeps size n n') (hle : size ≤ size') :
    Keeps size' n n' :=
  ⟨h.length, fun b hb => h.blocks b (Nat.le_trans hle hb), h.covers⟩

/-! ### Copies -/

/-- **A copy of a body of `m` stands in `n`** from block `base` on: where the body ends the copy
goes on with `c`, and a copied block lies in the regions of the block it was copied from. -/
structure HasCopy (m n : Method) (body : List Nat) (base : Nat) (c : Completion) : Prop where
  fresh : m.blocks.length ≤ base
  last : base + body.length ≤ n.blocks.length
  blocks : ∀ j b, body[j]? = some b → n.block? (base + j) = some (m.copiedBlock body base c j b)
  covers : ∀ k j b, body[j]? = some b → (n.Covers k (base + j) ↔ m.Covers k b)

theorem HasCopy.keeps {base : Nat} {c : Completion} (h : HasCopy m n body base c)
    (hn : n.Keeps m.blocks.length n') : HasCopy m n' body base c where
  fresh := h.fresh
  last := Nat.le_trans h.last hn.length
  blocks j b hj := by
    have hlt := (List.getElem?_eq_some_iff.1 hj).1
    have := h.last
    have := h.fresh
    exact (hn.blocks _ (by omega) (by omega)).trans (h.blocks j b hj)
  covers k j b hj := by
    have hlt := (List.getElem?_eq_some_iff.1 hj).1
    have := h.last
    exact (hn.covers k _ (by omega)).trans (h.covers k j b hj)

theorem copyOf_eq (hbody : body.Nodup) (base : Nat) {j : Nat} (hj : body[j]? = some b) :
    copyOf body base b = base + j := by
  obtain ⟨hlt, rfl⟩ := List.getElem?_eq_some_iff.1 hj
  rw [copyOf, if_pos (List.getElem_mem hlt), hbody.idxOf_getElem]

theorem le_copyOf {base : Nat} (hb : b ∈ body) : base ≤ copyOf body base b := by
  rw [copyOf, if_pos hb]
  omega

/-- The table of a method to whose regions the images of blocks were added. -/
theorem covers_inherit (m : Method) (index : Nat) (body : List Nat) (image : Nat → Nat)
    (k b : Nat) :
    (m.inherit index body image).Covers k b ↔
      m.Covers k b ∨ k ≠ index ∧ ∃ b' ∈ body, m.Covers k b' ∧ image b' = b := by
  cases hr : m.regions[k]? with
  | none => simp [Covers, inherit, hr]
  | some r =>
    have hr' : (m.inherit index body image).regions[k]? = some (if k = index then r else
        { r with blocks := r.blocks.insertMany ((body.filter (· ∈ r.blocks)).map image) }) := by
      simp [inherit, getElem?_mapIdx, hr]
    rw [covers_iff hr', covers_iff hr]
    by_cases hk : k = index
    · simp [hk]
    · rw [if_neg hk]
      simp only [IdSet.mem_insertMany, mem_map, mem_filter, hk, ne_eq,
        not_false_eq_true, true_and, decide_eq_true_eq, covers_iff hr]
      constructor
      · rintro (⟨b', ⟨hb', hmem⟩, himage⟩ | hb)
        · exact .inr ⟨b', hb', hmem, himage⟩
        · exact .inl hb
      · rintro (hb | ⟨b', hb', hmem, himage⟩)
        · exact .inr hb
        · exact .inl ⟨b', ⟨hb', hmem⟩, himage⟩

@[simp] theorem entries_inherit (m : Method) (index : Nat) (body : List Nat) (image : Nat → Nat) :
    (m.inherit index body image).entries = m.entries := by
  apply ext_getElem?
  intro k
  simp only [entries, inherit, getElem?_map, getElem?_mapIdx, Option.map_map]
  congr 1
  funext r
  simp only [Function.comp]
  split <;> rfl

@[simp] theorem listed_copyBody (m : Method) (index : Nat) (body : List Nat) (c : Completion) :
    (m.copyBody index body c).regions[index]? = m.regions[index]? := by
  simp [copyBody, inherit, getElem?_mapIdx]

@[simp] theorem entries_copyBody (m : Method) (index : Nat) (body : List Nat) (c : Completion) :
    (m.copyBody index body c).entries = m.entries :=
  entries_inherit m index body _

theorem keeps_copyBody (index : Nat) (body : List Nat) (c : Completion) :
    n.Keeps 0 (n.copyBody index body c) where
  length := by simp [copyBody]
  blocks b _ hb := by
    simp only [block?, copyBody]
    exact getElem?_append_left hb
  covers k b hb := by
    refine (covers_inherit n index body (copyOf body n.blocks.length) k b).trans ?_
    constructor
    · rintro (h | ⟨_, b', hb', _, rfl⟩)
      · exact h
      · have hle : n.blocks.length ≤ copyOf body n.blocks.length b' := le_copyOf hb'
        omega
    · exact .inl

/-- **Copying a body** makes a copy, if the body is still as it was in `m`. -/
theorem hasCopy_copyBody (hn : n.Sound) (hle : m.blocks.length ≤ n.blocks.length) {index : Nat}
    (hbody : body.Nodup) (hblocks : ∀ b ∈ body, n.blockOrStub b = m.blockOrStub b)
    (hcovers : ∀ k, ∀ b ∈ body, n.Covers k b ↔ m.Covers k b)
    (hapart : ∀ b ∈ body, ¬ m.Covers index b) (c : Completion) :
    HasCopy m (n.copyBody index body c) body n.blocks.length c where
  fresh := hle
  last := by simp [copyBody]
  blocks j b hj := by
    have hb := mem_of_getElem? hj
    have hcopied : n.copiedBlock body n.blocks.length c j b =
        m.copiedBlock body n.blocks.length c j b := by
      simp only [copiedBlock, hblocks b hb]
    simp only [block?, copyBody]
    rw [getElem?_append_right (Nat.le_add_right _ _), Nat.add_sub_cancel_left,
      getElem?_mapIdx, hj, Option.map_some, hcopied]
  covers k j b hj := by
    have hb := mem_of_getElem? hj
    refine (covers_inherit n index body (copyOf body n.blocks.length) k _).trans ?_
    constructor
    · rintro (h | ⟨_, b', hb', hcov, himage⟩)
      · have := hn.lt_of_covers h
        omega
      · obtain ⟨j', hj'⟩ := mem_iff_getElem?.1 hb'
        rw [copyOf_eq hbody _ hj'] at himage
        have hjj : j' = j := by omega
        subst hjj
        rw [hj] at hj'
        cases hj'
        exact (hcovers k b hb).1 hcov
    · intro h
      refine .inr ⟨?_, b, hb, (hcovers k b hb).2 h, copyOf_eq hbody _ hj⟩
      rintro rfl
      exact hapart b hb h

/-! ### Locals that save a value -/

theorem lt_nextLocal {l : Nat} (h : l ∈ m.localIds) : l < m.nextLocal := by
  have hfold : ∀ (ls : List Local) (n : Nat), n ≤ ls.foldl (fun n l => max n (l.id + 1)) n ∧
      ∀ l ∈ ls, l.id < ls.foldl (fun n l => max n (l.id + 1)) n := by
    intro ls
    induction ls with
    | nil => exact fun n => ⟨Nat.le_refl n, fun l hl => by simp at hl⟩
    | cons x xs ih =>
      intro n
      obtain ⟨hle, hlt⟩ := ih (max n (x.id + 1))
      rw [foldl_cons]
      refine ⟨by omega, ?_⟩
      intro l hl
      rcases mem_cons.1 hl with rfl | hl
      · omega
      · exact hlt l hl
  obtain ⟨v, hv, rfl⟩ := mem_map.1 h
  exact (hfold m.locals 0).2 v hv

theorem not_mem_nextLocal (m : Method) : m.nextLocal ∉ m.localIds :=
  fun h => Nat.lt_irrefl _ (lt_nextLocal h)

theorem keeps_addSaved (n : Method) (name : String) (ty : Ty) :
    n.Keeps 0 (n.addSaved name ty).1 :=
  ⟨Nat.le_refl _, fun _ _ _ => rfl, fun _ _ _ => Iff.rfl⟩

theorem Grows.addSaved_not_mem (h : m.Grows n) (name : String) (ty : Ty) :
    (n.addSaved name ty).2 ∉ m.localIds :=
  fun hl => n.not_mem_nextLocal (h.localIds _ hl)

/-! ### The ways out of a block -/

/-- A copy that returns.  The returned value is saved in a local that `m` does not have, unless the
method returns nothing. -/
structure HasReturn (m n : Method) (body : List Nat) (saved : Option Nat) (copy : Nat) : Prop where
  copy : HasCopy m n body copy (.ret saved)
  saves : saved = none ↔ m.ret.isVoid = true
  fresh : ∀ l, saved = some l → l ∉ m.localIds

/-- **The ways out of a block of the region lead through copies of the body**: a return through one
that returns, and a jump out of the region through one that jumps on. -/
inductive Led (m n : Method) (region : Region) (body : List Nat) (b : Nat) : Prop where
  | ret {k : Block} {saved : Option Nat} {copy : Nat} :
      m.block? b = some k → k.terminator = .ret → HasReturn m n body saved copy →
      n.block? b = some { k with
        instrs := k.instrs ++ (saved.map Instr.store).toList, terminator := .goto copy } →
      Led m n region body b
  | jumps {k : Block} {route : Nat → Nat} :
      m.block? b = some k → k.terminator ≠ .ret →
      (∀ t ∈ k.terminator.successors, t ∈ region.blocks → route t = t) →
      (∀ t ∈ k.terminator.successors, t ∉ region.blocks →
        HasCopy m n body (route t) (.jump t)) →
      n.block? b = some { k with terminator := k.terminator.mapTargets route } →
      Led m n region body b

/-- The block leaves the region in the given way; a return whatever local saves its value. -/
def LeavesBy (m : Method) (region : Region) (b : Nat) : Completion → Prop
  | .jump t => t ∈ m.normalExits b ∧ t ∉ region.blocks
  | .ret _ => (m.blockOrStub b).terminator = .ret
  | .rethrow _ => False

/-- The start of the copy for the way out at position `j`. -/
def copyStart (m : Method) (body : List Nat) (j : Nat) : Nat := m.blocks.length + j * body.length

/-- The ways out of a block of the region lead through the copies for them. -/
inductive Routed (m n : Method) (region : Region) (body : List Nat) (ways : List Completion)
    (b : Nat) : Prop where
  | ret {k : Block} {saved : Option Nat} {j : Nat} :
      m.block? b = some k → k.terminator = .ret → ways[j]? = some (.ret saved) →
      n.block? b = some { k with
        instrs := k.instrs ++ (saved.map Instr.store).toList
        terminator := .goto (m.copyStart body j) } →
      Routed m n region body ways b
  | jumps {k : Block} {route : Nat → Nat} :
      m.block? b = some k → k.terminator ≠ .ret →
      (∀ t ∈ k.terminator.successors, t ∈ region.blocks → route t = t) →
      (∀ t ∈ k.terminator.successors, t ∉ region.blocks →
        ∃ j, ways[j]? = some (.jump t) ∧ route t = m.copyStart body j) →
      n.block? b = some { k with terminator := k.terminator.mapTargets route } →
      Routed m n region body ways b

variable {region : Region} {ways : List Completion}

theorem Routed.lt (h : Routed m n region body ways b) : b < m.blocks.length := by
  cases h with
  | ret hk | jumps hk => exact (List.getElem?_eq_some_iff.1 hk).1

/-- Later copies change nothing for the blocks that are routed. -/
theorem Routed.mono {ways' : List Completion} (h : Routed m n region body ways b)
    (hways : ways <+: ways') (hb : n'.block? b = n.block? b) :
    Routed m n' region body ways' b := by
  have hmono : ∀ {j : Nat} {c : Completion}, ways[j]? = some c → ways'[j]? = some c :=
    fun hj => by
      obtain ⟨rest, rfl⟩ := hways
      rw [getElem?_append_left (List.getElem?_eq_some_iff.1 hj).1, hj]
  cases h with
  | ret hk hret hj hblock => exact .ret hk hret (hmono hj) (hb.trans hblock)
  | jumps hk hret hin hout hblock =>
    refine .jumps hk hret hin (fun t ht hmem => ?_) (hb.trans hblock)
    obtain ⟨j, hj, hroute⟩ := hout t ht hmem
    exact ⟨j, hmono hj, hroute⟩

/-- What a copy that returns saves its value in. -/
def Saves (m : Method) (saved : Option Nat) : Prop :=
  (saved = none ↔ m.ret.isVoid = true) ∧ ∀ l, saved = some l → l ∉ m.localIds

theorem Routed.led (h : Routed m n region body ways b)
    (hcopies : ∀ j c, ways[j]? = some c → HasCopy m n body (m.copyStart body j) c)
    (hsaves : ∀ saved, .ret saved ∈ ways → m.Saves saved) : Led m n region body b := by
  cases h with
  | ret hk hret hj hblock =>
    obtain ⟨hvoid, hfresh⟩ := hsaves _ (mem_of_getElem? hj)
    exact .ret hk hret ⟨hcopies _ _ hj, hvoid, hfresh⟩ hblock
  | jumps hk hret hin hout hblock =>
    refine .jumps hk hret hin (fun t ht hmem => ?_) hblock
    obtain ⟨j, hj, hroute⟩ := hout t ht hmem
    exact hroute ▸ hcopies j _ hj

end Method

/-! ### A region being expanded -/

namespace Expansion

/-- **The copies made so far** stand one after the other behind the blocks of the method, one for
each of the given ways out. -/
structure Laid (m : Method) (region : Region) (body : List Nat) (e : Expansion)
    (ways : List Completion) : Prop where
  length : e.method.blocks.length = m.copyStart body ways.length
  nodup : ways.Nodup
  copies : ∀ j c, ways[j]? = some c → m.HasCopy e.method body (m.copyStart body j) c
  jumps : ∀ t a, e.jumps.lookup t = some a ↔
    ∃ j, ways[j]? = some (.jump t) ∧ a = m.copyStart body j
  returns : ∀ saved a, e.returns = some (saved, a) ↔
    ∃ j, ways[j]? = some (.ret saved) ∧ a = m.copyStart body j
  leaves : ∀ c ∈ ways, ∃ b ∈ region.blocks, m.LeavesBy region b c
  saves : ∀ saved, .ret saved ∈ ways → m.Saves saved
  locals : e.method.localIds = m.localIds ++ (e.returns.bind (·.1)).toList

/-- **A region being expanded**: the ways out of the blocks in `done` lead through the copies made
so far, and the other blocks are as before. -/
structure Leads (m : Method) (index : Nat) (region : Region) (body done : List Nat)
    (e : Expansion) (ways : List Completion) : Prop where
  within : ∀ b ∈ done, b ∈ region.blocks
  sound : e.Sound m
  listed : e.method.regions[index]? = some region
  keeps : m.Keeps m.blocks.length e.method
  entries : e.method.entries = m.entries
  entry : e.method.entry = m.entry
  kept : ∀ b < m.blocks.length, b ∉ done → e.method.block? b = m.block? b
  laid : Laid m region body e ways
  routed : ∀ b ∈ done, m.Routed e.method region body ways b
  sealed : ∀ b ∈ done, ∀ t ∈ m.normalExits b, t ∉ region.blocks → t ∉ body

/-- What is true of the body of the region at `index` throughout its expansion. -/
structure Apart (m : Method) (index : Nat) (region : Region) (body : List Nat) : Prop where
  nodup : body.Nodup
  nonempty : body ≠ []
  exist : ∀ b ∈ body, b < m.blocks.length
  covered : ∀ b ∈ region.blocks, b < m.blocks.length
  outside : ∀ b ∈ body, b ∉ region.blocks
  listed : m.regions[index]? = some region

variable {m : Method} {index : Nat} {region : Region} {body done : List Nat} {e : Expansion}
  {ways : List Completion}

theorem laid_start : Laid m region body { method := m } [] where
  length := by simp [Method.copyStart]
  nodup := nodup_nil
  copies j c h := by simp at h
  jumps t a := by simp
  returns saved a := by simp
  leaves c hc := absurd hc not_mem_nil
  saves _ h := absurd h not_mem_nil
  locals := by simp

variable {c : Completion} {b : Nat} {n : Method} {e' : Expansion}

theorem getElem?_snoc_iff {c' : Completion} {j : Nat} :
    (ways ++ [c])[j]? = some c' ↔ ways[j]? = some c' ∨ j = ways.length ∧ c = c' := by
  rcases Nat.lt_trichotomy j ways.length with h | rfl | h
  · rw [getElem?_append_left h]
    simp [Nat.ne_of_lt h]
  · simp
  · have hne : j ≠ ways.length := by omega
    rw [getElem?_eq_none (by simp; omega), getElem?_eq_none (by omega)]
    simp [hne]

theorem mem_of_lookup (h : Laid m region body e ways) {t : Nat} :
    (e.jumps.lookup t).isSome = true ↔ Completion.jump t ∈ ways := by
  rw [Option.isSome_iff_exists, mem_iff_getElem?]
  constructor
  · rintro ⟨a, ha⟩
    obtain ⟨j, hj, -⟩ := (h.jumps t a).1 ha
    exact ⟨j, hj⟩
  · rintro ⟨j, hj⟩
    exact ⟨_, (h.jumps t _).2 ⟨j, hj, rfl⟩⟩

theorem Laid.nodup_snoc (h : Laid m region body e ways) (hnew : c ∉ ways) :
    (ways ++ [c]).Nodup := by
  refine nodup_append.2 ⟨h.nodup, by simp, fun x hx y hy => ?_⟩
  rw [mem_singleton.1 hy]
  rintro rfl
  exact hnew hx

theorem Laid.leaves_snoc (h : Laid m region body e ways) (hb : b ∈ region.blocks)
    (hleaves : m.LeavesBy region b c) :
    ∀ c' ∈ ways ++ [c], ∃ b ∈ region.blocks, m.LeavesBy region b c' := by
  intro c' hc'
  rcases mem_append.1 hc' with hc' | hc'
  · exact h.leaves c' hc'
  · rw [mem_singleton.1 hc']
    exact ⟨b, hb, hleaves⟩

theorem Laid.length_copyBody (h : Laid m region body e ways) (index : Nat)
    (hn : n.blocks.length = e.method.blocks.length) (c : Completion) :
    (n.copyBody index body c).blocks.length = m.copyStart body (ways ++ [c]).length := by
  have hlen := h.length
  simp only [Method.copyStart] at hlen ⊢
  simp only [Method.copyBody, length_append, length_mapIdx, length_singleton,
    Nat.succ_mul, hn]
  omega

theorem Laid.copies_snoc (h : Laid m region body e ways) (hkeeps : e.method.Keeps m.blocks.length n)
    (hcopy : m.HasCopy n body e.method.blocks.length c) (j : Nat) (c' : Completion)
    (hj : (ways ++ [c])[j]? = some c') : m.HasCopy n body (m.copyStart body j) c' := by
  rcases getElem?_snoc_iff.1 hj with hj | ⟨rfl, rfl⟩
  · exact (h.copies j c' hj).keeps hkeeps
  · exact h.length ▸ hcopy

theorem Laid.snoc_jump (h : Laid m region body e ways) {t : Nat} (hnew : .jump t ∉ ways)
    (hcopy : m.HasCopy (e.method.copyBody index body (.jump t)) body e.method.blocks.length
      (.jump t))
    (hb : b ∈ region.blocks) (hleaves : m.LeavesBy region b (.jump t)) :
    Laid m region body { e with
      method := e.method.copyBody index body (.jump t)
      jumps := e.jumps ++ [(t, e.method.blocks.length)] } (ways ++ [.jump t]) := by
  refine ⟨h.length_copyBody index rfl _, h.nodup_snoc hnew,
    h.copies_snoc ((Method.keeps_copyBody index body _).mono (Nat.zero_le _)) hcopy, ?_, ?_,
    h.leaves_snoc hb hleaves, ?_, h.locals⟩
  · intro u a
    rw [lookup_append]
    simp only [getElem?_snoc_iff, or_and_right, exists_or, ← h.jumps]
    cases hu : e.jumps.lookup u with
    | some a' =>
      have hne : t ≠ u := by
        rintro rfl
        exact hnew ((mem_of_lookup h).1 (by rw [hu]; rfl))
      simp [hne]
    | none =>
      by_cases htu : u = t
      · subst htu
        simp [h.length, eq_comm]
      · simp [htu, Ne.symm htu]
  · intro saved a
    simp only [getElem?_snoc_iff, reduceCtorEq, and_false, or_false]
    exact h.returns saved a
  · simpa using h.saves

theorem Laid.snoc_ret (h : Laid m region body e ways) (hnone : e.returns = none)
    {saved : Option Nat} (hlen : n.blocks.length = e.method.blocks.length)
    (hkeeps : e.method.Keeps m.blocks.length (n.copyBody index body (.ret saved)))
    (hcopy : m.HasCopy (n.copyBody index body (.ret saved)) body n.blocks.length (.ret saved))
    (hlocals : n.localIds = e.method.localIds ++ saved.toList) (hb : b ∈ region.blocks)
    (hleaves : m.LeavesBy region b (.ret saved)) (hsaves : m.Saves saved) :
    Laid m region body { e with
      method := n.copyBody index body (.ret saved), returns := some (saved, n.blocks.length) }
      (ways ++ [.ret saved]) := by
  have hnew : ∀ s, Completion.ret s ∉ ways := by
    intro s hmem
    obtain ⟨j, hj⟩ := mem_iff_getElem?.1 hmem
    have := (h.returns s _).2 ⟨j, hj, rfl⟩
    simp [hnone] at this
  refine ⟨h.length_copyBody index hlen _, h.nodup_snoc (hnew saved),
    h.copies_snoc hkeeps (hlen ▸ hcopy),
    ?_, ?_, h.leaves_snoc hb hleaves, ?_, ?_⟩
  · intro t a
    simp only [getElem?_snoc_iff, reduceCtorEq, and_false, or_false]
    exact h.jumps t a
  · intro s a
    simp only [getElem?_snoc_iff, or_and_right, exists_or, ← h.returns, hnone, reduceCtorEq,
      false_or, Option.some.injEq, Prod.mk.injEq, Completion.ret.injEq]
    constructor
    · rintro ⟨rfl, rfl⟩
      exact ⟨_, ⟨rfl, rfl⟩, by rw [hlen, h.length]⟩
    · rintro ⟨j, ⟨rfl, rfl⟩, rfl⟩
      exact ⟨rfl, by rw [hlen, h.length]⟩
  · intro s hs
    rcases mem_append.1 hs with hs | hs
    · exact absurd hs (hnew s)
    · cases mem_singleton.1 hs
      exact hsaves
  · have hbase := h.locals
    rw [hnone, Option.bind_none, Option.toList_none, append_nil] at hbase
    exact hbase ▸ hlocals

/-- The body is still as it was. -/
theorem Leads.hasCopy (h : Leads m index region body done e ways) (ha : Apart m index region body)
    {n : Method} (hn : n.Sound) (hblocks : n.blocks = e.method.blocks)
    (hregions : n.regions = e.method.regions) (c : Completion) :
    m.HasCopy (n.copyBody index body c) body n.blocks.length c := by
  have hcov : ∀ k b, n.Covers k b ↔ e.method.Covers k b := fun k b => by
    simp only [Method.Covers, hregions]
  refine Method.hasCopy_copyBody hn (hblocks ▸ h.sound.grows.size) ha.nodup ?_ ?_ ?_ c
  · intro b hb
    have hkept := h.kept b (ha.exist b hb) fun hd => ha.outside b hb (h.within b hd)
    simp only [Method.blockOrStub, Method.block?, hblocks] at hkept ⊢
    rw [hkept]
  · exact fun k b hb => (hcov k b).trans (h.keeps.covers k b (ha.exist b hb))
  · exact fun b hb hcovers => ha.outside b hb ((Method.covers_iff ha.listed b).1 hcovers)

theorem Leads.next (h : Leads m index region body done e ways) {ways' : List Completion}
    (hlaid : Laid m region body e' ways') (hways : ways <+: ways')
    (hn : e.method.Keeps 0 e'.method) (hsound : e'.Sound m)
    (hlisted : e'.method.regions[index]? = e.method.regions[index]?)
    (hentries : e'.method.entries = e.method.entries) (hentry : e'.method.entry = e.method.entry) :
    Leads m index region body done e' ways' := by
  have hsame : ∀ b < m.blocks.length, e'.method.block? b = e.method.block? b := fun b hb =>
    hn.blocks b (Nat.zero_le _) (Nat.lt_of_lt_of_le hb h.sound.grows.size)
  refine ⟨h.within, hsound, hlisted.trans h.listed, h.keeps.trans (hn.mono (Nat.zero_le _)),
    hentries.trans h.entries, hentry.trans h.entry,
    fun b hb hd => (hsame b hb).trans (h.kept b hb hd), hlaid, fun b hd => ?_, h.sealed⟩
  have hrouted := h.routed b hd
  exact hrouted.mono hways (hsame b hrouted.lt)

theorem Leads.withJump (h : Leads m index region body done e ways) (ha : Apart m index region body)
    {t : Nat} (ht : t < m.blocks.length) (hb : b ∈ region.blocks)
    (hleaves : m.LeavesBy region b (.jump t)) :
    ∃ ways', Leads m index region body done (e.withJump index body t) ways' ∧ ways <+: ways' ∧
      .jump t ∈ ways' := by
  have hsound := (sound_withJump h.sound index ha.nonempty ha.exist
    (Nat.lt_of_lt_of_le ht h.sound.grows.size)).1
  unfold Expansion.withJump at hsound ⊢
  split
  · rename_i hsome
    exact ⟨ways, h, prefix_rfl, (mem_of_lookup h.laid).1 hsome⟩
  · rename_i hnone
    rw [if_neg hnone] at hsound
    have hlaid := h.laid.snoc_jump (fun hmem => hnone ((mem_of_lookup h.laid).2 hmem))
      (h.hasCopy ha h.sound.grows.sound rfl rfl (.jump t)) hb hleaves
    exact ⟨_, h.next hlaid (prefix_append ..) (Method.keeps_copyBody index body _) hsound
      (Method.listed_copyBody ..) (Method.entries_copyBody ..) rfl, prefix_append .., by simp⟩

theorem Leads.foldl_withJump (h : Leads m index region body done e ways)
    (ha : Apart m index region body) (targets : List Nat) (hb : b ∈ region.blocks)
    (ht : ∀ t ∈ targets, t < m.blocks.length ∧ m.LeavesBy region b (.jump t)) :
    ∃ ways',
      Leads m index region body done (targets.foldl (Expansion.withJump index body) e) ways' ∧
      ways <+: ways' ∧ ∀ t ∈ targets, .jump t ∈ ways' := by
  induction targets generalizing e ways with
  | nil => exact ⟨ways, h, prefix_rfl, nofun⟩
  | cons t ts ih =>
    obtain ⟨hlt, hleaves⟩ := ht t mem_cons_self
    obtain ⟨ways₁, h₁, hpre₁, hmem⟩ := h.withJump ha hlt hb hleaves
    obtain ⟨ways₂, h₂, hpre₂, hrest⟩ := ih h₁ fun u hu => ht u (mem_cons_of_mem _ hu)
    refine ⟨ways₂, h₂, hpre₁.trans hpre₂, fun u hu => ?_⟩
    rcases mem_cons.1 hu with rfl | hu
    · exact hpre₂.subset hmem
    · exact hrest u hu

theorem Leads.withReturn (h : Leads m index region body done e ways)
    (ha : Apart m index region body) (hb : b ∈ region.blocks)
    (hterm : (m.blockOrStub b).terminator = .ret) :
    ∃ ways', Leads m index region body done (e.withReturn index body) ways' := by
  have hsound := sound_withReturn h.sound index ha.nonempty ha.exist
  have hret := h.sound.grows.ret
  unfold Expansion.withReturn at hsound ⊢
  split
  · exact ⟨ways, h⟩
  · rename_i hnone
    simp only [hnone] at hsound
    split
    · rename_i hvoid
      rw [if_pos hvoid] at hsound
      have hkeeps := Method.keeps_copyBody (n := e.method) index body (.ret none)
      have hlaid := h.laid.snoc_ret hnone rfl (hkeeps.mono (Nat.zero_le _))
        (h.hasCopy ha h.sound.grows.sound rfl rfl _) (by simp) hb hterm
        ⟨by simp [← hret, hvoid], nofun⟩
      exact ⟨_, h.next hlaid (prefix_append ..) hkeeps hsound (Method.listed_copyBody ..)
        (Method.entries_copyBody ..) rfl⟩
    · rename_i hvoid
      rw [if_neg hvoid] at hsound
      have hgrows := Method.grows_addSaved h.sound.grows.sound "__finally_ret" e.method.ret
      have hfresh := h.sound.grows.addSaved_not_mem "__finally_ret" e.method.ret
      have hkeeps := (e.method.keeps_addSaved "__finally_ret" e.method.ret).trans
        (Method.keeps_copyBody index body (.ret (some e.method.nextLocal)))
      have hlaid := h.laid.snoc_ret (n := (e.method.addSaved "__finally_ret" e.method.ret).1) hnone
        rfl (hkeeps.mono (Nat.zero_le _)) (h.hasCopy ha hgrows.sound rfl rfl _)
        (by simp [Method.localIds, Method.addSaved]) hb hterm
        ⟨by simp [← hret, hvoid], fun l hl => Option.some.inj hl ▸ hfresh⟩
      exact ⟨_, h.next hlaid (prefix_append ..) hkeeps hsound (Method.listed_copyBody ..)
        (Method.entries_copyBody ..) rfl⟩

theorem forall_mem_snoc {xs : List Nat} {x : Nat} {Q : Nat → Prop} (hxs : ∀ y ∈ xs, Q y)
    (hx : Q x) :
    ∀ y ∈ xs ++ [x], Q y :=
  forall_mem_append.2 ⟨hxs, forall_mem_singleton.2 hx⟩

/-- A block of the region is changed so that its ways out lead through copies. -/
theorem Leads.onBlock (h : Leads m index region body done e ways) (hb : b ∈ region.blocks)
    (hlt : b < m.blocks.length) (hnew : b ∉ done) {f : Block → Block}
    (hsound : (e.onBlock b f).Sound m)
    (hrouted : ∀ n : Method, n.block? b = (m.block? b).map f → m.Routed n region body ways b)
    (hsealed : ∀ t ∈ m.normalExits b, t ∉ region.blocks → t ∉ body) :
    Leads m index region body (done ++ [b]) (e.onBlock b f) ways := by
  have hsame : ∀ c, c ≠ b → (e.onBlock b f).method.block? c = e.method.block? c := fun c hc => by
    simp [Expansion.onBlock, Method.block?, Ne.symm hc]
  have hkeeps : e.method.Keeps m.blocks.length (e.onBlock b f).method :=
    ⟨by simp [Expansion.onBlock], fun c hc _ => hsame c (by omega), fun _ _ _ => Iff.rfl⟩
  refine ⟨forall_mem_snoc h.within hb, hsound, h.listed, h.keeps.trans hkeeps, h.entries, h.entry,
    ?_, ?_, forall_mem_snoc ?_ (hrouted _ ?_), forall_mem_snoc h.sealed hsealed⟩
  · intro c hc hd
    rw [mem_append, not_or] at hd
    exact (hsame c (by simpa using hd.2)).trans (h.kept c hc hd.1)
  · exact { h.laid with
      length := by simpa [Expansion.onBlock] using h.laid.length
      copies := fun j c hj => (h.laid.copies j c hj).keeps hkeeps }
  · exact fun c hc => (h.routed c hc).mono prefix_rfl (hsame c fun heq => hnew (heq ▸ hc))
  · rw [← h.kept b hlt hnew]
    simp [Expansion.onBlock, Method.block?]

/-- **The ways out of one block** are led through copies. -/
theorem Leads.leave (h : Leads m index region body done e ways) (hm : m.Sound)
    (ha : Apart m index region body) (hb : b ∈ region.blocks) (hnew : b ∉ done)
    (hleave : Expansion.leave index region body e b = .ok e') :
    ∃ ways', Leads m index region body (done ++ [b]) e' ways' := by
  have hlt := ha.covered b hb
  have hk : m.block? b = some m.blocks[b] := List.getElem?_eq_getElem hlt
  have hstub : e.method.blockOrStub b = m.blocks[b] := by
    rw [Method.blockOrStub, h.kept b hlt hnew, hk]
    rfl
  have htargets := (hm.blocks _ (List.getElem_mem hlt)).targets
  have hsound := h.sound.leave ha.nonempty ha.exist hlt hleave
  generalize m.blocks[b] = k at hk hstub htargets
  have hexits : m.normalExits b = k.terminator.successors := by rw [Method.normalExits, hk]
  cases left_of_leave hleave with
  | @ret saved copy hret hreturns =>
    rw [hstub] at hret
    obtain ⟨ways', h'⟩ := h.withReturn ha hb (by rw [Method.blockOrStub, hk]; exact hret)
    obtain ⟨j, hj, rfl⟩ := (h'.laid.returns saved copy).1 hreturns
    refine ⟨ways', h'.onBlock hb hlt hnew hsound (fun n hblock => ?_) ?_⟩
    · rw [hk, Option.map_some] at hblock
      exact .ret hk hret hj hblock
    · simp [hexits, hret, Terminator.successors]
  | @jumps e'' hret hinto he'' =>
    rw [hstub] at hret hinto he''
    obtain ⟨ways', h', -, hmem⟩ := h.foldl_withJump ha
      (k.terminator.successors.filter (¬ · ∈ region.blocks)) hb fun t ht => by
        obtain ⟨ht, hout⟩ := mem_filter.1 ht
        exact ⟨htargets t ht, hexits ▸ ht, by simpa using hout⟩
    rw [← he''] at h'
    refine ⟨ways', h'.onBlock hb hlt hnew hsound (fun n hblock => ?_) (hexits ▸ hinto)⟩
    rw [hk, Option.map_some] at hblock
    refine .jumps hk hret (fun t _ hin => ?_) (fun t ht hout => ?_) hblock
    · -- a jump within the region has no copy
      cases hl : e''.jumps.lookup t with
      | none => rfl
      | some c =>
        obtain ⟨j, hj, -⟩ := (h'.laid.jumps t c).1 hl
        obtain ⟨_, _, hleaves⟩ := h'.laid.leaves _ (mem_of_getElem? hj)
        exact absurd hin hleaves.2
    · obtain ⟨j, hj⟩ := mem_iff_getElem?.1
        (hmem t (mem_filter.2 ⟨ht, by simpa using hout⟩))
      exact ⟨j, hj, by rw [(h'.laid.jumps t _).2 ⟨j, hj, rfl⟩]; rfl⟩
  | stays hret hsucc =>
    rw [hstub] at hret hsucc
    have hblock : e.method.block? b = some { k with terminator := k.terminator.mapTargets id } := by
      rw [Terminator.mapTargets_id]
      exact (h.kept b hlt hnew).trans hk
    exact ⟨ways, { h with
      within := forall_mem_snoc h.within hb
      kept := fun c hc hd => h.kept c hc fun hmem => hd (mem_append_left _ hmem)
      routed := forall_mem_snoc h.routed
        (.jumps hk hret (fun _ _ _ => rfl) (fun t ht => by simp [hsucc] at ht) hblock)
      sealed := forall_mem_snoc h.sealed (by simp [hexits, hsucc]) }⟩

/-- Some blocks of the region have been led. -/
def LedSoFar (m : Method) (index : Nat) (region : Region) (body done : List Nat) (e : Expansion) :
    Prop :=
  ∃ ways, Leads m index region body done e ways

theorem ledSoFar_start (h : m.Sound) (hlisted : m.regions[index]? = some region) :
    LedSoFar m index region body [] { method := m } :=
  ⟨[], nofun, ⟨h.grows, nofun, nofun⟩, hlisted, .refl _ m, rfl, rfl, fun _ _ _ => rfl, laid_start,
    nofun, nofun⟩

theorem ledSoFar_leave (hm : m.Sound) (ha : Apart m index region body) (done : List Nat)
    (e : Expansion) (b : Nat) (hb : b ∈ region.blocks.toList) (e' : Expansion) (hnew : b ∉ done)
    (h : LedSoFar m index region body done e)
    (hleave : Expansion.leave index region body e b = .ok e') :
    LedSoFar m index region body (done ++ [b]) e' := by
  obtain ⟨ways, h⟩ := h
  exact h.leave hm ha hb hnew hleave

end Expansion

theorem nodup_toList (s : IdSet) : s.toList.Nodup :=
  s.ascending.imp fun hlt => Nat.ne_of_lt hlt

namespace Method

/-! ### One region expanded -/

/-- The handler of an expanded region: it takes the exception, saves it and goes to a copy that
throws it again. -/
structure Rescues (m n : Method) (region : Region) (handler : Nat) (saved : Nat) : Prop where
  fresh : m.blocks.length ≤ handler
  saves : saved ∉ m.localIds
  rethrows : ∃ copy take, HasCopy m n (m.cleanupBody region.handler) copy (.rethrow saved) ∧
    m.takeException? region.handler = some take ∧
    n.block? handler = some ⟨handler, take ++ [.store saved], .goto copy⟩
  covers : ∀ k, n.Covers k handler ↔ m.Covers k region.handler

/-- **The region at `index` is expanded** in `n`. -/
structure Expanded (m : Method) (index : Nat) (region : Region) (n : Method) : Prop where
  grows : m.Grows n
  entry : n.entry = m.entry
  apart : ∀ b ∈ m.cleanupBody region.handler, b ∉ region.blocks
  covers : ∀ k b, b < m.blocks.length → (n.Covers k b ↔ m.Covers k b)
  kept : ∀ b < m.blocks.length, b ∉ region.blocks → n.block? b = m.block? b
  led : ∀ b ∈ region.blocks, m.Led n region (m.cleanupBody region.handler) b
  rescue : ∃ handler saved, n.entries = m.entries.set index (handler, .catchAll) ∧
    m.Rescues n region handler saved

theorem keeps_addBlock (n : Method) (instrs : List Instr) (t : Terminator) :
    n.Keeps 0 (n.addBlock instrs t) :=
  ⟨by simp [addBlock], fun b _ hb => getElem?_append_left hb, fun _ _ _ => Iff.rfl⟩

/-- The method with another handler for the region at `index`, which lies where the old one lies and
catches everything. -/
def rehandle (n : Method) (index : Nat) (region : Region) (handler : Nat) : Method :=
  { n.inherit index [region.handler] (fun _ => handler) with
    regions := (n.inherit index [region.handler] fun _ => handler).regions.set index
      { region with handler := handler, kind := .catchAll } }

variable {n m : Method} {index : Nat} {region : Region}

theorem covers_rehandle (hlisted : n.regions[index]? = some region) (handler k b : Nat) :
    (n.rehandle index region handler).Covers k b ↔
      n.Covers k b ∨ k ≠ index ∧ n.Covers k region.handler ∧ handler = b := by
  by_cases hk : k = index
  · subst hk
    have hlt : k < n.regions.length := (List.getElem?_eq_some_iff.1 hlisted).1
    have hset : (n.rehandle k region handler).regions[k]? =
        some { region with handler := handler, kind := .catchAll } := by
      rw [rehandle, getElem?_set_self]
      simpa [inherit] using hlt
    rw [covers_iff hset, covers_iff hlisted]
    simp
  · have hset : (n.rehandle index region handler).Covers k b ↔
        (n.inherit index [region.handler] fun _ => handler).Covers k b := by
      simp [Covers, rehandle, getElem?_set_ne (Ne.symm hk)]
    rw [hset, covers_inherit]
    simp [hk]

theorem entries_rehandle (n : Method) (index : Nat) (region : Region) (handler : Nat) :
    (n.rehandle index region handler).entries = n.entries.set index (handler, .catchAll) := by
  rw [← entries_inherit n index [region.handler] fun _ => handler]
  simp [entries, rehandle, map_set]

/-- A handler that is a new block takes the place of the old one, and nothing else changes. -/
theorem Keeps.rehandle {n' : Method} (h : n.Keeps 0 n') (hlisted : n'.regions[index]? = some region)
    {handler : Nat} (hnew : n.blocks.length ≤ handler) :
    n.Keeps 0 (n'.rehandle index region handler) := by
  refine ⟨h.length, h.blocks, fun k b hb => ?_⟩
  rw [covers_rehandle hlisted, h.covers k b hb]
  constructor
  · rintro (hcov | ⟨_, _, rfl⟩)
    · exact hcov
    · omega
  · exact .inl

/-- The method with the copy that throws again. -/
def addThrowing (n : Method) (index : Nat) (body : List Nat) : Method :=
  (n.addSaved "__finally_exc" (.object "Throwable")).1.copyBody index body (.rethrow n.nextLocal)

theorem addRethrow_eq (n : Method) (index : Nat) (region : Region) (body : List Nat)
    (take : List Instr) : n.addRethrow index region body take =
      ((n.addThrowing index body).addBlock (take ++ [.store n.nextLocal])
        (.goto n.blocks.length)).rehandle index region (n.addThrowing index body).blocks.length :=
  rfl

/-- **The handler of an expanded region** stands behind the copies, of which the last throws again,
and the table has it. -/
structure Handles (m : Method) (index : Nat) (region : Region) (take : List Instr) (e : Expansion)
    (handler : Nat) (n : Method) : Prop where
  keeps : e.method.Keeps 0 n
  last : handler = e.method.blocks.length + (m.cleanupBody region.handler).length
  length : n.blocks.length = handler + 1
  copy : m.HasCopy n (m.cleanupBody region.handler) e.method.blocks.length
    (.rethrow e.method.nextLocal)
  block : n.block? handler = some
    ⟨handler, take ++ [.store e.method.nextLocal], .goto e.method.blocks.length⟩
  covers : ∀ k, n.Covers k handler ↔ m.Covers k region.handler
  entries : n.entries = m.entries.set index (handler, .catchAll)
  entry : n.entry = m.entry
  locals : n.localIds = e.method.localIds ++ [e.method.nextLocal]

variable {e : Expansion} {ways : List Completion} {take : List Instr} {handler : Nat}
  (ha : Expansion.Apart m index region (m.cleanupBody region.handler))
  (h : Expansion.Leads m index region (m.cleanupBody region.handler) region.blocks.toList e ways)
include ha h

theorem handles_addRethrow (take : List Instr) : ∃ handler, m.Handles index region take e handler
    (e.method.addRethrow index region (m.cleanupBody region.handler) take) := by
  have hsaved := grows_addSaved h.sound.grows.sound "__finally_exc" (.object "Throwable")
  have hhead : region.handler ∈ m.cleanupBody region.handler :=
    Search.mem_preorder_iff.2 ⟨_, mem_cons_self .., .refl _⟩
  have hexist := ha.exist _ hhead
  have hcopy : m.HasCopy (e.method.addThrowing index (m.cleanupBody region.handler))
      (m.cleanupBody region.handler) e.method.blocks.length (.rethrow e.method.nextLocal) :=
    h.hasCopy ha hsaved.sound rfl rfl _
  have hkeeps : e.method.Keeps 0 (e.method.addThrowing index (m.cleanupBody region.handler)) :=
    (keeps_addSaved ..).trans (keeps_copyBody ..)
  have hsound : (e.method.addThrowing index (m.cleanupBody region.handler)).Sound :=
    (grows_copyBody hsaved.sound index (c := .rethrow e.method.nextLocal)
      (fun b hb => Nat.lt_of_lt_of_le (ha.exist b hb) (Nat.le_trans h.sound.grows.size hsaved.size))
      (addSaved_mem ..)).sound
  have hlisted : (e.method.addThrowing index (m.cleanupBody region.handler)).regions[index]? =
      some region := (listed_copyBody ..).trans h.listed
  have hentries : (e.method.addThrowing index (m.cleanupBody region.handler)).entries = m.entries :=
    (entries_copyBody ..).trans h.entries
  have hentry : (e.method.addThrowing index (m.cleanupBody region.handler)).entry = m.entry :=
    h.entry
  have hlocals : (e.method.addThrowing index (m.cleanupBody region.handler)).localIds =
      e.method.localIds ++ [e.method.nextLocal] := by
    simp [addThrowing, addSaved, copyBody, inherit, localIds]
  have hlast : (e.method.addThrowing index (m.cleanupBody region.handler)).blocks.length =
      e.method.blocks.length + (m.cleanupBody region.handler).length := by
    simp [addThrowing, copyBody, addSaved]
  rw [addRethrow_eq]
  generalize e.method.addThrowing index (m.cleanupBody region.handler) = n at *
  have hfinal : n.Keeps 0 ((n.addBlock (take ++ [.store e.method.nextLocal])
      (.goto e.method.blocks.length)).rehandle index region n.blocks.length) :=
    (keeps_addBlock n _ _).rehandle hlisted (Nat.le_refl _)
  refine ⟨n.blocks.length, hkeeps.trans hfinal, hlast, by simp [rehandle, inherit, addBlock],
    hcopy.keeps (hfinal.mono (Nat.zero_le _)), by simp [rehandle, inherit, addBlock, block?],
    fun k => ?_, ?_, hentry, hlocals⟩
  · -- the new block lies in no region but those that the old handler lies in
    have hold : (n.addBlock (take ++ [.store e.method.nextLocal])
        (.goto e.method.blocks.length)).Covers k region.handler ↔ m.Covers k region.handler :=
      (hkeeps.covers k _ (Nat.lt_of_lt_of_le hexist h.sound.grows.size)).trans
        (h.keeps.covers k _ hexist)
    refine (covers_rehandle hlisted n.blocks.length k _).trans ?_
    refine (or_congr Iff.rfl (and_congr Iff.rfl (and_congr hold Iff.rfl))).trans ?_
    constructor
    · rintro (hcov | ⟨_, hcov, _⟩)
      · exact absurd (hsound.lt_of_covers hcov) (Nat.lt_irrefl _)
      · exact hcov
    · intro hcov
      refine .inr ⟨?_, hcov, rfl⟩
      rintro rfl
      exact ha.outside _ hhead ((covers_iff ha.listed _).1 hcov)
  · rw [entries_rehandle]
    exact congrArg (·.set index (n.blocks.length, .catchAll)) hentries

theorem Handles.expanded (hn : m.Handles index region take e handler n)
    (htake : m.takeException? region.handler = some take) (hgrows : m.Grows n) :
    m.Expanded index region n := by
  have hsize := h.sound.grows.size
  have hsame : ∀ b < m.blocks.length, n.block? b = e.method.block? b := fun b hb =>
    hn.keeps.blocks b (Nat.zero_le _) (Nat.lt_of_lt_of_le hb hsize)
  have hlast := hn.last
  refine ⟨hgrows, hn.entry, ha.outside, fun k b hb => ?_,
    fun b hb hout => (hsame b hb).trans (h.kept b hb hout), fun b hb => ?_, handler,
    e.method.nextLocal, hn.entries, by omega, h.sound.grows.addSaved_not_mem "" .int,
    ⟨_, take, hn.copy, htake, hn.block⟩, hn.covers⟩
  · exact (hn.keeps.covers k b (Nat.lt_of_lt_of_le hb hsize)).trans (h.keeps.covers k b hb)
  · exact ((h.routed b hb).mono prefix_rfl (hsame b (ha.covered b hb))).led
      (fun j c hj => (h.laid.copies j c hj).keeps (hn.keeps.mono (Nat.zero_le _))) h.laid.saves

omit ha h

theorem apart_cleanupBody (h : m.Sound) (hlisted : m.regions[index]? = some region)
    (hfind : (m.cleanupBody region.handler).find? (· ∈ region.blocks) = none) :
    Expansion.Apart m index region (m.cleanupBody region.handler) := by
  have hregion := h.regions region (mem_of_getElem? hlisted)
  obtain ⟨hne, hbody⟩ := cleanupBody_sound h hregion.handler
  refine ⟨Search.nodup_preorder .., hne, hbody, hregion.covered, fun b hb => ?_, hlisted⟩
  simpa using find?_eq_none.1 hfind b hb

/-- All exits are led through copies when a region has been expanded. -/
theorem leads_of_expandCleanup (h : m.Sound) (hlisted : m.regions[index]? = some region)
    (hn : m.expandCleanup index region = .ok n) :
    ∃ e ways take, Expansion.Apart m index region (m.cleanupBody region.handler) ∧
      Expansion.Leads m index region (m.cleanupBody region.handler) region.blocks.toList e ways ∧
      m.takeException? region.handler = some take ∧
      n = e.method.addRethrow index region (m.cleanupBody region.handler) take := by
  obtain ⟨take, e, hfind, htake, he, rfl⟩ := expandCleanup_eq_ok hn
  have ha := apart_cleanupBody h hlisted hfind
  obtain ⟨ways, hleads⟩ := foldlM_ok_scan he (by simpa using nodup_toList region.blocks)
    (Expansion.ledSoFar_start h hlisted) (Expansion.ledSoFar_leave h ha)
  exact ⟨e, ways, take, ha, hleads, htake, rfl⟩

/-- **One region expanded.** -/
theorem expanded_of_expandCleanup (h : m.Sound) (hlisted : m.regions[index]? = some region)
    (hn : m.expandCleanup index region = .ok n) : m.Expanded index region n := by
  have hgrows := grows_expandCleanup h (h.regions region (mem_of_getElem? hlisted)) hn
  obtain ⟨e, ways, take, ha, hleads, htake, rfl⟩ := leads_of_expandCleanup h hlisted hn
  obtain ⟨handler, hn⟩ := handles_addRethrow ha hleads take
  exact hn.expanded ha hleads htake hgrows

end Method

end Resumable
