/-
**Methods that name only what exists.**

A method is *sound* if its blocks are numbered by their positions and if every block, local and
handler that it names exists.  This is what the first check of a method establishes.  Replacing
cleanup regions by plain control flow keeps it, and the instructions of the new method are those of
the old one and some that only move values between the stack and a local.  So what is true of every
instruction of a method, such as that it is no instruction of the continuation protocol, is still
true after its cleanup regions are gone.

Main results:

* `Method.referenceDefects_eq_nil_iff` — the first check establishes soundness;
* `Method.grows_withoutCleanup` — **the method without cleanup regions has grown from the given
  one**.
-/

import Mathlib.Logic.Relation
import Resumable.Code.Cleanup
import Resumable.Proofs.Sequences

set_option autoImplicit false

namespace Resumable

open List

/-! ### Instructions and locals -/

namespace Instr

/-- The instruction reads or writes the local. -/
def Mentions (i : Instr) (l : Nat) : Prop := i.uses? = some l ∨ i.defines? = some l

/-- Whether the instruction only moves a value between the stack and a local, or doubles the top of
the stack. -/
def isMove : Instr → Bool
  | load _ | store _ | dup => true
  | _ => false

variable {k : Nat}

@[simp] theorem mentions_load {l : Nat} : (load l).Mentions k ↔ l = k := by
  simp [Mentions, uses?, defines?]

@[simp] theorem mentions_store {l : Nat} : (store l).Mentions k ↔ l = k := by
  simp [Mentions, uses?, defines?]

@[simp] theorem not_mentions_dup : ¬ dup.Mentions k := by
  simp [Mentions, uses?, defines?]

end Instr

/-! ### Soundness -/

/-- The block names declared locals and existing blocks only; the locals are given by their numbers,
and the blocks by how many there are. -/
structure Block.Sound (locals : List Nat) (size : Nat) (b : Block) : Prop where
  declared : ∀ i ∈ b.instrs, ∀ l, i.Mentions l → l ∈ locals
  targets : ∀ t ∈ b.terminator.successors, t < size

variable {locals : List Nat} {size : Nat} {c : Completion}

theorem Block.Sound.mono {locals' : List Nat} {size' : Nat} {b : Block} (h : b.Sound locals size)
    (hl : ∀ l ∈ locals, l ∈ locals') (hs : size ≤ size') : b.Sound locals' size' where
  declared i hi l hm := hl l (h.declared i hi l hm)
  targets t ht := Nat.lt_of_lt_of_le (h.targets t ht) hs

/-- The region names existing blocks only. -/
structure Region.Sound (size : Nat) (r : Region) : Prop where
  handler : r.handler < size
  covered : ∀ b ∈ r.blocks, b < size

theorem Region.Sound.mono {size' : Nat} {r : Region} (h : r.Sound size) (hs : size ≤ size') :
    r.Sound size' where
  handler := Nat.lt_of_lt_of_le h.handler hs
  covered b hb := Nat.lt_of_lt_of_le (h.covered b hb) hs

namespace Method

/-- The numbers of the declared locals. -/
def localIds (m : Method) : List Nat := m.locals.map (·.id)

/-- **Every parameter is declared among the locals.**  `referenceDefects` looks at the locals that
instructions name, and not at the parameters. -/
def DeclaresParams (m : Method) : Prop := ∀ v ∈ m.params, v.id ∈ m.localIds

instance (m : Method) : Decidable m.DeclaresParams :=
  inferInstanceAs (Decidable (∀ v ∈ m.params, v.id ∈ m.localIds))

theorem DeclaresParams.mem_localIds {m : Method} (h : m.DeclaresParams) {l : Nat}
    (hl : l ∈ m.params.map (·.id)) : l ∈ m.localIds := by
  obtain ⟨v, hv, rfl⟩ := mem_map.1 hl
  exact h v hv

/-- **Everything that the method names exists**, and its blocks are numbered by their positions. -/
structure Sound (m : Method) : Prop where
  entry : m.entry < m.blocks.length
  ids : ∀ (i : Nat) (b : Block), m.blocks[i]? = some b → b.id = i
  blocks : ∀ b ∈ m.blocks, b.Sound m.localIds m.blocks.length
  regions : ∀ r ∈ m.regions, r.Sound m.blocks.length

variable {m n : Method}

theorem local?_isNone_iff {l : Nat} : (m.local? l).isNone ↔ l ∉ m.localIds := by
  rw [local?, Option.isNone_iff_eq_none, find?_eq_none, localIds, mem_map]
  constructor
  · rintro h ⟨v, hv, rfl⟩
    exact h v hv (by simp)
  · intro h v hv hl
    exact h ⟨v, hv, by simpa using hl⟩

theorem instrDefects_eq_nil_iff {at' : Location} {i : Instr} :
    m.instrDefects at' i = [] ↔ ∀ l, i.Mentions l → l ∈ m.localIds := by
  unfold instrDefects
  rw [filterMap_eq_nil_iff]
  constructor
  · intro h l hm
    have hl : l ∈ i.uses?.toList ++ i.defines?.toList := by
      rcases hm with hm | hm <;> simp [hm]
    by_cases hn : l ∈ m.localIds
    · exact hn
    · have := h l hl
      simp [local?_isNone_iff.2 hn] at this
  · intro h l hl
    have hm : i.Mentions l := by
      rcases mem_append.1 hl with hl | hl
      · exact .inl (by simpa using hl)
      · exact .inr (by simpa using hl)
    have hn : ¬ (m.local? l).isNone := fun hn => local?_isNone_iff.1 hn (h l hm)
    simp [hn]

theorem blockDefects_eq_nil_iff {i : Nat} {b : Block} :
    m.blockDefects i b = [] ↔ b.id = i ∧ b.Sound m.localIds m.blocks.length := by
  simp only [blockDefects, append_eq_nil_iff, flatMap_eq_nil_iff,
    filterMap_eq_nil_iff, instrDefects_eq_nil_iff]
  constructor
  · rintro ⟨⟨hid, hi⟩, ht⟩
    refine ⟨by simpa using hid, ⟨?_, ?_⟩⟩
    · intro k hk
      obtain ⟨n, hn⟩ := mem_iff_getElem?.1 hk
      exact hi (k, n) (mem_zipIdx_iff_getElem?.2 hn)
    · intro t h
      simpa using ht t h
  · rintro ⟨hid, hs⟩
    refine ⟨⟨by simp [hid], ?_⟩, ?_⟩
    · intro c hc
      exact hs.declared c.1 (mem_of_getElem? (mem_zipIdx_iff_getElem?.1 hc))
    · intro t h
      simpa using hs.targets t h

theorem regionDefects_eq_nil_iff {r : Region} :
    m.regionDefects r = [] ↔ r.Sound m.blocks.length := by
  simp only [regionDefects, append_eq_nil_iff, filterMap_eq_nil_iff]
  constructor
  · rintro ⟨hh, hc⟩
    refine ⟨by simpa using hh, ?_⟩
    intro b hb
    simpa using hc b hb
  · rintro ⟨hh, hc⟩
    refine ⟨by simp [hh], ?_⟩
    intro b hb
    simpa using hc b hb

/-- **The first check finds nothing exactly in sound methods.** -/
theorem referenceDefects_eq_nil_iff : m.referenceDefects = [] ↔ m.Sound := by
  simp only [referenceDefects, append_eq_nil_iff, flatMap_eq_nil_iff,
    regionDefects_eq_nil_iff, blockDefects_eq_nil_iff]
  constructor
  · rintro ⟨⟨he, hb⟩, hr⟩
    refine ⟨by simpa using he, ?_, ?_, hr⟩
    · intro i b h
      exact (hb (b, i) (mem_zipIdx_iff_getElem?.2 h)).1
    · intro b h
      obtain ⟨i, hi⟩ := mem_iff_getElem?.1 h
      exact (hb (b, i) (mem_zipIdx_iff_getElem?.2 hi)).2
  · intro h
    refine ⟨⟨by simp [h.entry], ?_⟩, h.regions⟩
    intro c hc
    have hc := mem_zipIdx_iff_getElem?.1 hc
    exact ⟨h.ids c.2 c.1 hc, h.blocks c.1 (mem_of_getElem? hc)⟩

theorem argc_of_arityDefects {isMarker : String → Bool} (h : m.arityDefects isMarker = [])
    {b : Block} (hb : b ∈ m.blocks) {c : Callee} (hc : .invoke c ∈ b.instrs)
    (hmarker : isMarker c.name = true) : c.argc = 1 := by
  rw [arityDefects, flatMap_eq_nil_iff] at h
  obtain ⟨k, hk⟩ := mem_iff_getElem?.1 hc
  have hnone := filterMap_eq_nil_iff.1 (h b hb) (.invoke c, k)
    (mem_zipIdx_iff_getElem?.2 hk)
  simp only [Instr.callee?, hmarker, if_true] at hnone
  split at hnone
  · assumption
  · cases hnone

/-! ### Growing -/

/-- `n` is sound and comes from `m` by adding moves, blocks and locals. -/
structure Grows (m n : Method) : Prop where
  sound : n.Sound
  size : m.blocks.length ≤ n.blocks.length
  locals : ∀ l ∈ m.locals, l ∈ n.locals
  instrs : ∀ b ∈ n.blocks, ∀ i ∈ b.instrs, i.isMove = true ∨ ∃ b' ∈ m.blocks, i ∈ b'.instrs
  name : n.name = m.name
  params : n.params = m.params
  ret : n.ret = m.ret

theorem Grows.localIds (h : m.Grows n) : ∀ l ∈ m.localIds, l ∈ n.localIds := by
  intro l hl
  obtain ⟨v, hv, rfl⟩ := mem_map.1 hl
  exact mem_map.2 ⟨v, h.locals v hv, rfl⟩

theorem DeclaresParams.of_grows (h : m.DeclaresParams) (hgrows : m.Grows n) :
    n.DeclaresParams := fun v hv => hgrows.localIds _ (h v (hgrows.params ▸ hv))

theorem Sound.grows (h : m.Sound) : m.Grows m where
  sound := h
  size := Nat.le_refl _
  locals _ hl := hl
  instrs b hb _ hi := .inr ⟨b, hb, hi⟩
  name := rfl
  params := rfl
  ret := rfl

theorem Grows.trans {k : Method} (h : m.Grows n) (h' : n.Grows k) : m.Grows k where
  sound := h'.sound
  size := Nat.le_trans h.size h'.size
  locals l hl := h'.locals l (h.locals l hl)
  instrs b hb i hi := by
    rcases h'.instrs b hb i hi with hm | ⟨b', hb', hi'⟩
    · exact .inl hm
    · exact h.instrs b' hb' i hi'
  name := h'.name.trans h.name
  params := h'.params.trans h.params
  ret := h'.ret.trans h.ret

/-- What holds of every instruction of a method, and of moves, holds after growing. -/
theorem Grows.forall_instrs {Q : Instr → Prop} (h : m.Grows n)
    (hQ : ∀ b ∈ m.blocks, ∀ i ∈ b.instrs, Q i) (hmove : ∀ i : Instr, i.isMove = true → Q i) :
    ∀ b ∈ n.blocks, ∀ i ∈ b.instrs, Q i := by
  intro b hb i hi
  rcases h.instrs b hb i hi with hm | ⟨b', hb', hi'⟩
  · exact hmove i hm
  · exact hQ b' hb' i hi'

/-! ### Growing by one local, one block, one changed block -/

theorem grows_addSaved (h : m.Sound) (name : String) (ty : Ty) :
    m.Grows (m.addSaved name ty).1 := by
  have hl : ∀ l ∈ m.localIds, l ∈ (m.addSaved name ty).1.localIds := by
    intro l hl
    simp only [addSaved, localIds, map_append, mem_append]
    exact .inl hl
  refine ⟨⟨h.entry, h.ids, ?_, h.regions⟩, Nat.le_refl _, ?_, ?_, rfl, rfl, rfl⟩
  · intro b hb
    exact (h.blocks b hb).mono hl (Nat.le_refl _)
  · intro l hl
    exact mem_append_left _ hl
  · intro b hb i hi
    exact .inr ⟨b, hb, hi⟩

theorem addSaved_mem (m : Method) (name : String) (ty : Ty) :
    (m.addSaved name ty).2 ∈ (m.addSaved name ty).1.localIds := by
  simp [addSaved, localIds]

theorem getElem?_append_ids {xs ys : List Block}
    (hx : ∀ (i : Nat) (b : Block), xs[i]? = some b → b.id = i)
    (hy : ∀ (i : Nat) (b : Block), ys[i]? = some b → b.id = xs.length + i) :
    ∀ (i : Nat) (b : Block), (xs ++ ys)[i]? = some b → b.id = i := by
  intro i b h
  rcases Nat.lt_or_ge i xs.length with hi | hi
  · rw [getElem?_append_left hi] at h
    exact hx i b h
  · rw [getElem?_append_right hi] at h
    have := hy _ b h
    omega

/-- Blocks appended to a method, with regions that name existing blocks. -/
theorem grows_append (h : m.Sound) (bs : List Block) (rs : List Region)
    (hids : ∀ (i : Nat) (b : Block), bs[i]? = some b → b.id = m.blocks.length + i)
    (hbs : ∀ b ∈ bs, b.Sound m.localIds (m.blocks.length + bs.length))
    (hinstrs : ∀ b ∈ bs, ∀ i ∈ b.instrs, i.isMove = true ∨ ∃ b' ∈ m.blocks, i ∈ b'.instrs)
    (hrs : ∀ r ∈ rs, r.Sound (m.blocks.length + bs.length)) :
    m.Grows { m with blocks := m.blocks ++ bs, regions := rs } := by
  refine ⟨⟨?_, getElem?_append_ids h.ids hids, ?_, ?_⟩, ?_, fun l hl => hl, ?_, rfl, rfl, rfl⟩
  · rw [length_append]
    exact Nat.lt_of_lt_of_le h.entry (Nat.le_add_right _ _)
  · intro b hb
    rw [length_append]
    rcases mem_append.1 hb with hb | hb
    · exact (h.blocks b hb).mono (fun l hl => hl) (Nat.le_add_right _ _)
    · exact hbs b hb
  · rw [length_append]
    exact hrs
  · simp
  · intro b hb i hi
    rcases mem_append.1 hb with hb | hb
    · exact .inr ⟨b, hb, hi⟩
    · exact hinstrs b hb i hi

theorem grows_modify (h : m.Sound) (n : Nat) (f : Block → Block) (hid : ∀ b, (f b).id = b.id)
    (hs : ∀ b ∈ m.blocks, (f b).Sound m.localIds m.blocks.length)
    (hinstrs : ∀ b, ∀ i ∈ (f b).instrs, i ∈ b.instrs ∨ i.isMove = true) :
    m.Grows { m with blocks := m.blocks.modify n f } := by
  have hmem : ∀ b ∈ m.blocks.modify n f, b ∈ m.blocks ∨ ∃ c ∈ m.blocks, b = f c := by
    intro b hb
    obtain ⟨i, hi⟩ := mem_iff_getElem?.1 hb
    rw [getElem?_modify] at hi
    obtain ⟨c, hc, hi⟩ := Option.map_eq_some_iff.1 hi
    have hc := mem_of_getElem? hc
    split at hi
    · exact .inr ⟨c, hc, hi.symm⟩
    · exact .inl (hi ▸ hc)
  refine ⟨⟨?_, ?_, ?_, ?_⟩, ?_, fun l hl => hl, ?_, rfl, rfl, rfl⟩
  · simpa using h.entry
  · intro i b hb
    rw [getElem?_modify] at hb
    obtain ⟨c, hc, hb⟩ := Option.map_eq_some_iff.1 hb
    have := h.ids i c hc
    split at hb
    · rw [← hb, hid, this]
    · exact hb ▸ this
  · intro b hb
    rw [length_modify]
    rcases hmem b hb with hb | ⟨c, hc, rfl⟩
    · exact h.blocks b hb
    · exact hs c hc
  · simpa using h.regions
  · simp
  · intro b hb i hi
    rcases hmem b hb with hb | ⟨c, hc, rfl⟩
    · exact .inr ⟨b, hb, hi⟩
    · rcases hinstrs c i hi with hi | hi
      · exact .inr ⟨c, hc, hi⟩
      · exact .inl hi

end Method

/-! ### Growing by a copy of a cleanup body -/

/-- The completion names a declared local and an existing block only. -/
def Completion.Sound (locals : List Nat) (size : Nat) : Completion → Prop
  | .jump target => target < size
  | .ret saved => ∀ l, saved = some l → l ∈ locals
  | .rethrow saved => saved ∈ locals

theorem Completion.isMove_of_mem_code {i : Instr} (h : i ∈ c.code.1) : i.isMove = true := by
  match c, h with
  | .ret (some _), h =>
    rw [mem_singleton.1 h]
    rfl
  | .rethrow _, h =>
    rw [mem_singleton.1 h]
    rfl

theorem Completion.Sound.mentions (h : c.Sound locals size) {i : Instr} (hi : i ∈ c.code.1)
    {l : Nat} (hl : i.Mentions l) : l ∈ locals := by
  match c, h, hi with
  | .ret (some k), h, hi =>
    rw [mem_singleton.1 hi, Instr.mentions_load] at hl
    exact hl ▸ h k rfl
  | .rethrow _, h, hi =>
    rw [mem_singleton.1 hi, Instr.mentions_load] at hl
    exact hl ▸ h

theorem Completion.Sound.targets (h : c.Sound locals size) {t : Nat}
    (ht : t ∈ c.code.2.successors) :
    t < size := by
  match c, h, ht with
  | .jump _, h, ht =>
    rw [mem_singleton.1 ht]
    exact h
  | .ret none, _, ht => simp [Completion.code, Terminator.successors] at ht
  | .ret (some _), _, ht => simp [Completion.code, Terminator.successors] at ht
  | .rethrow _, _, ht => simp [Completion.code, Terminator.successors] at ht

namespace Method

variable {body : List Nat} {base b position : Nat} {m : Method} {c : Completion}

theorem copyOf_lt (h : b < base) : copyOf body base b < base + body.length := by
  unfold copyOf
  split
  · rename_i hb
    have := idxOf_lt_length_iff.2 hb
    omega
  · omega

theorem blockOrStub_mem (h : b < m.blocks.length) : m.blockOrStub b ∈ m.blocks := by
  simp [blockOrStub, block?, List.getElem?_eq_getElem h]

theorem mem_of_mem_kept {b : Block} {i : Instr}
    (hi : i ∈ (if position = 0 then b.instrs.drop 1 else b.instrs)) : i ∈ b.instrs := by
  split at hi
  · exact mem_of_mem_drop hi
  · exact hi

theorem copiedBlock_sound (h : m.Sound) (hc : c.Sound m.localIds m.blocks.length)
    (hb : b < m.blocks.length) (position : Nat) :
    (m.copiedBlock body m.blocks.length c position b).Sound m.localIds
      (m.blocks.length + body.length) := by
  have hk := h.blocks _ (blockOrStub_mem hb)
  by_cases hend : (m.blockOrStub b).terminator = .endCleanup
  · simp only [copiedBlock, if_pos hend]
    refine ⟨?_, ?_⟩
    · intro i hi l hl
      rcases mem_append.1 hi with hi | hi
      · exact hk.declared i (mem_of_mem_kept hi) l hl
      · exact hc.mentions hi hl
    · intro t ht
      exact Nat.lt_of_lt_of_le (hc.targets ht) (Nat.le_add_right _ _)
  · simp only [copiedBlock, if_neg hend]
    refine ⟨fun i hi l hl => hk.declared i (mem_of_mem_kept hi) l hl, ?_⟩
    intro t ht
    rw [Terminator.successors_mapTargets] at ht
    obtain ⟨t', ht', rfl⟩ := mem_map.1 ht
    exact copyOf_lt (hk.targets t' ht')

theorem copiedBlock_instrs (hb : b < m.blocks.length) :
    ∀ i ∈ (m.copiedBlock body base c position b).instrs,
      i.isMove = true ∨ ∃ b' ∈ m.blocks, i ∈ b'.instrs := by
  intro i hi
  by_cases hend : (m.blockOrStub b).terminator = .endCleanup
  · simp only [copiedBlock, if_pos hend] at hi
    rcases mem_append.1 hi with hi | hi
    · exact .inr ⟨_, blockOrStub_mem hb, mem_of_mem_kept hi⟩
    · exact .inl (Completion.isMove_of_mem_code hi)
  · simp only [copiedBlock, if_neg hend] at hi
    exact .inr ⟨_, blockOrStub_mem hb, mem_of_mem_kept hi⟩

theorem copiedBlock_id : (m.copiedBlock body base c position b).id = base + position := by
  by_cases hend : (m.blockOrStub b).terminator = .endCleanup
  · simp only [copiedBlock, if_pos hend]
  · simp only [copiedBlock, if_neg hend]

/-- Putting the images of blocks into regions keeps the regions sound. -/
theorem inherit_sound (h : m.Sound) {index : Nat} {image : Nat → Nat} {size : Nat}
    (hs : m.blocks.length ≤ size) (hi : ∀ b ∈ body, image b < size) :
    ∀ r ∈ (m.inherit index body image).regions, r.Sound size := by
  intro r hr
  simp only [inherit, mem_mapIdx] at hr
  obtain ⟨i, hlt, rfl⟩ := hr
  have hr := (h.regions _ (List.getElem_mem hlt)).mono hs
  split
  · exact hr
  · refine ⟨hr.handler, ?_⟩
    intro b hb
    rcases IdSet.mem_insertMany.1 hb with hb | hb
    · obtain ⟨b', hb', rfl⟩ := mem_map.1 hb
      exact hi b' (mem_filter.1 hb').1
    · exact hr.covered b hb

theorem grows_copyBody (h : m.Sound) (index : Nat) (hbody : ∀ b ∈ body, b < m.blocks.length)
    (hc : c.Sound m.localIds m.blocks.length) : m.Grows (m.copyBody index body c) := by
  refine grows_append h (body.mapIdx (m.copiedBlock body m.blocks.length c))
    (m.inherit index body (copyOf body m.blocks.length)).regions ?_ ?_ ?_ ?_
  · intro i b hb
    rw [getElem?_mapIdx] at hb
    obtain ⟨k, _, rfl⟩ := Option.map_eq_some_iff.1 hb
    exact copiedBlock_id
  · intro b hb
    obtain ⟨i, hi, rfl⟩ := mem_mapIdx.1 hb
    rw [length_mapIdx]
    exact copiedBlock_sound h hc (hbody _ (List.getElem_mem hi)) i
  · intro b hb
    obtain ⟨i, hi, rfl⟩ := mem_mapIdx.1 hb
    exact copiedBlock_instrs (hbody _ (List.getElem_mem hi))
  · rw [length_mapIdx]
    exact inherit_sound h (Nat.le_add_right _ _) fun b hb => copyOf_lt (hbody b hb)

theorem lt_length_copyBody {index : Nat} (hbody : body ≠ []) :
    m.blocks.length < (m.copyBody index body c).blocks.length := by
  have := length_pos_iff.2 hbody
  simp only [copyBody, length_append, length_mapIdx]
  omega

end Method

/-! ### Growing by the expansion of a region -/

namespace Expansion

/-- A region of `m` is being expanded: the method has grown from `m`, and the copies exist. -/
structure Sound (m : Method) (e : Expansion) : Prop where
  grows : m.Grows e.method
  jumps : ∀ c ∈ e.jumps, c.2 < e.method.blocks.length
  returns : ∀ saved copy, e.returns = some (saved, copy) →
    copy < e.method.blocks.length ∧ ∀ l, saved = some l → l ∈ e.method.localIds

variable {m : Method} {e : Expansion} {body : List Nat}

/-- Growing on does not invalidate the copies made so far. -/
theorem Sound.regrow (h : e.Sound m) {n : Method} (hn : e.method.Grows n) :
    { e with method := n }.Sound m where
  grows := h.grows.trans hn
  jumps c hc := Nat.lt_of_lt_of_le (h.jumps c hc) hn.size
  returns saved copy hr := by
    obtain ⟨hlt, hl⟩ := h.returns saved copy hr
    exact ⟨Nat.lt_of_lt_of_le hlt hn.size, fun l hs => hn.localIds l (hl l hs)⟩

theorem sound_withJump (h : e.Sound m) (index : Nat) (hne : body ≠ [])
    (hbody : ∀ b ∈ body, b < m.blocks.length) {target : Nat}
    (ht : target < e.method.blocks.length) :
    (e.withJump index body target).Sound m ∧
      e.method.blocks.length ≤ (e.withJump index body target).method.blocks.length := by
  unfold withJump
  split
  · exact ⟨h, Nat.le_refl _⟩
  · have hb : ∀ b ∈ body, b < e.method.blocks.length := fun b hb =>
      Nat.lt_of_lt_of_le (hbody b hb) h.grows.size
    have hg := Method.grows_copyBody h.grows.sound index hb (c := .jump target) ht
    have hr := h.regrow hg
    refine ⟨⟨hr.grows, ?_, hr.returns⟩, hg.size⟩
    intro c hc
    rcases mem_append.1 hc with hc | hc
    · exact hr.jumps c hc
    · rw [mem_singleton.1 hc]
      exact Method.lt_length_copyBody hne

theorem sound_foldl_withJump (h : e.Sound m) (index : Nat) (hne : body ≠ [])
    (hbody : ∀ b ∈ body, b < m.blocks.length) {targets : List Nat}
    (ht : ∀ t ∈ targets, t < e.method.blocks.length) :
    (targets.foldl (withJump index body) e).Sound m := by
  induction targets generalizing e with
  | nil => exact h
  | cons t ts ih =>
    obtain ⟨hs, hle⟩ := sound_withJump h index hne hbody (ht t (mem_cons_self ..))
    refine ih hs ?_
    intro u hu
    exact Nat.lt_of_lt_of_le (ht u (mem_cons_of_mem _ hu)) hle

theorem sound_withReturn (h : e.Sound m) (index : Nat) (hne : body ≠ [])
    (hbody : ∀ b ∈ body, b < m.blocks.length) : (e.withReturn index body).Sound m := by
  have hb : ∀ b ∈ body, b < e.method.blocks.length := fun b hb =>
    Nat.lt_of_lt_of_le (hbody b hb) h.grows.size
  unfold withReturn
  split
  · exact h
  · split
    · have hg := Method.grows_copyBody h.grows.sound index hb (c := .ret none)
        (fun l hl => by cases hl)
      have hr := h.regrow hg
      refine ⟨hr.grows, hr.jumps, ?_⟩
      intro saved copy hs
      cases hs
      exact ⟨Method.lt_length_copyBody hne, fun l hl => by cases hl⟩
    · have ha := Method.grows_addSaved h.grows.sound "__finally_ret" e.method.ret
      have hmem := Method.addSaved_mem e.method "__finally_ret" e.method.ret
      have hg := Method.grows_copyBody ha.sound index
        (fun b hb' => Nat.lt_of_lt_of_le (hb b hb') ha.size)
        (c := .ret (some (e.method.addSaved "__finally_ret" e.method.ret).2))
        (fun l hl => by cases hl; exact hmem)
      have hr := h.regrow (ha.trans hg)
      refine ⟨hr.grows, hr.jumps, ?_⟩
      intro saved copy hs
      cases hs
      refine ⟨Method.lt_length_copyBody hne, ?_⟩
      intro l hl
      cases hl
      exact hg.localIds _ hmem

theorem Sound.onBlock (h : e.Sound m) (b : Nat) (f : Block → Block) (hid : ∀ k, (f k).id = k.id)
    (hs : ∀ k ∈ e.method.blocks, (f k).Sound e.method.localIds e.method.blocks.length)
    (hinstrs : ∀ k, ∀ i ∈ (f k).instrs, i ∈ k.instrs ∨ i.isMove = true) :
    (e.onBlock b f).Sound m :=
  h.regrow (Method.grows_modify h.grows.sound b f hid hs hinstrs)

/-- Leading a return through a copy keeps the expansion sound. -/
theorem Sound.onBlock_return (h : e.Sound m) (b : Nat) {saved : Option Nat} {copy : Nat}
    (hr : e.returns = some (saved, copy)) :
    (e.onBlock b fun k =>
      { k with
        instrs := k.instrs ++ (saved.map Instr.store).toList
        terminator := .goto copy }).Sound m := by
  obtain ⟨hcopy, hsaved⟩ := h.returns saved copy hr
  have hstore : ∀ i ∈ (saved.map Instr.store).toList, ∃ l, saved = some l ∧ i = .store l := by
    intro i hi
    rw [Option.mem_toList, Option.map_eq_some_iff] at hi
    obtain ⟨l, hl, rfl⟩ := hi
    exact ⟨l, hl, rfl⟩
  refine h.onBlock b _ (fun _ => rfl) ?_ ?_
  · intro k hk
    refine ⟨?_, ?_⟩
    · intro i hi l hl
      rcases mem_append.1 hi with hi | hi
      · exact (h.grows.sound.blocks k hk).declared i hi l hl
      · obtain ⟨l', hs, rfl⟩ := hstore i hi
        rw [Instr.mentions_store] at hl
        exact hl ▸ hsaved l' hs
    · intro t ht
      rw [mem_singleton.1 ht]
      exact hcopy
  · intro k i hi
    rcases mem_append.1 hi with hi | hi
    · exact .inl hi
    · obtain ⟨l, _, rfl⟩ := hstore i hi
      exact .inr rfl

/-- Leading jumps through copies keeps the expansion sound. -/
theorem Sound.onBlock_jumps (h : e.Sound m) (b : Nat) :
    (e.onBlock b fun k =>
      { k with terminator := k.terminator.mapTargets fun t => (e.jumps.lookup t).getD t }).Sound
        m := by
  refine h.onBlock b _ (fun _ => rfl) ?_ (fun _ _ hi => .inl hi)
  intro k hk
  have hk := h.grows.sound.blocks k hk
  refine ⟨hk.declared, ?_⟩
  intro t ht
  rw [Terminator.successors_mapTargets] at ht
  obtain ⟨u, hu, rfl⟩ := mem_map.1 ht
  cases hl : e.jumps.lookup u with
  | none => exact hk.targets u hu
  | some c => exact h.jumps (u, c) (mem_of_lookup_eq_some hl)

theorem exists_returns (e : Expansion) (index : Nat) (body : List Nat) :
    ∃ saved copy, (e.withReturn index body).returns = some (saved, copy) := by
  unfold withReturn
  split
  · rename_i r hr
    exact ⟨r.1, r.2, hr⟩
  · split
    · exact ⟨_, _, rfl⟩
    · exact ⟨_, _, rfl⟩

/-- **What leading the ways out of one block does**: a return goes through the copy that returns,
the jumps go through the copies for their targets, and a block that ends otherwise stays as it
is. -/
inductive Left (index : Nat) (region : Region) (body : List Nat) (e : Expansion) (b : Nat) :
    Expansion → Prop where
  | ret {saved : Option Nat} {copy : Nat} : (e.method.blockOrStub b).terminator = .ret →
      (e.withReturn index body).returns = some (saved, copy) →
      Left index region body e b ((e.withReturn index body).onBlock b fun k =>
        { k with instrs := k.instrs ++ (saved.map Instr.store).toList, terminator := .goto copy })
  | jumps {e' : Expansion} : (e.method.blockOrStub b).terminator ≠ .ret →
      (∀ t ∈ (e.method.blockOrStub b).terminator.successors, t ∉ region.blocks → t ∉ body) →
      e' = ((e.method.blockOrStub b).terminator.successors.filter (¬ · ∈ region.blocks)).foldl
        (withJump index body) e →
      Left index region body e b (e'.onBlock b fun k =>
        { k with terminator := k.terminator.mapTargets fun t => (e'.jumps.lookup t).getD t })
  | stays : (e.method.blockOrStub b).terminator ≠ .ret →
      (e.method.blockOrStub b).terminator.successors = [] → Left index region body e b e

variable {index b : Nat} {region : Region} {e' : Expansion}

theorem any_outside_iff {ts : List Nat} :
    (ts.filter (¬ · ∈ region.blocks)).any (· ∈ body) = true ↔
      ∃ t ∈ ts, t ∉ region.blocks ∧ t ∈ body := by
  simp

theorem left_of_leave (h : leave index region body e b = .ok e') :
    Left index region body e b e' := by
  unfold leave at h
  dsimp only at h
  split at h
  · rename_i hret
    obtain ⟨saved, copy, hreturns⟩ := exists_returns e index body
    rw [hreturns] at h
    cases h
    exact .ret hret hreturns
  case h_2 | h_3 | h_4 =>
    split at h
    · cases h
    · rename_i hany
      cases h
      exact .jumps (by simp [*]) (fun t ht hout hbody =>
        hany (any_outside_iff.2 ⟨t, ht, hout, hbody⟩))
        rfl
  all_goals
    rename_i ht
    cases h
    exact .stays (by simp [ht]) (by simp [ht, Terminator.successors])

/-- Only a jump into the body makes it fail. -/
theorem error_of_leave {d : Defect} (h : leave index region body e b = .error d) :
    d.location = ⟨b, (e.method.blockOrStub b).instrs.length⟩ ∧
      ∃ t ∈ (e.method.blockOrStub b).terminator.successors, t ∉ region.blocks ∧ t ∈ body := by
  unfold leave at h
  dsimp only at h
  split at h
  · split at h <;> cases h
  case h_2 | h_3 | h_4 =>
    split at h
    · rename_i hany
      cases h
      exact ⟨rfl, any_outside_iff.1 hany⟩
    · cases h
  all_goals cases h

/-- Leading the ways out of a block through copies keeps the expansion sound. -/
theorem Sound.leave (h : e.Sound m) (hne : body ≠ []) (hbody : ∀ b ∈ body, b < m.blocks.length)
    (hb : b < m.blocks.length) (hleave : leave index region body e b = .ok e') : e'.Sound m := by
  have htargets := (h.grows.sound.blocks _
    (Method.blockOrStub_mem (Nat.lt_of_lt_of_le hb h.grows.size))).targets
  cases left_of_leave hleave with
  | ret _ hreturns => exact (sound_withReturn h index hne hbody).onBlock_return b hreturns
  | jumps _ _ he'' =>
    subst he''
    exact (sound_foldl_withJump h index hne hbody
      fun t ht => htargets t (mem_filter.1 ht).1).onBlock_jumps b
  | stays _ _ => exact h

end Expansion

namespace Method

variable {m n : Method} {index : Nat}

theorem grows_regions (h : m.Sound) {rs : List Region} (hrs : ∀ r ∈ rs, r.Sound m.blocks.length) :
    m.Grows { m with regions := rs } :=
  ⟨⟨h.entry, h.ids, h.blocks, hrs⟩, Nat.le_refl _, fun _ hl => hl,
    fun b hb _ hi => .inr ⟨b, hb, hi⟩,
    rfl, rfl, rfl⟩

theorem grows_addBlock (h : m.Sound) {instrs : List Instr} {t : Terminator}
    (hmove : ∀ i ∈ instrs, i.isMove = true) (hl : ∀ i ∈ instrs, ∀ l, i.Mentions l → l ∈ m.localIds)
    (ht : ∀ u ∈ t.successors, u < m.blocks.length) : m.Grows (m.addBlock instrs t) := by
  refine grows_append h [⟨m.blocks.length, instrs, t⟩] m.regions ?_ ?_ ?_ ?_
  · intro i b hb
    cases i with
    | zero =>
      cases hb
      rfl
    | succ i => simp at hb
  · intro b hb
    rw [mem_singleton.1 hb]
    exact ⟨hl, fun u hu => Nat.lt_succ_of_lt (ht u hu)⟩
  · intro b hb i hi
    rw [mem_singleton.1 hb] at hi
    exact .inl (hmove i hi)
  · intro r hr
    exact (h.regions r hr).mono (Nat.le_succ _)

/-- What holds of the handler and along normal exits holds of the body. -/
theorem forall_mem_cleanupBody {handler : Nat} {Q : Nat → Prop} (hQ : Q handler)
    (hnext : ∀ b k, Q b → m.block? b = some k → ∀ t ∈ k.terminator.successors, Q t) :
    ∀ b ∈ m.cleanupBody handler, Q b := by
  intro b hb
  obtain ⟨s, hs, hr⟩ := Search.mem_preorder_iff.1 hb
  rw [mem_singleton.1 hs] at hr
  clear hb hs
  induction hr with
  | refl a => exact hQ
  | step ha hb _ ih =>
    refine ih ?_
    rw [normalExits, block?, List.getElem?_eq_getElem ha] at hb
    exact hnext _ _ hQ (List.getElem?_eq_getElem ha) _ hb

/-- A cleanup body is not empty, and its blocks exist. -/
theorem cleanupBody_sound (h : m.Sound) {handler : Nat} (hh : handler < m.blocks.length) :
    m.cleanupBody handler ≠ [] ∧ ∀ b ∈ m.cleanupBody handler, b < m.blocks.length := by
  constructor
  · have : handler ∈ m.cleanupBody handler :=
      Search.mem_preorder_iff.2 ⟨handler, mem_cons_self .., .refl _⟩
    exact ne_nil_of_mem this
  · exact forall_mem_cleanupBody hh fun b k _ hk => (h.blocks k (mem_of_getElem? hk)).targets

/-- The instructions by which a handler takes the exception are moves that name declared locals. -/
theorem takeException?_sound (h : m.Sound) {handler : Nat} (hh : handler < m.blocks.length)
    {take : List Instr} (htake : m.takeException? handler = some take) :
    ∀ i ∈ take, i.isMove = true ∧ ∀ l, i.Mentions l → l ∈ m.localIds := by
  have hk := h.blocks _ (blockOrStub_mem hh)
  unfold takeException? at htake
  split at htake
  · cases htake
    simp
  · rename_i l rest hl
    cases htake
    have hdecl : l ∈ m.localIds := hk.declared (.store l) (by rw [hl]; simp) l (by simp)
    intro i hi
    rcases mem_cons.1 hi with rfl | hi
    · exact ⟨rfl, fun k hm => absurd hm Instr.not_mentions_dup⟩
    · rw [mem_singleton.1 hi]
      exact ⟨rfl, fun k hm => Instr.mentions_store.1 hm ▸ hdecl⟩
  · cases htake

theorem grows_addRethrow (h : m.Sound) {region : Region} (hregion : region.Sound m.blocks.length)
    {body : List Nat} (hne : body ≠ []) (hbody : ∀ b ∈ body, b < m.blocks.length)
    {take : List Instr} (htake : ∀ i ∈ take, i.isMove = true ∧ ∀ l, i.Mentions l → l ∈ m.localIds) :
    m.Grows (m.addRethrow index region body take) := by
  have ha := grows_addSaved h "__finally_exc" (.object "Throwable")
  have hmem := addSaved_mem m "__finally_exc" (.object "Throwable")
  unfold addRethrow
  generalize m.addSaved "__finally_exc" (.object "Throwable") = pair at ha hmem
  obtain ⟨m₁, saved⟩ := pair
  have hc := grows_copyBody ha.sound index
    (fun b hb => Nat.lt_of_lt_of_le (hbody b hb) ha.size) (c := .rethrow saved) hmem
  have hstart : m₁.blocks.length < (m₁.copyBody index body (.rethrow saved)).blocks.length :=
    lt_length_copyBody hne
  have hb : (m₁.copyBody index body (.rethrow saved)).Grows
      ((m₁.copyBody index body (.rethrow saved)).addBlock (take ++ [.store saved])
        (.goto m₁.blocks.length)) := by
    refine grows_addBlock hc.sound ?_ ?_ ?_
    · intro i hi
      rcases mem_append.1 hi with hi | hi
      · exact (htake i hi).1
      · rw [mem_singleton.1 hi]
        rfl
    · intro i hi l hl
      rcases mem_append.1 hi with hi | hi
      · exact (ha.trans hc).localIds l ((htake i hi).2 l hl)
      · rw [mem_singleton.1 hi, Instr.mentions_store] at hl
        exact hl ▸ hc.localIds _ hmem
    · intro u hu
      rw [mem_singleton.1 hu]
      exact hstart
  have hlast : (m₁.copyBody index body (.rethrow saved)).blocks.length <
      ((m₁.copyBody index body (.rethrow saved)).addBlock (take ++ [.store saved])
        (.goto m₁.blocks.length)).blocks.length := by
    simp [addBlock]
  have hall := (ha.trans hc).trans hb
  refine hall.trans (grows_regions hall.sound ?_)
  intro r hr
  rcases mem_or_eq_of_mem_set hr with hr | rfl
  · exact inherit_sound hall.sound (Nat.le_refl _) (fun _ _ => hlast) r hr
  · exact ⟨hlast, (hregion.mono hall.size).covered⟩

/-! ### All regions -/

/-- **What the expansion of a region does.** -/
theorem expandCleanup_eq_ok {region : Region} (hn : m.expandCleanup index region = .ok n) :
    ∃ take e, (m.cleanupBody region.handler).find? (· ∈ region.blocks) = none ∧
      m.takeException? region.handler = some take ∧
      region.blocks.toList.foldlM
        (Expansion.leave index region (m.cleanupBody region.handler)) { method := m } = .ok e ∧
      n = e.method.addRethrow index region (m.cleanupBody region.handler) take := by
  unfold expandCleanup at hn
  dsimp only at hn
  split at hn
  · cases hn
  · rename_i hfind
    split at hn
    · cases hn
    · rename_i take htake
      split at hn
      · cases hn
      · rename_i e he
        cases hn
        exact ⟨take, e, hfind, htake, he, rfl⟩

theorem expandAt_eq_ok (hn : m.expandAt index = .ok n) :
    (n = m ∧ ∀ r, m.regions[index]? = some r → r.kind ≠ .cleanup) ∨
      ∃ region, m.regions[index]? = some region ∧ region.kind = .cleanup ∧
        m.expandCleanup index region = .ok n := by
  unfold expandAt at hn
  split at hn
  · rename_i region hr
    split at hn
    · rename_i hkind
      exact .inr ⟨region, hr, hkind, hn⟩
    · rename_i hkind
      cases hn
      exact .inl ⟨rfl, fun r hr' => by cases hr.symm.trans hr'; exact hkind⟩
  · rename_i hr
    cases hn
    exact .inl ⟨rfl, fun r hr' => by cases hr.symm.trans hr'⟩

theorem withoutCleanup_eq_ok (hn : m.withoutCleanup = .ok n) :
    (n = m ∧ ¬ m.hasCleanup = true) ∨ (m.hasCleanup = true ∧
      ∃ k, (range m.regions.length).foldlM expandAt m = .ok k ∧ n = k.dropUnreachable) := by
  unfold withoutCleanup at hn
  split at hn
  · cases hn
  · split at hn
    · rename_i hcleanup
      split at hn
      · cases hn
      · rename_i k hk
        cases hn
        exact .inr ⟨hcleanup, k, hk, rfl⟩
    · rename_i hnone
      cases hn
      exact .inl ⟨rfl, hnone⟩

theorem grows_expandCleanup (h : m.Sound) {region : Region} (hregion : region.Sound m.blocks.length)
    (hn : m.expandCleanup index region = .ok n) : m.Grows n := by
  obtain ⟨hne, hbody⟩ := cleanupBody_sound h hregion.handler
  obtain ⟨take, e, -, htake, he, rfl⟩ := expandCleanup_eq_ok hn
  have hstart : Expansion.Sound m { method := m } :=
    ⟨h.grows, fun c hc => by simp at hc, fun saved copy hr => by cases hr⟩
  have hs : e.Sound m := by
    refine foldlM_ok_induction he hstart ?_
    intro e₀ b hb e₁ he₀ hleave
    exact he₀.leave hne hbody (hregion.covered b hb) hleave
  refine hs.grows.trans (grows_addRethrow hs.grows.sound (hregion.mono hs.grows.size) hne ?_ ?_)
  · intro b hb
    exact Nat.lt_of_lt_of_le (hbody b hb) hs.grows.size
  · intro i hi
    obtain ⟨hm, hl⟩ := takeException?_sound h hregion.handler htake i hi
    exact ⟨hm, fun l hmen => hs.grows.localIds l (hl l hmen)⟩

theorem grows_expandAt (h : m.Sound) (hn : m.expandAt index = .ok n) : m.Grows n := by
  obtain ⟨rfl, -⟩ | ⟨region, hr, -, hn⟩ := expandAt_eq_ok hn
  · exact h.grows
  · exact grows_expandCleanup h (h.regions region (mem_of_getElem? hr)) hn

theorem grows_dropUnreachable (h : m.Sound) : m.Grows m.dropUnreachable := by
  have hlen : m.dropUnreachable.blocks.length = m.blocks.length := by simp [dropUnreachable]
  have hmem : ∀ b ∈ m.dropUnreachable.blocks, b ∈ m.blocks ∨
      ∃ k ∈ m.blocks, b = { k with instrs := [], terminator := .unreachable } := by
    intro b hb
    simp only [dropUnreachable, mem_map] at hb
    obtain ⟨k, hk, rfl⟩ := hb
    split
    · exact .inl hk
    · exact .inr ⟨k, hk, rfl⟩
  refine ⟨⟨?_, ?_, ?_, ?_⟩, ?_, fun l hl => hl, ?_, rfl, rfl, rfl⟩
  · rw [hlen]
    exact h.entry
  · intro i b hb
    simp only [dropUnreachable, getElem?_map] at hb
    obtain ⟨k, hk, rfl⟩ := Option.map_eq_some_iff.1 hb
    have := h.ids i k hk
    split <;> exact this
  · intro b hb
    rw [hlen]
    rcases hmem b hb with hb | ⟨k, hk, rfl⟩
    · exact h.blocks b hb
    · exact ⟨fun i hi => by simp at hi, fun t ht => by simp [Terminator.successors] at ht⟩
  · intro r hr
    rw [hlen]
    simp only [dropUnreachable, mem_filter, mem_map] at hr
    obtain ⟨⟨r₀, hr₀, rfl⟩, _⟩ := hr
    refine ⟨(h.regions r₀ hr₀).handler, ?_⟩
    intro b hb
    exact (h.regions r₀ hr₀).covered b (IdSet.mem_filter.1 hb).1
  · exact Nat.le_of_eq hlen.symm
  · intro b hb i hi
    rcases hmem b hb with hb | ⟨k, hk, rfl⟩
    · exact .inr ⟨b, hb, hi⟩
    · simp at hi

/-- **The method without cleanup regions has grown from the given one.** -/
theorem grows_withoutCleanup (h : m.Sound) (hn : m.withoutCleanup = .ok n) : m.Grows n := by
  obtain ⟨rfl, -⟩ | ⟨-, k, hk, rfl⟩ := withoutCleanup_eq_ok hn
  · exact h.grows
  · have hg : m.Grows k := by
      refine foldlM_ok_induction hk h.grows ?_
      intro m₀ i _ m₁ hm₀ hm₁
      exact hm₀.trans (grows_expandAt hm₀.sound hm₁)
    exact hg.trans (grows_dropUnreachable hg.sound)

end Method

end Resumable
