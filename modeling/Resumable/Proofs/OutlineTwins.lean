/-
**Methods that read as one outline show the same.**

Two methods that read as one outline have the same code up to the numbers of blocks and locals and
up to the order of the regions.  If regions that share a block come in the same order in both, the
machine runs the two in step: it is at blocks of the same name, locals of the same name have the
same value, and an exception goes to the handlers of the same region.

Main results:

* `Twins.handler` — **exceptions go to the handlers of the same region**;
* `Twins.shows_iff` — **methods that read as one outline show the same**.
-/

import Resumable.Proofs.OutlineReadings
import Resumable.Proofs.WithoutCleanup

set_option autoImplicit false

namespace Resumable

open List

/-! ### Names that tell instructions and terminators -/

theorem Instr.mapLocals_mapLocals (f g : Nat → Nat) (i : Instr) :
    (i.mapLocals f).mapLocals g = i.mapLocals (g ∘ f) := by
  cases i <;> rfl

variable {loc : Nat → Nat} {ν : Nat → Spot}

/-- The first instruction is the second with other locals if the names of the locals are the
same. -/
theorem Instr.exists_mapLocals {loc' : Nat → Nat} {i i' : Instr} {locals : List Nat}
    (hinj : ∀ l ∈ locals, ∀ l' ∈ locals, loc' l = loc' l' → l = l')
    (hlocals : ∀ l, i'.Mentions l → l ∈ locals) (h : i.mapLocals loc = i'.mapLocals loc') :
    ∃ f, i' = i.mapLocals f ∧ ∀ l, i.Mentions l → f l ∈ locals ∧ loc' (f l) = loc l := by
  classical
  -- The local of the second method that has the given name.
  let g : Nat → Nat := fun x => if hx : ∃ l ∈ locals, loc' l = x then hx.choose else 0
  have hg : ∀ l ∈ locals, g (loc' l) = l := by
    intro l hl
    have hx : ∃ l' ∈ locals, loc' l' = loc' l := ⟨l, hl, rfl⟩
    simp only [g, dif_pos hx]
    exact hinj _ hx.choose_spec.1 l hl hx.choose_spec.2
  have hi' : i' = i.mapLocals (g ∘ loc) := by
    rw [← Instr.mapLocals_mapLocals, h, Instr.mapLocals_mapLocals]
    conv_lhs => rw [← i'.mapLocals_id]
    exact Instr.mapLocals_congr fun l hl => (hg l (hlocals l hl)).symm
  refine ⟨g ∘ loc, hi', fun l hl => ?_⟩
  have hmap : i.mapLocals (loc' ∘ g ∘ loc) = i.mapLocals loc := by
    rw [← Instr.mapLocals_mapLocals, ← hi', h]
  rcases hl with hl | hl
  · have huses : i'.uses? = some ((g ∘ loc) l) := by rw [hi', Instr.uses?_mapLocals, hl]; rfl
    have hname := congrArg Instr.uses? hmap
    rw [Instr.uses?_mapLocals, Instr.uses?_mapLocals, hl] at hname
    exact ⟨hlocals _ (.inl huses), Option.some.inj hname⟩
  · have hdefines : i'.defines? = some ((g ∘ loc) l) := by
      rw [hi', Instr.defines?_mapLocals, hl]
      rfl
    have hname := congrArg Instr.defines? hmap
    rw [Instr.defines?_mapLocals, Instr.defines?_mapLocals, hl] at hname
    exact ⟨hlocals _ (.inr hdefines), Option.some.inj hname⟩

theorem Terminator.eq_mapTargets {t t' : Terminator} {φ : Nat → Nat}
    (hshape : t.mapTargets (fun _ => 0) = t'.mapTargets fun _ => 0)
    (hsucc : t'.successors = t.successors.map φ) : t' = t.mapTargets φ := by
  cases t with
  | switch cs d =>
    cases t' with
    | switch cs' d' =>
      simp only [successors, map_append, map_cons, map_nil, List.map_map] at hsucc
      obtain ⟨htargets, hdefault⟩ := append_inj' hsucc rfl
      have hkeys : cs'.map (·.1) = cs.map (·.1) := by
        have := congrArg (map Prod.fst) (switch.inj hshape).1
        simpa only [List.map_map, Function.comp_def] using this.symm
      have hcases : cs' = cs.map fun c => (c.1, φ c.2) := by
        calc cs' = (cs'.map (·.1)).zip (cs'.map (·.2)) := by rw [zip_map']; simp
          _ = (cs.map (·.1)).zip (cs.map (φ ∘ (·.2))) := by rw [hkeys, htargets]
          _ = cs.map fun c => (c.1, φ c.2) := by rw [zip_map']; rfl
      rw [mapTargets, hcases, (cons.inj hdefault).1]
    | _ => simp [mapTargets] at hshape
  | _ => cases t' <;> simp_all [mapTargets, successors]

/-- The first terminator is the second with other targets if the names of the targets are the
same. -/
theorem Terminator.exists_mapTargets {ν' : Nat → Spot} {t t' : Terminator} {size : Nat}
    (hinj : ∀ b < size, ∀ b' < size, ν' b = ν' b' → b = b') (hsize : ∀ b ∈ t'.successors, b < size)
    (hshape : t.mapTargets (fun _ => 0) = t'.mapTargets fun _ => 0)
    (h : t.successors.map ν = t'.successors.map ν') :
    ∃ φ : Nat → Nat, t' = t.mapTargets φ ∧ ∀ b ∈ t.successors, φ b < size ∧ ν' (φ b) = ν b := by
  classical
  let g : Spot → Nat := fun x => if hx : ∃ b < size, ν' b = x then hx.choose else 0
  have hg : ∀ b < size, g (ν' b) = b := by
    intro b hb
    have hx : ∃ b' < size, ν' b' = ν' b := ⟨b, hb, rfl⟩
    simp only [g, dif_pos hx]
    exact hinj _ hx.choose_spec.1 b hb hx.choose_spec.2
  have hsucc : t'.successors = t.successors.map (g ∘ ν) := by
    rw [← List.map_map, h, List.map_map]
    conv_lhs => rw [← List.map_id t'.successors]
    exact map_congr_left fun b hb => (hg b (hsize b hb)).symm
  refine ⟨g ∘ ν, Terminator.eq_mapTargets hshape hsucc, fun b hb => ?_⟩
  have hmem : (g ∘ ν) b ∈ t'.successors := hsucc ▸ mem_map.2 ⟨b, hb, rfl⟩
  refine ⟨hsize _ hmem, ?_⟩
  rw [hsucc, List.map_map] at h
  exact (map_inj_left.1 h b hb).symm

/-! ### Methods that read as one outline -/

/-- **Methods that read as one outline**, with regions that share a block in the same order. -/
structure Twins (m n n' : Method) (G : Outline) (ν ν' : Nat → Spot)
    (loc loc' pos pos' : Nat → Nat) :
    Prop where
  left : Reads m n G ν loc pos
  right : Reads m n' G ν' loc' pos'
  order : ∀ i < m.regions.length, ∀ j < m.regions.length, G.Shares i j → pos i < pos j →
    pos' i < pos' j

/-- Region `i` is the first, at the given positions, of those around a block that take an
exception. -/
structure Outline.First (G : Outline) (p : Program) (count : Nat) (pos : Nat → Nat) (a : Spot)
    (e : Value) (i : Nat) : Prop where
  lt : i < count
  covers : G.covers i a
  takes : p.takes e (G.kind i) = true
  first : ∀ j < count, G.covers j a → p.takes e (G.kind j) = true → pos i ≤ pos j

/-- The handler of an exception, by the outline. -/
theorem Reads.handler_iff {m n : Method} {G : Outline} {pos : Nat → Nat} (h : Reads m n G ν loc pos)
    (p : Program) {b : Nat} (hb : b < n.blocks.length) (e : Value) (hd : Nat) :
    p.handler? n b e = some hd ↔ ∃ i r, G.First p m.regions.length pos (ν b) e i ∧
      n.regions[pos i]? = some r ∧ r.handler = hd := by
  have htakes : ∀ i < m.regions.length, ∀ r, n.regions[pos i]? = some r →
      (decide (decide (b ∈ r.blocks) = true ∧ p.takes e r.kind = true) = true ↔
        G.covers i (ν b) ∧ p.takes e (G.kind i) = true) := by
    intro i hi r hr
    rw [decide_eq_true_iff, decide_eq_true_iff, h.mem_blocks_iff hr hb, (h.region_eq hi hr).1]
  rw [Program.handler?, Method.covering, find?_filter, Option.map_eq_some_iff]
  constructor
  · rintro ⟨r, hfind, rfl⟩
    obtain ⟨hr, q, hq, rfl, hbefore⟩ := find?_eq_some_iff_getElem.1 hfind
    obtain ⟨i, hi, rfl⟩ := h.listed q hq
    have hri := List.getElem?_eq_getElem hq
    obtain ⟨hcov, htake⟩ := (htakes i hi _ hri).1 hr
    refine ⟨i, _, ⟨hi, hcov, htake, fun j hj hcov' htake' => ?_⟩, hri, rfl⟩
    rcases Nat.lt_or_ge (pos j) (pos i) with hlt | hge
    · have hrj := List.getElem?_eq_getElem (Nat.lt_trans hlt hq)
      have hno := hbefore (pos j) hlt
      rw [(htakes j hj _ hrj).2 ⟨hcov', htake'⟩] at hno
      cases hno
    · exact hge
  · rintro ⟨i, r, hfirst, hr, rfl⟩
    refine ⟨r,
      find?_eq_some_iff_getElem.2 ⟨(htakes i hfirst.lt r hr).2 ⟨hfirst.covers, hfirst.takes⟩,
      pos i, ?_⟩, rfl⟩
    obtain ⟨hq, hri⟩ := List.getElem?_eq_some_iff.1 hr
    refine ⟨hq, hri, fun q hlt => ?_⟩
    obtain ⟨j, hj, rfl⟩ := h.listed q (Nat.lt_trans hlt hq)
    rw [Bool.not_eq_true', Bool.eq_false_iff]
    intro hpred
    obtain ⟨hcov, htake⟩ := (htakes j hj _ (List.getElem?_eq_getElem _)).1 hpred
    have := hfirst.first j hj hcov htake
    omega

theorem Twins.symm {m n n' : Method} {G : Outline} {ν' : Nat → Spot} {loc' pos pos' : Nat → Nat}
    (h : Twins m n n' G ν ν' loc loc' pos pos') : Twins m n' n G ν' ν loc' loc pos' pos where
  left := h.right
  right := h.left
  order i hi j hj hshares hlt := by
    rcases Nat.lt_trichotomy (pos i) (pos j) with hpos | hpos | hpos
    · exact hpos
    · rw [h.left.apart i hi j hj hpos] at hlt
      exact absurd hlt (Nat.lt_irrefl _)
    · obtain ⟨a, ha, hb⟩ := hshares
      have := h.order j hj i hi ⟨a, hb, ha⟩ hpos
      omega

/-! ### Activations that correspond -/

/-- **Activations of the two methods that correspond**: they are at blocks of the same name, and
locals of the same name have the same value. -/
structure Paired (n n' : Method) (ν ν' : Nat → Spot) (loc loc' : Nat → Nat) (a a' : Activation) :
    Prop where
  source : a.method = n
  target : a'.method = n'
  bound : a.block < n.blocks.length
  bound' : a'.block < n'.blocks.length
  block : ν a.block = ν' a'.block
  offset : a'.offset = a.offset
  stack : a'.stack = a.stack
  monitors : a'.monitors = a.monitors
  depth : a'.depth = a.depth
  locals : ∀ l ∈ n.localIds, ∀ l' ∈ n'.localIds, loc l = loc' l' →
    a'.locals.get l' = a.locals.get l

/-- Machines that run activations that correspond. -/
inductive PairedRuns (n n' : Method) (ν ν' : Nat → Spot) (loc loc' : Nat → Nat) :
    Machine → Machine → Prop where
  | runs {s : Store} {a a' : Activation} : Paired n n' ν ν' loc loc' a a' →
      PairedRuns n n' ν ν' loc loc' ⟨s, .exec a, []⟩ ⟨s, .exec a', []⟩
  | waits {s : Store} {c : Control} {a a' : Activation} {keep : Bool} :
      Paired n n' ν ν' loc loc' a a' →
      PairedRuns n n' ν ν' loc loc' ⟨s, c, [.caller a keep]⟩ ⟨s, c, [.caller a' keep]⟩
  | returns {s : Store} {v : Value} :
      PairedRuns n n' ν ν' loc loc' ⟨s, .answer v, []⟩ ⟨s, .answer v, []⟩
  | unwinds {s : Store} {u u' : Unwind} : u'.unplaced = u.unplaced →
      PairedRuns n n' ν ν' loc loc' ⟨s, .unwind u, []⟩ ⟨s, .unwind u', []⟩

section Twins

variable {m n n' : Method} {G : Outline} {ν ν' : Nat → Spot} {loc loc' pos pos' : Nat → Nat}
  (h : Twins m n n' G ν ν' loc loc' pos pos')
include h

theorem Twins.first (p : Program) {a : Spot} {e : Value} {i : Nat}
    (hi : G.First p m.regions.length pos a e i) : G.First p m.regions.length pos' a e i := by
  refine { hi with first := fun j hj hcov htakes => ?_ }
  rcases Nat.lt_or_eq_of_le (hi.first j hj hcov htakes) with hlt | heq
  · exact Nat.le_of_lt (h.order i hi.lt j hj ⟨a, hi.covers, hcov⟩ hlt)
  · exact Nat.le_of_eq (congrArg pos' (h.left.apart i hi.lt j hj heq))

/-- **Exceptions go to the handlers of the same region.** -/
theorem Twins.handler (p : Program) {b b' : Nat} (hb : b < n.blocks.length)
    (hb' : b' < n'.blocks.length) (hbb : ν b = ν' b') (e : Value) {hd : Nat}
    (hhd : p.handler? n b e = some hd) : ∃ hd', p.handler? n' b' e = some hd' ∧
      hd < n.blocks.length ∧ hd' < n'.blocks.length ∧ ν hd = ν' hd' := by
  obtain ⟨i, r, hfirst, hr, rfl⟩ := (h.left.handler_iff p hb e hd).1 hhd
  obtain ⟨r', hr', -, hhandler'⟩ := h.right.table i hfirst.lt
  have hfirst' := h.first p hfirst
  rw [hbb] at hfirst'
  refine ⟨r'.handler, (h.right.handler_iff p hb' e _).2 ⟨i, r', hfirst', hr', rfl⟩,
    (h.left.sound_region hr).handler, (h.right.sound_region hr').handler, ?_⟩
  rw [hhandler', (h.left.region_eq hfirst.lt hr).2]

variable {a a' : Activation}

theorem Twins.raise (p : Program) (ha : Paired n n' ν ν' loc loc' a a') (s : Store) (e : Value) :
    PairedRuns n n' ν ν' loc loc' ⟨s, p.raise a e, []⟩ ⟨s, p.raise a' e, []⟩ := by
  unfold Program.raise
  rw [ha.source, ha.target]
  cases hhd : p.handler? n a.block e with
  | some hd =>
    obtain ⟨hd', hhd', hlt, hlt', heq⟩ := h.handler p ha.bound ha.bound' ha.block e hhd
    rw [hhd']
    exact .runs { ha with bound := hlt, bound' := hlt', block := heq, offset := rfl, stack := rfl }
  | none =>
    cases hhd' : p.handler? n' a'.block e with
    | some hd' =>
      obtain ⟨hd, hsome, -⟩ := h.symm.handler p ha.bound' ha.bound ha.block.symm e hhd'
      simp [hhd] at hsome
    | none => exact .unwinds rfl

theorem Twins.name (ha : Paired n n' ν ν' loc loc' a a') : a'.method.name = a.method.name := by
  rw [ha.source, ha.target, h.left.grows.name, h.right.grows.name]

theorem Twins.named (ha : Paired n n' ν ν' loc loc' a a') : ∃ k k',
    n.block? a.block = some k ∧ n'.block? a'.block = some k' ∧
      k.named ν loc = k'.named ν' loc' := by
  obtain ⟨k, hk⟩ := Reads.exists_block ha.bound
  obtain ⟨k', hk'⟩ := Reads.exists_block ha.bound'
  refine ⟨k, k', hk, hk', Option.some.inj ?_⟩
  rw [← h.left.block _ k hk, ← h.right.block _ k' hk', ha.block]

theorem Twins.locals_write (ha : Paired n n' ν ν' loc loc' a a') {i : Instr} {f : Nat → Nat}
    (hi : ∀ l, i.Mentions l → l ∈ n.localIds)
    (hf : ∀ l, i.Mentions l → f l ∈ n'.localIds ∧ loc' (f l) = loc l) (v : Value) :
    ∀ l ∈ n.localIds, ∀ l' ∈ n'.localIds, loc l = loc' l' →
      (a'.locals.write (i.mapLocals f) v).get l' = (a.locals.write i v).get l := by
  intro l hl l' hl' hll
  rw [Locals.get_write, Locals.get_write, Instr.defines?_mapLocals]
  cases hd : i.defines? with
  | none => exact ha.locals l hl l' hl' hll
  | some d =>
    obtain ⟨hmem, hname⟩ := hf d (.inr hd)
    have hiff : f d = l' ↔ d = l := by
      constructor
      · rintro rfl
        exact h.left.locals d (hi d (.inr hd)) l hl (hname.symm.trans hll.symm)
      · rintro rfl
        exact h.right.locals _ hmem l' hl' (hname.trans hll)
    simp only [Option.map_some, Option.some.injEq, hiff]
    split
    · rfl
    · exact ha.locals l hl l' hl' hll

theorem Twins.act (p : Program) (ha : Paired n n' ν ν' loc loc' a a') (s : Store) {i i' : Instr}
    (hi : ∀ l, i.Mentions l → l ∈ n.localIds) (hi' : ∀ l, i'.Mentions l → l ∈ n'.localIds)
    (hii : i.mapLocals loc = i'.mapLocals loc') :
    PairedRuns n n' ν ν' loc loc' (Machine.act p a [] (a.exec s i))
      (Machine.act p a' [] (a'.exec s i')) := by
  obtain ⟨f, rfl, hf⟩ := Instr.exists_mapLocals h.right.locals hi' hii
  obtain ⟨t, x, y, hx, hy, htracks⟩ :=
    Activation.tracks_exec a a' rfl s ha.stack ha.monitors ha.depth
    fun l hl => ha.locals l (hi l (.inl hl)) _ (hf l (.inl hl)).1 (hf l (.inl hl)).2.symm
  rw [hx, hy]
  cases htracks with
  | next v stack monitors =>
    exact .runs { ha with
      offset := by rw [ha.offset], stack := rfl, monitors := rfl
      locals := h.locals_write ha hi hf v }
  | throw e _ => exact h.raise p ha t e
  | fault f hf => exact .unwinds (hf.unplaced (h.name ha) _ _)
  | errand he he' =>
    rw [Machine.act_waits he, Machine.act_waits he']
    exact .waits { ha with stack := rfl }

theorem Twins.execute (p : Program) (ha : Paired n n' ν ν' loc loc' a a') (s : Store) :
    PairedRuns n n' ν ν' loc loc' (Machine.execute p s a []) (Machine.execute p s a' []) := by
  obtain ⟨k, k', hk, hk', hnamed⟩ := h.named ha
  have hinstrs : k.instrs.map (Instr.mapLocals loc) = k'.instrs.map (Instr.mapLocals loc') :=
    congrArg Stretch.instrs hnamed
  unfold Machine.execute
  simp only [ha.source, ha.target, hk, hk', ha.offset]
  cases hi : k.instrs[a.offset]? with
  | some i =>
    have hmap := congrArg (·[a.offset]?) hinstrs
    simp only [getElem?_map, hi, Option.map_some] at hmap
    obtain ⟨i', hi', hii⟩ := Option.map_eq_some_iff.1 hmap.symm
    simp only [hi']
    exact h.act p ha s ((h.left.sound_block hk).declared i (mem_of_getElem? hi))
      ((h.right.sound_block hk').declared i' (mem_of_getElem? hi')) hii.symm
  | none =>
    have hi' : k'.instrs[a.offset]? = none := by
      have hlen := congrArg List.length hinstrs
      simp only [length_map] at hlen
      rw [List.getElem?_eq_none_iff] at hi ⊢
      omega
    simp only [hi']
    obtain ⟨φ, hφ, htargets⟩ := Terminator.exists_mapTargets h.right.injective
      (h.right.sound_block hk').targets (congrArg Stretch.shape hnamed)
      (congrArg Stretch.targets hnamed)
    have hparts := Activation.parts_leave (ρ := .id) (a := a) (b := a') φ k.terminator
      (by simp [ha.stack]) fun _ => by rw [ha.source, ha.target, h.left.grows.ret,
        h.right.grows.ret]
    have hlt := (h.left.sound_block hk).targets
    rw [hφ]
    generalize k.terminator = t at *
    generalize a.leave t = d at *
    generalize a'.leave (t.mapTargets φ) = d' at *
    cases hparts with
    | jump u stack hu =>
      obtain ⟨hlt', heq⟩ := htargets u hu
      simp only [Value.map_rename_id]
      exact .runs { ha with
        bound := hlt u hu, bound' := hlt', block := heq.symm, offset := rfl, stack := rfl }
    | ret v _ =>
      simp only [Value.rename_id]
      exact .returns
    | throw e _ =>
      simp only [Value.rename_id]
      exact h.raise p ha s e
    | fault f hf => exact .unwinds (hf.unplaced (h.name ha) _ _)

/-- **The machine runs the two methods in step.** -/
theorem Twins.simulates (p : Program) :
    Play.Simulates (Machine.play p) (Machine.play p) (PairedRuns n n' ν ν' loc loc') :=
  .of_cases fun hxy => by
    cases hxy with
    | runs ha => exact .inl ⟨rfl, _, .one rfl, h.execute p ha _⟩
    | returns => exact .inr ⟨_, rfl, rfl, fun _ _ h => by cases h⟩
    | unwinds hu =>
      exact .inr ⟨_, rfl, by simp [Machine.play, Machine.sight, hu], fun _ _ h => by cases h⟩
    | waits ha =>
      refine .inr ⟨_, rfl, rfl, fun _ _ _ => Reply.forall_of_cases (fun _ _ => ?_)
        (fun s e => h.raise p ha s e) fun _ _ => .unwinds rfl⟩
      refine .runs { ha with offset := ?_, stack := ?_ }
      · simp only [Activation.advance, ha.offset]
      · simp only [Activation.advance, ha.stack]

/-- Locals of the same name have the same value at the start. -/
theorem Twins.locals_start (hparams : m.DeclaresParams) (args : List Value) :
    ∀ l ∈ n.localIds, ∀ l' ∈ n'.localIds, loc l = loc' l' →
      (Locals.ofArgs m.params args).get l' = (Locals.ofArgs m.params args).get l := by
  have hbase : ∀ l ∈ m.localIds, l < G.base := fun l hl => h.left.base ▸ Method.lt_nextLocal hl
  have hfresh : ∀ l, l ∉ m.localIds → (Locals.ofArgs m.params args).get l = .null := by
    intro l hl
    rw [Locals.ofArgs_eq_setAll]
    refine (Locals.get_setAll_of_not_mem _ fun c hc heq => hl ?_).trans rfl
    exact heq ▸ hparams.mem_localIds (of_mem_zip hc).1
  intro l hl l' hl' hll
  -- A local of `m` is named by its number, which is less than the names of new ones.
  rcases h.left.named l hl with ⟨hmem, hname⟩ | ⟨hmem, hname⟩ <;>
    rcases h.right.named l' hl' with ⟨hmem', hname'⟩ | ⟨hmem', hname'⟩
  · rw [← hname, hll, hname']
  · have := hbase l hmem
    omega
  · have := hbase l' hmem'
    omega
  · rw [hfresh l hmem, hfresh l' hmem']

/-- **Methods that read as one outline show the same.** -/
theorem Twins.shows_iff (hm : m.Sound) (hparams : m.DeclaresParams) (p : Program)
    (s : Store) (args : List Value) (depth : Nat) (rs : List Reply) (o : Sight) :
    (Machine.play p).Shows (.begin s n args depth) rs o ↔
      (Machine.play p).Shows (.begin s n' args depth) rs o := by
  refine (h.simulates p).shows_iff (.runs ?_) rs o
  exact {
    source := rfl
    target := rfl
    bound := h.left.grows.sound.entry
    bound' := h.right.grows.sound.entry
    block := by
      simp only [Activation.start, h.left.entry, h.right.entry, h.left.given _ hm.entry,
        h.right.given _ hm.entry]
    offset := rfl
    stack := rfl
    monitors := rfl
    depth := rfl
    locals := by
      simp only [Activation.start, h.left.grows.params, h.right.grows.params]
      exact h.locals_start hparams args }

end Twins

end Resumable
