/-
**The order in which regions are listed.**

The table is in order of priority, so regions that share a block cannot change places.  Regions that
share none can, as far as exceptions go; but cleanup regions are also expanded in the order of the
table, and a cleanup body can lie in another region.  Two things then depend on the order.  A body
that ends in a region that was expanded before its own loses the body of that region; and a body is
what is reached from its handler when its turn comes, which the expansion of a region inside it can
change.

Neither happens to regions of which none gets to the other through bodies: their expansions commute,
so in either order there is a result, and the two results are one method up to the names of blocks
and locals.  And where cleanup regions are used in a tidy way and bodies end where they should in
both orders, the results mean the same as the method, whose meaning does not depend on the order.

Main results:

* `Rearranges.shows_cleaning_iff` — what a method with cleanup regions means does not depend on the
  order;
* `Rearranges.exists_foldlM_iff`, `Rearranges.exists_twins` — **expansions in another order**;
* `Method.withoutCleanup_reorder` — **the order of regions that share no block does not matter**,
  for regions that do not depend on each other and for methods that are tidy;
* `reorder_differs` — for others it matters.
-/

import Resumable.Proofs.CleanupEnds
import Resumable.Proofs.OutlineTwins

set_option autoImplicit false

namespace Resumable

open List

/-! ### Another order -/

theorem getElem?_filterMap_of_isSome {α β : Type} {f : α → Option β} {xs : List α}
    (h : ∀ x ∈ xs, (f x).isSome) (q : Nat) : (xs.filterMap f)[q]? = xs[q]?.bind f := by
  induction xs generalizing q with
  | nil => rfl
  | cons x xs ih =>
    obtain ⟨y, hy⟩ := Option.isSome_iff_exists.1 (h x mem_cons_self)
    rw [filterMap_cons_some hy]
    cases q with
    | zero => exact hy.symm
    | succ q => exact ih (fun x hx => h x (mem_cons_of_mem _ hx)) q

namespace Method

/-- The method with its regions listed in another order. -/
def reorder (m : Method) (order : List Nat) : Method :=
  { m with regions := order.filterMap (m.regions[·]?) }

/-- The regions at `i` and `j` share a block. -/
def Shares (m : Method) (i j : Nat) : Prop := ∃ b, m.Covers i b ∧ m.Covers j b

/-- **A new order of the regions**, in which regions that share a block stand as they did. -/
structure Rearranges (m : Method) (order : List Nat) : Prop where
  perm : order.Perm (range m.regions.length)
  keeps : order.Pairwise fun i j => j < i → ¬ m.Shares i j

instance (m : Method) (i j : Nat) : Decidable (m.Shares i j) :=
  decidable_of_iff (∃ r ∈ m.regions[i]?, ∃ r' ∈ m.regions[j]?,
      ∃ b ∈ r.blocks.toList, b ∈ r'.blocks) <| by
    constructor
    · rintro ⟨r, hr, r', hr', b, hb, hb'⟩
      exact ⟨b, ⟨r, hr, hb⟩, ⟨r', hr', hb'⟩⟩
    · rintro ⟨b, ⟨r, hr, hb⟩, ⟨r', hr', hb'⟩⟩
      exact ⟨r, hr, r', hr', b, hb, hb'⟩

instance (m : Method) (order : List Nat) : Decidable (m.Rearranges order) :=
  decidable_of_iff (order.Perm (range m.regions.length) ∧
      order.Pairwise fun i j => j < i → ¬ m.Shares i j)
    ⟨fun h => ⟨h.1, h.2⟩, fun h => ⟨h.perm, h.keeps⟩⟩

namespace Rearranges

variable {m : Method} {order : List Nat} (h : m.Rearranges order)
include h

theorem mem_iff {i : Nat} : i ∈ order ↔ i < m.regions.length := h.perm.mem_iff.trans mem_range

theorem nodup : order.Nodup := h.perm.nodup_iff.2 nodup_range

theorem getElem?_reorder (q : Nat) :
    (m.reorder order).regions[q]? = order[q]?.bind (m.regions[·]?) := by
  refine getElem?_filterMap_of_isSome (fun i hi => ?_) q
  simp [h.mem_iff.1 hi]

theorem getElem?_idxOf (i : Nat) : (m.reorder order).regions[order.idxOf i]? = m.regions[i]? := by
  rw [h.getElem?_reorder]
  by_cases hi : i ∈ order
  · rw [List.getElem?_idxOf hi]
    rfl
  · have hlen : m.regions.length ≤ i := Nat.le_of_not_lt fun hlt => hi (h.mem_iff.2 hlt)
    rw [idxOf_eq_length hi, getElem?_eq_none (Nat.le_refl _), getElem?_eq_none hlen]
    rfl

theorem exists_idxOf {q : Nat} {r : Region} (hr : (m.reorder order).regions[q]? = some r) :
    ∃ i, order.idxOf i = q ∧ m.regions[i]? = some r := by
  rw [h.getElem?_reorder] at hr
  obtain ⟨i, hi, hr⟩ := Option.bind_eq_some_iff.1 hr
  obtain ⟨hlt, rfl⟩ := List.getElem?_eq_some_iff.1 hi
  exact ⟨_, h.nodup.idxOf_getElem q hlt, hr⟩

theorem mem_regions_iff {r : Region} : r ∈ (m.reorder order).regions ↔ r ∈ m.regions := by
  simp only [mem_iff_getElem?]
  constructor
  · rintro ⟨q, hq⟩
    obtain ⟨i, -, hi⟩ := h.exists_idxOf hq
    exact ⟨i, hi⟩
  · rintro ⟨i, hi⟩
    exact ⟨order.idxOf i, (h.getElem?_idxOf i).trans hi⟩

/-- **Regions that share a block stand as they did.** -/
theorem idxOf_lt_iff {i j : Nat} (hshares : m.Shares i j) :
    order.idxOf i < order.idxOf j ↔ i < j := by
  have hmem : ∀ {k b}, m.Covers k b → k ∈ order := fun ⟨_, hr, _⟩ =>
    h.mem_iff.2 (List.getElem?_eq_some_iff.1 hr).1
  obtain ⟨b, hi, hj⟩ := hshares
  have hbefore : ∀ {i j}, m.Covers i b → m.Covers j b → order.idxOf i < order.idxOf j → i ≤ j := by
    intro i j hi hj hlt
    by_contra hji
    have hkeeps := pairwise_iff_getElem.1 h.keeps _ _ (idxOf_lt_length_iff.2 (hmem hi))
      (idxOf_lt_length_iff.2 (hmem hj)) hlt
    simp only [getElem_idxOf] at hkeeps
    exact hkeeps (by omega) ⟨b, hi, hj⟩
  constructor
  · intro hlt
    have hne : i ≠ j := by
      rintro rfl
      omega
    have := hbefore hi hj hlt
    omega
  · intro hlt
    by_contra hnot
    have hne : order.idxOf i ≠ order.idxOf j := fun heq =>
      absurd (idxOf_inj (hmem hi) |>.1 heq) (by omega)
    have := hbefore hj hi (by omega)
    omega

/-- The first region around a block that satisfies a test is the same in both orders. -/
theorem find?_reorder {test : Region → Bool} {b : Nat} (htest : ∀ r, test r = true → b ∈ r.blocks) :
    (m.reorder order).regions.find? test = m.regions.find? test := by
  cases hfind : m.regions.find? test with
  | none =>
    rw [find?_eq_none] at hfind ⊢
    exact fun r hr => hfind r (h.mem_regions_iff.1 hr)
  | some r =>
    obtain ⟨hr, i, hi, rfl, hfirst⟩ := find?_eq_some_iff_getElem.1 hfind
    have hi' := (h.getElem?_idxOf i).trans (List.getElem?_eq_getElem hi)
    obtain ⟨hlt, hget⟩ := List.getElem?_eq_some_iff.1 hi'
    refine find?_eq_some_iff_getElem.2 ⟨hr, order.idxOf i, hlt, hget, fun q hq => ?_⟩
    obtain ⟨j, rfl, hj⟩ := h.exists_idxOf (List.getElem?_eq_getElem (Nat.lt_trans hq hlt))
    -- An earlier region that passes would share the block, and would be earlier before.
    by_contra hnot
    have hpasses : test (m.reorder order).regions[order.idxOf j] = true := by simpa using hnot
    have hshares : m.Shares j i :=
      ⟨b, ⟨_, hj, htest _ hpasses⟩, ⟨_, List.getElem?_eq_getElem hi, htest _ hr⟩⟩
    obtain ⟨hlt', hget'⟩ := List.getElem?_eq_some_iff.1 hj
    have := hfirst j ((h.idxOf_lt_iff hshares).1 hq)
    rw [hget'] at this
    exact hnot this

theorem sound (hm : m.Sound) : (m.reorder order).Sound :=
  ⟨hm.entry, hm.ids, hm.blocks, fun r hr => hm.regions r (h.mem_regions_iff.1 hr)⟩

theorem used {b : Nat} (hb : (m.reorder order).Used b) : m.Used b := by
  obtain ⟨start, hstart, hmem⟩ := hb
  refine ⟨start, hstart.imp id ?_, hmem⟩
  rintro ⟨r, hr, rfl⟩
  exact ⟨r, h.mem_regions_iff.1 hr, rfl⟩

theorem strayEndDefects_reorder : (m.reorder order).strayEndDefects = m.strayEndDefects := by
  have hbodies : ∀ b, b ∈ ((m.reorder order).regions.filter (·.kind = .cleanup)).flatMap
        (fun r => m.cleanupBody r.handler) ↔
      b ∈ (m.regions.filter (·.kind = .cleanup)).flatMap fun r => m.cleanupBody r.handler := by
    intro b
    simp only [mem_flatMap, mem_filter, h.mem_regions_iff]
  refine filterMap_congr fun b _ => ?_
  have hb := hbodies b.id
  simp only [show (m.reorder order).cleanupBody = m.cleanupBody from rfl, hb]

theorem leaving?_reorder (b t : Nat) : (m.reorder order).leaving? b t = m.leaving? b t := by
  refine h.find?_reorder (b := b) fun r hr => ?_
  simp only [decide_eq_true_eq] at hr
  exact hr.2.1

theorem guarding?_reorder (b : Nat) : (m.reorder order).guarding? b = m.guarding? b := by
  refine h.find?_reorder (b := b) fun r hr => ?_
  simp only [decide_eq_true_eq] at hr
  exact hr.2

theorem taking?_reorder (p : Program) (b : Nat) (e : Value) :
    (m.reorder order).taking? p b e = m.taking? p b e := by
  rw [taking?, taking?, covering, covering, find?_filter, find?_filter]
  refine h.find?_reorder (b := b) fun r hr => ?_
  simp only [decide_eq_true_eq] at hr
  exact hr.1

end Rearranges

end Method

/-! ### What the method means -/

/-- The interpreter with cleanup regions runs the same activation, one of `m` and one of `n`. -/
inductive Swapped (m n : Method) : Cleaning → Cleaning → Prop where
  | runs {s : Store} {a : Activation} {ps : List Pending} : a.method = m →
      Swapped m n ⟨⟨s, .exec a, []⟩, ps⟩ ⟨⟨s, .exec { a with method := n }, []⟩, ps⟩
  | waits {s : Store} {c : Control} {a : Activation} {keep : Bool} {ps : List Pending} :
      a.method = m → Swapped m n ⟨⟨s, c, [.caller a keep]⟩, ps⟩
        ⟨⟨s, c, [.caller { a with method := n } keep]⟩, ps⟩
  | returns {s : Store} {v : Value} {ps : List Pending} :
      Swapped m n ⟨⟨s, .answer v, []⟩, ps⟩ ⟨⟨s, .answer v, []⟩, ps⟩
  | unwinds {s : Store} {u u' : Unwind} {ps : List Pending} : u'.unplaced = u.unplaced →
      Swapped m n ⟨⟨s, .unwind u, []⟩, ps⟩ ⟨⟨s, .unwind u', []⟩, ps⟩

namespace Method.Rearranges

section Meaning

variable {m : Method} {order : List Nat} (h : m.Rearranges order) {a : Activation}
  (ha : a.method = m) (s : Store) (ps : List Pending)
include h ha

theorem swapped_go (t : Nat) (stack : List Value) :
    Swapped m (m.reorder order) (Cleaning.go s a t stack ps)
      (Cleaning.go s { a with method := m.reorder order } t stack ps) := by
  simp only [Cleaning.go, h.leaving?_reorder, ha]
  cases m.leaving? a.block t with
  | none => exact .runs ha
  | some r => exact .runs ha

theorem swapped_finish (v : Value) (stack : List Value) :
    Swapped m (m.reorder order) (Cleaning.finish s a v stack ps)
      (Cleaning.finish s { a with method := m.reorder order } v stack ps) := by
  simp only [Cleaning.finish, h.guarding?_reorder, ha]
  cases m.guarding? a.block with
  | none => exact .returns
  | some r => exact .runs ha

theorem swapped_raise (p : Program) (e : Value) :
    Swapped m (m.reorder order) (Cleaning.raise p s a e ps)
      (Cleaning.raise p s { a with method := m.reorder order } e ps) := by
  simp only [Cleaning.raise, h.taking?_reorder, ha]
  cases m.taking? p a.block e with
  | none => exact .unwinds rfl
  | some r => exact .runs ha

theorem swapped_complete (p : Program) :
    Swapped m (m.reorder order) (Cleaning.complete p s a ps)
      (Cleaning.complete p s { a with method := m.reorder order } ps) := by
  match ps with
  | [] =>
    simp only [Cleaning.complete, Cleaning.fail, ha]
    exact .unwinds rfl
  | .jump t :: ps => exact h.swapped_go ha s ps t a.stack
  | .ret v :: ps => exact h.swapped_finish ha s ps v a.stack
  | .rethrow e :: ps => exact h.swapped_raise ha s ps p e

theorem swapped_act (p : Program) (i : Instr) :
    Swapped m (m.reorder order) (Cleaning.act p a ps (a.exec s i))
      (Cleaning.act p { a with method := m.reorder order } ps
        ({ a with method := m.reorder order }.exec s i)) := by
  obtain ⟨t, x, y, hx, hy, htracks⟩ := Activation.tracks_exec a { a with method := m.reorder order }
    (Instr.mapLocals_id i).symm s rfl rfl rfl fun _ _ => rfl
  rw [hx, hy]
  cases htracks with
  | next v stack monitors => exact .runs ha
  | throw e _ => exact h.swapped_raise ha t ps p e
  | fault f hf => exact .unwinds (hf.unplaced (ha ▸ rfl) _ _)
  | errand he he' =>
    rw [Cleaning.act_waits he, Cleaning.act_waits he']
    exact .waits ha

theorem swapped_depart (p : Program) (t : Terminator) :
    Swapped m (m.reorder order) (Cleaning.depart p s a t ps)
      (Cleaning.depart p s { a with method := m.reorder order } t ps) := by
  unfold Cleaning.depart
  by_cases hend : t = .endCleanup
  · rw [if_pos hend, if_pos hend]
    exact h.swapped_complete ha s ps p
  rw [if_neg hend, if_neg hend]
  have hparts := Activation.parts_leave (ρ := .id) (a := a)
    (b := { a with method := m.reorder order }) id t (by simp) fun _ => by rw [ha]; rfl
  rw [Terminator.mapTargets_id] at hparts
  generalize a.leave t = d at *
  generalize Activation.leave { a with method := m.reorder order } t = d' at *
  cases hparts with
  | jump u stack hu =>
    simp only [Value.map_rename_id]
    exact h.swapped_go ha s ps u stack
  | ret v _ =>
    simp only [Value.rename_id, ha]
    exact h.swapped_finish ha s ps v _
  | throw e _ =>
    simp only [Value.rename_id]
    exact h.swapped_raise ha s ps p e
  | fault f hf => exact .unwinds (hf.unplaced (ha ▸ rfl) _ _)

theorem swapped_execute (p : Program) :
    Swapped m (m.reorder order) (Cleaning.execute p s a ps)
      (Cleaning.execute p s { a with method := m.reorder order } ps) := by
  unfold Cleaning.execute
  simp only [ha, show (m.reorder order).block? = m.block? from rfl]
  cases m.block? a.block with
  | none => exact .unwinds rfl
  | some k =>
    cases hi : k.instrs[a.offset]? with
    | none =>
      simp only [hi]
      exact h.swapped_depart ha s ps p k.terminator
    | some i =>
      simp only [hi]
      exact h.swapped_act ha s ps p i

end Meaning

variable {m : Method} {order : List Nat}

theorem simulates_swapped (h : m.Rearranges order) (p : Program) :
    Play.Simulates (Cleaning.play p) (Cleaning.play p) (Swapped m (m.reorder order)) :=
  .of_cases fun hxy => by
    cases hxy with
    | runs ha => exact .inl ⟨rfl, _, .one rfl, h.swapped_execute ha _ _ p⟩
    | returns => exact .inr ⟨_, rfl, rfl, fun _ _ h => by cases h⟩
    | unwinds hu =>
      exact .inr ⟨_, rfl, by simp [Cleaning.play, Machine.sight, hu], fun _ _ h => by cases h⟩
    | waits ha =>
      exact .inr ⟨_, rfl, rfl, fun _ _ _ => Reply.forall_of_cases (fun _ _ => .runs ha)
        (fun s e => h.swapped_raise ha s _ p e) fun _ _ => .unwinds rfl⟩

/-- **What a method means does not depend on the order** of regions that share no block. -/
theorem shows_cleaning_iff (h : m.Rearranges order) (p : Program) (s : Store) (args : List Value)
    (depth : Nat) (rs : List Reply) (o : Sight) :
    (Cleaning.play p).Shows (.begin s m args depth) rs o ↔
      (Cleaning.play p).Shows (.begin s (m.reorder order) args depth) rs o :=
  (h.simulates_swapped p).shows_iff (.runs rfl) rs o

/-- The method is orderly in the new order too, if its bodies end where they should. -/
theorem orderly (h : m.Rearranges order) (hm : m.Orderly) (horder : (m.reorder order).EndsInOrder) :
    (m.reorder order).Orderly where
  sound := h.sound hm.sound
  takes r hr := hm.takes r (h.mem_regions_iff.1 hr)
  unjumped b k hb hk t ht r hr := by
    refine hm.unjumped b k ?_ hk t ht r (h.mem_regions_iff.1 hr)
    exact h.used hb
  nested q q' r r' hq hr hr' hkind hkind' b hb hmem hmem' := by
    obtain ⟨i, rfl, hi⟩ := h.exists_idxOf hr
    obtain ⟨j, rfl, hj⟩ := h.exists_idxOf hr'
    have hlt := (h.idxOf_lt_iff ⟨b, ⟨r, hi, hmem⟩, ⟨r', hj, hmem'⟩⟩).1 hq
    exact hm.nested i j r r' hlt hi hj hkind hkind' b (h.used hb) hmem hmem'
  enclosed := by
    rintro b (rfl | ⟨r, hr, hkind, rfl⟩)
    · exact hm.enclosed _ (.inl rfl)
    · exact hm.enclosed _ (.inr ⟨r, h.mem_regions_iff.1 hr, hkind, rfl⟩)
  ordered _ _ _ _ hq hr hr' := pairwise_getElem? horder hq hr hr'

end Method.Rearranges

/-! ### Expansions in another order -/

namespace Method

/-- The body of the cleanup region at `i` gets to a block of the cleanup region at `j`. -/
def Meets (m : Method) (i j : Nat) : Prop :=
  ∃ r r', m.regions[i]? = some r ∧ m.regions[j]? = some r' ∧ r.kind = .cleanup ∧
    r'.kind = .cleanup ∧ ∃ b ∈ m.cleanupBody r.handler, b ∈ r'.blocks

/-- **The region at `i` depends on the region at `j`**: its body gets there, or gets to a region
that depends on it. -/
def Depends (m : Method) : Nat → Nat → Prop := Relation.TransGen m.Meets

theorem depends_trans {m : Method} (i j k : Nat) (hij : m.Depends i j) (hjk : m.Depends j k) :
    m.Depends i k :=
  Relation.TransGen.trans hij hjk

/-- Cleanup regions of which one depends on the other stand as they did. -/
def KeepsDependent (m : Method) (order : List Nat) : Prop :=
  order.Pairwise fun i j => j < i → ¬ m.Depends i j ∧ ¬ m.Depends j i

variable {m : Method} {order : List Nat}

instance (m : Method) (i j : Nat) : Decidable (m.Meets i j) :=
  decidable_of_iff (∃ r ∈ m.regions[i]?, ∃ r' ∈ m.regions[j]?, r.kind = .cleanup ∧
      r'.kind = .cleanup ∧ ∃ b ∈ m.cleanupBody r.handler, b ∈ r'.blocks) <| by
    constructor
    · rintro ⟨r, hr, r', hr', hmeets⟩
      exact ⟨r, r', hr, hr', hmeets⟩
    · rintro ⟨r, r', hr, hr', hmeets⟩
      exact ⟨r, hr, r', hr', hmeets⟩

/-- The cleanup regions that the body of the region at `i` gets to. -/
def met (m : Method) (i : Nat) : List Nat :=
  (range m.regions.length).filter fun j => m.Meets i j

theorem mem_met {i j : Nat} : j ∈ m.met i ↔ m.Meets i j := by
  simp only [met, mem_filter, mem_range, decide_eq_true_eq, and_iff_right_iff_imp]
  rintro ⟨-, _, -, hr', -⟩
  exact (List.getElem?_eq_some_iff.1 hr').1

/-- What a region depends on is found by a search. -/
theorem depends_iff {i j : Nat} :
    m.Depends i j ↔ j ∈ Search.preorder m.regions.length m.met (m.met i) := by
  rw [Search.mem_preorder_iff]
  constructor
  · intro hdep
    induction hdep using Relation.TransGen.head_induction_on with
    | single hmeets => exact ⟨j, mem_met.2 hmeets, .refl j⟩
    | @head i k hmeets _ ih =>
      obtain ⟨s, hs, hreaches⟩ := ih
      have hlt := mem_range.1 (mem_filter.1 (mem_met.2 hmeets)).1
      exact ⟨k, mem_met.2 hmeets, .step hlt hs hreaches⟩
  · rintro ⟨s, hs, hreaches⟩
    induction hreaches generalizing i with
    | refl => exact .single (mem_met.1 hs)
    | step _ hnext _ ih => exact .head (mem_met.1 hs) (ih hnext)

instance (m : Method) (i j : Nat) : Decidable (m.Depends i j) := decidable_of_iff _ depends_iff.symm

instance (m : Method) (order : List Nat) : Decidable (m.KeepsDependent order) :=
  inferInstanceAs (Decidable (List.Pairwise _ _))

theorem reads_self (hm : m.Sound) : Reads m m (.ofMethod m) .given id id :=
  Outline.reads_ofMethod hm hm.grows rfl rfl rfl (fun _ => rfl) (fun _ _ _ _ heq => heq)
    fun q hq => ⟨q, hq, rfl⟩

theorem Rearranges.reads (h : m.Rearranges order) (hm : m.Sound) :
    Reads m (m.reorder order) (.ofMethod m) .given id order.idxOf := by
  refine Outline.reads_ofMethod hm ?_ rfl rfl rfl h.getElem?_idxOf ?_ ?_
  · exact ⟨h.sound hm, Nat.le_refl _, fun _ hl => hl, fun b hb _ hi => .inr ⟨b, hb, hi⟩, rfl, rfl,
      rfl⟩
  · intro i hi j _ heq
    exact (idxOf_inj (h.mem_iff.2 hi)).1 heq
  · intro q hq
    obtain ⟨i, hi, hr⟩ := h.exists_idxOf (List.getElem?_eq_getElem hq)
    exact ⟨i, (List.getElem?_eq_some_iff.1 hr).1, hi⟩

/-- What regions have to do with each other, by the outline. -/
theorem within_ofMethod (hm : m.Sound) : (Outline.ofMethod m).Within m.Depends m.Shares where
  proper := Outline.proper_ofMethod hm
  meets i j := by
    rintro ⟨hi, hj, x, hx, hcov⟩
    cases x with
    | given b =>
      obtain ⟨r', hr', hb⟩ := hcov
      cases hr : m.regions[i]? with
      | none => simp [Outline.ofMethod, hr] at hi
      | some r =>
        rw [(Outline.kind_ofMethod hr).1] at hi
        rw [(Outline.kind_ofMethod hr').1] at hj
        have hlt := (hm.regions r' (mem_of_getElem? hr')).covered b hb
        have hi' := (List.getElem?_eq_some_iff.1 hr).1
        have hbody := ((reads_self hm).mem_body_iff hi' hr hlt).2 hx
        exact .single ⟨r, r', hr, hr', hi, hj, b, hbody, hb⟩
    | _ => exact hcov.elim
  shares i j := by
    rintro ⟨x, hi, hj⟩
    cases x with
    | given b => exact ⟨b, hi, hj⟩
    | _ => exact hi.elim

namespace Rearranges

theorem map_idxOf (h : m.Rearranges order) :
    order.map order.idxOf = range m.regions.length := by
  have hlen : order.length = m.regions.length := h.perm.length_eq.trans length_range
  refine ext_getElem (by simp [hlen]) fun q hq _ => ?_
  rw [getElem_map, getElem_range, h.nodup.idxOf_getElem]

theorem length_reorder (h : m.Rearranges order) :
    (m.reorder order).regions.length = m.regions.length := by
  have hall : ∀ i ∈ order, (m.regions[i]?).isSome := fun i hi => by simp [h.mem_iff.1 hi]
  exact (filterMap_length_eq_length.2 hall).trans (h.perm.length_eq.trans length_range)

section Independent

variable (h : m.Rearranges order) (hm : m.Sound) (hdep : m.KeepsDependent order)
include h hdep

theorem free {i j : Nat} (hij : i < j) (hji : [j, i].Sublist order) :
    ¬ m.Shares i j ∧ ¬ m.Depends i j ∧ ¬ m.Depends j i := by
  have hshares := pairwise_iff_forall_sublist.1 h.keeps hji hij
  obtain ⟨hleft, hright⟩ := pairwise_iff_forall_sublist.1 hdep hji hij
  exact ⟨fun ⟨b, hi, hj⟩ => hshares ⟨b, hj, hi⟩, hright, hleft⟩

include hm

/-- **The expansions commute.** -/
theorem runs_iff {G : Outline} :
    (Outline.ofMethod m).Runs (range m.regions.length) G ↔
      (Outline.ofMethod m).Runs order G := by
  have hrange : ∀ {i j}, [i, j].Sublist (range m.regions.length) → i < j := fun hsub =>
    pairwise_iff_forall_sublist.1 pairwise_lt_range hsub
  -- What changes places going there changes places coming back.
  constructor
  · refine Outline.Runs.reorder depends_trans h.perm nodup_range (fun i j hij hji => ?_)
      (within_ofMethod hm)
    exact h.free hdep (hrange hij) hji
  · refine Outline.Runs.reorder depends_trans h.perm.symm h.nodup (fun i j hij hji => ?_)
      (within_ofMethod hm)
    obtain ⟨hshares, hleft, hright⟩ := h.free hdep (hrange hji) hij
    exact ⟨fun ⟨b, hi, hj⟩ => hshares ⟨b, hj, hi⟩, hright, hleft⟩

theorem exists_foldlM_iff :
    (∃ k, (range m.regions.length).foldlM expandAt m = .ok k) ↔
      ∃ k, (range m.regions.length).foldlM expandAt (m.reorder order) = .ok k := by
  have hself := reads_self hm
  have hother := h.reads hm
  constructor
  · rintro ⟨k, hk⟩
    rw [← List.map_id (range _)] at hk
    obtain ⟨G, _, _, hruns, -⟩ := hself.runs (fun i hi => mem_range.1 hi) hk
    rw [← h.map_idxOf]
    exact hother.exists_foldlM (fun i hi => h.mem_iff.1 hi) ((h.runs_iff hm hdep).1 hruns)
  · rintro ⟨k, hk⟩
    rw [← h.map_idxOf] at hk
    obtain ⟨G, _, _, hruns, -⟩ := hother.runs (fun i hi => h.mem_iff.1 hi) hk
    rw [← List.map_id (range _)]
    exact hself.exists_foldlM (fun i hi => mem_range.1 hi) ((h.runs_iff hm hdep).2 hruns)

/-- **The results are one method** up to the names of blocks and locals. -/
theorem exists_twins {k k' : Method}
    (hk : (range m.regions.length).foldlM expandAt m = .ok k)
    (hk' : (range m.regions.length).foldlM expandAt (m.reorder order) = .ok k') :
    ∃ G ν ν' loc loc', Twins m k k' G ν ν' loc loc' id order.idxOf := by
  rw [← List.map_id (range _)] at hk
  rw [← h.map_idxOf] at hk'
  obtain ⟨G, ν, loc, hruns, hleft⟩ := (reads_self hm).runs (fun i hi => mem_range.1 hi) hk
  obtain ⟨G', ν', loc', hruns', hright⟩ := (h.reads hm).runs (fun i hi => h.mem_iff.1 hi) hk'
  cases ((h.runs_iff hm hdep).1 hruns).unique hruns'
  have hwithin := (within_ofMethod hm).runs depends_trans hruns
  exact ⟨G, ν, ν', loc, loc', hleft, hright, fun i _ j _ hshares hlt =>
    (h.idxOf_lt_iff (hwithin.shares i j hshares)).2 hlt⟩

end Independent

end Rearranges

/-! ### Methods without cleanup regions -/

theorem foldlM_expandAt_of_plain (hplain : ∀ r ∈ m.regions, r.kind ≠ .cleanup) (is : List Nat) :
    is.foldlM expandAt m = .ok m := by
  have hskip : ∀ i, m.expandAt i = .ok m := by
    intro i
    unfold expandAt
    split
    · rename_i r hr
      rw [if_neg (hplain r (mem_of_getElem? hr))]
    · rfl
  induction is with
  | nil => rfl
  | cons i is ih =>
    rw [foldlM_cons, hskip i]
    exact ih

theorem plain_of_hasCleanup (h : ¬ m.hasCleanup = true) : ∀ r ∈ m.regions, r.kind ≠ .cleanup :=
  fun r hr hkind => h (any_eq_true.2 ⟨r, hr, by simp [hkind]⟩)

/-- **When there is a method without cleanup regions.** -/
theorem exists_withoutCleanup_iff :
    (∃ n, m.withoutCleanup = .ok n) ↔ m.strayEndDefects = [] ∧
      ∃ k, (range m.regions.length).foldlM expandAt m = .ok k := by
  unfold withoutCleanup
  cases hstray : m.strayEndDefects with
  | cons d ds => simp
  | nil =>
    by_cases hclean : m.hasCleanup = true
    · cases hk : (range m.regions.length).foldlM expandAt m <;> simp [hclean]
    · simp [hclean, foldlM_expandAt_of_plain (plain_of_hasCleanup hclean)]

/-- The method without cleanup regions shows what the last expansion shows. -/
theorem exists_foldlM_of_withoutCleanup {n : Method} (hm : m.Sound)
    (hn : m.withoutCleanup = .ok n) :
    ∃ k, (range m.regions.length).foldlM expandAt m = .ok k ∧
      ∀ (p : Program) (s : Store) (args : List Value) (depth : Nat) (rs : List Reply) (o : Sight),
        (Machine.play p).Shows (.begin s k args depth) rs o ↔
          (Machine.play p).Shows (.begin s n args depth) rs o := by
  obtain ⟨rfl, hclean⟩ | ⟨-, k, hk, rfl⟩ := withoutCleanup_eq_ok hn
  · exact ⟨n, foldlM_expandAt_of_plain (plain_of_hasCleanup hclean) _, fun _ _ _ _ _ _ => Iff.rfl⟩
  · have hends := endsLike_of_foldlM hm hk
    have hplain : ∀ r ∈ k.regions, r.kind ≠ .cleanup := by
      intro r hr
      obtain ⟨i, hi⟩ := mem_iff_getElem?.1 hr
      have hlt := (List.getElem?_eq_some_iff.1 hi).1
      exact hends.plain i (mem_range.2 (hends.length ▸ hlt)) r hi
    -- Without cleanup regions the interpreter with cleanup regions does what the machine does.
    refine ⟨k, hk, fun p s args depth rs o => ?_⟩
    exact ((trims_self hplain).shows_iff p s args depth rs o).symm.trans
      ((trims_dropUnreachable hends.sound hplain).shows_iff p s args depth rs o)

/-- **The order of regions that share no block does not matter** for regions that do not depend on
each other: in both orders there is a method without cleanup regions, or in none, and the two show
the same.  Where regions depend on each other, they show the same if cleanup regions are used in a
tidy way and bodies end where they should in both orders. -/
theorem withoutCleanup_reorder {m : Method} {order : List Nat} (hrefs : m.referenceDefects = [])
    (hparams : m.DeclaresParams) (h : m.Rearranges order) :
    (m.KeepsDependent order →
      ((∃ n, m.withoutCleanup = .ok n) ↔ ∃ n, (m.reorder order).withoutCleanup = .ok n)) ∧
    ∀ n n', m.withoutCleanup = .ok n → (m.reorder order).withoutCleanup = .ok n' →
      (m.KeepsDependent order ∨
        m.Tidy ∧ m.EndsInBodies ∧ m.EndsInOrder ∧ (m.reorder order).EndsInOrder) →
      ∀ (p : Program) (s : Store) (args : List Value) (depth : Nat) (rs : List Reply) (o : Sight),
        (Machine.play p).Shows (.begin s n args depth) rs o ↔
          (Machine.play p).Shows (.begin s n' args depth) rs o := by
  have hm := referenceDefects_eq_nil_iff.1 hrefs
  constructor
  · intro hdep
    rw [exists_withoutCleanup_iff, exists_withoutCleanup_iff, h.strayEndDefects_reorder,
      h.length_reorder, h.exists_foldlM_iff hm hdep]
  · rintro n n' hn hn' (hdep | ⟨htidy, hbodies, hends, hends'⟩) p s args depth rs o
    · -- The expansions read as one outline.
      obtain ⟨k, hk, hshows⟩ := exists_foldlM_of_withoutCleanup hm hn
      obtain ⟨k', hk', hshows'⟩ := exists_foldlM_of_withoutCleanup (h.sound hm) hn'
      rw [h.length_reorder] at hk'
      obtain ⟨G, ν, ν', loc, loc', htwins⟩ := h.exists_twins hm hdep hk hk'
      exact (hshows p s args depth rs o).symm.trans
        ((htwins.shows_iff hm hparams p s args depth rs o).trans (hshows' p s args depth rs o))
    · -- Both show what the interpreter with cleanup regions shows: it does not see the order.
      have horderly := htidy.orderly hbodies hends
      exact (horderly.shows_iff hn p s args depth rs o).symm.trans
        ((h.shows_cleaning_iff p s args depth rs o).trans
          ((h.orderly horderly hends').shows_iff hn' p s args depth rs o))

end Method

/-- Two parts, one after the other: the first in two nested cleanup regions, the second in one. -/
def twoParts : Method where
  name := "m"
  params := []
  ret := .int
  locals := []
  blocks :=
    [⟨0, [.push (.str "first"), .invoke ⟨"log", 1, .void⟩], .goto 3⟩,
      ⟨1, [.pop, .push (.str "inner"), .invoke ⟨"log", 1, .void⟩], .endCleanup⟩,
      ⟨2, [.pop, .push (.str "outer"), .invoke ⟨"log", 1, .void⟩], .endCleanup⟩,
      ⟨3, [.push (.int 7)], .ret⟩,
      ⟨4, [.pop, .push (.str "last"), .invoke ⟨"log", 1, .void⟩], .endCleanup⟩]
  entry := 0
  regions := [⟨0, IdSet.ofList [0], 1, .cleanup⟩, ⟨1, IdSet.ofList [0, 1], 2, .cleanup⟩,
    ⟨2, IdSet.ofList [3], 4, .cleanup⟩]

theorem twoParts.tidy : twoParts.Tidy := by
  constructor <;> decide +kernel

/-- The region of the second part comes first, and four calls are made as before. -/
theorem withoutCleanup_reorder_twoParts :
    twoParts.referenceDefects = [] ∧ twoParts.Rearranges [2, 0, 1] ∧
      twoParts.KeepsDependent [2, 0, 1] ∧ ∃ n, (twoParts.reorder [2, 0, 1]).withoutCleanup = .ok n ∧
        (Machine.play {}).Shows (.begin {} n [] 0) (List.replicate 4 ⟨{}, .ok .null⟩)
          (.ends {} (.ok (.int 7))) := by
  have harranged : twoParts.Rearranges [2, 0, 1] := by decide +kernel
  have hkeeps : twoParts.KeepsDependent [2, 0, 1] := by decide +kernel
  obtain ⟨hexists, hshows⟩ :=
    Method.withoutCleanup_reorder twoParts.tidy.references (fun l hl => nomatch hl) harranged
  obtain ⟨n, hn⟩ : ∃ n, twoParts.withoutCleanup = .ok n := exists_withoutCleanup (by decide +kernel)
  obtain ⟨n', hn'⟩ := (hexists hkeeps).1 ⟨n, hn⟩
  have horderly := twoParts.tidy.orderly (by decide +kernel) (by decide +kernel)
  refine ⟨twoParts.tidy.references, harranged, hkeeps, n', hn', ?_⟩
  refine (hshows n n' hn hn' (.inl hkeeps) {} {} [] 0 _ _).1 ?_
  exact (horderly.shows_iff hn {} {} [] 0 _ _).1 ⟨40, rfl⟩

/-! ### Where the order matters -/

/-- The body of the first region goes back into it; the body of the second, in which the first
begins, goes on for ever. -/
def goesBack : Method where
  name := "m"
  params := [⟨0, some "f", .future, true⟩]
  ret := .int
  locals := [⟨0, some "f", .future, true⟩]
  blocks :=
    [⟨0, [.load 0, .invoke ⟨"Await.await", 1, .int⟩, .pop], .goto 1⟩,
      ⟨1, [.push (.int 7)], .ret⟩,
      ⟨2, [.pop], .goto 0⟩,
      ⟨3, [.pop], .goto 4⟩,
      ⟨4, [], .goto 4⟩]
  entry := 0
  regions := [⟨0, IdSet.ofList [0], 2, .cleanup⟩, ⟨1, IdSet.ofList [2], 3, .cleanup⟩]

theorem exists_levels {m n : Method} (hn : m.withoutCleanup = .ok n)
    (h : m.withoutCleanup.toOption.any
      (fun n => ((Graph.ofMethod n (Options.isMarker {})).balance n.ret).isOk) = true) :
    ∃ levels, (Graph.ofMethod n (Options.isMarker {})).balance n.ret = .ok levels := by
  rw [hn] at h
  cases hlevels : (Graph.ofMethod n (Options.isMarker {})).balance n.ret with
  | ok levels => exact ⟨levels, rfl⟩
  | error d => simp [Except.toOption, hlevels, Except.isOk, Except.toBool] at h

/-- **For regions that depend on each other the order matters**, though no block is in both.  The
method in which a body ends in another region makes a call less in one of the orders, and the stacks
are at one level everywhere in both of the methods without cleanup regions; and the method
whose body goes back has a method without cleanup regions in one of the orders only, though it is
tidy and bodies end where they should. -/
theorem reorder_differs :
    (endsInside.Rearranges [1, 0] ∧ endsInside.referenceDefects = [] ∧
      endsInside.shapeDefects = [] ∧
      ∃ n n', endsInside.withoutCleanup = .ok n ∧
        (endsInside.reorder [1, 0]).withoutCleanup = .ok n' ∧
        (∃ levels, (Graph.ofMethod n (Options.isMarker {})).balance n.ret = .ok levels) ∧
        (∃ levels, (Graph.ofMethod n' (Options.isMarker {})).balance n'.ret = .ok levels) ∧
        ∃ p s args depth rs o, (Machine.play p).Shows (.begin s n args depth) rs o ∧
          ¬ (Machine.play p).Shows (.begin s n' args depth) rs o) ∧
    (goesBack.Rearranges [1, 0] ∧ goesBack.Tidy ∧ goesBack.EndsInBodies ∧ goesBack.EndsInOrder ∧
      (goesBack.reorder [1, 0]).EndsInOrder ∧ (∃ d, goesBack.withoutCleanup = .error d) ∧
        ∃ n, (goesBack.reorder [1, 0]).withoutCleanup = .ok n) := by
  constructor
  · -- After two replies the one has returned, and the other asks for a second entry in the log.
    let rs : List Reply := [⟨{}, .ok (.int 5)⟩, ⟨{}, .ok .null⟩]
    have hfirst : (endsInside.withoutCleanup.toOption.bind fun n =>
          (Machine.play {}).shows? 20 (.begin {} n [.future 0] 0) rs).map Sight.returns =
        some true := by decide +kernel
    have hsecond : ((endsInside.reorder [1, 0]).withoutCleanup.toOption.bind fun n =>
          (Machine.play {}).shows? 20 (.begin {} n [.future 0] 0) rs).map Sight.returns =
        some false := by decide +kernel
    obtain ⟨n, hn, o, ho, hreturns⟩ := exists_shows_of_withoutCleanup hfirst
    obtain ⟨n', hn', o', ho', hreturns'⟩ := exists_shows_of_withoutCleanup hsecond
    refine ⟨by decide +kernel, by decide +kernel, by decide +kernel, n, n', hn, hn',
      exists_levels hn (by decide +kernel), exists_levels hn' (by decide +kernel), {}, {},
      [.future 0], 0, rs, o, ho, fun hshows => ?_⟩
    rw [hshows.unique ho', hreturns'] at hreturns
    cases hreturns
  · have htidy : goesBack.Tidy := by constructor <;> decide +kernel
    refine ⟨by decide +kernel, htidy, by decide +kernel, by decide +kernel, by decide +kernel, ?_,
      exists_withoutCleanup (by decide +kernel)⟩
    cases hw : goesBack.withoutCleanup with
    | error d => exact ⟨d, rfl⟩
    | ok n =>
      have : goesBack.withoutCleanup.isOk = false := by decide +kernel
      rw [hw] at this
      cases this

end Resumable
