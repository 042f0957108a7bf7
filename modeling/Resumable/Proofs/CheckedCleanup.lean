/-
**Passes with every step checked.**

The passes of a conversion look up blocks, nodes, levels and locals by their numbers, and they count
down.  All of this is total: a look-up has a default for what does not exist, and a difference below
zero is zero.  A *checked* pass does the same without the defaults: it gets stuck at a number that
is out of range, at a difference below zero, and at a local whose number needs more than 32 bits.  A
pass that agrees with its checked form uses none of its defaults.

The expansion of cleanup regions only adds blocks, so the blocks of a region and of its body stay in
range while copies are made.  A region takes at most two new locals, one for the returned value and
one for the exception, and they are numbered on from the locals that are there.

Main results:

* `Method.declares_withoutCleanup` — new locals are numbered on;
* `Checked.withoutCleanup_eq` — **replacing cleanup regions never gets stuck**.
-/

import Mathlib.Algebra.Group.Nat.Defs
import Resumable.Proofs.CleanupLayout

set_option autoImplicit false

namespace Resumable

open List

/-! ### Checked computations -/

/-- A computation that ends with a result or an error, or gets stuck. -/
abbrev Checked (ε α : Type) : Type := ExceptT ε Option α

namespace Checked

variable {ε α β : Type}

/-- The computation that does not get stuck. -/
def plain (x : Except ε α) : Checked ε α := ExceptT.mk (some x)

/-- Gets stuck if one of the numbers is not below the bound. -/
def within (bound : Nat) (ns : List Nat) : Option Unit :=
  if ∀ n ∈ ns, n < bound then some () else none

/-- The difference; gets stuck below zero. -/
def minus? (a b : Nat) : Option Nat := if b ≤ a then some (a - b) else none

@[simp] theorem lift_some_bind (a : α) (k : α → Checked ε β) :
    ((liftM (some a) : Checked ε α) >>= k) = k a := rfl

theorem within_eq {bound : Nat} {ns : List Nat} (h : ∀ n ∈ ns, n < bound) :
    within bound ns = some () := if_pos h

theorem minus?_eq {a b : Nat} (h : b ≤ a) : minus? a b = some (a - b) := if_pos h

theorem plain_bind {x : Except ε α} {k : α → Checked ε β} {f : α → Except ε β}
    (h : ∀ a, x = .ok a → k a = plain (f a)) : plain x >>= k = plain (x >>= f) := by
  cases x with
  | error d => rfl
  | ok a => exact h a rfl

/-- A fold does not get stuck if an invariant of its steps keeps each of them from it. -/
theorem foldlM_plain {σ : Type} {f : σ → α → Except ε σ} {f' : σ → α → Checked ε σ} (P : σ → Prop)
    {xs : List α} {s : σ} (hs : P s) (heq : ∀ s, ∀ x ∈ xs, P s → f' s x = plain (f s x))
    (hkeeps : ∀ s, ∀ x ∈ xs, ∀ s', P s → f s x = .ok s' → P s') :
    xs.foldlM f' s = plain (xs.foldlM f s) := by
  induction xs generalizing s with
  | nil => rfl
  | cons x xs ih =>
    rw [foldlM_cons, foldlM_cons, heq s x (mem_cons_self ..) hs]
    refine plain_bind fun s' hs' => ?_
    refine ih (hkeeps s x (mem_cons_self ..) s' hs hs') ?_ ?_
    · intro t y hy
      exact heq t y (mem_cons_of_mem _ hy)
    · intro t y hy
      exact hkeeps t y (mem_cons_of_mem _ hy)

/-! ### The pass -/

/-- Leads the ways out of one block of the region through copies of the body. -/
def leave (index : Nat) (region : Region) (body : List Nat) (e : Expansion) (b : Nat) :
    Checked Defect Expansion := do
  within e.method.blocks.length (b :: body)
  within (2 ^ 32) [e.method.nextLocal]
  plain (e.leave index region body b)

/-- The method with the region at `index`, a cleanup region, expanded. -/
def expandCleanup (m : Method) (index : Nat) (region : Region) : Checked Defect Method := do
  let body := m.cleanupBody region.handler
  within m.blocks.length (region.handler :: body)
  match body.find? (· ∈ region.blocks) with
  | some b => throw ⟨⟨b, 0⟩, .cleanupOverlapsRegion region.id⟩
  | none =>
    match m.takeException? region.handler with
    | none => throw ⟨⟨region.handler, 0⟩, .cleanupKeepsException⟩
    | some take =>
      let _ ← body.head?
      let e ← region.blocks.toList.foldlM (leave index region body) { method := m }
      within e.method.blocks.length body
      within (2 ^ 32) [e.method.nextLocal]
      within e.method.regions.length [index]
      return e.method.addRethrow index region body take

/-- The method with the region at `index` expanded if it is a cleanup region. -/
def expandAt (m : Method) (index : Nat) : Checked Defect Method := do
  let region ← (m.regions[index]? : Option Region)
  if region.kind = .cleanup then expandCleanup m index region else return m

/-- **The method without cleanup regions.** -/
def withoutCleanup (m : Method) : Checked Defect Method :=
  match m.strayEndDefects with
  | d :: _ => throw d
  | [] =>
    if m.hasCleanup then do
      let n ← (range m.regions.length).foldlM expandAt m
      return n.dropUnreachable
    else return m

end Checked

/-! ### New locals -/

namespace Method

/-- `n` declares the locals of `m` and `count` more, numbered on from those that are there. -/
def Declares (m n : Method) (count : Nat) : Prop :=
  ∃ added : List Local, n.locals = m.locals ++ added ∧
    added.map (·.id) = range' m.nextLocal count

/-- The number of cleanup regions. -/
def cleanupCount (m : Method) : Nat := m.regions.countP (·.kind = .cleanup)

variable {m n k : Method}

theorem declares_of_locals (h : n.locals = m.locals) : m.Declares n 0 := ⟨[], by simp [h], rfl⟩

theorem Declares.nextLocal_eq {count : Nat} (h : m.Declares n count) :
    n.nextLocal = m.nextLocal + count := by
  obtain ⟨added, hlocals, hids⟩ := h
  have hfold : ∀ (ls : List Local) (start count : Nat), ls.map (·.id) = range' start count →
      ls.foldl (fun n l => max n (l.id + 1)) start = start + count := by
    intro ls
    induction ls with
    | nil =>
      intro start count hls
      have := congrArg List.length hls
      simp only [map_nil, length_nil, length_range'] at this
      simp [← this]
    | cons l ls ih =>
      intro start count hls
      cases count with
      | zero => simp at hls
      | succ count =>
        rw [map_cons, range'_succ, cons.injEq] at hls
        rw [foldl_cons, hls.1, Nat.max_eq_right (Nat.le_succ start), ih _ _ hls.2]
        omega
  rw [nextLocal, hlocals, foldl_append]
  exact hfold added _ count hids

theorem Declares.trans {a b : Nat} (h : m.Declares n a) (h' : n.Declares k b) :
    m.Declares k (a + b) := by
  have hnext := h.nextLocal_eq
  obtain ⟨added, hlocals, hids⟩ := h
  obtain ⟨added', hlocals', hids'⟩ := h'
  refine ⟨added ++ added', by rw [hlocals', hlocals, append_assoc], ?_⟩
  rw [map_append, hids, hids', hnext, range'_append_1]

theorem declares_addSaved (m : Method) (name : String) (ty : Ty) :
    m.Declares (m.addSaved name ty).1 1 :=
  ⟨_, rfl, rfl⟩

end Method

namespace Expansion

variable {m : Method} {e e' : Expansion} {index : Nat} {region : Region} {body : List Nat}

/-- The number of locals that save a returned value. -/
def saves (e : Expansion) : Nat :=
  match e.returns with
  | some (some _, _) => 1
  | _ => 0

/-- What the expansion of a region has taken so far: the table has its length, and a local is
declared for the returned value if there is one. -/
structure Spends (m : Method) (e : Expansion) : Prop where
  regions : e.method.regions.length = m.regions.length
  declares : m.Declares e.method e.saves

theorem saves_le (e : Expansion) : e.saves ≤ 1 := by
  unfold saves
  split <;> omega

theorem spends_start (m : Method) : Spends m { method := m } := ⟨rfl, Method.declares_of_locals rfl⟩

theorem length_regions_copyBody (m : Method) (index : Nat) (body : List Nat) (c : Completion) :
    (m.copyBody index body c).regions.length = m.regions.length := by
  simp [Method.copyBody, Method.inherit]

theorem Spends.foldl_withJump (h : e.Spends m) (targets : List Nat) :
    (targets.foldl (withJump index body) e).Spends m := by
  induction targets generalizing e with
  | nil => exact h
  | cons t ts ih =>
    refine ih ?_
    unfold withJump
    split
    · exact h
    · exact ⟨(length_regions_copyBody ..).trans h.regions, h.declares⟩

theorem Spends.withReturn (h : e.Spends m) : (e.withReturn index body).Spends m := by
  unfold Expansion.withReturn
  split
  · exact h
  · rename_i hnone
    have hzero : m.Declares e.method 0 := by
      have := h.declares
      unfold saves at this
      rwa [hnone] at this
    split
    · exact ⟨(length_regions_copyBody ..).trans h.regions, hzero⟩
    · exact ⟨(length_regions_copyBody ..).trans h.regions,
        hzero.trans (Method.declares_addSaved ..)⟩

theorem Spends.leave (h : e.Spends m) {b : Nat} (hleave : leave index region body e b = .ok e') :
    e'.Spends m := by
  have onBlock : ∀ (e : Expansion) (f : Block → Block), e.Spends m → (e.onBlock b f).Spends m :=
    fun _ _ he => ⟨he.regions, he.declares⟩
  cases left_of_leave hleave with
  | ret _ _ => exact onBlock _ _ h.withReturn
  | jumps _ _ he'' => exact onBlock _ _ (he'' ▸ h.foldl_withJump _)
  | stays _ _ => exact h

end Expansion

namespace Method

variable {m n : Method} {index : Nat} {region : Region}

/-- One cleanup region is gone, and at most two locals were declared for it. -/
theorem declares_expandCleanup (h : m.Sound) (hlisted : m.regions[index]? = some region)
    (hkind : region.kind = .cleanup) (hn : m.expandCleanup index region = .ok n) :
    n.cleanupCount + 1 = m.cleanupCount ∧ ∃ count ≤ 2, m.Declares n count := by
  constructor
  · obtain ⟨ways, saved, caught, hspread⟩ := spread_of_expandCleanup h hlisted hn
    have hcount : ∀ k : Method, k.cleanupCount = k.entries.countP (·.2 = .cleanup) := fun k => by
      rw [entries, countP_map]
      rfl
    obtain ⟨hlt, hget⟩ := List.getElem?_eq_some_iff.1 hlisted
    have hmem : (region.handler, region.kind) ∈ m.entries :=
      mem_map.2 ⟨region, mem_of_getElem? hlisted, rfl⟩
    have hpos : 0 < m.entries.countP (·.2 = .cleanup) :=
      countP_pos_iff.2 ⟨_, hmem, by simpa using hkind⟩
    have hlen : index < m.entries.length := by simpa [entries] using hlt
    have hold : m.entries[index].2 = .cleanup := by simpa [entries, hget] using hkind
    rw [hcount, hcount, hspread.entries, countP_set hlen]
    simp only [hold]
    simp only [decide_true, if_true, reduceCtorEq, decide_false, Bool.false_eq_true, if_false]
    omega
  · obtain ⟨take, e, -, -, he, rfl⟩ := expandCleanup_eq_ok hn
    have hspends : e.Spends m :=
      foldlM_ok_induction he (Expansion.spends_start m) fun _ _ _ _ hd hl => hd.leave hl
    have hle := e.saves_le
    exact ⟨e.saves + 1, by omega, hspends.declares.trans (e.method.declares_addSaved ..)⟩

/-- **What expanding regions takes**: the table keeps its length, and each cleanup region that is
gone has paid for at most two locals. -/
structure Spends (m n : Method) : Prop where
  regions : n.regions.length = m.regions.length
  declares : ∃ count, m.Declares n count ∧ count + 2 * n.cleanupCount ≤ 2 * m.cleanupCount

theorem Spends.refl (m : Method) : m.Spends m := ⟨rfl, 0, declares_of_locals rfl, by omega⟩

theorem Spends.trans {k : Method} (h : m.Spends n) (h' : n.Spends k) : m.Spends k := by
  obtain ⟨hregions, a, ha, hle⟩ := h
  obtain ⟨hregions', b, hb, hle'⟩ := h'
  exact ⟨hregions'.trans hregions, a + b, ha.trans hb, by omega⟩

theorem Spends.nextLocal_le (h : m.Spends n) :
    n.nextLocal + 2 * n.cleanupCount ≤ m.nextLocal + 2 * m.cleanupCount := by
  obtain ⟨count, hdeclares, hle⟩ := h.declares
  have := hdeclares.nextLocal_eq
  omega

theorem spends_expandAt (h : m.Sound) (hn : m.expandAt index = .ok n) : m.Spends n := by
  obtain ⟨rfl, -⟩ | ⟨region, hlisted, hkind, hn⟩ := expandAt_eq_ok hn
  · exact .refl n
  · obtain ⟨hcount, count, hle, hdeclares⟩ := declares_expandCleanup h hlisted hkind hn
    obtain ⟨ways, saved, caught, hspread⟩ := spread_of_expandCleanup h hlisted hn
    refine ⟨?_, count, hdeclares, by omega⟩
    have := congrArg List.length hspread.entries
    simpa [entries] using this

/-- **The locals of a method without cleanup regions** are those of the given one and more, numbered
on, two at most for each cleanup region. -/
theorem declares_withoutCleanup (h : m.Sound) (hn : m.withoutCleanup = .ok n) :
    ∃ count ≤ 2 * m.cleanupCount, m.Declares n count := by
  obtain ⟨rfl, -⟩ | ⟨-, k, hk, rfl⟩ := withoutCleanup_eq_ok hn
  · exact ⟨0, Nat.zero_le _, declares_of_locals rfl⟩
  · have hspends : m.Grows k ∧ m.Spends k := by
      refine foldlM_ok_induction (P := fun k => m.Grows k ∧ m.Spends k) hk ⟨h.grows, .refl m⟩ ?_
      rintro m₀ i - m₁ ⟨hgrows, hspends⟩ hm₁
      exact ⟨hgrows.trans (grows_expandAt hgrows.sound hm₁),
        hspends.trans (spends_expandAt hgrows.sound hm₁)⟩
    obtain ⟨count, hdeclares, hle⟩ := hspends.2.declares
    exact ⟨count, by omega, hdeclares⟩

end Method

/-! ### Nothing gets stuck -/

namespace Checked

variable {m : Method} {index : Nat} {region : Region}

/-- Expanding a region does not get stuck. -/
theorem expandCleanup_eq (h : m.Sound) (hlisted : m.regions[index]? = some region)
    (hroom : m.nextLocal + 2 ≤ 2 ^ 32) :
    expandCleanup m index region = plain (m.expandCleanup index region) := by
  have hregion := h.regions region (mem_of_getElem? hlisted)
  obtain ⟨hne, hbody⟩ := Method.cleanupBody_sound h hregion.handler
  unfold expandCleanup Method.expandCleanup
  dsimp only
  rw [within_eq (forall_mem_cons.2 ⟨hregion.handler, hbody⟩), lift_some_bind]
  cases (m.cleanupBody region.handler).find? (· ∈ region.blocks) with
  | some b => rfl
  | none =>
    cases m.takeException? region.handler with
    | none => rfl
    | some take =>
      -- Blocks are only added, and a local is left for the exception.
      have hstart : Expansion.Sound m { method := m } ∧ Expansion.Spends m { method := m } :=
        ⟨⟨h.grows, fun c hc => by simp at hc, fun saved copy hr => by cases hr⟩,
          Expansion.spends_start m⟩
      have hkeeps : ∀ e : Expansion, ∀ b ∈ region.blocks.toList, ∀ e', e.Sound m ∧ e.Spends m →
          e.leave index region (m.cleanupBody region.handler) b = .ok e' →
          e'.Sound m ∧ e'.Spends m := fun e b hb e' he hleave =>
        ⟨he.1.leave hne hbody (hregion.covered b hb) hleave, he.2.leave hleave⟩
      have hnext : ∀ e : Expansion, e.Spends m → ∀ n ∈ [e.method.nextLocal], n < 2 ^ 32 := by
        intro e he n hn
        have hle := e.saves_le
        have := he.declares.nextLocal_eq
        rw [mem_singleton.1 hn]
        omega
      have hblocks : ∀ e : Expansion, e.Sound m →
          ∀ b ∈ m.cleanupBody region.handler, b < e.method.blocks.length :=
        fun e he b hb => Nat.lt_of_lt_of_le (hbody b hb) he.grows.size
      dsimp only
      rw [head?_eq_some_head hne, lift_some_bind,
        foldlM_plain (fun e => e.Sound m ∧ e.Spends m) hstart ?_ hkeeps]
      · cases hfold : region.blocks.toList.foldlM
            (Expansion.leave index region (m.cleanupBody region.handler)) { method := m } with
        | error d => rfl
        | ok e =>
          obtain ⟨hsound, hspends⟩ := foldlM_ok_induction
            (P := fun e => Expansion.Sound m e ∧ Expansion.Spends m e) hfold hstart hkeeps
          have hindex : ∀ i ∈ [index], i < e.method.regions.length := by
            rw [hspends.regions, forall_mem_singleton]
            exact (List.getElem?_eq_some_iff.1 hlisted).1
          show (do
            within e.method.blocks.length (m.cleanupBody region.handler)
            within (2 ^ 32) [e.method.nextLocal]
            within e.method.regions.length [index]
            return e.method.addRethrow index region (m.cleanupBody region.handler) take :
              Checked Defect Method) = _
          rw [within_eq (hblocks e hsound), within_eq (hnext e hspends), within_eq hindex]
          rfl
      · intro e b hb he
        have hlt := Nat.lt_of_lt_of_le (hregion.covered b hb) he.1.grows.size
        unfold leave
        rw [within_eq (forall_mem_cons.2 ⟨hlt, hblocks e he.1⟩), within_eq (hnext e he.2)]
        rfl

theorem expandAt_eq (h : m.Sound) (hindex : index < m.regions.length)
    (hroom : m.nextLocal + 2 * m.cleanupCount ≤ 2 ^ 32) :
    expandAt m index = plain (m.expandAt index) := by
  have hlisted : m.regions[index]? = some m.regions[index] := List.getElem?_eq_getElem hindex
  unfold expandAt Method.expandAt
  rw [hlisted, lift_some_bind]
  dsimp only
  split
  · rename_i hkind
    refine expandCleanup_eq h hlisted ?_
    have hpos : 0 < m.cleanupCount :=
      countP_pos_iff.2 ⟨_, List.getElem_mem hindex, by simpa using hkind⟩
    omega
  · rfl

/-- **Replacing cleanup regions never gets stuck** if there are numbers for two locals for each of
them. -/
theorem withoutCleanup_eq (h : m.Sound) (hroom : m.nextLocal + 2 * m.cleanupCount ≤ 2 ^ 32) :
    withoutCleanup m = plain m.withoutCleanup := by
  unfold withoutCleanup Method.withoutCleanup
  cases m.strayEndDefects with
  | cons d ds => rfl
  | nil =>
    dsimp only
    split
    · rw [foldlM_plain (fun n => m.Grows n ∧ m.Spends n) ⟨h.grows, .refl m⟩]
      · cases (range m.regions.length).foldlM Method.expandAt m <;> rfl
      · rintro n i hi ⟨hgrows, hspends⟩
        refine expandAt_eq hgrows.sound ?_ (Nat.le_trans hspends.nextLocal_le hroom)
        rw [hspends.regions]
        exact mem_range.1 hi
      · rintro n i - n' ⟨hgrows, hspends⟩ hn'
        exact ⟨hgrows.trans (Method.grows_expandAt hgrows.sound hn'),
          hspends.trans (Method.spends_expandAt hgrows.sound hn')⟩
    · rfl

end Checked

end Resumable
