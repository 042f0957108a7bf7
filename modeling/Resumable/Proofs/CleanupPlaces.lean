/-
**Where a method and its expansion correspond.**

The first cleanup region of a method is expanded.  This module says which places of the two methods
correspond, with the completions that wait there, and that corresponding places lie in the same
regions, so that a jump, a return and an exception meet the same region in both.

Main results:

* `Stage.leaving`, `Stage.guarding`, `Stage.taking` — **jumps, returns and exceptions meet the same
  regions** in both methods.
-/

import Resumable.Proofs.CleanupCopies
import Resumable.Proofs.CleanupRuns

set_option autoImplicit false

namespace Resumable

open List

namespace Method

/-! ### Cleanup bodies -/

theorem cleanupBody_head (m : Method) (handler : Nat) :
    (m.cleanupBody handler)[0]? = some handler := by
  rw [cleanupBody, Search.preorder]
  by_cases h : handler < m.blocks.length
  · rw [Search.visited_of_lt (by simp) h]
    rfl
  · rw [Search.visited_of_not_lt (by simp) h]
    rfl

theorem mem_cleanupBody_self (m : Method) (handler : Nat) : handler ∈ m.cleanupBody handler :=
  mem_of_getElem? (m.cleanupBody_head handler)

variable {m : Method}

theorem mem_cleanupBody_next {handler b t : Nat} {k : Block} (hb : b ∈ m.cleanupBody handler)
    (hk : m.block? b = some k) (ht : t ∈ k.terminator.successors) : t ∈ m.cleanupBody handler := by
  have hlt := (List.getElem?_eq_some_iff.1 hk).1
  have hnext : t ∈ m.normalExits b := by
    rw [normalExits, hk]
    exact ht
  exact (Search.mem_visited_of_mem_next hb hlt hnext).resolve_left not_mem_nil

theorem blockOrStub_of_block? {b : Nat} {k : Block} (h : m.block? b = some k) :
    m.blockOrStub b = k := by
  rw [blockOrStub, h]
  rfl

/-- Where normal control starts that is not in a cleanup body: at the entry, and at the handlers of
the regions that catch. -/
def Starts (m : Method) (h : Nat) : Prop :=
  h = m.entry ∨ ∃ r ∈ m.regions, r.kind ≠ .cleanup ∧ r.handler = h

/-- The block is reached by normal control from the entry or from a handler. -/
def Used (m : Method) (b : Nat) : Prop :=
  ∃ h, (h = m.entry ∨ ∃ r ∈ m.regions, r.handler = h) ∧ b ∈ m.cleanupBody h

/-- The block is not the handler of a cleanup region. -/
def Free (m : Method) (t : Nat) : Prop := ∀ r ∈ m.regions, r.kind = .cleanup → r.handler ≠ t

/-- **Cleanup regions are used in an orderly way.**  A cleanup region around blocks of another that
is listed before is around its handler; bodies are entered through their handlers only, which take
the exception first, and only bodies end with the end of a body; the end of a body does not lie in a
cleanup region that is listed before the region of the body. -/
structure Orderly (m : Method) : Prop where
  sound : m.Sound
  takes : ∀ r ∈ m.regions, r.kind = .cleanup → (m.blockOrStub r.handler).instrs ≠ []
  unjumped : ∀ b k, m.Used b → m.block? b = some k → ∀ t ∈ k.terminator.successors, m.Free t
  nested : ∀ (i k : Nat) (r r' : Region), i < k → m.regions[i]? = some r → m.regions[k]? = some r' →
    r.kind = .cleanup → r'.kind = .cleanup →
    ∀ b, m.Used b → b ∈ r.blocks → b ∈ r'.blocks → r.handler ∈ r'.blocks
  enclosed : ∀ h, m.Starts h → ∀ b ∈ m.cleanupBody h, (m.blockOrStub b).terminator ≠ .endCleanup
  ordered : ∀ (i k : Nat) (r r' : Region), i < k → m.regions[i]? = some r →
    m.regions[k]? = some r' →
    r.kind = .cleanup → r'.kind = .cleanup →
    ∀ b ∈ m.cleanupBody r'.handler, (m.blockOrStub b).terminator = .endCleanup → b ∉ r.blocks

/-- The block is reached by normal control that did not start in a cleanup body. -/
def Outside (m : Method) (b : Nat) : Prop := ∃ h, m.Starts h ∧ b ∈ m.cleanupBody h

/-- The block lies in the body of a cleanup region that is listed after `index`. -/
def Inside (m : Method) (index b : Nat) : Prop :=
  ∃ k r, index < k ∧ m.regions[k]? = some r ∧ r.kind = .cleanup ∧ b ∈ m.cleanupBody r.handler

variable {m : Method} {index b t : Nat} {k : Block}

theorem Outside.next (h : m.Outside b) (hk : m.block? b = some k)
    (ht : t ∈ k.terminator.successors) : m.Outside t := by
  obtain ⟨s, hs, hb⟩ := h
  exact ⟨s, hs, mem_cleanupBody_next hb hk ht⟩

theorem Inside.next (h : m.Inside index b) (hk : m.block? b = some k)
    (ht : t ∈ k.terminator.successors) : m.Inside index t := by
  obtain ⟨i, r, hi, hr, hkind, hb⟩ := h
  exact ⟨i, r, hi, hr, hkind, mem_cleanupBody_next hb hk ht⟩

theorem Used.next (h : m.Used b) (hk : m.block? b = some k)
    (ht : t ∈ k.terminator.successors) : m.Used t := by
  obtain ⟨s, hs, hb⟩ := h
  exact ⟨s, hs, mem_cleanupBody_next hb hk ht⟩

theorem Outside.used (h : m.Outside b) : m.Used b := by
  obtain ⟨s, hs | ⟨r, hr, _, hs⟩, hb⟩ := h
  · exact ⟨s, .inl hs, hb⟩
  · exact ⟨s, .inr ⟨r, hr, hs⟩, hb⟩

theorem Inside.used (h : m.Inside index b) : m.Used b := by
  obtain ⟨i, r, _, hr, _, hb⟩ := h
  exact ⟨r.handler, .inr ⟨r, mem_of_getElem? hr, rfl⟩, hb⟩

theorem Starts.lt (h : m.Orderly) {s : Nat} (hs : m.Starts s) : s < m.blocks.length := by
  rcases hs with rfl | ⟨r, hr, _, rfl⟩
  · exact h.sound.entry
  · exact (h.sound.regions r hr).handler

theorem Outside.lt (h : m.Orderly) (hb : m.Outside b) : b < m.blocks.length := by
  obtain ⟨s, hs, hb⟩ := hb
  exact (cleanupBody_sound h.sound (hs.lt h)).2 b hb

theorem Inside.lt (h : m.Orderly) (hb : m.Inside index b) : b < m.blocks.length := by
  obtain ⟨i, r, _, hr, _, hb⟩ := hb
  exact (cleanupBody_sound h.sound (h.sound.regions r (mem_of_getElem? hr)).handler).2 b hb

end Method

/-! ### One region expanded -/

/-- `n` is `m` with its first cleanup region expanded. -/
structure Stage (m n : Method) (index : Nat) (region : Region) : Prop where
  orderly : m.Orderly
  listed : m.regions[index]? = some region
  kind : region.kind = .cleanup
  first : ∀ k < index, ∀ r : Region, m.regions[k]? = some r → r.kind ≠ .cleanup
  expanded : m.Expanded index region n

/-- What a copy does at its end is what waits for the end of the body; `ls` are the locals of the
activation that runs the copy. -/
def Completes (m : Method) (ls : Locals) : Completion → Pending → Prop
  | .jump t, .jump t' => t' = t
  | .ret saved, .ret v => (saved = none ↔ m.ret.isVoid = true) ∧ (saved = none → v = .null) ∧
      ∀ l, saved = some l → l ∉ m.localIds ∧ ls.get l = v
  | .rethrow saved, .rethrow e => saved ∉ m.localIds ∧ ls.get saved = e
  | _, _ => False

/-- The instructions that a copy of a block leaves out. -/
def skipped (position : Nat) : Nat := if position = 0 then 1 else 0

/-- **Places that correspond**, with the completions that wait there: the same block outside of the
bodies or in the body of a later region, or a block of the body and its copy.  A completion that
waits for the body has no counterpart where a copy runs.  Below a return or an exception that waits
nothing needs to correspond, as it will never be gone on with. -/
inductive Place (m n : Method) (index : Nat) (region : Region) (ls : Locals) :
    Nat → Nat → Nat → Nat → List Pending → List Pending → Prop where
  | outside {b o : Nat} {ps ps' : List Pending} : m.Outside b →
      Place m n index region ls b o b o ps ps'
  | jumps {b o t t' : Nat} {ps ps' : List Pending} : m.Inside index b →
      Place m n index region ls t 0 t' 0 ps ps' →
      Place m n index region ls b o b o (.jump t :: ps) (.jump t' :: ps')
  | ends {b o : Nat} {p : Pending} {ps ps' : List Pending} : m.Inside index b →
      (∀ t, p ≠ .jump t) → Place m n index region ls b o b o (p :: ps) (p :: ps')
  | copy {b o j base : Nat} {c : Completion} {p : Pending} {ps ps' : List Pending} :
      (m.cleanupBody region.handler)[j]? = some b →
      m.HasCopy n (m.cleanupBody region.handler) base c → Completes m ls c p →
      (∀ t, p = .jump t → Place m n index region ls t 0 t 0 ps ps') →
      Place m n index region ls b (o + skipped j) (base + j) o (p :: ps) ps'

section Stage

variable {m n : Method} {index : Nat} {region : Region} {ls : Locals} {b o b' o' : Nat}
  {ps ps' : List Pending}

theorem Completes.mono {ls' : Locals} {c : Completion} {p : Pending} (h : Completes m ls c p)
    (hls : ∀ l ∉ m.localIds, ls'.get l = ls.get l) : Completes m ls' c p := by
  match c, p, h with
  | .jump _, .jump _, h => exact h
  | .ret saved, .ret v, ⟨hvoid, hnull, hsaved⟩ =>
    exact ⟨hvoid, hnull, fun l hl => ⟨(hsaved l hl).1,
      (hls l (hsaved l hl).1).trans (hsaved l hl).2⟩⟩
  | .rethrow saved, .rethrow e, ⟨hfresh, hsaved⟩ => exact ⟨hfresh, (hls _ hfresh).trans hsaved⟩

/-- Places go on to correspond while the locals that the method does not have are left alone. -/
theorem Place.mono {ls' : Locals} (h : Place m n index region ls b o b' o' ps ps')
    (hls : ∀ l ∉ m.localIds, ls'.get l = ls.get l) :
    Place m n index region ls' b o b' o' ps ps' := by
  induction h with
  | outside hb => exact .outside hb
  | jumps hb _ ih => exact .jumps hb ih
  | ends hb hp => exact .ends hb hp
  | copy hj hcopy hc _ ih => exact .copy hj hcopy (hc.mono hls) ih

theorem Place.shift (h : Place m n index region ls b o b' o' ps ps') (d : Nat) :
    Place m n index region ls b (o + d) b' (o' + d) ps ps' := by
  cases h with
  | outside hb => exact .outside hb
  | jumps hb ht => exact .jumps hb ht
  | ends hb hp => exact .ends hb hp
  | copy hj hcopy hc ht =>
    have h := Place.copy (o := o' + d) hj hcopy hc ht
    rwa [Nat.add_right_comm] at h

variable (hst : Stage m n index region)
include hst

theorem Stage.covers (h : Place m n index region ls b o b' o' ps ps') (k : Nat) :
    n.Covers k b' ↔ m.Covers k b := by
  cases h with
  | outside hb | jumps hb _ | ends hb _ => exact hst.expanded.covers k b (hb.lt hst.orderly)
  | copy hj hcopy _ _ => exact hcopy.covers k _ _ hj

theorem Stage.used_of_mem_body (hb : b ∈ m.cleanupBody region.handler) : m.Used b :=
  ⟨region.handler, .inr ⟨region, mem_of_getElem? hst.listed, rfl⟩, hb⟩

theorem Stage.used (h : Place m n index region ls b o b' o' ps ps') : m.Used b := by
  cases h with
  | outside hb => exact hb.used
  | jumps hb _ | ends hb _ => exact hb.used
  | copy hj _ _ _ => exact hst.used_of_mem_body (mem_of_getElem? hj)

/-! ### The exception tables -/

omit hst in
/-- The tables of the two methods, region by region. -/
theorem Method.Expanded.table (h : m.Expanded index region n) :
    ∃ handler saved, m.Rescues n region handler saved ∧ n.regions.length = m.regions.length ∧
      ∀ (k : Nat) (r r' : Region), m.regions[k]? = some r → n.regions[k]? = some r' →
        k = index ∧ r'.handler = handler ∧ r'.kind = .catchAll ∨
        k ≠ index ∧ r'.handler = r.handler ∧ r'.kind = r.kind := by
  obtain ⟨handler, saved, hentries, hrescues⟩ := h.rescue
  refine ⟨handler, saved, hrescues, ?_, fun k r r' hr hr' => ?_⟩
  · simpa [Method.entries] using congrArg List.length hentries
  · have hlt := (List.getElem?_eq_some_iff.1 hr).1
    have hk : n.entries[k]? = (m.entries.set index (handler, .catchAll))[k]? := by rw [hentries]
    by_cases hi : k = index
    · subst hi
      rw [getElem?_set_self (by simpa [Method.entries] using hlt)] at hk
      simp only [Method.entries, getElem?_map, hr', Option.map_some, Option.some.injEq,
        Prod.mk.injEq] at hk
      exact .inl ⟨rfl, hk⟩
    · rw [getElem?_set_ne (Ne.symm hi)] at hk
      simp only [Method.entries, getElem?_map, hr, hr', Option.map_some, Option.some.injEq,
        Prod.mk.injEq] at hk
      exact .inr ⟨hi, hk⟩

omit hst in
/-- The cleanup regions of the expansion are those of the method but the expanded one. -/
theorem Method.Expanded.cleanup_of_mem (h : m.Expanded index region n) {k : Nat} {r' : Region}
    (hr' : n.regions[k]? = some r') (hkind : r'.kind = .cleanup) :
    ∃ r, m.regions[k]? = some r ∧ r.kind = .cleanup ∧ r'.handler = r.handler ∧ k ≠ index := by
  obtain ⟨handler, saved, -, hlen, htable⟩ := h.table
  have hlt : k < m.regions.length := hlen ▸ (List.getElem?_eq_some_iff.1 hr').1
  have hr := List.getElem?_eq_getElem hlt
  rcases htable k _ r' hr hr' with ⟨-, -, hcatch⟩ | ⟨hne, hhandler, hsame⟩
  · rw [hcatch] at hkind
    cases hkind
  · exact ⟨_, hr, hsame ▸ hkind, hhandler, hne⟩

omit hst in
/-- The first that satisfies a condition in two lists of the same length. -/
theorem find?_both {α : Type} {q q' : α → Bool} {xs ys : List α} (hlen : ys.length = xs.length)
    (h : ∀ (k : Nat) (x y : α), xs[k]? = some x → ys[k]? = some y → q' y = q x) :
    (xs.find? q = none ∧ ys.find? q' = none) ∨
      ∃ (k : Nat) (x y : α), xs[k]? = some x ∧ ys[k]? = some y ∧ xs.find? q = some x ∧
        ys.find? q' = some y := by
  induction xs generalizing ys with
  | nil =>
    cases ys with
    | nil => exact .inl ⟨rfl, rfl⟩
    | cons y ys => simp at hlen
  | cons x xs ih =>
    cases ys with
    | nil => simp at hlen
    | cons y ys =>
      have hxy := h 0 x y rfl rfl
      cases hq : q x with
      | true => exact .inr ⟨0, x, y, rfl, rfl, by simp [hq], by simp [hxy, hq]⟩
      | false =>
        rcases ih (by simpa using hlen) (fun k a b ha hb => h (k + 1) a b ha hb) with
          ⟨hx, hy⟩ | ⟨k, a, b, ha, hb, hx, hy⟩
        · exact .inl ⟨by simp [hq, hx], by simp [hxy, hq, hy]⟩
        · exact .inr ⟨k + 1, a, b, ha, hb, by simp [hq, hx], by simp [hxy, hq, hy]⟩

/-- A cleanup region other than the expanded one is listed after it. -/
theorem Stage.lt_of_cleanup {k : Nat} {r : Region} (hr : m.regions[k]? = some r)
    (hkind : r.kind = .cleanup) (hk : k ≠ index) : index < k := by
  rcases Nat.lt_trichotomy k index with h | h | h
  · exact absurd hkind (hst.first k h r hr)
  · exact absurd h hk
  · exact h

/-- The first cleanup region with a property that the expanded one does not have. -/
theorem Stage.find?_cleanup {q q' : Region → Prop} [DecidablePred q] [DecidablePred q']
    (hq : ∀ (k : Nat) (r r' : Region), m.regions[k]? = some r → n.regions[k]? = some r' →
      (q' r' ↔ q r)) (hregion : ¬ q region) :
    (m.regions.find? (fun r => r.kind = .cleanup ∧ q r) = none ∧
      n.regions.find? (fun r => r.kind = .cleanup ∧ q' r) = none) ∨
    ∃ k r r', index < k ∧ m.regions[k]? = some r ∧ r.kind = .cleanup ∧
      m.regions.find? (fun r => r.kind = .cleanup ∧ q r) = some r ∧
      n.regions.find? (fun r => r.kind = .cleanup ∧ q' r) = some r' ∧ r'.handler = r.handler := by
  obtain ⟨handler, saved, -, hlen, htable⟩ := hst.expanded.table
  have hpair : ∀ (k : Nat) (r r' : Region), m.regions[k]? = some r → n.regions[k]? = some r' →
      decide (r'.kind = .cleanup ∧ q' r') = decide (r.kind = .cleanup ∧ q r) := by
    intro k r r' hr hr'
    rcases htable k r r' hr hr' with ⟨rfl, -, hkind⟩ | ⟨-, -, hkind⟩
    · cases hr.symm.trans hst.listed
      simp [hkind, hregion]
    · simp only [hkind, hq k r r' hr hr']
  rcases find?_both hlen hpair with h | ⟨k, r, r', hr, hr', hm, hn⟩
  · exact .inl h
  · have hsat := find?_some hm
    rw [decide_eq_true_eq] at hsat
    rcases htable k r r' hr hr' with ⟨rfl, -⟩ | ⟨hk, hhandler, -⟩
    · cases hr.symm.trans hst.listed
      exact absurd hsat.2 hregion
    · exact .inr ⟨k, r, r', hst.lt_of_cleanup hr hsat.1 hk, hr, hsat.1, hm, hn, hhandler⟩

/-- A jump that does not leave the expanded region leaves the same cleanup region in both
methods. -/
theorem Stage.leaving {t t' : Nat} (hb : ∀ k, n.Covers k b' ↔ m.Covers k b)
    (ht : ∀ k, n.Covers k t' ↔ m.Covers k t) (hstay : b ∈ region.blocks → t ∈ region.blocks) :
    (m.leaving? b t = none ∧ n.leaving? b' t' = none) ∨
      ∃ k r r', index < k ∧ m.regions[k]? = some r ∧ r.kind = .cleanup ∧
        m.leaving? b t = some r ∧ n.leaving? b' t' = some r' ∧ r'.handler = r.handler := by
  refine hst.find?_cleanup (fun k r r' hr hr' => ?_) fun h => h.2 (hstay h.1)
  have hbk := hb k
  have htk := ht k
  rw [Method.covers_iff hr, Method.covers_iff hr'] at hbk htk
  rw [hbk, htk]

/-- A return from outside the expanded region leaves the same cleanup region in both methods. -/
theorem Stage.guarding (hb : ∀ k, n.Covers k b' ↔ m.Covers k b) (hout : b ∉ region.blocks) :
    (m.guarding? b = none ∧ n.guarding? b' = none) ∨
      ∃ k r r', index < k ∧ m.regions[k]? = some r ∧ r.kind = .cleanup ∧
        m.guarding? b = some r ∧ n.guarding? b' = some r' ∧ r'.handler = r.handler := by
  refine hst.find?_cleanup (fun k r r' hr hr' => ?_) hout
  have hbk := hb k
  rwa [Method.covers_iff hr, Method.covers_iff hr'] at hbk

/-- An exception is taken by the same region in both methods. -/
theorem Stage.taking (hb : ∀ k, n.Covers k b' ↔ m.Covers k b) (p : Program) (e : Value) :
    (m.taking? p b e = none ∧ n.taking? p b' e = none) ∨
      (∃ handler saved r', m.Rescues n region handler saved ∧ m.taking? p b e = some region ∧
        n.taking? p b' e = some r' ∧ r'.handler = handler ∧ r'.kind = .catchAll) ∨
      ∃ k r r', m.regions[k]? = some r ∧ (r.kind = .cleanup → index < k) ∧
        m.taking? p b e = some r ∧ n.taking? p b' e = some r' ∧ r'.handler = r.handler ∧
        r'.kind = r.kind := by
  obtain ⟨handler, saved, hrescues, hlen, htable⟩ := hst.expanded.table
  have hpair : ∀ (k : Nat) (r r' : Region), m.regions[k]? = some r → n.regions[k]? = some r' →
      decide (decide (b' ∈ r'.blocks) = true ∧ p.takes e r'.kind = true) =
        decide (decide (b ∈ r.blocks) = true ∧ p.takes e r.kind = true) := by
    intro k r r' hr hr'
    have hbk := hb k
    rw [Method.covers_iff hr, Method.covers_iff hr'] at hbk
    rcases htable k r r' hr hr' with ⟨rfl, _, hkind⟩ | ⟨_, _, hkind⟩
    · cases hr.symm.trans hst.listed
      simp [hkind, hst.kind, hbk, Program.takes]
    · simp [hkind, hbk]
  simp only [Method.taking?, Method.covering, find?_filter]
  rcases find?_both hlen hpair with h | ⟨k, r, r', hr, hr', hm, hn⟩
  · exact .inl h
  · rcases htable k r r' hr hr' with ⟨rfl, hhandler, hkind⟩ | ⟨hk, hhandler, hkind⟩
    · cases hr.symm.trans hst.listed
      exact .inr (.inl ⟨handler, saved, r', hrescues, hm, hn, hhandler, hkind⟩)
    · exact .inr (.inr ⟨k, r, r', hr, fun hc => hst.lt_of_cleanup hr hc hk, hm, hn, hhandler,
        hkind⟩)

omit hst in
/-- The first cleanup region that satisfies a condition is the first cleanup region, if it does. -/
theorem find?_first {rs : List Region} {i : Nat} {r : Region} {q : Region → Bool}
    (hr : rs[i]? = some r) (hq : q r = true)
    (hfirst : ∀ k < i, ∀ r' : Region, rs[k]? = some r' → q r' = false) : rs.find? q = some r := by
  induction rs generalizing i with
  | nil => simp at hr
  | cons x xs ih =>
    cases i with
    | zero =>
      cases hr
      simp [hq]
    | succ i =>
      rw [find?_cons, hfirst 0 (Nat.succ_pos i) x rfl]
      exact ih hr fun k hk r' hr' => hfirst (k + 1) (Nat.succ_lt_succ hk) r' hr'

theorem Stage.leaving_region {t : Nat} (hb : b ∈ region.blocks) (ht : t ∉ region.blocks) :
    m.leaving? b t = some region :=
  find?_first hst.listed (by simp [hst.kind, hb, ht]) fun k hk r hr => by
    simp [hst.first k hk r hr]

theorem Stage.guarding_region (hb : b ∈ region.blocks) : m.guarding? b = some region :=
  find?_first hst.listed (by simp [hst.kind, hb]) fun k hk r hr => by simp [hst.first k hk r hr]

/-- A jump to where the copied handler lies leaves no cleanup region, from where the handler lies or
from the expanded region. -/
theorem Stage.leaving_copy {base : Nat} {c : Completion}
    (hcopy : m.HasCopy n (m.cleanupBody region.handler) base c) (hb : ∀ k, n.Covers k b →
      m.Covers k region.handler ∨ m.Covers k b ∧ b ∈ region.blocks ∧ m.Used b) :
    n.leaving? b base = none := by
  rw [Method.leaving?, find?_eq_none]
  intro r' hr'
  obtain ⟨k, hk⟩ := mem_iff_getElem?.1 hr'
  have hcovers := hcopy.covers k 0 _ (m.cleanupBody_head region.handler)
  rw [Nat.add_zero, Method.covers_iff hk] at hcovers
  simp only [decide_eq_true_eq]
  rintro ⟨hkind, hmem, hout⟩
  refine hout (hcovers.2 ?_)
  obtain ⟨r, hr, hcleanup, -, hne⟩ := hst.expanded.cleanup_of_mem hk hkind
  have hlater := hst.lt_of_cleanup hr hcleanup hne
  rcases hb k ((Method.covers_iff hk b).2 hmem) with h | ⟨hcov, hregion, hused⟩
  · exact h
  · exact (Method.covers_iff hr _).2 (hst.orderly.nested index k region _ hlater hst.listed hr
      hst.kind hcleanup b hused hregion ((Method.covers_iff hr b).1 hcov))

end Stage

end Resumable
