/-
**What is left of cleanup regions.**

Expanding the cleanup regions of a method leaves no cleanup region, and where control still gets to
the end of a cleanup body it stands in a block of the given method: a copy of a body goes on in some
other way where the body ends.  The bodies themselves are emptied unless something else leads into
them.  That is the case for an end of a body that jumps lead to from the entry or from the handler
of a region that catches, for instance a handler inside the body: handlers are not part of the body,
so they are not copied and go on to the end of the body itself.

Main statements:

* `Method.mem_reachable_dropUnreachable` — emptying blocks keeps what can be reached;
* `Method.ends_of_withoutCleanup` — **what is left of cleanup regions**;
* `exists_end_left` — **the end of a body can be left**.
-/

import Resumable.Proofs.WithoutCleanup

set_option autoImplicit false

namespace Resumable

open List

namespace Method

/-! ### Blocks of an expansion -/

section Expanded

variable {m n : Method} {index : Nat} {region : Region} {b : Nat}

theorem Expanded.endsAt (h : m.Expanded index region n) (hend : m.EndsAt b) : n.EndsAt b := by
  obtain ⟨k, hk, hend⟩ := hend
  rcases h.same_block hk with ⟨hret, -⟩ | ⟨-, route, hn, -⟩
  · rw [hend] at hret
    cases hret
  · exact ⟨_, hn, Terminator.mapTargets_eq_endCleanup.2 hend⟩

/-- Jumps from the entry and from handlers that catch lead to blocks that come from such blocks. -/
theorem Expanded.arises_of_outside (h : m.Expanded index region n) (hm : m.Sound)
    (hregion : region ∈ m.regions) (hb : n.Outside b) :
    Arises m n region m.Outside m.Outside b := by
  obtain ⟨start, hstart, hb⟩ := hb
  refine forall_mem_cleanupBody ?_ (fun c k hc hk t ht => (h.arises_next hm hregion
    (fun _ hout => hout) (fun _ _ hout hk _ ht => hout.next hk ht) hc hk ht).1) b hb
  obtain rfl | ⟨r', hr', hkind, rfl⟩ := hstart
  · rw [h.entry]
    exact .old hm.entry ⟨m.entry, .inl rfl, m.mem_cleanupBody_self _⟩
  · exact h.arises_handler hm hr' fun r hr heq =>
      ⟨r.handler, .inr ⟨r, hr, heq ▸ hkind, rfl⟩, m.mem_cleanupBody_self _⟩

end Expanded

/-! ### All regions -/

/-- `k` is `m` with the cleanup regions at the positions in `done` expanded. -/
structure EndsLike (m : Method) (done : List Nat) (k : Method) : Prop where
  sound : k.Sound
  length : k.regions.length = m.regions.length
  plain : ∀ i ∈ done, ∀ r, k.regions[i]? = some r → r.kind ≠ .cleanup
  stays : ∀ b, m.EndsAt b → k.EndsAt b
  outside : ∀ b, k.Outside b → k.EndsAt b → m.Outside b ∧ m.EndsAt b

theorem EndsLike.next {m k n : Method} {done : List Nat} {i : Nat} (h : m.EndsLike done k)
    (hn : k.expandAt i = .ok n) : m.EndsLike (done ++ [i]) n := by
  obtain ⟨rfl, hi⟩ | ⟨region, hr, -, hn⟩ := expandAt_eq_ok hn
  · refine { h with plain := fun j hj => ?_ }
    rcases mem_append.1 hj with hj | hj
    · exact h.plain j hj
    · exact mem_singleton.1 hj ▸ hi
  · have hex := expanded_of_expandCleanup h.sound hr hn
    have hregion := mem_of_getElem? hr
    obtain ⟨-, -, -, hlen, -⟩ := hex.table
    refine ⟨hex.grows.sound, hlen.trans h.length, fun j hj r' hr' hkind => ?_,
      fun b hb => hex.endsAt (h.stays b hb), fun b hout hend => ?_⟩
    · obtain ⟨r, hr, hcleanup, -, hne⟩ := hex.cleanup_of_mem hr' hkind
      rcases mem_append.1 hj with hj | hj
      · exact h.plain j hj r hr hcleanup
      · exact hne (mem_singleton.1 hj)
    · obtain ⟨-, hout, hend⟩ :=
        hex.endsAt_of_arises (hex.arises_of_outside h.sound hregion hout) hend
      exact h.outside b hout hend

/-- **The method with all regions expanded.** -/
theorem endsLike_of_foldlM {m k : Method} (h : m.Sound)
    (hk : (range m.regions.length).foldlM expandAt m = .ok k) :
    m.EndsLike (range m.regions.length) k := by
  have hstart : m.EndsLike [] m :=
    ⟨h, rfl, fun _ hi => absurd hi not_mem_nil, fun _ hb => hb,
      fun _ hout hend => ⟨hout, hend⟩⟩
  exact foldlM_ok_scan hk (by simpa using nodup_range) hstart fun _ _ _ _ _ _ hd hn => hd.next hn

/-! ### Blocks that nothing leads to -/

section Reachable

variable {m : Method}

theorem mem_reachable_entry (m : Method) : m.entry ∈ m.reachable :=
  IdSet.mem_ofList.2 (Search.mem_preorder_iff.2 ⟨m.entry, mem_singleton_self _, .refl _⟩)

/-- What holds of the entry and along exits holds of every block that control can get to. -/
theorem forall_mem_reachable {Q : Nat → Prop} (hQ : Q m.entry)
    (hnext : ∀ b, Q b → ∀ t ∈ m.exits b, Q t) : ∀ b ∈ m.reachable, Q b := by
  intro b hb
  obtain ⟨s, hs, hr⟩ := Search.mem_preorder_iff.1 (IdSet.mem_ofList.1 hb)
  rw [mem_singleton.1 hs] at hr
  clear hb hs
  generalize m.entry = start at hQ hr
  induction hr with
  | refl => exact hQ
  | step _ hb _ ih => exact ih (hnext _ hQ _ hb)

/-- Where nothing but catching is left, jumps from the entry and from handlers lead everywhere. -/
theorem outside_of_mem_reachable (hplain : ∀ r ∈ m.regions, r.kind ≠ .cleanup) :
    ∀ b ∈ m.reachable, m.Outside b := by
  refine forall_mem_reachable ⟨m.entry, .inl rfl, m.mem_cleanupBody_self _⟩ fun b hb t ht => ?_
  unfold exits at ht
  split at ht
  · rename_i k hk
    rcases mem_append.1 ht with ht | ht
    · exact hb.next hk ht
    · obtain ⟨r, hr, rfl⟩ := mem_map.1 ht
      have hmem := (mem_filter.1 hr).1
      exact ⟨r.handler, .inr ⟨r, hmem, hplain r hmem, rfl⟩, m.mem_cleanupBody_self _⟩
  · cases ht

theorem block?_dropUnreachable (h : m.Sound) (b : Nat) :
    m.dropUnreachable.block? b = (m.block? b).map fun k =>
      if b ∈ m.reachable then k else { k with instrs := [], terminator := .unreachable } := by
  simp only [block?, dropUnreachable, getElem?_map]
  cases hk : m.blocks[b]? with
  | none => rfl
  | some k => simp only [Option.map_some, h.ids b k hk]

variable {b : Nat}

theorem exits_dropUnreachable (h : m.Sound) (hb : b ∈ m.reachable) :
    m.dropUnreachable.exits b = m.exits b := by
  rw [exits, exits, block?_dropUnreachable h, handlers, covering_dropUnreachable hb, handlers]
  cases m.block? b with
  | none => rfl
  | some k => simp [hb, Function.comp_def]

theorem mem_reachable_exits {t : Nat} (hb : b ∈ m.reachable) (ht : t ∈ m.exits b) :
    t ∈ m.reachable := by
  refine mem_reachable_next hb ?_ ht
  unfold exits at ht
  split at ht
  · rename_i k hk
    exact (List.getElem?_eq_some_iff.1 hk).1
  · cases ht

/-- **Emptying blocks keeps what can be reached.** -/
theorem mem_reachable_dropUnreachable (h : m.Sound) :
    b ∈ m.dropUnreachable.reachable ↔ b ∈ m.reachable := by
  constructor
  · refine forall_mem_reachable (m := m.dropUnreachable) (Q := (· ∈ m.reachable))
      m.mem_reachable_entry (fun c hc t ht => ?_) b
    rw [exits_dropUnreachable h hc] at ht
    exact mem_reachable_exits hc ht
  · intro hb
    refine (forall_mem_reachable (m := m)
      (Q := fun c => c ∈ m.dropUnreachable.reachable ∧ c ∈ m.reachable)
      ⟨m.dropUnreachable.mem_reachable_entry, m.mem_reachable_entry⟩ (fun c hc t ht => ?_) b hb).1
    refine ⟨mem_reachable_exits hc.1 ?_, mem_reachable_exits hc.2 ht⟩
    rw [exits_dropUnreachable h hc.2]
    exact ht

theorem endsAt_dropUnreachable_iff (h : m.Sound) :
    m.dropUnreachable.EndsAt b ↔ m.EndsAt b ∧ b ∈ m.reachable := by
  unfold EndsAt
  rw [block?_dropUnreachable h]
  by_cases hb : b ∈ m.reachable
  · simp [hb]
  · simp only [hb, and_false, iff_false, if_false]
    rintro ⟨k, hk, hend⟩
    obtain ⟨k₀, -, rfl⟩ := Option.map_eq_some_iff.1 hk
    cases hend

end Reachable

/-! ### Methods without cleanup regions -/

variable {m n : Method}

theorem not_endsAt_of_strayEndDefects (hstray : m.strayEndDefects = [])
    (hcleanup : m.hasCleanup = false) (b : Nat) : ¬ m.EndsAt b := by
  rintro ⟨k, hk, hend⟩
  have hnone : m.regions.filter (·.kind = .cleanup) = [] := by
    refine filter_eq_nil_iff.2 fun r hr => ?_
    have := any_eq_false.1 hcleanup r hr
    simpa using this
  have hdefect := filterMap_eq_nil_iff.1 hstray k (mem_of_getElem? hk)
  simp [hend, hnone] at hdefect

theorem EndsInBodies.not_endsAt (h : m.EndsInBodies) {b : Nat} (hb : m.Outside b) :
    ¬ m.EndsAt b := by
  rintro ⟨k, hk, hend⟩
  obtain ⟨start, rfl | ⟨r, hr, hkind, rfl⟩, hb⟩ := hb
  · exact h.1 b hb (by rw [blockOrStub_of_block? hk, hend])
  · exact h.2 r hr hkind b hb (by rw [blockOrStub_of_block? hk, hend])

/-- **What is left of cleanup regions**, whatever other regions the method has.

* No cleanup region is left.
* The end of a cleanup body is left at exactly those blocks of the given method that end so and that
  control still gets to.
* To each of them jumps lead from the entry or from the handler of a region that catches, in the
  given method.  Where none is reached in that way, none is left. -/
theorem ends_of_withoutCleanup (hm : m.referenceDefects = []) (hn : m.withoutCleanup = .ok n) :
    (∀ r ∈ n.regions, r.kind ≠ .cleanup) ∧
    (∀ b, n.EndsAt b ↔ m.EndsAt b ∧ b ∈ n.reachable) ∧
    (∀ b, n.EndsAt b → m.Outside b) ∧
    (m.EndsInBodies → ∀ b ∈ n.blocks, b.terminator ≠ .endCleanup) := by
  have hsound := referenceDefects_eq_nil_iff.1 hm
  suffices hends : (∀ r ∈ n.regions, r.kind ≠ .cleanup) ∧
      (∀ b, n.EndsAt b ↔ m.EndsAt b ∧ b ∈ n.reachable) ∧ ∀ b, n.EndsAt b → m.Outside b by
    refine ⟨hends.1, hends.2.1, hends.2.2, fun hbodies b hb hend => ?_⟩
    obtain ⟨i, hi⟩ := List.mem_iff_getElem?.1 hb
    have hat : n.EndsAt i := ⟨b, hi, hend⟩
    exact hbodies.not_endsAt (hends.2.2 i hat) ((hends.2.1 i).1 hat).1
  unfold withoutCleanup at hn
  split at hn
  · cases hn
  · rename_i hstray
    split at hn
    · split at hn
      · cases hn
      · rename_i k hk
        cases hn
        have hlike := endsLike_of_foldlM hsound hk
        have hplain : ∀ r ∈ k.regions, r.kind ≠ .cleanup := by
          intro r hr
          obtain ⟨i, hi⟩ := List.mem_iff_getElem?.1 hr
          have hlt := (List.getElem?_eq_some_iff.1 hi).1
          exact hlike.plain i (List.mem_range.2 (hlike.length ▸ hlt)) r hi
        have hout {b : Nat} (hb : k.dropUnreachable.EndsAt b) : m.Outside b ∧ m.EndsAt b := by
          obtain ⟨hend, hlive⟩ := (endsAt_dropUnreachable_iff hlike.sound).1 hb
          exact hlike.outside b (outside_of_mem_reachable hplain b hlive) hend
        refine ⟨fun r hr => ?_, fun b => ⟨fun hb => ⟨(hout hb).2, ?_⟩, fun hb => ?_⟩,
          fun b hb => (hout hb).1⟩
        · obtain ⟨r₀, hr₀, rfl⟩ := List.mem_map.1 (List.mem_filter.1 hr).1
          exact hplain r₀ hr₀
        · exact (mem_reachable_dropUnreachable hlike.sound).2
            ((endsAt_dropUnreachable_iff hlike.sound).1 hb).2
        · exact (endsAt_dropUnreachable_iff hlike.sound).2
            ⟨hlike.stays b hb.1, (mem_reachable_dropUnreachable hlike.sound).1 hb.2⟩
    · rename_i hcleanup
      cases hn
      have hcleanup := Bool.eq_false_iff.2 hcleanup
      have hnone := not_endsAt_of_strayEndDefects hstray hcleanup
      refine ⟨fun r hr => ?_, fun b => ?_, fun b hb => absurd hb (hnone b)⟩
      · simpa using List.any_eq_false.1 hcleanup r hr
      · exact ⟨fun hb => absurd hb (hnone b), fun hb => absurd hb.1 (hnone b)⟩

end Method

/-- Two cleanup bodies, the first of which lies in the second region: nothing is left of either. -/
theorem ends_of_withoutCleanup_nestedReturn :
    nestedReturn.referenceDefects = [] ∧ nestedReturn.EndsInBodies ∧
      ∃ n, nestedReturn.withoutCleanup = .ok n ∧ (∀ r ∈ n.regions, r.kind ≠ .cleanup) ∧
        ∀ b ∈ n.blocks, b.terminator ≠ .endCleanup := by
  have hbodies : nestedReturn.EndsInBodies := by decide +kernel
  have hreferences : nestedReturn.referenceDefects = [] := by decide +kernel
  obtain ⟨n, hn⟩ : ∃ n, nestedReturn.withoutCleanup = .ok n :=
    exists_withoutCleanup (by decide +kernel)
  obtain ⟨hregions, -, -, hends⟩ := Method.ends_of_withoutCleanup hreferences hn
  exact ⟨hreferences, hbodies, n, hn, hregions, hends hbodies⟩

/-- **The end of a body can be left.**  A handler inside the body goes on to its end; the handler is
not copied, and control gets from a copy of the body to the end of the body itself. -/
theorem exists_end_left :
    catchInside.referenceDefects = [] ∧ catchInside.shapeDefects = [] ∧
      ∃ n, catchInside.withoutCleanup = .ok n ∧ ∃ b ∈ n.blocks, b.terminator = .endCleanup := by
  have hends : catchInside.withoutCleanup.toOption.any
      (fun n => n.blocks.any (·.terminator = .endCleanup)) = true := by decide +kernel
  refine ⟨by decide +kernel, by decide +kernel, ?_⟩
  cases hn : catchInside.withoutCleanup with
  | error d => simp [hn, Except.toOption] at hends
  | ok n =>
    rw [hn] at hends
    obtain ⟨b, hb, hend⟩ := List.any_eq_true.1 hends
    exact ⟨n, rfl, b, hb, by simpa using hend⟩

end Resumable
