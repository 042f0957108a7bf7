/-
**Methods without cleanup regions mean what the methods with them mean.**

The cleanup regions of a method are expanded one after the other, in the order of the table.  Each
expansion is orderly again, so the next region can be expanded, and shows the same as the method.
When no cleanup region is left, the interpreter with cleanup regions does what the machine does, and
the blocks that nothing leads to can go.

Two things are asked of the bodies.  A body that ends in a region listed before its own loses the
body of that region, which was expanded before the copies were made.  A handler that goes on to the
end of a body it does not belong to is not copied with the body, and the completion is lost.

Main results:

* `Method.Expanded.arises_next` — what is closed under jumps stays so in the expansion;
* `Stage.orderly_expanded` — the expansion is orderly;
* `Method.trims_dropUnreachable`, `Trims.shows_iff` — dropping blocks that nothing leads to changes
  nothing;
* `Method.shows_withoutCleanup` — **expanding cleanup regions keeps their meaning**;
* `endsInside_differs`, `catchInside_differs` — what is asked of the bodies is needed.
-/

import Resumable.Proofs.CleanupMeaning

set_option autoImplicit false

namespace Resumable

open List

/-! ### The expansion is orderly -/

/-- The block ends as a cleanup body does. -/
def Method.EndsAt (m : Method) (b : Nat) : Prop :=
  ∃ k, m.block? b = some k ∧ k.terminator = .endCleanup

theorem Method.endsAt_iff {m : Method} {b : Nat} :
    m.EndsAt b ↔ (m.blockOrStub b).terminator = .endCleanup := by
  rw [EndsAt, blockOrStub]
  cases m.block? b <;> simp

/-- The blocks of the expansion that come from given blocks: the blocks with `Q` themselves, the
copies that go on to blocks with `R`, and the new handler. -/
inductive Arises (m n : Method) (region : Region) (Q R : Nat → Prop) : Nat → Prop where
  | old {b : Nat} : b < m.blocks.length → Q b → Arises m n region Q R b
  | copied {b j base : Nat} {c : Completion} : (m.cleanupBody region.handler)[j]? = some b →
      m.HasCopy n (m.cleanupBody region.handler) base c →
      (∀ t, c = .jump t → t < m.blocks.length ∧ R t) → Arises m n region Q R (base + j)
  | rescue {handler saved : Nat} : m.Rescues n region handler saved → Arises m n region Q R handler

section Expanded

variable {m n : Method} {index : Nat} {region : Region} {Q R : Nat → Prop} {b : Nat}

theorem arises_copy {base : Nat} {c : Completion}
    (hcopy : m.HasCopy n (m.cleanupBody region.handler) base c)
    (hc : ∀ t, c = .jump t → t < m.blocks.length ∧ R t) :
    Arises m n region Q R base ∧ (R base ∨ m.blocks.length ≤ base) :=
  ⟨.copied (m.cleanupBody_head region.handler) hcopy hc, .inr hcopy.fresh⟩

variable (h : m.Expanded index region n)
include h

/-- **What is closed under jumps stays so** in the expansion. -/
theorem Method.Expanded.arises_next (hm : m.Sound) (hregion : region ∈ m.regions)
    (hR : ∀ t, R t → Q t)
    (hQ : ∀ b k, Q b → m.block? b = some k → ∀ t ∈ k.terminator.successors, R t)
    {t : Nat} {k : Block} (hb : Arises m n region Q R b) (hk : n.block? b = some k)
    (ht : t ∈ k.terminator.successors) :
    Arises m n region Q R t ∧ (R t ∨ m.blocks.length ≤ t) := by
  cases hb with
  | old hlt hq =>
    have hk₀ : m.block? b = some m.blocks[b] := List.getElem?_eq_getElem hlt
    have htargets := (hm.blocks _ (List.getElem_mem hlt)).targets
    generalize m.blocks[b] = k₀ at hk₀ htargets
    rcases h.same_block hk₀ with ⟨-, -, saved, copy, hreturn, hn⟩ | ⟨-, route, hn, hroute⟩
    · cases hk.symm.trans hn
      rw [mem_singleton.1 ht]
      exact arises_copy hreturn.copy fun t ht => by cases ht
    · cases hk.symm.trans hn
      rw [Terminator.successors_mapTargets] at ht
      obtain ⟨u, hu, rfl⟩ := mem_map.1 ht
      have hru := hQ b k₀ hq hk₀ u hu
      obtain ⟨hin, hout⟩ := hroute u hu
      by_cases hstay : b ∈ region.blocks → u ∈ region.blocks
      · rw [hin hstay]
        exact ⟨.old (htargets u hu) (hR u hru), .inl hru⟩
      · obtain ⟨hinside, hleave⟩ := Classical.not_imp.1 hstay
        refine arises_copy (hout hinside hleave) fun t ht => ?_
        cases ht
        exact ⟨htargets u hu, hru⟩
  | @copied b j base c hj hcopy hc =>
    have hmem := mem_of_getElem? hj
    have hlt := (Method.cleanupBody_sound hm (hm.regions region hregion).handler).2 b hmem
    have hk₀ : m.block? b = some m.blocks[b] := List.getElem?_eq_getElem hlt
    cases hk.symm.trans (hcopy.blocks j b hj)
    simp only [Method.copiedBlock, Method.blockOrStub_of_block? hk₀] at ht
    split at ht
    · cases c with
      | jump u =>
        rw [mem_singleton.1 ht]
        obtain ⟨hu, hru⟩ := hc u rfl
        exact ⟨.old hu (hR u hru), .inl hru⟩
      | ret saved =>
        cases saved with
        | none => cases ht
        | some l => cases ht
      | rethrow l => cases ht
    · rw [Terminator.successors_mapTargets] at ht
      obtain ⟨u, hu, rfl⟩ := mem_map.1 ht
      obtain ⟨i, hi⟩ := mem_iff_getElem?.1 (Method.mem_cleanupBody_next hmem hk₀ hu)
      have hnodup : (m.cleanupBody region.handler).Nodup := Search.nodup_preorder ..
      rw [Method.copyOf_eq hnodup base hi]
      exact ⟨.copied hi hcopy hc, .inr (Nat.le_trans hcopy.fresh (Nat.le_add_right _ _))⟩
  | rescue hrescues =>
    obtain ⟨copy, take, hcopy, -, hn⟩ := hrescues.rethrows
    cases hk.symm.trans hn
    rw [mem_singleton.1 ht]
    exact arises_copy hcopy fun t ht => by cases ht

/-- **No copy ends as a body does**: the ends of bodies in the expansion are old. -/
theorem Method.Expanded.endsAt_of_arises (hb : Arises m n region Q R b) (hend : n.EndsAt b) :
    b < m.blocks.length ∧ Q b ∧ m.EndsAt b := by
  obtain ⟨k, hk, hend⟩ := hend
  cases hb with
  | old hlt hq =>
    have hk₀ : m.block? b = some m.blocks[b] := List.getElem?_eq_getElem hlt
    refine ⟨hlt, hq, _, hk₀, ?_⟩
    rcases h.same_block hk₀ with ⟨-, -, saved, copy, -, hn⟩ | ⟨-, route, hn, -⟩
    · cases hk.symm.trans hn
      cases hend
    · cases hk.symm.trans hn
      exact Terminator.mapTargets_eq_endCleanup.1 hend
  | @copied b j base c hj hcopy hc =>
    cases hk.symm.trans (hcopy.blocks j b hj)
    simp only [Method.copiedBlock] at hend
    split at hend
    · cases c with
      | jump u => cases hend
      | ret saved =>
        cases saved with
        | none => cases hend
        | some l => cases hend
      | rethrow l => cases hend
    · rename_i hne
      exact absurd (Terminator.mapTargets_eq_endCleanup.1 hend) hne
  | rescue hrescues =>
    obtain ⟨copy, take, -, -, hn⟩ := hrescues.rethrows
    cases hk.symm.trans hn
    cases hend

theorem Method.Expanded.arises_handler (hm : m.Sound) {r' : Region} (hr' : r' ∈ n.regions)
    (hQ : ∀ r ∈ m.regions, r.kind = r'.kind → Q r.handler) :
    Arises m n region Q R r'.handler := by
  obtain ⟨k, hk⟩ := mem_iff_getElem?.1 hr'
  obtain ⟨handler, saved, hrescues, hlen, htable⟩ := h.table
  have hlt : k < m.regions.length := hlen ▸ (List.getElem?_eq_some_iff.1 hk).1
  rcases htable k _ r' (List.getElem?_eq_getElem hlt) hk with ⟨-, hhandler, -⟩ |
    ⟨-, hhandler, hkind⟩
  · rw [hhandler]
    exact .rescue hrescues
  · rw [hhandler]
    have hmem := List.getElem_mem hlt
    exact .old (hm.regions _ hmem).handler (hQ _ hmem hkind.symm)

end Expanded

section Stage

variable {m n : Method} {index : Nat} {region : Region} (hst : Stage m n index region)
include hst

theorem Stage.free {t : Nat} (ht : m.Free t ∨ m.blocks.length ≤ t) : n.Free t := by
  intro r' hr' hkind heq
  obtain ⟨k, hk⟩ := mem_iff_getElem?.1 hr'
  obtain ⟨r, hr, hcleanup, hhandler, -⟩ := hst.expanded.cleanup_of_mem hk hkind
  have hmem := mem_of_getElem? hr
  rcases ht with ht | ht
  · exact ht r hmem hcleanup (hhandler ▸ heq)
  · have := (hst.orderly.sound.regions r hmem).handler
    omega

variable {Q R : Nat → Prop} {b : Nat}

/-- **What is closed under normal exits stays so** in the expansion. -/
theorem Stage.arises_next
    (hQ : ∀ b k, Q b → m.block? b = some k → ∀ t ∈ k.terminator.successors, Q t ∧ m.Free t)
    {t : Nat} {k : Block} (hb : Arises m n region Q (fun t => Q t ∧ m.Free t) b)
    (hk : n.block? b = some k) (ht : t ∈ k.terminator.successors) :
    Arises m n region Q (fun t => Q t ∧ m.Free t) t ∧ n.Free t := by
  obtain ⟨harises, hfree⟩ := hst.expanded.arises_next hst.orderly.sound (mem_of_getElem? hst.listed)
    (fun _ h => h.1) hQ hb hk ht
  exact ⟨harises, hst.free (hfree.imp_left And.right)⟩

theorem Stage.arises_body
    (hQ : ∀ b k, Q b → m.block? b = some k → ∀ t ∈ k.terminator.successors, Q t ∧ m.Free t)
    {h : Nat} (hh : Arises m n region Q (fun t => Q t ∧ m.Free t) h) :
    ∀ b ∈ n.cleanupBody h, Arises m n region Q (fun t => Q t ∧ m.Free t) b :=
  Method.forall_mem_cleanupBody hh fun _ _ hb hk _ ht => (hst.arises_next hQ hb hk ht).1

theorem Stage.covers_arises (hQ : ∀ b, Q b → m.Used b) (hb : Arises m n region Q R b) :
    ∃ b₀, m.Used b₀ ∧ ∀ k, n.Covers k b ↔ m.Covers k b₀ := by
  cases hb with
  | old hlt hq => exact ⟨b, hQ b hq, fun k => hst.expanded.covers k b hlt⟩
  | copied hj hcopy hc =>
    exact ⟨_, hst.used_of_mem_body (mem_of_getElem? hj), fun k => hcopy.covers k _ _ hj⟩
  | rescue hrescues =>
    exact ⟨_, hst.used_of_mem_body (m.mem_cleanupBody_self _), fun k => hrescues.covers k⟩

theorem Stage.used_next : ∀ b k, m.Used b → m.block? b = some k →
    ∀ t ∈ k.terminator.successors, m.Used t ∧ m.Free t := fun b k hb hk t ht =>
  ⟨hb.next hk ht, hst.orderly.unjumped b k hb hk t ht⟩

theorem Stage.arises_used (hb : n.Used b) :
    Arises m n region m.Used (fun t => m.Used t ∧ m.Free t) b := by
  obtain ⟨h, hh, hb⟩ := hb
  refine hst.arises_body hst.used_next ?_ b hb
  rcases hh with rfl | ⟨r', hr', rfl⟩
  · rw [hst.expanded.entry]
    exact .old hst.orderly.sound.entry ⟨m.entry, .inl rfl, m.mem_cleanupBody_self _⟩
  · exact hst.expanded.arises_handler hst.orderly.sound hr' fun r hr _ =>
      ⟨_, .inr ⟨r, hr, rfl⟩, m.mem_cleanupBody_self _⟩

/-- **The expansion is orderly.** -/
theorem Stage.orderly_expanded : n.Orderly where
  sound := hst.expanded.grows.sound
  takes := by
    intro r' hr' hkind
    obtain ⟨k, hk⟩ := mem_iff_getElem?.1 hr'
    obtain ⟨r, hr, hcleanup, hhandler, -⟩ := hst.expanded.cleanup_of_mem hk hkind
    obtain ⟨b, hb, hlen⟩ := hst.exists_handler hr hcleanup
    have hne := length_pos_iff.1 hlen
    rw [hhandler]
    rcases hst.expanded.same_block hb with ⟨-, -, saved, copy, -, hn⟩ | ⟨-, route, hn, -⟩
    · rw [Method.blockOrStub_of_block? hn]
      simp [hne]
    · rw [Method.blockOrStub_of_block? hn]
      exact hne
  unjumped b k hb hk t ht := (hst.arises_next hst.used_next (hst.arises_used hb) hk ht).2
  nested := by
    intro i k r₁ r₂ hik hr₁ hr₂ hkind₁ hkind₂ b hb hb₁ hb₂
    obtain ⟨r, hr, hcleanup, hhandler, hi⟩ := hst.expanded.cleanup_of_mem hr₁ hkind₁
    obtain ⟨r', hr', hcleanup', -, -⟩ := hst.expanded.cleanup_of_mem hr₂ hkind₂
    obtain ⟨b₀, hused, hcovers⟩ := hst.covers_arises (fun _ h => h) (hst.arises_used hb)
    have h₁ := (Method.covers_iff hr b₀).1 ((hcovers i).1 ((Method.covers_iff hr₁ b).2 hb₁))
    have h₂ := (Method.covers_iff hr' b₀).1 ((hcovers k).1 ((Method.covers_iff hr₂ b).2 hb₂))
    have hmem := hst.orderly.nested i k r r' hik hr hr' hcleanup hcleanup' b₀ hused h₁ h₂
    have hlt := (hst.orderly.sound.regions r (mem_of_getElem? hr)).handler
    rw [hhandler]
    exact (Method.covers_iff hr₂ _).1 ((hst.expanded.covers k _ hlt).2
      ((Method.covers_iff hr' _).2 hmem))
  enclosed := by
    intro h hh b hb
    have harises : Arises m n region m.Outside (fun t => m.Outside t ∧ m.Free t) h := by
      rcases hh with rfl | ⟨r', hr', hkind, rfl⟩
      · rw [hst.expanded.entry]
        exact .old hst.orderly.sound.entry ⟨m.entry, .inl rfl, m.mem_cleanupBody_self _⟩
      · exact hst.expanded.arises_handler hst.orderly.sound hr' fun r hr heq =>
          ⟨_, .inr ⟨r, hr, heq ▸ hkind, rfl⟩, m.mem_cleanupBody_self _⟩
    have hb := hst.arises_body (fun b k hb hk t ht =>
      ⟨hb.next hk ht, hst.orderly.unjumped b k hb.used hk t ht⟩) harises b hb
    intro hend
    obtain ⟨-, ⟨start, hstart, hmem⟩, hend'⟩ :=
      hst.expanded.endsAt_of_arises hb (Method.endsAt_iff.2 hend)
    exact hst.orderly.enclosed start hstart b hmem (Method.endsAt_iff.1 hend')
  ordered := by
    intro i k r₁ r₂ hik hr₁ hr₂ hkind₁ hkind₂ b hb hend hmem
    obtain ⟨r, hr, hcleanup, -, -⟩ := hst.expanded.cleanup_of_mem hr₁ hkind₁
    obtain ⟨r', hr', hcleanup', hhandler, -⟩ := hst.expanded.cleanup_of_mem hr₂ hkind₂
    have hlt := (hst.orderly.sound.regions r' (mem_of_getElem? hr')).handler
    have hused : ∀ b, b ∈ m.cleanupBody r'.handler → m.Used b := fun b hb =>
      ⟨r'.handler, .inr ⟨r', mem_of_getElem? hr', rfl⟩, hb⟩
    have harises : Arises m n region (· ∈ m.cleanupBody r'.handler)
        (fun t => t ∈ m.cleanupBody r'.handler ∧ m.Free t) r₂.handler := by
      rw [hhandler]
      exact .old hlt (m.mem_cleanupBody_self _)
    have hb := hst.arises_body (fun b k hb hk t ht =>
      ⟨Method.mem_cleanupBody_next hb hk ht, hst.orderly.unjumped b k
        (hused b hb) hk t ht⟩) harises b hb
    obtain ⟨hlt', hbody, hend'⟩ := hst.expanded.endsAt_of_arises hb (Method.endsAt_iff.2 hend)
    refine hst.orderly.ordered i _ r r' hik hr hr' hcleanup hcleanup' b hbody
      (Method.endsAt_iff.1 hend') ?_
    exact (Method.covers_iff hr b).1 ((hst.expanded.covers i b hlt').1
      ((Method.covers_iff hr₁ b).2 hmem))

theorem Stage.match_begin (s : Store) (args : List Value) (depth : Nat) :
    Match m n index region (Cleaning.begin s m args depth) (Cleaning.begin s n args depth) := by
  refine .runs ⟨⟨rfl, rfl, rfl, rfl⟩, rfl, fun l _ => ?_, ?_,
    Method.exists_block hst.orderly.sound.entry⟩
  · simp only [Activation.start, hst.expanded.grows.params]
  · simp only [Activation.start, hst.expanded.entry]
    exact .outside ⟨m.entry, .inl rfl, m.mem_cleanupBody_self _⟩

end Stage

/-! ### All regions -/

/-- `n` is `m` with the cleanup regions among the first `count` regions expanded. -/
structure Expands (m : Method) (count : Nat) (n : Method) : Prop where
  orderly : n.Orderly
  length : n.regions.length = m.regions.length
  done : ∀ k < count, ∀ r : Region, n.regions[k]? = some r → r.kind ≠ .cleanup
  shows : ∀ (p : Program) (s : Store) (args : List Value) (depth : Nat) (rs : List Reply)
    (o : Sight), (Cleaning.play p).Shows (.begin s m args depth) rs o ↔
      (Cleaning.play p).Shows (.begin s n args depth) rs o

variable {m : Method}

theorem Expands.next {n n' : Method} {i : Nat} (h : Expands m i n) (hn : n.expandAt i = .ok n') :
    Expands m (i + 1) n' := by
  obtain ⟨rfl, hi⟩ | ⟨region, hr, hkind, hn⟩ := Method.expandAt_eq_ok hn
  · refine { h with done := fun k hk r hr => ?_ }
    rcases Nat.lt_succ_iff_lt_or_eq.1 hk with hk | rfl
    · exact h.done k hk r hr
    · exact hi r hr
  · have hst : Stage n n' i region :=
      ⟨h.orderly, hr, hkind, h.done, Method.expanded_of_expandCleanup h.orderly.sound hr hn⟩
    obtain ⟨-, -, -, hlen, -⟩ := hst.expanded.table
    refine ⟨hst.orderly_expanded, hlen.trans h.length, fun k hk r' hr' hcleanup => ?_,
      fun p s args depth rs o => ?_⟩
    · obtain ⟨r, hr, hcleanup, -, hne⟩ := hst.expanded.cleanup_of_mem hr' hcleanup
      exact h.done k (by omega) r hr hcleanup
    · exact (h.shows p s args depth rs o).trans
        ((hst.simulates p).shows_iff (hst.match_begin s args depth) rs o)

theorem expands_of_foldlM (h : m.Orderly) (i : Nat) :
    ∀ n, (range i).foldlM Method.expandAt m = .ok n → Expands m i n := by
  induction i with
  | zero =>
    intro n hn
    cases hn
    exact ⟨h, rfl, fun k hk => absurd hk (Nat.not_lt_zero k), fun _ _ _ _ _ _ => Iff.rfl⟩
  | succ i ih =>
    intro n hn
    rw [range_succ, foldlM_append] at hn
    obtain ⟨n₀, hi, hn⟩ := bind_eq_ok hn
    rw [foldlM_cons] at hn
    obtain ⟨n₁, hn₁, hn⟩ := bind_eq_ok hn
    cases hn
    exact (ih n₀ hi).next hn₁

/-! ### Blocks that nothing leads to -/

/-- `n` is `m`, which has no cleanup regions, on the blocks that control gets to. -/
structure Trims (m n : Method) (live : Nat → Prop) : Prop where
  name : n.name = m.name
  ret : n.ret = m.ret
  params : n.params = m.params
  entry : n.entry = m.entry
  plain : ∀ r ∈ m.regions, r.kind ≠ .cleanup
  start : live m.entry
  next : ∀ b k, live b → m.block? b = some k → ∀ t ∈ k.terminator.successors, live t
  caught : ∀ b, live b → ∀ r ∈ m.covering b, live r.handler
  blocks : ∀ b, live b → n.block? b = m.block? b
  handler : ∀ b, live b → ∀ (p : Program) (e : Value), p.handler? n b e = p.handler? m b e

/-- Machines that run the same activation, one of `m` and one of `n`. -/
inductive Trimmed (m n : Method) (live : Nat → Prop) : Cleaning → Machine → Prop where
  | runs {s : Store} {a : Activation} : a.method = m → live a.block →
      Trimmed m n live ⟨⟨s, .exec a, []⟩, []⟩ ⟨s, .exec { a with method := n }, []⟩
  | waits {s : Store} {c : Control} {a : Activation} {keep : Bool} : a.method = m → live a.block →
      Trimmed m n live ⟨⟨s, c, [.caller a keep]⟩, []⟩ ⟨s, c, [.caller { a with method := n } keep]⟩
  | returns {s : Store} {v : Value} : Trimmed m n live ⟨⟨s, .answer v, []⟩, []⟩ ⟨s, .answer v, []⟩
  | unwinds {s : Store} {u u' : Unwind} : u'.unplaced = u.unplaced →
      Trimmed m n live ⟨⟨s, .unwind u, []⟩, []⟩ ⟨s, .unwind u', []⟩

section Trims

variable {m n : Method} {live : Nat → Prop} (h : Trims m n live)
include h

variable {a : Activation}

theorem Trims.raise (ha : a.method = m) (hb : live a.block) (p : Program) (s : Store) (e : Value) :
    Trimmed m n live (Cleaning.raise p s a e []) ⟨s, p.raise { a with method := n } e, []⟩ := by
  have hhandler : p.handler? n a.block e = (m.taking? p a.block e).map (·.handler) :=
    h.handler a.block hb p e
  unfold Cleaning.raise Program.raise
  simp only [ha, hhandler]
  cases htaking : m.taking? p a.block e with
  | none => exact .unwinds rfl
  | some r =>
    have hr := mem_of_find?_eq_some htaking
    have hkind := h.plain r (mem_filter.1 hr).1
    simp only [Option.map_some, if_neg hkind]
    exact .runs ha (h.caught a.block hb r hr)

theorem Trims.fault (ha : a.method = m) {f : String → Location → Fault} (hf : Fault.AnyPlace f)
    {s : Store} {l l' : Location} :
    Trimmed m n live ⟨⟨s, .unwind (.fault (f a.method.name l)), []⟩, []⟩
      ⟨s, .unwind (.fault (f n.name l')), []⟩ :=
  .unwinds (hf.unplaced (ha ▸ h.name) _ _)

theorem Trims.act (ha : a.method = m) (hb : live a.block) (p : Program) (s : Store) (i : Instr) :
    Trimmed m n live (Cleaning.act p a [] (a.exec s i))
      (Machine.act p { a with method := n } [] ({ a with method := n }.exec s i)) := by
  obtain ⟨t, x, y, hx, hy, htracks⟩ := Activation.tracks_exec a { a with method := n }
    (Instr.mapLocals_id i).symm s rfl rfl rfl fun _ _ => rfl
  rw [hx, hy]
  cases htracks with
  | next v stack monitors => exact .runs ha hb
  | throw e _ => exact h.raise ha hb p t e
  | fault f hf => exact h.fault ha hf
  | errand he he' =>
    rw [Cleaning.act_waits he, Machine.act_waits he']
    exact .waits ha hb

theorem Trims.depart (ha : a.method = m) (hb : live a.block) (p : Program) (s : Store) {k : Block}
    (hk : m.block? a.block = some k) :
    Trimmed m n live (Cleaning.depart p s a k.terminator [])
      (match Activation.leave { a with method := n } k.terminator with
        | .jump b stack => ⟨s, .exec (Activation.jump { a with method := n } b stack), []⟩
        | .ret v => ⟨s, .answer v, []⟩
        | .throw e => ⟨s, p.raise { a with method := n } e, []⟩
        | .fault f => ⟨s, .unwind (.fault f), []⟩) := by
  unfold Cleaning.depart
  by_cases hend : k.terminator = .endCleanup
  · rw [if_pos hend, hend]
    simp only [Cleaning.complete, Cleaning.fail, Activation.leave, h.name, ha]
    exact .unwinds rfl
  rw [if_neg hend]
  have hparts := Activation.parts_leave (ρ := .id) (a := a) (b := { a with method := n }) id
    k.terminator (by simp) fun _ => by rw [ha]; exact h.ret
  rw [Terminator.mapTargets_id] at hparts
  have hnext := h.next a.block k hb hk
  generalize k.terminator = t at *
  generalize a.leave t = d at *
  generalize Activation.leave { a with method := n } t = d' at *
  cases hparts with
  | jump u stack hu =>
    have hleaving : a.method.leaving? a.block u = none := by
      rw [ha, Method.leaving?, find?_eq_none]
      intro r hr
      simp [h.plain r hr]
    simp only [Value.map_rename_id, Cleaning.go, hleaving]
    exact .runs ha (hnext u hu)
  | ret v _ =>
    have hguarding : a.method.guarding? a.block = none := by
      rw [ha, Method.guarding?, find?_eq_none]
      intro r hr
      simp [h.plain r hr]
    simp only [Value.rename_id, Cleaning.finish, hguarding]
    exact .returns
  | throw e _ =>
    simp only [Value.rename_id]
    exact h.raise ha hb p s e
  | fault f hf => exact h.fault ha hf

theorem Trims.execute (ha : a.method = m) (hb : live a.block) (p : Program) (s : Store) :
    Trimmed m n live (Cleaning.execute p s a [])
      (Machine.execute p s { a with method := n } []) := by
  unfold Cleaning.execute Machine.execute
  simp only [ha, h.blocks a.block hb]
  cases hk : m.block? a.block with
  | none =>
    simp only [h.name]
    exact .unwinds rfl
  | some k =>
    cases hi : k.instrs[a.offset]? with
    | none =>
      simp only [hi]
      exact h.depart ha hb p s hk
    | some i =>
      simp only [hi]
      exact h.act ha hb p s i

/-- **The machine on `n` simulates the interpreter on `m`.** -/
theorem Trims.simulates (p : Program) :
    Play.Simulates (Cleaning.play p) (Machine.play p) (Trimmed m n live) :=
  .of_cases fun hxy => by
    cases hxy with
    | runs ha hb => exact .inl ⟨rfl, _, .one rfl, h.execute ha hb p _⟩
    | returns => exact .inr ⟨_, rfl, rfl, fun _ _ h => by cases h⟩
    | unwinds hu =>
      exact .inr ⟨_, rfl, by simp [Machine.play, Machine.sight, hu], fun _ _ h => by cases h⟩
    | waits ha hb =>
      exact .inr ⟨_, rfl, rfl, fun _ _ _ => Reply.forall_of_cases (fun _ _ => .runs ha hb)
        (fun s e => h.raise ha hb p s e) fun _ _ => .unwinds rfl⟩

/-- **The machine on `n` shows what the interpreter shows on `m`.** -/
theorem Trims.shows_iff (p : Program) (s : Store) (args : List Value) (depth : Nat)
    (rs : List Reply) (o : Sight) :
    (Cleaning.play p).Shows (.begin s m args depth) rs o ↔
      (Machine.play p).Shows (.begin s n args depth) rs o := by
  refine (h.simulates p).shows_iff ?_ rs o
  have hstart : Activation.start n args depth =
      { Activation.start m args depth with method := n } := by
    simp only [Activation.start, h.params, h.entry]
  simp only [Cleaning.begin, Machine.begin, hstart]
  exact .runs rfl h.start

end Trims

namespace Method

variable {m : Method} {b : Nat}

theorem mem_reachable_next {t : Nat} (hb : b ∈ m.reachable) (hlt : b < m.blocks.length)
    (ht : t ∈ m.exits b) : t ∈ m.reachable :=
  IdSet.mem_ofList.2 ((Search.mem_visited_of_mem_next (IdSet.mem_ofList.1 hb) hlt ht).resolve_left
    not_mem_nil)

/-- The regions around a block that control gets to. -/
theorem covering_dropUnreachable (hb : b ∈ m.reachable) :
    m.dropUnreachable.covering b = (m.covering b).map fun r =>
      { r with blocks := r.blocks.filter (· ∈ m.reachable) } := by
  simp only [covering, dropUnreachable, filter_filter, filter_map]
  congr 1
  refine filter_congr fun r _ => ?_
  have hmem : b ∈ r.blocks.filter (· ∈ m.reachable) ↔ b ∈ r.blocks := by simp [hb]
  simp only [Function.comp, hmem]
  by_cases hcovers : b ∈ r.blocks
  · have hne : (r.blocks.filter (· ∈ m.reachable)).isEmpty = false := by
      rw [IdSet.isEmpty, isEmpty_eq_false_iff]
      exact ne_nil_of_mem (hmem.2 hcovers)
    simp [hcovers, hne]
  · simp [hcovers]

/-- **Dropping what nothing leads to** changes nothing for the blocks that control gets to. -/
theorem trims_dropUnreachable (h : m.Sound) (hplain : ∀ r ∈ m.regions, r.kind ≠ .cleanup) :
    Trims m m.dropUnreachable (· ∈ m.reachable) where
  name := rfl
  ret := rfl
  params := rfl
  entry := rfl
  plain := hplain
  start := IdSet.mem_ofList.2 (Search.mem_preorder_iff.2 ⟨m.entry, mem_singleton_self _, .refl _⟩)
  next b k hb hk t ht := by
    refine mem_reachable_next hb (List.getElem?_eq_some_iff.1 hk).1 ?_
    rw [exits, hk]
    exact mem_append_left _ ht
  caught b hb r hr := by
    obtain ⟨hmem, hcovers⟩ := mem_filter.1 hr
    have hlt := (h.regions r hmem).covered b (by simpa using hcovers)
    refine mem_reachable_next hb hlt ?_
    rw [exits, block?, List.getElem?_eq_getElem hlt]
    exact mem_append_right _ (mem_map.2 ⟨r, hr, rfl⟩)
  blocks b hb := by
    simp only [block?, dropUnreachable, getElem?_map]
    cases hk : m.blocks[b]? with
    | none => rfl
    | some k => simp [h.ids b k hk, hb]
  handler b hb p e := by
    rw [Program.handler?, covering_dropUnreachable hb, find?_map, Option.map_map]
    rfl

theorem trims_self (hplain : ∀ r ∈ m.regions, r.kind ≠ .cleanup) : Trims m m fun _ => True where
  name := rfl
  ret := rfl
  params := rfl
  entry := rfl
  plain := hplain
  start := trivial
  next _ _ _ _ _ _ := trivial
  caught _ _ _ _ := trivial
  blocks _ _ := rfl
  handler _ _ _ _ := rfl

/-- **The method without cleanup regions shows what the method shows**, if it is orderly. -/
theorem Orderly.shows_iff {n : Method} (h : m.Orderly) (hn : m.withoutCleanup = .ok n) (p : Program)
    (s : Store) (args : List Value) (depth : Nat) (rs : List Reply) (o : Sight) :
    (Cleaning.play p).Shows (.begin s m args depth) rs o ↔
      (Machine.play p).Shows (.begin s n args depth) rs o := by
  unfold withoutCleanup at hn
  split at hn
  · cases hn
  · split at hn
    · split at hn
      · cases hn
      · rename_i k hk
        cases hn
        have hall := expands_of_foldlM h _ k hk
        refine (hall.shows p s args depth rs o).trans
          ((trims_dropUnreachable hall.orderly.sound fun r hr => ?_).shows_iff p s args depth rs o)
        obtain ⟨i, hi⟩ := mem_iff_getElem?.1 hr
        have hlt := (List.getElem?_eq_some_iff.1 hi).1
        exact hall.done i (hall.length ▸ hlt) r hi
    · rename_i hnone
      cases hn
      refine (trims_self fun r hr hkind => hnone ?_).shows_iff p s args depth rs o
      exact any_eq_true.2 ⟨r, hr, by simp [hkind]⟩

/-! ### Methods that are used in a tidy way -/

instance (m : Method) (t : Nat) : Decidable (m.Free t) :=
  inferInstanceAs (Decidable (∀ r ∈ m.regions, r.kind = .cleanup → r.handler ≠ t))

/-- **Cleanup regions are used in a tidy way.**  The method passes the checks of its references and
of its exception table; cleanup handlers are entered by exceptions only and begin by taking them;
and a cleanup handler lies in the regions that are listed later and contain its region. -/
structure Tidy (m : Method) : Prop where
  references : m.referenceDefects = []
  shape : m.shapeDefects = []
  takes : ∀ r ∈ m.regions, r.kind = .cleanup → (m.blockOrStub r.handler).instrs ≠ []
  unjumped : ∀ b ∈ m.blocks, ∀ t ∈ b.terminator.successors, m.Free t
  nested : m.regions.Pairwise fun r r' =>
    r.kind = .cleanup → r.blocks.isSubset r'.blocks = true → r.handler ∈ r'.blocks

/-- Only cleanup bodies end with the end of a body: none is reached from the entry or from the
handler of a region that catches. -/
def EndsInBodies (m : Method) : Prop :=
  (∀ b ∈ m.cleanupBody m.entry, (m.blockOrStub b).terminator ≠ .endCleanup) ∧
  ∀ r ∈ m.regions, r.kind ≠ .cleanup →
    ∀ b ∈ m.cleanupBody r.handler, (m.blockOrStub b).terminator ≠ .endCleanup

/-- The end of the body of a cleanup region does not lie in a cleanup region that is listed
before. -/
def EndsInOrder (m : Method) : Prop :=
  m.regions.Pairwise fun r r' => r.kind = .cleanup → r'.kind = .cleanup →
    ∀ b ∈ m.cleanupBody r'.handler, (m.blockOrStub b).terminator = .endCleanup → b ∉ r.blocks

instance (m : Method) : Decidable m.EndsInBodies := inferInstanceAs (Decidable (_ ∧ _))

instance (m : Method) : Decidable m.EndsInOrder := inferInstanceAs (Decidable (List.Pairwise _ _))

/-- Regions that share a block and do not clash: the first lies in the second. -/
theorem isSubset_of_clash? {r r' : Region} (h : clash? r r' = none) (hb : b ∈ r.blocks)
    (hb' : b ∈ r'.blocks) : r.blocks.isSubset r'.blocks = true := by
  unfold clash? at h
  split at h
  · rename_i hnone
    have hmem : b ∈ r.blocks.filter (· ∈ r'.blocks) := by simp [hb, hb']
    rw [IdSet.mem_def, hnone] at hmem
    simp at hmem
  · cases hinner : r.blocks.isSubset r'.blocks with
    | true => rfl
    | false => cases houter : r'.blocks.isSubset r.blocks <;> simp [hinner, houter] at h

theorem clashes_eq_nil_iff {rs : List Region} :
    clashes rs = [] ↔ rs.Pairwise fun r r' => clash? r r' = none := by
  induction rs with
  | nil => simp [clashes]
  | cons r rs ih => simp [clashes, filterMap_eq_nil_iff, ih]

theorem Tidy.orderly (h : m.Tidy) (hbodies : m.EndsInBodies) (horder : m.EndsInOrder) :
    m.Orderly where
  sound := referenceDefects_eq_nil_iff.1 h.references
  takes := h.takes
  unjumped b k _ hk := h.unjumped k (mem_of_getElem? hk)
  nested i k r r' hik hr hr' hkind _ b _ hb hb' := by
    have hclash := pairwise_getElem? (clashes_eq_nil_iff.1 h.shape) hik hr hr'
    exact pairwise_getElem? h.nested hik hr hr' hkind (isSubset_of_clash? hclash hb hb')
  enclosed := by
    rintro start (rfl | ⟨r, hr, hkind, rfl⟩)
    · exact hbodies.1
    · exact hbodies.2 r hr hkind
  ordered _ _ _ _ hik hr hr' := pairwise_getElem? horder hik hr hr'

/-- **Expanding cleanup regions keeps their meaning.**  Where cleanup regions are used in a tidy way
and their bodies end where they should, the machine on the method without cleanup regions shows what
the interpreter with cleanup regions shows on the method: after any replies it asks for the same
with the same store, or ends the same way. -/
theorem shows_withoutCleanup {m n : Method} (h : m.Tidy) (hbodies : m.EndsInBodies)
    (horder : m.EndsInOrder) (hn : m.withoutCleanup = .ok n) (p : Program) (s : Store)
    (args : List Value) (depth : Nat) (rs : List Reply) (o : Sight) :
    (Cleaning.play p).Shows (.begin s m args depth) rs o ↔
      (Machine.play p).Shows (.begin s n args depth) rs o :=
  (h.orderly hbodies horder).shows_iff hn p s args depth rs o

end Method

/-- Returns through two cleanup bodies, the first of which lies in the region of the second. -/
def nestedReturn : Method where
  name := "m"
  params := []
  ret := .int
  locals := []
  blocks :=
    [⟨0, [.push (.int 7)], .ret⟩,
      ⟨1, [.pop, .push (.str "inner"), .invoke ⟨"log", 1, .void⟩], .endCleanup⟩,
      ⟨2, [.pop, .push (.str "outer"), .invoke ⟨"log", 1, .void⟩], .endCleanup⟩]
  entry := 0
  regions := [⟨0, IdSet.ofList [0], 1, .cleanup⟩, ⟨1, IdSet.ofList [0, 1], 2, .cleanup⟩]

theorem exists_withoutCleanup (h : m.withoutCleanup.isOk = true) :
    ∃ n, m.withoutCleanup = .ok n := by
  cases hm : m.withoutCleanup with
  | ok n => exact ⟨n, rfl⟩
  | error d => simp [hm, Except.isOk, Except.toBool] at h

theorem nestedReturn.tidy : nestedReturn.Tidy where
  references := by decide +kernel
  shape := by decide +kernel
  takes := by decide +kernel
  unjumped := by decide +kernel
  nested := by decide +kernel

/-- The method calls `log` twice and then returns the value. -/
theorem shows_withoutCleanup_nestedReturn :
    nestedReturn.Tidy ∧ nestedReturn.EndsInBodies ∧ nestedReturn.EndsInOrder ∧
      ∃ n, nestedReturn.withoutCleanup = .ok n ∧
        (Machine.play {}).Shows (.begin {} n [] 0) [⟨{}, .ok .null⟩, ⟨{}, .ok .null⟩]
          (.ends {} (.ok (.int 7))) := by
  have hbodies : nestedReturn.EndsInBodies := by decide +kernel
  have horder : nestedReturn.EndsInOrder := by decide +kernel
  obtain ⟨n, hn⟩ : ∃ n, nestedReturn.withoutCleanup = .ok n :=
    exists_withoutCleanup (by decide +kernel)
  refine ⟨nestedReturn.tidy, hbodies, horder, n, hn, ?_⟩
  exact (Method.shows_withoutCleanup nestedReturn.tidy hbodies horder hn {} {} [] 0 _ _).1 ⟨12, rfl⟩

/-! ### What bodies that end elsewhere lose -/

/-- Whether the method ends with a value. -/
def Sight.returns : Sight → Bool
  | .ends _ (.ok _) => true
  | _ => false

/-- The body of the second region ends in the first region. -/
def endsInside : Method where
  name := "m"
  params := [⟨0, some "f", .future, true⟩]
  ret := .int
  locals := [⟨0, some "f", .future, true⟩]
  blocks :=
    [⟨0, [.load 0, .invoke ⟨"Await.await", 1, .int⟩, .pop], .goto 1⟩,
      ⟨1, [.push (.int 7)], .ret⟩,
      ⟨2, [.pop], .goto 3⟩,
      ⟨3, [.push (.str "first"), .invoke ⟨"log", 1, .void⟩], .endCleanup⟩,
      ⟨4, [.pop, .push (.str "second"), .invoke ⟨"log", 1, .void⟩], .endCleanup⟩]
  entry := 0
  regions := [⟨0, IdSet.ofList [3], 4, .cleanup⟩, ⟨1, IdSet.ofList [0], 2, .cleanup⟩]

/-- An exception in the body is caught, and the body goes on. -/
def catchInside : Method where
  name := "m"
  params := []
  ret := .int
  locals := []
  blocks :=
    [⟨0, [.push (.int 7)], .ret⟩,
      ⟨1, [.pop], .goto 2⟩,
      ⟨2, [.push (.str "first"), .invoke ⟨"log", 1, .void⟩], .goto 3⟩,
      ⟨3, [], .endCleanup⟩,
      ⟨4, [.pop], .goto 3⟩]
  entry := 0
  regions := [⟨0, IdSet.ofList [2], 4, .catchAll⟩, ⟨1, IdSet.ofList [0], 1, .cleanup⟩]

/-- What the method without cleanup regions shows after the given replies. -/
theorem exists_shows_of_withoutCleanup {args : List Value} {rs : List Reply} {k : Nat} {b : Bool}
    (h : (m.withoutCleanup.toOption.bind fun n =>
      (Machine.play {}).shows? k (.begin {} n args 0) rs).map Sight.returns = some b) :
    ∃ n, m.withoutCleanup = .ok n ∧ ∃ o, (Machine.play {}).Shows (.begin {} n args 0) rs o ∧
      o.returns = b := by
  obtain ⟨o, ho, hb⟩ := Option.map_eq_some_iff.1 h
  obtain ⟨n, hn, ho⟩ := Option.bind_eq_some_iff.1 ho
  refine ⟨n, ?_, o, ⟨k, ho⟩, hb⟩
  cases hw : m.withoutCleanup with
  | error d => simp [hw, Except.toOption] at hn
  | ok n' => simpa [hw, Except.toOption] using hn

/-- Of two runs one returns after the given replies and the other does not. -/
theorem exists_differs (args : List Value) (rs : List Reply) (i k : Nat) (b : Bool)
    (hm : ((Cleaning.play {}).shows? i (.begin {} m args 0) rs).map Sight.returns = some b)
    (hn : (m.withoutCleanup.toOption.bind fun n =>
      (Machine.play {}).shows? k (.begin {} n args 0) rs).map Sight.returns = some !b) :
    ∃ n, m.withoutCleanup = .ok n ∧ ∃ p s args depth rs o,
      (Cleaning.play p).Shows (.begin s m args depth) rs o ∧
        ¬ (Machine.play p).Shows (.begin s n args depth) rs o := by
  obtain ⟨o, ho, hb⟩ := Option.map_eq_some_iff.1 hm
  obtain ⟨n, hn, o', ho', hb'⟩ := exists_shows_of_withoutCleanup hn
  refine ⟨n, hn, {}, {}, args, 0, rs, o, ⟨i, ho⟩, fun hshows => ?_⟩
  rw [hshows.unique ho', hb'] at hb
  cases b <;> cases hb

/-- **The second body is lost** where the body of a later region ends in an earlier region: the
earlier region was expanded before the body was copied, and the copy does not lie in it. -/
theorem endsInside_differs :
    endsInside.Tidy ∧ endsInside.EndsInBodies ∧ ¬ endsInside.EndsInOrder ∧
      ∃ n, endsInside.withoutCleanup = .ok n ∧ ∃ p s args depth rs o,
        (Cleaning.play p).Shows (.begin s endsInside args depth) rs o ∧
          ¬ (Machine.play p).Shows (.begin s n args depth) rs o := by
  refine ⟨⟨?_, ?_, ?_, ?_, ?_⟩, by decide +kernel, by decide +kernel,
    exists_differs [.future 0] [⟨{}, .ok (.int 5)⟩, ⟨{}, .ok .null⟩] 20 20 false ?_ ?_⟩ <;>
  decide +kernel

/-- **The value is lost** where a handler goes on to the end of a body: the handler is not
copied. -/
theorem catchInside_differs :
    catchInside.Tidy ∧ ¬ catchInside.EndsInBodies ∧ catchInside.EndsInOrder ∧
      ∃ n, catchInside.withoutCleanup = .ok n ∧ ∃ p s args depth rs o,
        (Cleaning.play p).Shows (.begin s catchInside args depth) rs o ∧
          ¬ (Machine.play p).Shows (.begin s n args depth) rs o := by
  refine ⟨⟨?_, ?_, ?_, ?_, ?_⟩, by decide +kernel, by decide +kernel,
    exists_differs [] [⟨{}, .error (.throw .null)⟩] 20 20 true ?_ ?_⟩ <;>
  decide +kernel

end Resumable
