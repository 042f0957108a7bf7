/-
**The books of the outer futures.**

Every outer future that an entry makes is somewhere: with running code, with a dispatcher that is
parked, or settled.  The *books* say where, and that no future is at two places.  An event moves a
future from one place to the next.

Main results:

* `Machine.Books.enroll` — a new future gets into the books;
* `Machine.Books.settle`, `Machine.Books.park`, `Machine.Books.resume` — **a duty ends, waits, and
  is taken up again**;
* `Machine.Books.drop` — a duty that is not kept is lost when its code fails.
-/

import Resumable.Proofs.Accounts
import Resumable.Proofs.Marks

set_option autoImplicit false

namespace Resumable

theorem Store.Extends.lt_frames {s t : Store} (h : s.Extends t) {f : Nat} (hf : f < s.frames.size) :
    f < t.frames.size := by
  obtain ⟨slots, hslots, -⟩ := h.frames f _ (Array.getElem?_eq_getElem hf)
  exact (Array.getElem?_eq_some_iff.1 hslots).1

namespace Machine

/-- The outer futures of the dispatchers that are to be resumed. -/
def carried (m : Machine) : Multiset Nat := m.parked.filterMap m.store.outer?

variable {m m' : Machine}

theorem filterMap_outer? {s t : Store} (hst : s.Extends t) {fs : Multiset Nat}
    (hfs : ∀ f ∈ fs, f < s.frames.size) : fs.filterMap t.outer? = fs.filterMap s.outer? := by
  induction fs using Quotient.inductionOn with
  | h fs =>
    refine congrArg _ (List.filterMap_congr fun f hf => ?_)
    obtain ⟨outer, houter⟩ : ∃ outer, s.outer? f = some outer := by
      rw [Store.outer?, Array.getElem?_eq_getElem (hfs f hf)]
      exact ⟨_, rfl⟩
    rw [houter]
    exact hst.outer? houter

/-! ### The books -/

/-- **The books** of the outer futures.  Running code has the duty for those in `D`, and a duty
that is kept is not lost when the code fails; those of parked dispatchers wait; those in `A` have
been settled or adopt an outcome.  No future is in the books twice.  The dispatchers with the
frames in `F` have been resumed.  The futures in `K` stay in the books. -/
structure Books (K : Nat → Prop) (A F : Multiset Nat) (D : Multiset (Nat × Bool)) (m : Machine) :
    Prop where
  nodup : (D.map Prod.fst + m.carried + A).Nodup
  bound : ∀ o ∈ D.map Prod.fst + m.carried + A, o < m.store.promises.size
  unsettled : ∀ o ∈ D.map Prod.fst + m.carried, m.account o = 0
  settled : ∀ o ∈ A, m.account o = 1
  frames : (m.parked + F).Nodup
  made : ∀ f ∈ m.parked + F, f < m.store.frames.size
  named : ∀ o, (o, true) ∈ D ∨ o ∈ A → ∃ f, m.store.outer? f = some o
  secure : ∀ o, K o → (o, true) ∈ D ∨ o ∈ m.carried ∨ o ∈ A

namespace Books

variable {K : Nat → Prop} {A F : Multiset Nat} {D : Multiset (Nat × Bool)} {o f : Nat} {kept : Bool}
  {es : List Event}

theorem lt_of_secure (h : Books K A F D m) (ho : K o) : o < m.store.promises.size := by
  refine h.bound o ?_
  rcases h.secure o ho with ho | ho | ho
  · have hmem := Multiset.mem_map_of_mem Prod.fst ho
    exact Multiset.mem_add.2 (.inl (Multiset.mem_add.2 (.inl hmem)))
  · exact Multiset.mem_add.2 (.inl (Multiset.mem_add.2 (.inr ho)))
  · exact Multiset.mem_add.2 (.inr ho)

theorem secure_of_ne (h : Books K A F ((o, kept) ::ₘ D) m) {q : Nat} (hq : K q) (hqo : q ≠ o) :
    (q, true) ∈ D ∨ q ∈ m.carried ∨ q ∈ A :=
  (h.secure q hq).imp_left fun hmem =>
    (Multiset.mem_cons.1 hmem).resolve_left fun heq => hqo (congrArg Prod.fst heq)

theorem carried_eq (h : Books K A F D m) (hst : m.store.Extends m'.store)
    (hparked : m'.parked = m.parked) : m'.carried = m.carried := by
  rw [carried, hparked]
  exact filterMap_outer? hst fun f hf => h.made f (Multiset.mem_add.2 (.inl hf))

/-- **Events that leave the books as they are.** -/
theorem post (h : Books K A F D m) (hst : m.store.Extends m'.store) (hparked : m'.parked = m.parked)
    (haccount : ∀ q ∈ D.map Prod.fst + m.carried + A, m'.account q = m.account q) :
    Books K A F D m' := by
  have hcarried := h.carried_eq hst hparked
  constructor
  · rw [hcarried]
    exact h.nodup
  · rw [hcarried]
    exact fun q hq => Nat.lt_of_lt_of_le (h.bound q hq) hst.promises
  · rw [hcarried]
    exact fun q hq => (haccount q (Multiset.mem_add.2 (.inl hq))).trans (h.unsettled q hq)
  · exact fun q hq => (haccount q (Multiset.mem_add.2 (.inr hq))).trans (h.settled q hq)
  · rw [hparked]
    exact h.frames
  · rw [hparked]
    exact fun f hf => hst.lt_frames (h.made f hf)
  · exact fun q hq => (h.named q hq).imp fun _ => hst.outer?
  · rw [hcarried]
    exact h.secure

/-- A duty that is not kept is lost. -/
theorem drop (h : Books K A F ((o, false) ::ₘ D) m) : Books K A F D m := by
  have hle : D.map Prod.fst ≤ ((o, false) ::ₘ D).map Prod.fst :=
    Multiset.map_le_map (Multiset.le_cons_self D _)
  have hkept : ∀ {q : Nat}, (q, true) ∈ (o, false) ::ₘ D ↔ (q, true) ∈ D := by simp
  constructor
  · exact Multiset.nodup_of_le (by gcongr) h.nodup
  · exact fun q hq => h.bound q (Multiset.mem_of_le (by gcongr) hq)
  · exact fun q hq => h.unsettled q (Multiset.mem_of_le (by gcongr) hq)
  · exact h.settled
  · exact h.frames
  · exact h.made
  · exact fun q hq => h.named q (hq.imp_left hkept.2)
  · exact fun q hq => (h.secure q hq).imp_left hkept.1

/-- A new future gets into the books. -/
theorem enroll (h : Books K A F D m) (hnew : o ∉ D.map Prod.fst + m.carried + A)
    (ho : o < m.store.promises.size) (haccount : m.account o = 0) :
    Books K A F ((o, false) ::ₘ D) m := by
  have hkept : ∀ {q : Nat}, (q, true) ∈ (o, false) ::ₘ D ↔ (q, true) ∈ D := by simp
  constructor
  · simp only [Multiset.map_cons, Multiset.cons_add]
    exact Multiset.nodup_cons.2 ⟨hnew, h.nodup⟩
  · simp only [Multiset.map_cons, Multiset.cons_add]
    exact Multiset.forall_mem_cons.2 ⟨ho, h.bound⟩
  · simp only [Multiset.map_cons, Multiset.cons_add]
    exact Multiset.forall_mem_cons.2 ⟨haccount, h.unsettled⟩
  · exact h.settled
  · exact h.frames
  · exact h.made
  · exact fun q hq => h.named q (hq.imp_left hkept.1)
  · exact fun q hq => (h.secure q hq).imp_left hkept.2

/-- **A duty ends**: the future is settled, or adopts an outcome. -/
theorem settle (h : Books K A F ((o, kept) ::ₘ D) m) (hst : m.store.Extends m'.store)
    (hparked : m'.parked = m.parked) (haccount : ∀ q, m'.account q = m.account q + [o].count q)
    (hf : ∃ f, m.store.outer? f = some o) :
    Books (fun q => K q ∨ q = o) (o ::ₘ A) F D m' := by
  have hcarried := h.carried_eq hst hparked
  have hmoved : D.map Prod.fst + m.carried + o ::ₘ A =
      ((o, kept) ::ₘ D).map Prod.fst + m.carried + A := by
    simp only [Multiset.map_cons, Multiset.cons_add, Multiset.add_cons]
  have hnew : o ∉ D.map Prod.fst + m.carried + A := by
    have := h.nodup
    simp only [Multiset.map_cons, Multiset.cons_add] at this
    exact (Multiset.nodup_cons.1 this).1
  have hsame : ∀ q ∈ D.map Prod.fst + m.carried + A, m'.account q = m.account q := by
    intro q hq
    rw [haccount, List.count_eq_zero_of_not_mem]
    · rfl
    · rintro (_ | ⟨_, ⟨⟩⟩)
      exact hnew hq
  constructor
  · rw [hcarried, hmoved]
    exact h.nodup
  · rw [hcarried, hmoved]
    exact fun q hq => Nat.lt_of_lt_of_le (h.bound q hq) hst.promises
  · rw [hcarried]
    intro q hq
    rw [hsame q (Multiset.mem_add.2 (.inl hq))]
    refine h.unsettled q ?_
    simp only [Multiset.map_cons, Multiset.cons_add]
    exact Multiset.mem_cons_of_mem hq
  · refine Multiset.forall_mem_cons.2 ⟨?_, fun q hq => ?_⟩
    · rw [haccount, h.unsettled o (by simp)]
      simp
    · rw [hsame q (Multiset.mem_add.2 (.inr hq))]
      exact h.settled q hq
  · rw [hparked]
    exact h.frames
  · rw [hparked]
    exact fun f hf => hst.lt_frames (h.made f hf)
  · intro q hq
    have hbefore : ∃ f, m.store.outer? f = some q := by
      rcases hq with hq | hq
      · exact h.named q (.inl (Multiset.mem_cons_of_mem hq))
      · rcases Multiset.mem_cons.1 hq with rfl | hq
        · exact hf
        · exact h.named q (.inr hq)
    exact hbefore.imp fun _ => hst.outer?
  · rw [hcarried]
    intro q hq
    by_cases hqo : q = o
    · exact .inr (.inr (hqo ▸ Multiset.mem_cons_self q A))
    · rcases h.secure_of_ne (hq.resolve_right hqo) hqo with hq | hq | hq
      · exact .inl hq
      · exact .inr (.inl hq)
      · exact .inr (.inr (Multiset.mem_cons_of_mem hq))

/-- **A duty waits**: the dispatcher is parked with a new frame. -/
theorem park (h : Books K A F ((o, kept) ::ₘ D) m) (hst : m.store.Extends m'.store)
    (hparked : m'.parked = f ::ₘ m.parked) (haccount : ∀ q, m'.account q = m.account q)
    (hf : m.store.outer? f = some o) (hnew : f ∉ m.parked + F) :
    Books (fun q => K q ∨ q = o) A F D m' := by
  have hcarried : m'.carried = o ::ₘ m.carried := by
    rw [carried, hparked, Multiset.filterMap_cons_some _ _ _ (hst.outer? hf)]
    rw [filterMap_outer? hst fun f hf => h.made f (Multiset.mem_add.2 (.inl hf))]
    rfl
  have hmoved :
      D.map Prod.fst + (o ::ₘ m.carried) = ((o, kept) ::ₘ D).map Prod.fst + m.carried := by
    simp only [Multiset.map_cons, Multiset.cons_add, Multiset.add_cons]
  constructor
  · rw [hcarried, hmoved]
    exact h.nodup
  · rw [hcarried, hmoved]
    exact fun q hq => Nat.lt_of_lt_of_le (h.bound q hq) hst.promises
  · rw [hcarried, hmoved]
    exact fun q hq => (haccount q).trans (h.unsettled q hq)
  · exact fun q hq => (haccount q).trans (h.settled q hq)
  · rw [hparked, Multiset.cons_add]
    exact Multiset.nodup_cons.2 ⟨hnew, h.frames⟩
  · rw [hparked, Multiset.cons_add]
    refine Multiset.forall_mem_cons.2 ⟨hst.lt_frames ?_, fun k hk => hst.lt_frames (h.made k hk)⟩
    obtain ⟨frame, hframe, -⟩ := Option.map_eq_some_iff.1 hf
    exact (Array.getElem?_eq_some_iff.1 hframe).1
  · exact fun q hq =>
      (h.named q (hq.imp_left Multiset.mem_cons_of_mem)).imp fun _ => hst.outer?
  · rw [hcarried]
    intro q hq
    by_cases hqo : q = o
    · exact .inr (.inl (hqo ▸ Multiset.mem_cons_self q _))
    · rcases h.secure_of_ne (hq.resolve_right hqo) hqo with hq | hq | hq
      · exact .inl hq
      · exact .inr (.inl (Multiset.mem_cons_of_mem hq))
      · exact .inr (.inr hq)

/-- **A parked dispatcher is resumed**, and has the duty again. -/
theorem resume (h : Books K A F D m) (hst : m.store.Extends m'.store)
    (hparked : m.parked = f ::ₘ m'.parked) (haccount : ∀ q, m'.account q = m.account q)
    (hf : m.store.outer? f = some o) : Books K A (f ::ₘ F) ((o, true) ::ₘ D) m' := by
  have hcarried : m.carried = o ::ₘ m'.carried := by
    rw [carried, hparked, Multiset.filterMap_cons_some _ _ _ hf, carried]
    refine congrArg _ (filterMap_outer? hst fun k hk => h.made k ?_).symm
    rw [hparked]
    exact Multiset.mem_add.2 (.inl (Multiset.mem_cons_of_mem hk))
  have hmoved : ((o, true) ::ₘ D).map Prod.fst + m'.carried = D.map Prod.fst + m.carried := by
    rw [hcarried]
    simp only [Multiset.map_cons, Multiset.cons_add, Multiset.add_cons]
  have hframes : m'.parked + f ::ₘ F = m.parked + F := by
    rw [hparked]
    simp only [Multiset.cons_add, Multiset.add_cons]
  constructor
  · rw [hmoved]
    exact h.nodup
  · rw [hmoved]
    exact fun q hq => Nat.lt_of_lt_of_le (h.bound q hq) hst.promises
  · rw [hmoved]
    exact fun q hq => (haccount q).trans (h.unsettled q hq)
  · exact fun q hq => (haccount q).trans (h.settled q hq)
  · rw [hframes]
    exact h.frames
  · rw [hframes]
    exact fun k hk => hst.lt_frames (h.made k hk)
  · intro q hq
    have hbefore : ∃ k, m.store.outer? k = some q := by
      rcases hq with hq | hq
      · rcases Multiset.mem_cons.1 hq with heq | hq
        · cases heq
          exact ⟨f, hf⟩
        · exact h.named q (.inl hq)
      · exact h.named q (.inr hq)
    exact hbefore.imp fun _ => hst.outer?
  · intro q hq
    rcases h.secure q hq with hq | hq | hq
    · exact .inl (Multiset.mem_cons_of_mem hq)
    · rw [hcarried] at hq
      rcases Multiset.mem_cons.1 hq with rfl | hq
      · exact .inl (Multiset.mem_cons_self _ D)
      · exact .inr (.inl hq)
    · exact .inr (.inr hq)

end Books

end Machine

end Resumable
