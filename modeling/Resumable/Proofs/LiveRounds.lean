/-
**Live locals by rounds.**

The analysis of locals can also be done without a search: a table has a set of locals for each node,
at first empty, and rounds over all nodes bring the entries up to date from each other, in place,
until a round changes nothing.  The table for live locals goes backwards through each node, the one
for defined locals goes forwards and passes on what it finds to the next nodes.

Entries only grow, because each of them is below what the others say it should be and stays so; and
there is no more than the locals of the method to add, so the rounds come to an end.  All that time
the entries come from paths, and at the end the table contains all that follows from it, so that it
has all paths.  So the rounds end with what the searches find, and both are exact.

Main results:

* `Grows.settles` — **rounds that grow come to an end**;
* `Graph.exists_settles_live`, `Graph.exists_settles_defined` — the rounds end with the paths;
* `Liveness.exact_of_balance` — **the analysis of locals is exact**.
-/

import Mathlib.Algebra.GroupWithZero.Nat
import Mathlib.Algebra.Order.BigOperators.Group.List
import Mathlib.Algebra.Order.Group.Nat
import Mathlib.Data.List.Perm.Subperm
import Mathlib.Logic.Function.Basic
import Resumable.Proofs.LevelPaths
import Resumable.Proofs.LivePaths
import Resumable.Proofs.Segments

set_option autoImplicit false

namespace Resumable

open Relation List

/-! ### Rounds -/

section Rounds

variable {σ : Type}

/-- One round: visits the members of a list one after the other, and says whether some visit changed
anything. -/
def sweep (visit : Nat → σ → σ × Bool) : List Nat → σ → σ × Bool
  | [], s => (s, false)
  | n :: ns, s =>
    let first := visit n s
    let rest := sweep visit ns first.1
    (rest.1, first.2 || rest.2)

/-- **Rounds until one changes nothing.** -/
inductive Settles (round : σ → σ × Bool) : σ → σ → Prop where
  | last {s : σ} : (round s).2 = false → Settles round s (round s).1
  | again {s t : σ} : (round s).2 = true → Settles round (round s).1 t → Settles round s t

/-- A visit keeps an invariant, does nothing or says so, and then has made something larger. -/
structure Grows (visit : σ → σ × Bool) (I : σ → Prop) (size : σ → Nat) : Prop where
  keeps : ∀ s, I s → I (visit s).1
  same : ∀ s, (visit s).2 = false → (visit s).1 = s
  more : ∀ s, I s → (visit s).2 = true → size s < size (visit s).1

variable {visit : Nat → σ → σ × Bool} {round : σ → σ × Bool} {I : σ → Prop} {size : σ → Nat}
  {ns : List Nat} {s : σ}

theorem Grows.le (h : Grows round I size) (hs : I s) : size s ≤ size (round s).1 := by
  cases hc : (round s).2 with
  | false => rw [h.same s hc]
  | true => exact Nat.le_of_lt (h.more s hs hc)

/-- In a round that changes nothing, no visit changes anything. -/
theorem sweep_same (hsame : ∀ n ∈ ns, ∀ s, (visit n s).2 = false → (visit n s).1 = s)
    (h : (sweep visit ns s).2 = false) :
    (sweep visit ns s).1 = s ∧ ∀ n ∈ ns, (visit n s).2 = false := by
  induction ns with
  | nil => exact ⟨rfl, by simp⟩
  | cons n ns ih =>
    obtain ⟨hone, hall⟩ := Bool.or_eq_false_iff.1 h
    have hfirst := hsame n (by simp) s hone
    rw [hfirst] at hall
    obtain ⟨hrest, hvisits⟩ := ih (fun k hk => hsame k (mem_cons_of_mem _ hk)) hall
    refine ⟨?_, forall_mem_cons.2 ⟨hone, hvisits⟩⟩
    simp only [sweep, hfirst, hrest]

/-- **A round grows** if its visits do. -/
theorem Grows.sweep (h : ∀ n ∈ ns, Grows (visit n) I size) : Grows (sweep visit ns) I size := by
  induction ns with
  | nil => exact ⟨fun _ hs => hs, fun _ _ => rfl, nofun⟩
  | cons n ns ih =>
    have hfirst := h n (by simp)
    have hrest := ih fun k hk => h k (mem_cons_of_mem _ hk)
    refine ⟨fun s hs => hrest.keeps _ (hfirst.keeps s hs),
      fun s hs => (sweep_same (fun k hk => (h k hk).same) hs).1, fun s hs hmore => ?_⟩
    have hkept := hfirst.keeps s hs
    rcases Bool.or_eq_true_iff.1 hmore with hone | hall
    · exact Nat.lt_of_lt_of_le (hfirst.more s hs hone) (hrest.le hkept)
    · exact Nat.lt_of_le_of_lt (hfirst.le hs) (hrest.more _ hkept hall)

/-- **Rounds that grow come to an end** if there is a bound, and then nothing changes any more. -/
theorem Grows.settles (h : Grows round I size) (bound : Nat) (hbound : ∀ s, I s → size s ≤ bound)
    (hs : I s) : ∃ t, Settles round s t ∧ I t ∧ (round t).2 = false := by
  induction hd : bound - size s using Nat.strongRecOn generalizing s with
  | _ d ih =>
    subst hd
    cases hc : (round s).2 with
    | false => exact ⟨(round s).1, .last hc, h.keeps s hs, by rw [h.same s hc, hc]⟩
    | true =>
      have hmore := h.more s hs hc
      have hkept := h.keeps s hs
      have hle := hbound _ hkept
      obtain ⟨t, ht, hrest⟩ := ih (bound - size (round s).1) (by omega) hkept rfl
      exact ⟨t, .again hc ht, hrest⟩

end Rounds

/-! ### Entries that grow -/

theorem IdSet.size_le_of_subset {s t : IdSet} (h : ∀ x ∈ s, x ∈ t) : s.size ≤ t.size :=
  (subperm_of_subset (s.ascending.imp Nat.ne_of_lt) h).length_le

theorem IdSet.size_lt_of_subset {s t : IdSet} (h : ∀ x ∈ s, x ∈ t) (hne : t ≠ s) :
    s.size < t.size := by
  refine Nat.lt_of_le_of_ne (size_le_of_subset h) fun hsize => hne ?_
  have hsub := subperm_of_subset (s.ascending.imp Nat.ne_of_lt) h
  have hperm := hsub.perm_of_length_le (Nat.le_of_eq hsize.symm)
  exact IdSet.ext fun x => (hperm.mem_iff (a := x)).symm

namespace Table

variable {t : Table} {n : Nat} {s : IdSet} {ns : List Nat}

/-- Makes the set the entry of a node, and says whether it was not. -/
def put (t : Table) (n : Nat) (s : IdSet) : Table × Bool :=
  if s = t n then (t, false) else (Function.update t n s, true)

/-- The number of locals in the entries of some nodes. -/
def size (ns : List Nat) (t : Table) : Nat := (ns.map fun n => (t n).size).sum

theorem put_apply (k : Nat) : (t.put n s).1 k = if k = n then s else t k := by
  unfold put
  split
  · rename_i h
    split
    · rename_i hk
      rw [hk, h]
    · rfl
  · simp [Function.update_apply]

theorem put_same (h : (t.put n s).2 = false) : (t.put n s).1 = t ∧ s = t n := by
  unfold put at h ⊢
  split at h
  · rename_i hs
    exact ⟨by rw [if_pos hs], hs⟩
  · cases h

theorem put_more (hsub : ∀ l ∈ t n, l ∈ s) (hn : n ∈ ns) (h : (t.put n s).2 = true) :
    t.size ns < (t.put n s).1.size ns := by
  have hne : s ≠ t n := by
    rintro hs
    simp [put, hs] at h
  have hlt := IdSet.size_lt_of_subset hsub hne
  refine sum_lt_sum _ _ (fun k _ => ?_) ⟨n, hn, by simpa [put_apply] using hlt⟩
  rw [put_apply]
  split
  · rename_i hk
    rw [hk]
    exact Nat.le_of_lt hlt
  · exact Nat.le_refl _

theorem put_le (hsub : ∀ l ∈ t n, l ∈ s) (hn : n ∈ ns) : t.size ns ≤ (t.put n s).1.size ns := by
  cases h : (t.put n s).2 with
  | false => rw [(put_same h).1]
  | true => exact Nat.le_of_lt (put_more hsub hn h)

theorem size_le {u : IdSet} (h : ∀ n l, l ∈ t n → l ∈ u) (ns : List Nat) :
    t.size ns ≤ ns.length * u.size := by
  have hle := sum_le_card_nsmul (ns.map fun n => (t n).size) u.size fun k hk => by
    obtain ⟨n, -, rfl⟩ := mem_map.1 hk
    exact IdSet.size_le_of_subset (h n)
  simpa [size] using hle

end Table

/-! ### Live locals by rounds -/

namespace Graph

variable {g : Graph} {r : IdSet} {l n : Nat}

/-- One round over the nodes of a set, the last one first: the entry of a node is what is live at
its start by the other entries. -/
def liveRound (g : Graph) (r : IdSet) : Table → Table × Bool :=
  sweep (fun n t => t.put n (g.liveAt t ⟨n, 0⟩)) r.toList.reverse

/-- What is live grows with the entries. -/
theorem liveAt_mono {t t' : Table} (h : ∀ n l, l ∈ t n → l ∈ t' n) {s : Site}
    (hl : l ∈ g.liveAt t s) : l ∈ g.liveAt t' s := by
  obtain ⟨n, k⟩ := s
  cases hnode : g.node? n with
  | none => simp [liveAt, hnode] at hl
  | some node =>
    rw [liveAt_eq hnode] at hl ⊢
    generalize node.instrs.drop k = is at hl ⊢
    induction is with
    | nil =>
      obtain ⟨q, hq, hin⟩ := mem_liveBefore_nil.1 hl
      exact mem_liveBefore_nil.2 ⟨q, hq, h q l hin⟩
    | cons i is ih =>
      refine mem_liveBefore_cons.2 ((mem_liveBefore_cons.1 hl).imp_right (Or.imp ?_ ?_))
      · rintro ⟨hmay, q, hq, hin⟩
        exact ⟨hmay, q, hq, h q l hin⟩
      · rintro ⟨hd, hin⟩
        exact ⟨hd, ih hin⟩

/-- **What the rounds keep**: the entries come from paths, and would only grow. -/
structure LiveSoFar (g : Graph) (r : IdSet) (t : Table) : Prop where
  used : ∀ n l, l ∈ t n → n ∈ r ∧ g.UsedFrom r l ⟨n, 0⟩
  grows : ∀ n l, l ∈ t n → l ∈ g.liveAt t ⟨n, 0⟩

theorem liveSoFar_empty : g.LiveSoFar r fun _ => ∅ := ⟨by simp, by simp⟩

theorem LiveSoFar.put {t : Table} (h : g.LiveSoFar r t) (hn : n ∈ r) :
    g.LiveSoFar r (t.put n (g.liveAt t ⟨n, 0⟩)).1 := by
  have hmono : ∀ k l, l ∈ t k → l ∈ (t.put n (g.liveAt t ⟨n, 0⟩)).1 k := by
    intro k l hl
    rw [Table.put_apply]
    split
    · rename_i hk
      exact hk ▸ h.grows k l hl
    · exact hl
  refine ⟨fun k l hl => ?_, fun k l hl => ?_⟩
  · rw [Table.put_apply] at hl
    split at hl
    · rename_i hk
      subst hk
      cases hnode : g.node? k with
      | none => simp [liveAt, hnode] at hl
      | some node => exact ⟨hn, usedFrom_of_mem_liveAt h.used hnode (Nat.zero_le _) hl⟩
    · exact h.used k l hl
  · rw [Table.put_apply] at hl
    split at hl
    · rename_i hk
      exact hk ▸ liveAt_mono hmono hl
    · exact liveAt_mono hmono (h.grows k l hl)

theorem grows_liveRound : Grows (g.liveRound r) (g.LiveSoFar r) (Table.size r.toList) := by
  refine .sweep fun n hn => ?_
  have hn : n ∈ r := mem_reverse.1 hn
  exact ⟨fun t ht => ht.put hn, fun t hsame => (Table.put_same hsame).1,
    fun t ht hmore => Table.put_more (ht.grows n) hn hmore⟩

theorem UsedFrom.mem_used {s : Site} (h : g.UsedFrom r l s) :
    l ∈ IdSet.ofList (g.nodes.flatMap Node.used) := by
  obtain ⟨t, node, i, -, hnode, hi, hu⟩ := h
  refine IdSet.mem_ofList.2 (mem_flatMap.2 ⟨node, mem_of_node? hnode, ?_⟩)
  exact mem_filterMap.2 ⟨i, mem_of_getElem? hi, hu⟩

/-- **The rounds for live locals come to an end, with exactly the paths.** -/
theorem exists_settles_live :
    ∃ t, Settles (g.liveRound r) (fun _ => ∅) t ∧
      ∀ n l, l ∈ t n ↔ n ∈ r ∧ g.UsedFrom r l ⟨n, 0⟩ := by
  obtain ⟨t, ht, hsofar, hquiet⟩ := grows_liveRound.settles _
    (fun t ht => Table.size_le (fun n l hl => (ht.used n l hl).2.mem_used) _)
    (liveSoFar_empty (g := g) (r := r))
  have hclosed : ∀ n ∈ r, ∀ l ∈ g.liveAt t ⟨n, 0⟩, l ∈ t n := by
    intro n hn l hl
    have hvisit := (sweep_same (fun _ _ _ h => (Table.put_same h).1) hquiet).2 n
      (mem_reverse.2 hn)
    exact (Table.put_same hvisit).2 ▸ hl
  exact ⟨t, ht, fun n l => ⟨hsofar.used n l, fun ⟨hn, hused⟩ => mem_of_usedFrom hclosed hn hused⟩⟩

end Graph

/-! ### Defined locals by rounds -/

/-- The locals that may be defined at the start and at the end of each node. -/
structure DefinedTables where
  before : Table
  after : Table

namespace Graph

variable {g : Graph} {r : IdSet} {params : List Nat} {l n q : Nat}

/-- The locals that a node stores. -/
def storedIn (g : Graph) (n : Nat) : List Nat := ((g.node? n).map Node.stored).getD []

theorem mem_storedIn :
    l ∈ g.storedIn n ↔ ∃ node, g.node? n = some node ∧ l ∈ node.stored := by
  unfold storedIn
  cases g.node? n <;> simp

/-- What may be defined at the end of a node, by what may be at its start. -/
def definedThrough (g : Graph) (n : Nat) (s : DefinedTables) : IdSet :=
  (s.before n).insertMany (g.storedIn n)

/-- Passes locals on to the nodes that control can go to. -/
def pass (g : Graph) (n : Nat) (out : IdSet) : Table → Table × Bool :=
  sweep (fun q t => t.put q ((t q).union out)) (g.next n)

/-- Takes what may be defined at the start of a node through it, and on to where control can go. -/
def definedVisit (g : Graph) (n : Nat) (s : DefinedTables) : DefinedTables × Bool :=
  let out := g.definedThrough n s
  let before := g.pass n out s.before
  let after := s.after.put n out
  (⟨before.1, after.1⟩, before.2 || after.2)

/-- One round over the nodes of a set, in order. -/
def definedRound (g : Graph) (r : IdSet) : DefinedTables → DefinedTables × Bool :=
  sweep g.definedVisit r.toList

/-- At first only the parameters are defined, at the entry. -/
def definedFirst (g : Graph) (params : List Nat) : DefinedTables :=
  ⟨Function.update (fun _ => ∅) g.entry (IdSet.ofList params), fun _ => ∅⟩

/-- Some path that comes to the node stores the local, unless it is a parameter; nodes outside the
set have no paths. -/
def MayBeDefined (g : Graph) (r : IdSet) (params : List Nat) (l n : Nat) : Prop :=
  l ∈ params ∨ ∃ p ∈ r, l ∈ g.storedIn p ∧ (n ∈ r → ReflTransGen (g.NextIn r) p n)

theorem MayBeDefined.next (h : g.MayBeDefined r params l n) (hn : n ∈ r) (hq : q ∈ g.next n) :
    g.MayBeDefined r params l q := by
  rcases h with hparam | ⟨p, hp, hstored, hpath⟩
  · exact .inl hparam
  · exact .inr ⟨p, hp, hstored, fun hr => (hpath hn).tail ⟨hq, hr⟩⟩

/-- **What the rounds keep**: the parameters are defined at the entry, the entries come from paths,
and what is defined at the end of a node is defined at its start or stored in it. -/
structure DefinedSoFar (g : Graph) (r : IdSet) (params : List Nat) (s : DefinedTables) : Prop where
  entry : ∀ l ∈ params, l ∈ s.before g.entry
  before : ∀ n l, l ∈ s.before n → g.MayBeDefined r params l n
  after : ∀ n l, l ∈ s.after n → g.MayBeDefined r params l n
  grows : ∀ n l, l ∈ s.after n → l ∈ g.definedThrough n s

theorem definedSoFar_first : g.DefinedSoFar r params (g.definedFirst params) := by
  refine ⟨fun l hl => by simpa [definedFirst] using hl, fun n l hl => ?_, by simp [definedFirst],
    by simp [definedFirst]⟩
  simp only [definedFirst, Function.update_apply] at hl
  split at hl
  · exact .inl (IdSet.mem_ofList.1 hl)
  · simp at hl

variable {s : DefinedTables}

theorem mem_definedThrough :
    l ∈ g.definedThrough n s ↔ l ∈ g.storedIn n ∨ l ∈ s.before n := IdSet.mem_insertMany

theorem DefinedSoFar.through (h : g.DefinedSoFar r params s) (hn : n ∈ r)
    (hl : l ∈ g.definedThrough n s) : g.MayBeDefined r params l n := by
  rcases mem_definedThrough.1 hl with hstored | hbefore
  · exact .inr ⟨n, hn, hstored, fun _ => .refl⟩
  · exact h.before n l hbefore

/-- Passing locals on drops nothing from the entries, and adds what comes from paths. -/
theorem grows_pass (hnext : ∀ n q, q ∈ g.next n → q < g.size) (old : Table) {out : IdSet}
    (hout : ∀ l ∈ out, ∀ q ∈ g.next n, g.MayBeDefined r params l q) :
    Grows (g.pass n out)
      (fun t => (∀ q l, l ∈ old q → l ∈ t q) ∧ ∀ q l, l ∈ t q → g.MayBeDefined r params l q)
      (Table.size (range g.size)) := by
  refine .sweep fun q hq => ⟨fun t ⟨hold, ht⟩ => ⟨fun k l hl => ?_, fun k l hl => ?_⟩,
    fun t hsame => (Table.put_same hsame).1, fun t _ hmore => ?_⟩
  · have hl := hold k l hl
    rw [Table.put_apply]
    split
    · rename_i hk
      exact IdSet.mem_union.2 (.inl (hk ▸ hl))
    · exact hl
  · rw [Table.put_apply] at hl
    split at hl
    · rename_i hk
      subst hk
      exact (IdSet.mem_union.1 hl).elim (ht k l) fun hl => hout l hl k hq
    · exact ht k l hl
  · exact Table.put_more (fun l hl => IdSet.mem_union.2 (.inl hl))
      (mem_range.2 (hnext n q hq)) hmore

/-- The number of locals in both tables. -/
def definedSize (g : Graph) (s : DefinedTables) : Nat :=
  s.before.size (range g.size) + s.after.size (range g.size)

theorem definedVisit_same (h : (g.definedVisit n s).2 = false) :
    (g.definedVisit n s).1 = s ∧ g.definedThrough n s = s.after n ∧
      ∀ q ∈ g.next n, ∀ l ∈ g.definedThrough n s, l ∈ s.before q := by
  obtain ⟨hbefore, hafter⟩ := Bool.or_eq_false_iff.1 h
  obtain ⟨hsame, hput⟩ := sweep_same (fun _ _ _ h => (Table.put_same h).1) hbefore
  obtain ⟨hsame', hthrough⟩ := Table.put_same hafter
  refine ⟨congrArg₂ DefinedTables.mk hsame hsame', hthrough, fun q hq l hl => ?_⟩
  rw [← (Table.put_same (hput q hq)).2]
  exact IdSet.mem_union.2 (.inr hl)

theorem grows_definedVisit (hnext : ∀ n q, q ∈ g.next n → q < g.size) (hn : n ∈ r)
    (hlt : n < g.size) :
    Grows (g.definedVisit n) (g.DefinedSoFar r params) g.definedSize := by
  have hpass (s : DefinedTables) (hs : g.DefinedSoFar r params s) :
      Grows (g.pass n (g.definedThrough n s)) _ _ :=
    grows_pass hnext s.before fun l hl q hq => (hs.through hn hl).next hn hq
  have hfirst (s : DefinedTables) (hs : g.DefinedSoFar r params s) :
      (∀ q l, l ∈ s.before q → l ∈ s.before q) ∧
        ∀ q l, l ∈ s.before q → g.MayBeDefined r params l q := ⟨fun _ _ hl => hl, hs.before⟩
  refine ⟨fun s hs => ?_, fun s hsame => (definedVisit_same hsame).1, fun s hs hmore => ?_⟩
  · obtain ⟨hold, hbefore⟩ := (hpass s hs).keeps _ (hfirst s hs)
    have hafter : ∀ k l, l ∈ (g.definedVisit n s).1.after k →
        g.MayBeDefined r params l k ∧ l ∈ g.definedThrough k s := by
      intro k l hl
      rw [show (g.definedVisit n s).1.after = (s.after.put n (g.definedThrough n s)).1 from rfl,
        Table.put_apply] at hl
      split at hl
      · rename_i hk
        subst hk
        exact ⟨hs.through hn hl, hl⟩
      · exact ⟨hs.after k l hl, hs.grows k l hl⟩
    refine ⟨fun l hl => hold _ l (hs.entry l hl), hbefore, fun k l hl => (hafter k l hl).1,
      fun k l hl => ?_⟩
    exact mem_definedThrough.2 ((mem_definedThrough.1 (hafter k l hl).2).imp_right (hold k l))
  · have hin : n ∈ range g.size := mem_range.2 hlt
    rcases Bool.or_eq_true_iff.1 hmore with hmore | hmore
    · exact Nat.add_lt_add_of_lt_of_le ((hpass s hs).more _ (hfirst s hs) hmore)
        (Table.put_le (hs.grows n) hin)
    · exact Nat.add_lt_add_of_le_of_lt ((hpass s hs).le (hfirst s hs))
        (Table.put_more (hs.grows n) hin hmore)

theorem MayBeDefined.mem_stored (h : g.MayBeDefined r params l n) :
    l ∈ IdSet.ofList (params ++ g.nodes.flatMap Node.stored) := by
  rw [IdSet.mem_ofList, mem_append, mem_flatMap]
  refine h.imp_right ?_
  rintro ⟨p, -, hstored, -⟩
  obtain ⟨node, hnode, hl⟩ := mem_storedIn.1 hstored
  exact ⟨node, mem_of_node? hnode, hl⟩

/-- **The rounds for defined locals come to an end, with exactly the paths.** -/
theorem exists_settles_defined (hnext : ∀ n q, q ∈ g.next n → q < g.size) (hflow : g.FlowSet r) :
    ∃ s, Settles (g.definedRound r) (g.definedFirst params) s ∧
      ∀ n ∈ r, ∀ l, l ∈ s.after n ↔ l ∈ params ∨ g.StoredUpTo r l n := by
  have hgrows : Grows (g.definedRound r) (g.DefinedSoFar r params) g.definedSize :=
    .sweep fun n hn => grows_definedVisit hnext hn (hflow.bound n hn)
  obtain ⟨s, hs, hsofar, hquiet⟩ := hgrows.settles _
    (fun s hs => Nat.add_le_add
      (Table.size_le (fun n l hl => (hs.before n l hl).mem_stored) _)
      (Table.size_le (fun n l hl => (hs.after n l hl).mem_stored) _))
    definedSoFar_first
  have hvisit : ∀ n ∈ r, g.definedThrough n s = s.after n ∧
      ∀ q ∈ g.next n, ∀ l ∈ g.definedThrough n s, l ∈ s.before q := fun n hn =>
    (definedVisit_same ((sweep_same (fun _ _ _ h => (definedVisit_same h).1) hquiet).2 n hn)).2
  -- what may be defined at one node may be at every node that paths lead to from there
  have halong : ∀ l p n, p ∈ r → ReflTransGen (g.NextIn r) p n → l ∈ s.after p → l ∈ s.after n := by
    intro l p n hp hpath hl
    induction hpath with
    | refl => exact hl
    | tail hpath hstep ih =>
      obtain ⟨hthrough, hpass⟩ := hvisit _ (mem_of_nextIn hp hpath)
      rw [← (hvisit _ hstep.2).1]
      exact mem_definedThrough.2 (.inr (hpass _ hstep.1 l (hthrough ▸ ih)))
  refine ⟨s, hs, fun n hn l => ⟨fun hl => ?_, ?_⟩⟩
  · refine (hsofar.after n l hl).imp_right ?_
    rintro ⟨p, hp, hstored, hpath⟩
    obtain ⟨node, hnode, hl⟩ := mem_storedIn.1 hstored
    exact ⟨p, node, hflow.path_nextIn hp, hpath hn, hnode, hl⟩
  · rintro (hparam | ⟨p, node, hfirst, hpath, hnode, hl⟩)
    · refine halong l g.entry n hflow.entry (hflow.path_nextIn hn) ?_
      rw [← (hvisit _ hflow.entry).1]
      exact mem_definedThrough.2 (.inr (hsofar.entry l hparam))
    · have hp := mem_of_nextIn hflow.entry hfirst
      refine halong l p n hp hpath ?_
      rw [← (hvisit p hp).1]
      exact mem_definedThrough.2 (.inl (mem_storedIn.2 ⟨node, hnode, hl⟩))

end Graph

/-! ### Exactness -/

/-- **The analysis of locals is exact**, in the part `r` of a graph.  The rounds for live and for
defined locals come to an end with what the searches find; a local is live at the start of a node
exactly if some path from there uses it before it stores it, and may be defined at the end of a node
exactly if it is a parameter or stored on some path from the entry; and the locals saved at a
suspension are those that some path after it uses and that may be defined there. -/
structure Liveness.Exact (a : Liveness) (g : Graph) (m : Method) (r : IdSet) : Prop where
  live : ∃ t, Settles (g.liveRound r) (fun _ => ∅) t ∧ ∀ n, t n = a.liveIn n
  defined : ∃ s, Settles (g.definedRound r) (g.definedFirst a.params) s ∧
    ∀ n ∈ r, s.after n = a.definedOut g r n
  used : ∀ n ∈ r, ∀ l, l ∈ a.liveIn n ↔ g.UsedFrom r l ⟨n, 0⟩
  empty : ∀ n, n ∉ r → a.liveIn n = ∅
  stored : ∀ n ∈ r, ∀ l, l ∈ a.definedOut g r n ↔ l ∈ a.params ∨ g.StoredUpTo r l n
  saved : ∀ p ∈ g.suspensions m r a, ∀ l, l ∈ p.live.map (·.1) ↔
    (∃ q ∈ r, (q = p.resume ∨ q ∈ g.handlers p.resume) ∧ g.UsedFrom r l ⟨q, 0⟩) ∧
      (l ∈ a.params ∨ g.StoredUpTo r l p.node)

/-- The locals saved at a suspension, by paths. -/
theorem Liveness.mem_saved_iff {g : Graph} {m : Method} {r : IdSet} {params : List Nat}
    {p : Suspension} (hnext : ∀ n q, q ∈ g.next n → q < g.size) (hflow : g.FlowSet r)
    (hp : p ∈ g.suspensions m r (g.liveness r params)) (l : Nat) :
    l ∈ p.live.map (·.1) ↔
      (∃ q ∈ r, (q = p.resume ∨ q ∈ g.handlers p.resume) ∧ g.UsedFrom r l ⟨q, 0⟩) ∧
        (l ∈ params ∨ g.StoredUpTo r l p.node) := by
  have hat := Graph.isAt_of_mem_suspensions hflow hp
  rw [hat.live, mem_across, mem_needed, mem_definedOut_iff hflow hat.reached]
  simp only [mem_liveIn_iff hnext]
  refine and_congr_left fun _ => ⟨?_, ?_⟩
  · rintro (⟨hr, hused⟩ | ⟨q, hq, hr, hused⟩)
    · exact ⟨p.resume, hr, .inl rfl, hused⟩
    · exact ⟨q, hr, .inr hq, hused⟩
  · rintro ⟨q, hr, rfl | hq, hused⟩
    · exact .inl ⟨hr, hused⟩
    · exact .inr ⟨q, hq, hr, hused⟩

/-- **The analysis of locals is exact** in the part of a graph that control gets to. -/
theorem Liveness.exact_of_balance {m : Method} {isMarker : String → Bool} {ret : Ty}
    {levels : List (Option Level)} (h : m.referenceDefects = [])
    (hbalance : (Graph.ofMethod m isMarker).balance ret = .ok levels) :
    ((Graph.ofMethod m isMarker).liveness (Graph.reached levels) (m.params.map (·.id))).Exact
      (Graph.ofMethod m isMarker) m (Graph.reached levels) := by
  have hsound := m.referenceDefects_eq_nil_iff.1 h
  have hclosed : (Graph.ofMethod m isMarker).Closed := Graph.closed_ofMethod hsound
  have hnext := hclosed.next
  have hflow := Graph.flowSet_reached hsound hbalance
  refine ⟨?_, ?_, fun n hn l => ?_, fun n hn => ?_, fun n hn l => mem_definedOut_iff hflow hn,
    fun p hp => mem_saved_iff hnext hflow hp⟩
  · obtain ⟨t, ht, hexact⟩ := Graph.exists_settles_live
    exact ⟨t, ht, fun n => IdSet.ext fun l => (hexact n l).trans (mem_liveIn_iff hnext).symm⟩
  · obtain ⟨s, hs, hexact⟩ := Graph.exists_settles_defined hnext hflow
    exact ⟨s, hs, fun n hn => IdSet.ext fun l =>
      (hexact n hn l).trans (mem_definedOut_iff hflow hn).symm⟩
  · rw [mem_liveIn_iff hnext, and_iff_right hn]
  · refine IdSet.ext fun l => ⟨fun hl => absurd ((mem_liveIn_iff hnext).1 hl).1 hn, ?_⟩
    simp

/-- The locals of the loop and its handler. -/
theorem exact_of_balance_sumOfWaits :
    (Graph.ofMethod sumOfWaits ({} : Options).isMarker).balance .int = .ok sumOfWaits.levels ∧
      ((Graph.ofMethod sumOfWaits ({} : Options).isMarker).liveness
        (Graph.reached sumOfWaits.levels) (sumOfWaits.params.map (·.id))).Exact
        (Graph.ofMethod sumOfWaits ({} : Options).isMarker) sumOfWaits
        (Graph.reached sumOfWaits.levels) :=
  have hbalance : (Graph.ofMethod sumOfWaits ({} : Options).isMarker).balance .int =
      .ok sumOfWaits.levels := by decide +kernel
  ⟨hbalance, Liveness.exact_of_balance (by decide +kernel) hbalance⟩

end Resumable
