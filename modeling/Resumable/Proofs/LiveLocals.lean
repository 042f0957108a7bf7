/-
**Live locals are a fixpoint.**

The search for live locals goes backwards from the nodes that use a local.  Read forwards, its
result says: what is used or live after a node, and not stored on the way, is live before it.  To
follow a run of the method instruction by instruction, liveness is needed at every position of a
node; `Liveness.LiveFrom` gives it for the instructions that are still to run.

Main results:

* `Liveness.mem_liveIn_of_exposes`, `Liveness.mem_liveIn_of_carries` — the search is closed;
* `Liveness.mem_liveIn_of_liveFrom` — **what is live before all instructions of a node is live at
  its start**;
* `Liveness.mem_needed`, `Liveness.mem_across` — the locals that are saved at a marker.
-/

import Resumable.Graph.Liveness
import Resumable.Proofs.Reached

set_option autoImplicit false

namespace Resumable

open List

/-! ### One instruction -/

variable {i : Instr}

/-- No instruction reads a local and writes it. -/
theorem Instr.defines?_of_uses? {l : Nat} (h : i.uses? = some l) : i.defines? = none := by
  cases i <;> first | rfl | cases h

/-- An instruction that may throw writes no local. -/
theorem Instr.defines?_of_mayThrow (h : i.mayThrow = true) : i.defines? = none := by
  cases i <;> first | rfl | cases h

theorem beforeStore_cons {l : Nat} (is : List Instr) (h : i.defines? ≠ some l) :
    beforeStore l (i :: is) = i :: beforeStore l is := by
  simp [beforeStore, h]

namespace Liveness

variable {g : Graph} {r : IdSet} {params : List Nat}

/-! ### The search is closed -/

variable {l k : Nat} {a : Liveness}

theorem mem_liveIn :
    l ∈ (g.liveness r params).liveIn k ↔
      (∃ n ∈ g.nodes, l ∈ n.used) ∧ k ∈ g.liveNodes r l := by
  simp only [Graph.liveness, liveIn, IdSet.mem_ofList, mem_map, mem_filter,
    decide_eq_true_eq]
  constructor
  · rintro ⟨_, ⟨⟨u, hu, rfl⟩, hk⟩, rfl⟩
    have hu : u ∈ IdSet.ofList (g.nodes.flatMap Node.used) := hu
    rw [IdSet.mem_ofList, mem_flatMap] at hu
    exact ⟨hu, IdSet.mem_ofList.1 hk⟩
  · rintro ⟨hu, hk⟩
    have hu : l ∈ IdSet.ofList (g.nodes.flatMap Node.used) :=
      IdSet.mem_ofList.2 (mem_flatMap.2 hu)
    exact ⟨_, ⟨⟨l, hu, rfl⟩, IdSet.mem_ofList.2 hk⟩, rfl⟩

/-- A local that a node uses before it stores it is live at the start of the node. -/
theorem mem_liveIn_of_exposes {n : Node} (hk : k ∈ r) (hn : g.node? k = some n)
    (h : n.exposes l = true) : l ∈ (g.liveness r params).liveIn k := by
  refine mem_liveIn.2 ⟨⟨n, Graph.mem_of_node? hn, ?_⟩, ?_⟩
  · obtain ⟨i, hi, hu⟩ := any_eq_true.1 h
    have hi : i ∈ n.instrs := (takeWhile_sublist _).mem hi
    exact mem_filterMap.2 ⟨i, hi, by simpa using hu⟩
  · refine (Search.mem_visited_of_mem_stack ?_).resolve_left not_mem_nil
    exact mem_filter.2 ⟨hk, by simp [hn, h]⟩

/-- A local that a node carries to the start of another, where it is live, is live at the start of
the node. -/
theorem mem_liveIn_of_carries {q : Nat} (hk : k ∈ r) (hq : q < g.size) (h : g.carries l k q = true)
    (hl : l ∈ (g.liveness r params).liveIn q) : l ∈ (g.liveness r params).liveIn k := by
  obtain ⟨hused, hq'⟩ := mem_liveIn.1 hl
  refine mem_liveIn.2 ⟨hused, ?_⟩
  exact (Search.mem_visited_of_mem_next hq' hq (mem_filter.2 ⟨hk, h⟩)).resolve_left
    not_mem_nil

/-! ### Inside a node -/

/-- The local is live before the rest `is` of node `k`: it is used there, or live in a handler that
an instruction there may throw to, or live where control goes at the end; and it is not stored
before. -/
inductive LiveFrom (a : Liveness) (g : Graph) (k : Nat) : List Instr → Nat → Prop where
  | use {i : Instr} {is : List Instr} {l : Nat} : i.uses? = some l → LiveFrom a g k (i :: is) l
  | throw {i : Instr} {is : List Instr} {l h : Nat} : i.mayThrow = true → h ∈ g.handlers k →
      l ∈ a.liveIn h → LiveFrom a g k (i :: is) l
  | step {i : Instr} {is : List Instr} {l : Nat} : i.defines? ≠ some l → LiveFrom a g k is l →
      LiveFrom a g k (i :: is) l
  | exit {l q : Nat} : q ∈ g.next k → l ∈ a.liveIn q → LiveFrom a g k [] l

/-- A local that is live before the rest of a node is used there before it is stored; or it is live
where control goes on, by an exception or at the end, before it is stored. -/
theorem LiveFrom.cases_on_store {is : List Instr} (h : LiveFrom a g k is l) :
    (beforeStore l is).any (·.uses? = some l) = true ∨
      (is.all (·.defines? ≠ some l) = true ∧ ∃ q ∈ g.next k, l ∈ a.liveIn q) ∨
      ((beforeStore l is).any (·.mayThrow) = true ∧ ∃ q ∈ g.handlers k, l ∈ a.liveIn q) := by
  induction h with
  | use hu =>
    refine .inl ?_
    rw [beforeStore_cons _ (by simp [Instr.defines?_of_uses? hu])]
    simp [hu]
  | throw ht hh hl =>
    refine .inr (.inr ⟨?_, _, hh, hl⟩)
    rw [beforeStore_cons _ (by simp [Instr.defines?_of_mayThrow ht])]
    simp [ht]
  | step hd _ ih =>
    rw [beforeStore_cons _ hd, any_cons, any_cons, all_cons]
    rcases ih with hu | ⟨hall, hq⟩ | ⟨ht, hq⟩
    · exact .inl (by simp [hu])
    · exact .inr (.inl ⟨by simp [hd] at hall ⊢; exact hall, hq⟩)
    · exact .inr (.inr ⟨by simp [ht], hq⟩)
  | exit hq hl => exact .inr (.inl ⟨rfl, _, hq, hl⟩)

/-- **What is live before all instructions of a node is live at its start.** -/
theorem mem_liveIn_of_liveFrom {n : Node} (hk : k ∈ r) (hn : g.node? k = some n)
    (hnext : ∀ q ∈ g.next k, q < g.size) (h : LiveFrom (g.liveness r params) g k n.instrs l) :
    l ∈ (g.liveness r params).liveIn k := by
  rcases h.cases_on_store with hu | ⟨hall, q, hq, hl⟩ | ⟨ht, q, hq, hl⟩
  · exact mem_liveIn_of_exposes hk hn hu
  · refine mem_liveIn_of_carries hk (hnext q hq) ?_ hl
    have hpass : n.passes l = true := hall
    rcases mem_append.1 hq with hq | hq
    · simp only [Graph.successors, hn] at hq
      simp [Graph.carries, hn, hpass, hq]
    · simp [Graph.carries, hn, Node.passesThrow, hpass, hq]
  · refine mem_liveIn_of_carries hk (hnext q (mem_append_right _ hq)) ?_ hl
    simp only [Graph.carries, hn, Node.passesThrow, ht, Bool.or_true, Bool.true_and,
      Bool.or_eq_true,
      decide_eq_true_eq]
    exact .inr hq

/-! ### Saved locals -/

theorem mem_needed : l ∈ a.needed g k ↔ l ∈ a.liveIn k ∨ ∃ h ∈ g.handlers k, l ∈ a.liveIn h := by
  unfold needed
  generalize a.liveIn k = s
  induction g.handlers k generalizing s with
  | nil => simp
  | cons h hs ih =>
    rw [foldl_cons, ih, IdSet.mem_union]
    simp [or_assoc]

/-- The saved locals are those that are needed where the method goes on and may be defined. -/
theorem mem_across {m : Method} {suspend resume : Nat} :
    l ∈ (a.across g m r suspend resume).map (·.1) ↔
      l ∈ a.needed g resume ∧ l ∈ a.definedOut g r suspend := by
  simp only [across, List.map_map, Function.comp_def, List.map_id']
  rw [← IdSet.mem_def, IdSet.mem_filter, decide_eq_true_eq]

end Liveness

end Resumable
