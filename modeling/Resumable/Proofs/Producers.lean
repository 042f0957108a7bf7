/-
**What a marker awaits.**

At a marker call the stack holds nothing but the awaited future.  Its producer is looked for
backwards from the marker, by counting how deep the future lies.  Forwards, the depth of the stack
before each instruction is known from the level at which the node is entered.  An instruction that
finds just its operands on the stack takes them all, so what it leaves lies at the bottom; any other
leaves the bottom of the stack alone.  So the future was left by the last instruction of the first
kind, and the two ways of counting agree on which one that is.  If there is none, the future has
been at the bottom of the stack since the node was entered.

Main results:

* `Level.producerIndex?_eq_iff` — the search backwards finds the last instruction that takes all;
* `Activation.Crosses.bottom` — **the bottom of the stack stays** while no instruction takes all;
* `Graph.produces_of_balance` — the producers of a graph in balance.
-/

import Mathlib.Data.List.Induction
import Resumable.Graph.Suspension
import Resumable.Proofs.LevelPaths
import Resumable.Proofs.Splitting

set_option autoImplicit false

namespace Resumable

open List

/-! ### Runs of instructions -/

namespace Level

/-- The level after a run of instructions. -/
def through (l : Level) (is : List Instr) : Level := is.foldl (fun l i => i.after l) l

/-- Every instruction of the run finds its operands. -/
def Feeds (l : Level) (is : List Instr) : Prop :=
  ∀ j i, is[j]? = some i → i.pops ≤ (l.through (is.take j)).stack

/-- **The instruction with the given index takes all that is on the stack**, so that it writes the
bottom of the stack. -/
def Clears (l : Level) (is : List Instr) (j : Nat) : Prop :=
  ∃ i, is[j]? = some i ∧ (l.through (is.take j)).stack = i.pops

/-- The index of the last instruction that takes all that is on the stack, if there is one. -/
def LastClears (l : Level) (is : List Instr) : Option Nat → Prop
  | some j => l.Clears is j ∧ ∀ k, j < k → ¬ l.Clears is k
  | none => ∀ j, ¬ l.Clears is j

variable {l : Level} {i : Instr} {is before after : List Instr} {j k : Nat}

theorem through_append (l : Level) (before after : List Instr) :
    l.through (before ++ after) = (l.through before).through after :=
  foldl_append

@[simp] theorem clears_zero : l.Clears (i :: is) 0 ↔ l.stack = i.pops := by
  simp [Clears, through]

theorem clears_succ : l.Clears (i :: is) (j + 1) ↔ (i.after l).Clears is j := Iff.rfl

/-- What comes after some instructions starts at the level that they leave. -/
theorem clears_append_right :
    l.Clears (before ++ after) (before.length + k) ↔ (l.through before).Clears after k := by
  rw [Clears, getElem?_append_right (Nat.le_add_right ..), Nat.add_sub_cancel_left, take_append,
    Nat.add_sub_cancel_left, take_of_length_le (Nat.le_add_right ..), through_append, Clears]

theorem clears_concat : l.Clears (is ++ [i]) j ↔
    l.Clears is j ∨ (j = is.length ∧ (l.through is).stack = i.pops) := by
  rcases Nat.lt_trichotomy j is.length with hlt | rfl | hgt
  · simp [Clears, getElem?_append_left hlt, take_append_of_le_length (Nat.le_of_lt hlt),
      Nat.ne_of_lt hlt]
  · simp [Clears]
  · have hnone : (is ++ [i])[j]? = none := by
      rw [getElem?_eq_none_iff, length_append]
      exact hgt
    simp [Clears, hnone, Nat.le_of_lt hgt, Nat.ne_of_gt hgt]

theorem feeds_cons : l.Feeds (i :: is) ↔ i.pops ≤ l.stack ∧ (i.after l).Feeds is := by
  constructor
  · intro h
    exact ⟨h 0 i rfl, fun j k hk => h (j + 1) k hk⟩
  · rintro ⟨hi, his⟩ j k hk
    cases j with
    | zero =>
      cases hk
      exact hi
    | succ j => exact his j k hk

theorem feeds_concat (h : l.Feeds (is ++ [i])) : l.Feeds is ∧ i.pops ≤ (l.through is).stack := by
  constructor
  · intro j k hk
    have hj := (List.getElem?_eq_some_iff.1 hk).1
    have hle := h j k (by rw [getElem?_append_left hj, hk])
    rwa [take_append_of_le_length (Nat.le_of_lt hj)] at hle
  · have hle := h is.length i (by simp)
    rwa [take_left] at hle

/-- The check lets a run of instructions through that finds its operands. -/
theorem feeds_of_throughInstrs {hs : List Nat} {origin offset : Nat} {es : List Edge} {last : Level}
    (h : throughInstrs hs origin offset l is = .ok (es, last)) :
    l.Feeds is ∧ l.through is = last := by
  induction is generalizing offset l es with
  | nil =>
    cases h
    exact ⟨nofun, rfl⟩
  | cons i is ih =>
    unfold throughInstrs at h
    split at h
    · cases h
    · rename_i after hafter
      obtain ⟨hle, -, rfl⟩ := Instr.level_eq_ok hafter
      split at h
      · cases h
      · rename_i rest last' hrest
        cases h
        obtain ⟨hfeeds, hlast⟩ := ih hrest
        exact ⟨feeds_cons.2 ⟨hle, hfeeds⟩, hlast⟩

/-- **The search backwards** finds the last instruction that takes all that is on the stack. -/
theorem producerIndex?_eq_iff (h : l.Feeds is) (x : Option Nat) :
    producerIndex? (l.through is).stack is.reverse = x ↔ l.LastClears is x := by
  induction is using List.reverseRecOn with
  | nil => cases x <;> simp [producerIndex?, LastClears, Clears]
  | append_singleton is i ih =>
    obtain ⟨hfeeds, hle⟩ := feeds_concat h
    have hdepth : (l.through (is ++ [i])).stack = (l.through is).stack - i.pops + i.pushes := by
      rw [through_append]
      rfl
    -- how deep the value lies is at every instruction how deep the stack is
    have hwhole : (l.through is).stack - i.pops + i.pushes ≤ i.pushes ↔
        (l.through is).stack = i.pops := by
      omega
    have hbefore : (l.through is).stack - i.pops + i.pushes - i.pushes + i.pops =
        (l.through is).stack := by
      omega
    rw [reverse_append, reverse_singleton, singleton_append, producerIndex?, hdepth, length_reverse]
    simp only [hwhole, hbefore]
    split
    · rename_i hall
      have hlast : l.Clears (is ++ [i]) is.length := clears_concat.2 (.inr ⟨rfl, hall⟩)
      have hbound : ∀ k, l.Clears (is ++ [i]) k → k ≤ is.length := by
        rintro k ⟨_, hk, -⟩
        simpa [Nat.lt_succ_iff] using (List.getElem?_eq_some_iff.1 hk).1
      constructor
      · rintro rfl
        exact ⟨hlast, fun k hk hclears => Nat.not_lt.2 (hbound k hclears) hk⟩
      · intro hx
        cases x with
        | none => exact absurd hlast (hx _)
        | some j =>
          rcases Nat.lt_or_eq_of_le (hbound j hx.1) with hlt | rfl
          · exact absurd hlast (hx.2 _ hlt)
          · rfl
    · rename_i hsome
      rw [ih hfeeds]
      cases x <;> simp [LastClears, clears_concat, hsome]

/-- If a run leaves something on the stack and no instruction of it takes all, the stack was not
empty before it. -/
theorem stack_pos (h : l.Feeds is) (hend : 1 ≤ (l.through is).stack)
    (hnone : ∀ j, ¬ l.Clears is j) :
    1 ≤ l.stack := by
  cases is with
  | nil => exact hend
  | cons i is =>
    have hle := (feeds_cons.1 h).1
    have hne : l.stack ≠ i.pops := fun heq => hnone 0 (clears_zero.2 heq)
    omega

end Level

/-! ### What stays on the stack -/

namespace Activation

/-- The activation executes the instructions one after the other, and goes on after each. -/
inductive Crosses (p : Program) : Store → Activation → List Instr → Store → Activation → Prop where
  | nil {s : Store} {a : Activation} : Crosses p s a [] s a
  | cons {s t u : Store} {a b c : Activation} {i : Instr} {is : List Instr} :
      a.Executes p s i t (.next b) → Crosses p t b is u c → Crosses p s a (i :: is) u c

variable {p : Program} {s t : Store} {a b : Activation} {i : Instr} {is : List Instr} {l : Level}

theorem Completes.length_stack (h : a.Completes i b) :
    b.stack.length = a.stack.length - i.pops + i.pushes := by
  obtain ⟨results, hresults, hstack⟩ := h.stack
  rw [hstack, length_append, hresults, length_drop, Nat.add_comm]

/-- An instruction that does not take all leaves the bottom of the stack. -/
theorem Completes.bottom (h : a.Completes i b) (hlt : i.pops < a.stack.length) :
    b.stack.getLast? = a.stack.getLast? := by
  obtain ⟨results, -, hstack⟩ := h.stack
  rw [hstack, getLast?_append, getLast?_drop, if_neg (Nat.not_le.2 hlt)]
  cases hlast : a.stack.getLast? with
  | some v => rfl
  | none =>
    rw [getLast?_eq_none_iff.1 hlast] at hlt
    cases hlt

namespace Crosses

theorem length_stack (h : Crosses p s a is t b) (hl : a.stack.length = l.stack) :
    b.stack.length = (l.through is).stack := by
  induction h generalizing l with
  | nil => exact hl
  | @cons s t u a b c i is hi _ ih =>
    have hlength := (hi.completes).2.length_stack
    rw [hl] at hlength
    exact ih (l := i.after l) hlength

/-- **The bottom of the stack stays** while no instruction takes all that is on the stack. -/
theorem bottom (h : Crosses p s a is t b) (hl : a.stack.length = l.stack)
    (hnone : ∀ j, ¬ l.Clears is j) : b.stack.getLast? = a.stack.getLast? := by
  induction h generalizing l with
  | nil => rfl
  | @cons s t u a b c i is hi _ ih =>
    obtain ⟨hle, hcompletes⟩ := hi.completes
    have hne : l.stack ≠ i.pops := fun heq => hnone 0 (Level.clears_zero.2 heq)
    have hlength := hcompletes.length_stack
    rw [hl] at hlength
    have hrest := ih (l := i.after l) hlength fun j hj => hnone (j + 1) (Level.clears_succ.2 hj)
    rw [hrest, hcompletes.bottom (by omega)]

/-- If one value is left in the end, it is the one that was at the bottom. -/
theorem exists_left (h : Crosses p s a is t b) (hl : a.stack.length = l.stack)
    (hnone : ∀ j, ¬ l.Clears is j) (hone : (l.through is).stack = 1) :
    ∃ v, a.stack.getLast? = some v ∧ b.stack = [v] := by
  obtain ⟨v, hv⟩ := length_eq_one_iff.1 ((h.length_stack hl).trans hone)
  have hbottom := h.bottom hl hnone
  rw [hv] at hbottom
  exact ⟨v, hbottom.symm, hv⟩

end Crosses

end Activation

/-! ### Producers -/

/-- **The producer of what a node awaits**, if the node is entered at the given level and ends with
a marker call. -/
structure Node.Produces (n : Node) (l : Level) : Prop where
  /-- The producer is the last instruction that takes all that is on the stack. -/
  found : ∀ at', n.producer? = some at' ↔
    ∃ j, at' = n.location j ∧ l.Clears n.instrs j ∧ ∀ k, j < k → ¬ l.Clears n.instrs k
  /-- There is no producer if no instruction does. -/
  missing : n.producer? = none ↔ ∀ j, ¬ l.Clears n.instrs j
  /-- What the producer leaves at the bottom of the stack is awaited. -/
  written : ∀ j i, n.producer? = some (n.location j) → n.instrs[j]? = some i →
    ∀ (p : Program) (s s₁ s₂ t : Store) (a a₁ a₂ b : Activation), a.stack.length = l.stack →
      a.Crosses p s (n.instrs.take j) s₁ a₁ → a₁.Executes p s₁ i s₂ (.next a₂) →
      a₂.Crosses p s₂ (n.instrs.drop (j + 1)) t b →
      a₁.stack.length = i.pops ∧ ∃ v, a₂.stack.getLast? = some v ∧ b.stack = [v]
  /-- Without a producer the stack is not empty where the node is entered, and the value at its
  bottom is awaited. -/
  entered : n.producer? = none → 1 ≤ l.stack ∧
    ∀ (p : Program) (s t : Store) (a b : Activation), a.stack.length = l.stack →
      a.Crosses p s n.instrs t b → ∃ v, a.stack.getLast? = some v ∧ b.stack = [v]

namespace Graph

variable {g : Graph} {ret : Ty} {levels : List (Option Level)} {k : Nat} {l : Level} {n : Node}

/-- A node with a level has edges out of it, also if the entry is not a node. -/
theorem exists_edgesOf_of_balance (h : g.balance ret = .ok levels)
    (hl : levels[k]? = some (some l)) : ∃ es, g.edgesOf ret k l = .ok es := by
  by_cases hentry : g.entry < g.size
  · obtain ⟨es, hes, -⟩ := (steady_of_balance h hentry).2.2.1 k l hl
    exact ⟨es, hes⟩
  · have hout : (List.replicate g.size (none : Option Level)).length ≤ g.entry := by
      simpa using hentry
    rw [balance, set_eq_of_length_le hout, spread, getElem?_eq_none hout] at h
    simp only [Option.join_none] at h
    rw [spread] at h
    cases h
    simp [getElem?_replicate] at hl

/-- A node that ends with a marker call lets its instructions find their operands, and comes to the
marker with one value. -/
theorem feeds_of_balance (h : g.balance ret = .ok levels) (hl : levels[k]? = some (some l))
    (hn : g.node? k = some n) {c : Callee} {resume : Nat} (hexit : n.exit = .suspend c resume) :
    l.Feeds n.instrs ∧ (l.through n.instrs).stack = 1 := by
  obtain ⟨es, hes⟩ := exists_edgesOf_of_balance h hl
  rw [edgesOf, hn] at hes
  obtain ⟨before, last, after, hthrough, hending, -⟩ := Node.edges_eq_ok_levels hes
  obtain ⟨hfeeds, hlast⟩ := Level.feeds_of_throughInstrs hthrough
  rw [hexit] at hending
  refine ⟨hfeeds, ?_⟩
  rw [hlast, (suspendEdges_eq_ok hending).1]

end Graph

namespace Node

variable {n : Node} {l : Level} {j : Nat}

theorem location_inj {k : Nat} : n.location j = n.location k ↔ j = k := by
  simp [location]

/-- The producer stands where the last instruction does that takes all. -/
theorem producer?_eq_iff (hfeeds : l.Feeds n.instrs) (hone : (l.through n.instrs).stack = 1)
    (x : Option Nat) : n.producer? = x.map n.location ↔ l.LastClears n.instrs x := by
  rw [← Level.producerIndex?_eq_iff hfeeds, hone, producer?]
  exact (Option.map_injective fun _ _ => location_inj.1).eq_iff

theorem producer?_eq_some_iff (hfeeds : l.Feeds n.instrs)
    (hone : (l.through n.instrs).stack = 1) {at' : Location} :
    n.producer? = some at' ↔
      ∃ j, at' = n.location j ∧ l.Clears n.instrs j ∧ ∀ k, j < k → ¬ l.Clears n.instrs k := by
  constructor
  · intro h
    obtain ⟨j, -, rfl⟩ := Option.map_eq_some_iff.1 h
    exact ⟨j, rfl, (producer?_eq_iff hfeeds hone (some j)).1 h⟩
  · rintro ⟨j, rfl, hj⟩
    exact (producer?_eq_iff hfeeds hone (some j)).2 hj

/-- What is left after the last instruction that takes all is what that instruction wrote. -/
theorem exists_written (hlast : l.LastClears n.instrs (some j))
    (hone : (l.through n.instrs).stack = 1) {i : Instr} (hi : n.instrs[j]? = some i) {p : Program}
    {s s₁ s₂ t : Store} {a a₁ a₂ b : Activation} (hl : a.stack.length = l.stack)
    (hbefore : a.Crosses p s (n.instrs.take j) s₁ a₁) (hexec : a₁.Executes p s₁ i s₂ (.next a₂))
    (hafter : a₂.Crosses p s₂ (n.instrs.drop (j + 1)) t b) :
    a₁.stack.length = i.pops ∧ ∃ v, a₂.stack.getLast? = some v ∧ b.stack = [v] := by
  obtain ⟨⟨i', hi', hall⟩, hnone⟩ := hlast
  cases hi.symm.trans hi'
  have hlength := hbefore.length_stack hl
  refine ⟨hlength.trans hall, ?_⟩
  have hthrough : l.through (n.instrs.take (j + 1)) = i.after (l.through (n.instrs.take j)) := by
    rw [take_add_one, hi, Level.through_append]
    rfl
  have hcount : (n.instrs.take (j + 1)).length = j + 1 :=
    length_take_of_le (List.getElem?_eq_some_iff.1 hi).1
  have hlevel : a₂.stack.length = (l.through (n.instrs.take (j + 1))).stack := by
    rw [hexec.completes.2.length_stack, hlength, hthrough]
    rfl
  refine hafter.exists_left hlevel (fun k hk => ?_) ?_
  · rw [← Level.clears_append_right, take_append_drop, hcount] at hk
    exact hnone _ (by omega) hk
  · rw [← Level.through_append, take_append_drop, hone]

end Node

/-- **The producer of what a node awaits** is the last instruction of the node that takes all that
is on the stack.  Where there is none, the awaited value has been at the bottom of the stack since
the node was entered. -/
theorem Graph.produces_of_balance {g : Graph} {ret : Ty} {levels : List (Option Level)}
    (h : g.balance ret = .ok levels) {k : Nat} {l : Level} (hl : levels[k]? = some (some l))
    {n : Node} (hn : g.node? k = some n) {c : Callee} {resume : Nat}
    (hexit : n.exit = .suspend c resume) : n.Produces l := by
  obtain ⟨hfeeds, hone⟩ := feeds_of_balance h hl hn hexit
  have hmissing := Node.producer?_eq_iff hfeeds hone none
  exact
    { found := fun at' => Node.producer?_eq_some_iff hfeeds hone
      missing := hmissing
      written := fun j i hj hi p s s₁ s₂ t a a₁ a₂ b =>
        Node.exists_written ((Node.producer?_eq_iff hfeeds hone (some j)).1 hj) hone hi
      entered := fun hnone =>
        ⟨Level.stack_pos hfeeds (Nat.le_of_eq hone.symm) (hmissing.1 hnone),
          fun p s t a b hl hcross => hcross.exists_left hl (hmissing.1 hnone) hone⟩ }

namespace nestedWaits

/-- The levels of the three blocks and of what follows the three waits. -/
def levels : List (Option Level) :=
  [some ⟨0, 0⟩, some ⟨0, 0⟩, some ⟨1, 0⟩, some ⟨1, 0⟩, some ⟨1, 0⟩, some ⟨1, 0⟩]

/-- What stands between the two waits of the first block: nothing. -/
def between : Node := ⟨3, 0, 2, [], .suspend ⟨"Await.await", 1, .int⟩ 4⟩

/-- The handler up to its wait. -/
def handler : Node := ⟨2, 2, 0, [.pop, .load 0], .suspend ⟨"Await.await", 1, .int⟩ 5⟩

end nestedWaits

open nestedWaits in
/-- The second wait is for what the first one gave; the wait in the handler is for what the second
instruction loads, after the first one took the exception. -/
theorem produces_nestedWaits :
    (Graph.ofMethod nestedWaits ({} : Options).isMarker).balance .int = .ok levels ∧
      (between.producer? = none ∧ between.Produces ⟨1, 0⟩) ∧
      handler.producer? = some ⟨2, 1⟩ ∧ handler.Produces ⟨1, 0⟩ := by
  have hbalance : (Graph.ofMethod nestedWaits ({} : Options).isMarker).balance .int =
      .ok levels := by
    decide +kernel
  exact ⟨hbalance,
    ⟨rfl, Graph.produces_of_balance hbalance (k := 3) rfl (by decide +kernel) rfl⟩,
    rfl, Graph.produces_of_balance hbalance (k := 2) rfl (by decide +kernel) rfl⟩

end Resumable
