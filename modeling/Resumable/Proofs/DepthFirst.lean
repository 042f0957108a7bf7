/-
**The walk is a recursive depth-first search.**

The walk that numbers the suspension points keeps a stack of nodes still to look at.  A node can be
put there several times before it is visited, and is passed over when it comes up again.  Here this
is compared with the search as it is usually told: visit a node, then search from each of its
successors and each of its handlers in turn, leaving out what has been visited on the way.

What the search with a stack does with the nodes on top of its stack, before it comes to those
beneath, is what the recursive search does with them, `Graph.visited_append`.

Main results:

* `Search.visited_congr` — in which order nodes have been seen does not matter;
* `Graph.visited_append` — **the top of the stack is searched recursively**;
* `Graph.walk_depthFirst` — **the walk is the recursive search**, and it meets every node that
  control gets to once.
-/

import Resumable.Proofs.LevelPaths
import Resumable.Proofs.Segments

set_option autoImplicit false

namespace Resumable

open List

namespace Search

variable {size : Nat} {next : Nat → List Nat}

/-- **The order in which numbers have been seen does not matter.** -/
theorem visited_congr {stack seen seen' : List Nat} (h : ∀ x, x ∈ seen ↔ x ∈ seen') :
    visited size next stack seen = visited size next stack seen' := by
  induction stack, seen using visits.induct size next generalizing seen' with
  | case1 seen => simp
  | case2 seen id rest hid ih =>
    rw [visited_of_mem hid, visited_of_mem ((h id).1 hid), ih h]
  | case3 seen id rest hid hlt ih =>
    have hseen : ∀ x, x ∈ id :: seen ↔ x ∈ id :: seen' := fun x => by simp only [mem_cons, h]
    rw [visited_of_lt hid hlt, visited_of_lt (fun hid' => hid ((h id).2 hid')) hlt, ih hseen]
  | case4 seen id rest hid hge ih =>
    have hseen : ∀ x, x ∈ id :: seen ↔ x ∈ id :: seen' := fun x => by simp only [mem_cons, h]
    rw [visited_of_not_lt hid hge, visited_of_not_lt (fun hid' => hid ((h id).2 hid')) hge,
      ih hseen]

theorem remaining_append_le (next : Nat → List Nat) (more seen ids : List Nat) :
    remaining next (more ++ seen) ids ≤ remaining next seen ids := by
  induction more with
  | nil => exact Nat.le_refl _
  | cons x more ih => exact Nat.le_trans (remaining_cons_le next (more ++ seen) x ids) ih

end Search

namespace Graph

/-- **Depth-first search by recursion**: the nodes of `r` in the order in which they are first
visited, if those of a list are taken up one after the other and some have been visited before.  A
node is visited together with what is found from its successors and then from its handlers; nodes
that have been visited, or are not in `r`, are passed over. -/
def depthFirst (g : Graph) (r : IdSet) (visited : List Nat) : List Nat → List Nat
  | [] => []
  | n :: others =>
    if _h : n ∈ r ∧ n ∉ visited then
      let below := g.depthFirst r (n :: visited) (g.successors n ++ g.handlers n)
      n :: below ++ g.depthFirst r (below ++ n :: visited) others
    else g.depthFirst r visited others
termination_by todo => (Search.remaining g.next visited r.toList, todo.length)
decreasing_by
  · have hpaid := Search.remaining_visit g.next (IdSet.mem_def.1 _h.1) _h.2
    exact Prod.Lex.left _ _ (by omega)
  · have hpaid := Search.remaining_visit g.next (IdSet.mem_def.1 _h.1) _h.2
    refine Prod.Lex.left _ _ (Nat.lt_of_le_of_lt (Search.remaining_append_le ..) ?_)
    omega
  · exact Prod.Lex.right _ (Nat.lt_succ_self _)

variable {g : Graph} {r : IdSet} {n : Nat} {others seen : List Nat}

@[simp] theorem depthFirst_nil : g.depthFirst r seen [] = [] := by
  rw [depthFirst]

theorem depthFirst_of_new (hn : n ∈ r) (hnew : n ∉ seen) :
    g.depthFirst r seen (n :: others) =
      n :: g.depthFirst r (n :: seen) (g.next n) ++
        g.depthFirst r (g.depthFirst r (n :: seen) (g.next n) ++ n :: seen) others := by
  rw [depthFirst, dif_pos ⟨hn, hnew⟩]
  rfl

theorem depthFirst_of_passed (h : ¬ (n ∈ r ∧ n ∉ seen)) :
    g.depthFirst r seen (n :: others) = g.depthFirst r seen others := by
  rw [depthFirst, dif_neg h]

/-- The nodes of the set that a node leads to. -/
def nextIn (g : Graph) (r : IdSet) (n : Nat) : List Nat := (g.next n).filter (· ∈ r)

/-- **The top of the stack is searched recursively**, before the search comes to the nodes
beneath. -/
theorem visited_append (hr : ∀ k ∈ r, k < g.size) (seen todo beneath : List Nat) :
    Search.visited g.size (g.nextIn r) (todo.filter (· ∈ r) ++ beneath) seen =
      g.depthFirst r seen todo ++
        Search.visited g.size (g.nextIn r) beneath (g.depthFirst r seen todo ++ seen) := by
  induction seen, todo using depthFirst.induct g r generalizing beneath with
  | case1 seen => simp
  | case2 seen n others h below ih₁ ih₂ =>
    have hmore : ∀ x, x ∈ g.depthFirst r (below ++ n :: seen) others ++ (below ++ n :: seen) ↔
        x ∈ (n :: below ++ g.depthFirst r (below ++ n :: seen) others) ++ seen := by
      intro x
      simp only [mem_append, mem_cons]
      tauto
    rw [filter_cons_of_pos (by simpa using h.1), cons_append, Search.visited_of_lt h.2 (hr n h.1),
      nextIn, next, ih₁, ih₂, Search.visited_congr hmore, depthFirst_of_new h.1 h.2, next]
    simp only [below, cons_append, append_assoc]
  | case3 seen n others h ih =>
    rw [depthFirst_of_passed h, ← ih beneath]
    by_cases hn : n ∈ r
    · have hseen : n ∈ seen := by
        by_contra hnew
        exact h ⟨hn, hnew⟩
      rw [filter_cons_of_pos (by simpa using hn), cons_append, Search.visited_of_mem hseen]
    · rw [filter_cons_of_neg (by simpa using hn)]

/-- The walk is the recursive search from the entry. -/
theorem walk_eq_depthFirst (hr : ∀ k ∈ r, k < g.size) : g.walk r = g.depthFirst r [] [g.entry] := by
  have happend := visited_append hr [] [g.entry] []
  rw [append_nil, Search.visited_nil, append_nil] at happend
  exact happend

/-- **The walk is the recursive depth-first search**: it meets the nodes that control gets to, each
once, in the order of the search that goes from a node to its successors and then to its
handlers. -/
theorem walk_depthFirst {m : Method} {isMarker : String → Bool} {ret : Ty}
    {levels : List (Option Level)} (h : m.referenceDefects = [])
    (hbalance : (ofMethod m isMarker).balance ret = .ok levels) :
    ((ofMethod m isMarker).walk (reached levels)).Nodup ∧
      (∀ k, k ∈ (ofMethod m isMarker).walk (reached levels) ↔ k ∈ reached levels) ∧
      (ofMethod m isMarker).walk (reached levels) =
        (ofMethod m isMarker).depthFirst (reached levels) [] [(ofMethod m isMarker).entry] := by
  have hr := flowSet_reached (Method.referenceDefects_eq_nil_iff.1 h) hbalance
  exact ⟨Search.nodup_preorder _ _ _, fun _ => mem_walk_iff hr, walk_eq_depthFirst hr.bound⟩

/-- The walk through a loop with a handler that waits. -/
theorem walk_depthFirst_sumOfWaits :
    sumOfWaits.referenceDefects = [] ∧
      (ofMethod sumOfWaits ({} : Options).isMarker).balance .int = .ok sumOfWaits.levels ∧
      (ofMethod sumOfWaits ({} : Options).isMarker).walk (reached sumOfWaits.levels) =
        (ofMethod sumOfWaits ({} : Options).isMarker).depthFirst (reached sumOfWaits.levels) []
          [0] := by
  have hrefs : sumOfWaits.referenceDefects = [] := by decide +kernel
  have hbalance : (ofMethod sumOfWaits ({} : Options).isMarker).balance .int =
      .ok sumOfWaits.levels := by decide +kernel
  exact ⟨hrefs, hbalance, (walk_depthFirst hrefs hbalance).2.2⟩

end Graph

end Resumable
