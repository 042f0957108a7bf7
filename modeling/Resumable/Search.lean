/-
**Depth-first search on numbered graphs.**

The graphs of this library are numbered `0, …, size - 1`, and a function lists the successors of a
number.  A search keeps a stack of numbers still to look at.  It takes the top of the stack: a
number seen before is passed over, any other is visited and its successors go on top of the stack in
order.  Numbers that are not in the graph can be named by it; they are visited and have no
successors.

The search is told as the list of what it took from the stack, because some callers want to know
also when it came back to a number: `Visit.fresh` for a visit, `Visit.again` for a return.

Main results:

* `Search.mem_visited_iff`, `Search.mem_preorder_iff` — the search finds exactly what can be
  reached;
* `Search.nodup_preorder` — it visits nothing twice.
-/

set_option autoImplicit false

namespace Resumable

/-- What a search does with the number on top of its stack. -/
inductive Visit where
  /-- It sees the number for the first time. -/
  | fresh (id : Nat)
  /-- It has seen the number before. -/
  | again (id : Nat)
deriving DecidableEq, Inhabited

/-- The number, if it is seen for the first time. -/
def Visit.fresh? : Visit → Option Nat
  | .fresh id => some id
  | .again _ => none

namespace Search

/-! ### The measure -/

/-- The most entries that the numbers not seen yet can put on the stack, themselves counted. -/
def remaining (next : Nat → List Nat) (seen : List Nat) : List Nat → Nat
  | [] => 0
  | id :: ids =>
    (if id ∈ seen then 0 else 1 + (next id).length) + remaining next seen ids

theorem remaining_cons_le (next : Nat → List Nat) (seen : List Nat) (id : Nat) (ids : List Nat) :
    remaining next (id :: seen) ids ≤ remaining next seen ids := by
  induction ids with
  | nil => simp [remaining]
  | cons x xs ih =>
    simp only [remaining, List.mem_cons]
    by_cases h : x ∈ seen
    · simp only [h, or_true, if_true]
      omega
    · by_cases hx : x = id
      · simp only [hx, true_or, if_true]
        omega
      · simp only [h, hx, or_self, if_false]
        omega

variable {seen rest stack : List Nat} {id size x : Nat} {next : Nat → List Nat}

/-- Visiting a number of the graph pays for its successors. -/
theorem remaining_visit (next : Nat → List Nat) {ids : List Nat} (hid : id ∈ ids)
    (hseen : ¬ id ∈ seen) :
    remaining next (id :: seen) ids + 1 + (next id).length ≤ remaining next seen ids := by
  induction ids with
  | nil => simp at hid
  | cons x xs ih =>
    simp only [remaining, List.mem_cons]
    by_cases hx : x = id
    · have h := remaining_cons_le next seen id xs
      subst hx
      simp only [true_or, if_true, hseen, if_false]
      omega
    · have hxs : id ∈ xs := by
        rcases List.mem_cons.1 hid with h | h
        · exact absurd h.symm hx
        · exact h
      have h := ih hxs
      by_cases hs : x ∈ seen
      · simp only [hs, or_true, if_true]
        omega
      · simp only [hs, hx, or_self, if_false]
        omega

/-! ### The search -/

/-- The visits and returns of the search with the given stack, the numbers of `seen` having been
visited before. -/
def visits (size : Nat) (next : Nat → List Nat) (stack seen : List Nat) : List Visit :=
  match stack with
  | [] => []
  | id :: rest =>
    if _h : id ∈ seen then .again id :: visits size next rest seen
    else if _hs : id < size then
      .fresh id :: visits size next (next id ++ rest) (id :: seen)
    else .fresh id :: visits size next rest (id :: seen)
termination_by remaining next seen (List.range size) + stack.length
decreasing_by
  · simp
  · have h := remaining_visit next (List.mem_range.2 _hs) _h
    simp only [List.length_append, List.length_cons]
    omega
  · have h := remaining_cons_le next seen id (List.range size)
    simp only [List.length_cons]
    omega

/-- The numbers that a search visits, in order. -/
def visited (size : Nat) (next : Nat → List Nat) (stack seen : List Nat) : List Nat :=
  (visits size next stack seen).filterMap Visit.fresh?

/-- The numbers that the search from `starts` visits, in order. -/
def preorder (size : Nat) (next : Nat → List Nat) (starts : List Nat) : List Nat :=
  visited size next starts []

/-! ### What a search visits -/

@[simp] theorem visited_nil (size : Nat) (next : Nat → List Nat) (seen : List Nat) :
    visited size next [] seen = [] := by
  simp [visited, visits]

theorem visited_of_mem (h : id ∈ seen) :
    visited size next (id :: rest) seen = visited size next rest seen := by
  unfold visited
  rw [visits]
  simp [h, Visit.fresh?, List.filterMap_cons]

theorem visited_of_lt (h : ¬ id ∈ seen) (hs : id < size) :
    visited size next (id :: rest) seen =
      id :: visited size next (next id ++ rest) (id :: seen) := by
  unfold visited
  rw [visits]
  simp [h, hs, Visit.fresh?]

theorem visited_of_not_lt (h : ¬ id ∈ seen) (hs : ¬ id < size) :
    visited size next (id :: rest) seen = id :: visited size next rest (id :: seen) := by
  unfold visited
  rw [visits]
  simp [h, hs, Visit.fresh?]

/-- A number is visited at most once, and not at all if it has been seen before. -/
theorem nodup_visited (size : Nat) (next : Nat → List Nat) (stack seen : List Nat) :
    (visited size next stack seen).Nodup ∧ ∀ id ∈ visited size next stack seen, ¬ id ∈ seen := by
  induction stack, seen using visits.induct size next with
  | case1 seen => simp
  | case2 seen id rest h ih =>
    rw [visited_of_mem h]
    exact ih
  | case3 seen id rest h hs ih =>
    rw [visited_of_lt h hs]
    refine ⟨List.nodup_cons.2 ⟨fun hm => ih.2 id hm (List.mem_cons_self ..), ih.1⟩, ?_⟩
    intro x hx
    rcases List.mem_cons.1 hx with rfl | hx
    · exact h
    · exact fun hseen => ih.2 x hx (List.mem_cons_of_mem _ hseen)
  | case4 seen id rest h hs ih =>
    rw [visited_of_not_lt h hs]
    refine ⟨List.nodup_cons.2 ⟨fun hm => ih.2 id hm (List.mem_cons_self ..), ih.1⟩, ?_⟩
    intro x hx
    rcases List.mem_cons.1 hx with rfl | hx
    · exact h
    · exact fun hseen => ih.2 x hx (List.mem_cons_of_mem _ hseen)

theorem nodup_preorder (size : Nat) (next : Nat → List Nat) (starts : List Nat) :
    (preorder size next starts).Nodup :=
  (nodup_visited size next starts []).1

/-- Of what the rest of a search has seen before, the number visited first is new. -/
theorem seen_or_visited {ids : List Nat} (h : x ∈ id :: seen ∨ x ∈ ids) :
    x ∈ seen ∨ x ∈ id :: ids := by
  rcases h with hseen | hvisited
  · rcases List.mem_cons.1 hseen with rfl | hseen
    · exact .inr (List.mem_cons_self ..)
    · exact .inl hseen
  · exact .inr (List.mem_cons_of_mem _ hvisited)

/-- Everything on the stack is visited, or has been seen before. -/
theorem mem_visited_of_mem_stack (hx : x ∈ stack) :
    x ∈ seen ∨ x ∈ visited size next stack seen := by
  induction stack, seen using visits.induct size next with
  | case1 seen => simp at hx
  | case2 seen id rest h ih =>
    rw [visited_of_mem h]
    rcases List.mem_cons.1 hx with rfl | hx
    · exact .inl h
    · exact ih hx
  | case3 seen id rest h hs ih =>
    rw [visited_of_lt h hs]
    rcases List.mem_cons.1 hx with rfl | hx
    · exact .inr (List.mem_cons_self ..)
    · exact seen_or_visited (ih (List.mem_append_right _ hx))
  | case4 seen id rest h hs ih =>
    rw [visited_of_not_lt h hs]
    rcases List.mem_cons.1 hx with rfl | hx
    · exact .inr (List.mem_cons_self ..)
    · exact seen_or_visited (ih hx)

/-- The successors of a visited number of the graph are visited, or have been seen before. -/
theorem mem_visited_of_mem_next {y : Nat} (hx : x ∈ visited size next stack seen) (hs : x < size)
    (hy : y ∈ next x) : y ∈ seen ∨ y ∈ visited size next stack seen := by
  induction stack, seen using visits.induct size next with
  | case1 seen => simp at hx
  | case2 seen id rest h ih =>
    rw [visited_of_mem h] at hx ⊢
    exact ih hx
  | case3 seen id rest h hlt ih =>
    rw [visited_of_lt h hlt] at hx ⊢
    rcases List.mem_cons.1 hx with rfl | hx
    · exact seen_or_visited (mem_visited_of_mem_stack (List.mem_append_left _ hy))
    · exact seen_or_visited (ih hx)
  | case4 seen id rest h hge ih =>
    rw [visited_of_not_lt h hge] at hx ⊢
    rcases List.mem_cons.1 hx with rfl | hx
    · exact absurd hs hge
    · exact seen_or_visited (ih hx)

/-! ### Reachability -/

/-- A number can be reached from another along successors.  Numbers that are not in the graph have
no successors. -/
inductive Reaches (size : Nat) (next : Nat → List Nat) : Nat → Nat → Prop where
  | refl (a : Nat) : Reaches size next a a
  | step {a b c : Nat} : a < size → b ∈ next a → Reaches size next b c → Reaches size next a c

/-- What is visited can be reached from the stack. -/
theorem reaches_of_mem_visited (hx : x ∈ visited size next stack seen) :
    ∃ s ∈ stack, Reaches size next s x := by
  induction stack, seen using visits.induct size next with
  | case1 seen => simp at hx
  | case2 seen id rest h ih =>
    rw [visited_of_mem h] at hx
    obtain ⟨s, hs, hr⟩ := ih hx
    exact ⟨s, List.mem_cons_of_mem _ hs, hr⟩
  | case3 seen id rest h hlt ih =>
    rw [visited_of_lt h hlt] at hx
    rcases List.mem_cons.1 hx with rfl | hx
    · exact ⟨x, List.mem_cons_self .., .refl x⟩
    · obtain ⟨s, hs, hr⟩ := ih hx
      rcases List.mem_append.1 hs with hs | hs
      · exact ⟨id, List.mem_cons_self .., .step hlt hs hr⟩
      · exact ⟨s, List.mem_cons_of_mem _ hs, hr⟩
  | case4 seen id rest h hge ih =>
    rw [visited_of_not_lt h hge] at hx
    rcases List.mem_cons.1 hx with rfl | hx
    · exact ⟨x, List.mem_cons_self .., .refl x⟩
    · obtain ⟨s, hs, hr⟩ := ih hx
      exact ⟨s, List.mem_cons_of_mem _ hs, hr⟩

/-- **A search visits what can be reached**, apart from what was seen before, if nothing leads out
of that. -/
theorem mem_visited_iff (hclosed : ∀ a ∈ seen, ∀ b ∈ next a, b ∈ seen) :
    x ∈ visited size next stack seen ↔ x ∉ seen ∧ ∃ s ∈ stack, Reaches size next s x := by
  constructor
  · intro hx
    exact ⟨(nodup_visited size next stack seen).2 x hx, reaches_of_mem_visited hx⟩
  · rintro ⟨hx, s, hs, hreach⟩
    have found : s ∈ seen ∨ s ∈ visited size next stack seen := mem_visited_of_mem_stack hs
    clear hs
    -- along the path: what was seen before stays so
    induction hreach with
    | refl a => exact found.resolve_left hx
    | step ha hb _ ih =>
      refine ih hx ?_
      rcases found with hseen | hvisited
      · exact .inl (hclosed _ hseen _ hb)
      · exact mem_visited_of_mem_next hvisited ha hb

/-- **The search visits exactly what can be reached.** -/
theorem mem_preorder_iff {starts : List Nat} :
    x ∈ preorder size next starts ↔ ∃ s ∈ starts, Reaches size next s x := by
  rw [preorder, mem_visited_iff fun a ha => absurd ha List.not_mem_nil]
  exact and_iff_right List.not_mem_nil

end Search

end Resumable
