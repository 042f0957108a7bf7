/-
**Finite sets of ids.**

Blocks, locals and graph nodes are numbered, and the sets of them that a method or an analysis
speaks about are small.  An `IdSet` is the strictly ascending list of its members, so that two sets
with the same members are equal and listing a set needs no sorting.

Main results:

* `IdSet.mem_insert`, `IdSet.mem_ofList`, `IdSet.mem_filter`, `IdSet.mem_union` — what the
  operations contain;
* `IdSet.ext` — a set is determined by its members.
-/

set_option autoImplicit false

namespace Resumable

/-- A finite set of ids, as the strictly ascending list of its members. -/
structure IdSet where
  toList : List Nat
  ascending : toList.Pairwise (· < ·)
deriving DecidableEq

namespace IdSet

instance : Membership Nat IdSet := ⟨fun s x => x ∈ s.toList⟩

variable {s t : IdSet} {x y : Nat} {ys xs : List Nat}

theorem mem_def : x ∈ s ↔ x ∈ s.toList := Iff.rfl

instance (s : IdSet) (x : Nat) : Decidable (x ∈ s) :=
  inferInstanceAs (Decidable (x ∈ s.toList))

/-- The set without members. -/
def empty : IdSet := ⟨[], List.Pairwise.nil⟩

instance : EmptyCollection IdSet := ⟨empty⟩
instance : Inhabited IdSet := ⟨empty⟩

@[simp] theorem not_mem_empty (x : Nat) : ¬ x ∈ (∅ : IdSet) := by
  intro h
  cases (h : x ∈ ([] : List Nat))

/-! ### Insertion -/

/-- Puts `x` at its place in an ascending list, unless it is there already. -/
def place (x : Nat) : List Nat → List Nat
  | [] => [x]
  | y :: ys => if x < y then x :: y :: ys else if x = y then y :: ys else y :: place x ys

theorem mem_place : y ∈ place x ys ↔ y = x ∨ y ∈ ys := by
  induction ys with
  | nil => simp [place]
  | cons z zs ih =>
    simp only [place]
    split
    · simp
    · split
      · subst_vars
        simp
      · simp only [List.mem_cons, ih]
        constructor
        · rintro (h | h | h) <;> simp [h]
        · rintro (h | h | h) <;> simp [h]

theorem pairwise_place (h : ys.Pairwise (· < ·)) : (place x ys).Pairwise (· < ·) := by
  induction ys with
  | nil => simp [place]
  | cons z zs ih =>
    obtain ⟨hz, hzs⟩ := List.pairwise_cons.1 h
    simp only [place]
    split
    · rename_i hx
      refine List.pairwise_cons.2 ⟨?_, h⟩
      intro a ha
      rcases List.mem_cons.1 ha with rfl | ha
      · exact hx
      · exact Nat.lt_trans hx (hz a ha)
    · split
      · exact h
      · refine List.pairwise_cons.2 ⟨?_, ih hzs⟩
        intro a ha
        rcases mem_place.1 ha with rfl | ha
        · omega
        · exact hz a ha

/-- The set with `x` added. -/
def insert (s : IdSet) (x : Nat) : IdSet := ⟨place x s.toList, pairwise_place s.ascending⟩

@[simp] theorem mem_insert : y ∈ s.insert x ↔ y = x ∨ y ∈ s :=
  mem_place

/-- The set with every member of `xs` added. -/
def insertMany (s : IdSet) (xs : List Nat) : IdSet := xs.foldl insert s

@[simp] theorem mem_insertMany : y ∈ s.insertMany xs ↔ y ∈ xs ∨ y ∈ s := by
  induction xs generalizing s with
  | nil => simp [insertMany]
  | cons x xs ih =>
    have h : s.insertMany (x :: xs) = (s.insert x).insertMany xs := rfl
    rw [h, ih, mem_insert, List.mem_cons]
    constructor
    · rintro (h | h | h) <;> simp [h]
    · rintro ((h | h) | h) <;> simp [h]

/-- The set of the members of a list. -/
def ofList (xs : List Nat) : IdSet := (∅ : IdSet).insertMany xs

@[simp] theorem mem_ofList : y ∈ ofList xs ↔ y ∈ xs := by
  simp [ofList]

/-! ### Selection and union -/

/-- The members that satisfy `p`. -/
def filter (p : Nat → Bool) (s : IdSet) : IdSet := ⟨s.toList.filter p, s.ascending.filter p⟩

@[simp] theorem mem_filter {p : Nat → Bool} : x ∈ s.filter p ↔ x ∈ s ∧ p x = true := List.mem_filter

/-- The members of either set. -/
def union (s t : IdSet) : IdSet := s.insertMany t.toList

@[simp] theorem mem_union : x ∈ s.union t ↔ x ∈ s ∨ x ∈ t := by
  rw [union, mem_insertMany, Or.comm]
  exact Iff.rfl

/-- Whether the set has no member. -/
def isEmpty (s : IdSet) : Bool := s.toList.isEmpty

/-- Whether every member of `s` is one of `t`. -/
def isSubset (s t : IdSet) : Bool := s.toList.all (· ∈ t)

theorem isSubset_iff : s.isSubset t = true ↔ ∀ x ∈ s, x ∈ t := by
  simp [isSubset, mem_def]

/-- The number of members. -/
def size (s : IdSet) : Nat := s.toList.length

/-- An ascending list is determined by its members. -/
theorem eq_of_mem_iff (hx : xs.Pairwise (· < ·)) (hy : ys.Pairwise (· < ·))
    (h : ∀ a, a ∈ xs ↔ a ∈ ys) : xs = ys := by
  induction xs generalizing ys with
  | nil =>
    cases ys with
    | nil => rfl
    | cons y ys => exact absurd ((h y).2 (by simp)) (by simp)
  | cons x xs ih =>
    cases ys with
    | nil => exact absurd ((h x).1 (by simp)) (by simp)
    | cons y ys =>
      obtain ⟨hx₁, hx₂⟩ := List.pairwise_cons.1 hx
      obtain ⟨hy₁, hy₂⟩ := List.pairwise_cons.1 hy
      have hxy : x = y := by
        rcases List.mem_cons.1 ((h x).1 (by simp)) with hh | hh
        · exact hh
        · rcases List.mem_cons.1 ((h y).2 (by simp)) with hk | hk
          · exact hk.symm
          · have h₁ := hy₁ x hh
            have h₂ := hx₁ y hk
            omega
      subst hxy
      congr 1
      refine ih hx₂ hy₂ fun a => ?_
      constructor
      · intro ha
        rcases List.mem_cons.1 ((h a).1 (List.mem_cons_of_mem _ ha)) with hh | hh
        · have := hx₁ a ha
          omega
        · exact hh
      · intro ha
        rcases List.mem_cons.1 ((h a).2 (List.mem_cons_of_mem _ ha)) with hh | hh
        · have := hy₁ a ha
          omega
        · exact hh

/-- **A set is determined by its members.** -/
@[ext] theorem ext (h : ∀ x, x ∈ s ↔ x ∈ t) : s = t := by
  obtain ⟨xs, hx⟩ := s
  obtain ⟨ys, hy⟩ := t
  have hxy : xs = ys := eq_of_mem_iff hx hy h
  subst hxy
  rfl

end IdSet

end Resumable
