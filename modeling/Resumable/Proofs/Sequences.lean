/-
**Lists by position, and computations that can fail.**

General facts that the development uses in several places and that are about none of its notions:
how a computation that is put together from two can end, what a fold that can fail keeps, and what
stands in a list from a position on.
-/

import Mathlib.Data.List.Basic

set_option autoImplicit false

namespace Resumable

open List

/-! ### Computations that can fail -/

section Fail

variable {ε α β : Type}

theorem bind_eq_ok {x : Except ε α} {f : α → Except ε β} {b : β} (h : x >>= f = .ok b) :
    ∃ a, x = .ok a ∧ f a = .ok b := by
  cases x with
  | error e => cases h
  | ok a => exact ⟨a, rfl, h⟩

theorem bind_eq_error {x : Except ε α} {f : α → Except ε β} {e : ε} (h : x >>= f = .error e) :
    x = .error e ∨ ∃ a, x = .ok a ∧ f a = .error e := by
  cases x with
  | error e' =>
    cases h
    exact .inl rfl
  | ok a => exact .inr ⟨a, rfl, h⟩

variable {f : β → α → Except ε β} {xs done : List α} {b r : β}

/-- What every step of a fold that can fail keeps holds of its result. -/
theorem foldlM_ok_induction {P : β → Prop} (h : xs.foldlM f b = .ok r) (hb : P b)
    (hf : ∀ b, ∀ x ∈ xs, ∀ b', P b → f b x = .ok b' → P b') : P r := by
  induction xs generalizing b with
  | nil =>
    cases h
    exact hb
  | cons x xs ih =>
    rw [foldlM_cons] at h
    obtain ⟨b', hx, h⟩ := bind_eq_ok h
    exact ih h (hf b x mem_cons_self b' hb hx) fun c y hy => hf c y (mem_cons_of_mem _ hy)

theorem not_mem_of_nodup_append {x : α} (h : (done ++ x :: xs).Nodup) : x ∉ done :=
  fun hmem => (nodup_append.1 h).2.2 x hmem x mem_cons_self rfl

/-- A fold that can fail, with what it has gone through. -/
theorem foldlM_ok_scan {P : List α → β → Prop} (h : xs.foldlM f b = .ok r)
    (hnodup : (done ++ xs).Nodup) (hb : P done b)
    (hf : ∀ done b, ∀ x ∈ xs, ∀ b', x ∉ done → P done b → f b x = .ok b' → P (done ++ [x]) b') :
    P (done ++ xs) r := by
  induction xs generalizing done b with
  | nil =>
    cases h
    rwa [append_nil]
  | cons x xs ih =>
    rw [foldlM_cons] at h
    obtain ⟨b', hx, h⟩ := bind_eq_ok h
    have hstep := hf done b x mem_cons_self b' (not_mem_of_nodup_append hnodup) hb hx
    rw [append_cons] at hnodup ⊢
    exact ih h hnodup hstep fun d c y hy => hf d c y (mem_cons_of_mem _ hy)

/-- Where a fold fails, an invariant of the steps before still holds. -/
theorem foldlM_error_scan {P : List α → β → Prop} {e : ε} (h : xs.foldlM f b = .error e)
    (hnodup : (done ++ xs).Nodup) (hb : P done b)
    (hf : ∀ done b, ∀ x ∈ xs, ∀ b', x ∉ done → P done b → f b x = .ok b' → P (done ++ [x]) b') :
    ∃ done' b', ∃ x ∈ xs, x ∉ done' ∧ P done' b' ∧ f b' x = .error e := by
  induction xs generalizing done b with
  | nil => cases h
  | cons x xs ih =>
    have hx := not_mem_of_nodup_append hnodup
    rw [foldlM_cons] at h
    rcases bind_eq_error h with hx' | ⟨b', hb', h⟩
    · exact ⟨done, b, x, mem_cons_self, hx, hb, hx'⟩
    · rw [append_cons] at hnodup
      obtain ⟨done', c, y, hy, hrest⟩ := ih h hnodup (hf done b x mem_cons_self b' hx hb hb')
        fun done c y hy => hf done c y (mem_cons_of_mem _ hy)
      exact ⟨done', c, y, mem_cons_of_mem _ hy, hrest⟩

end Fail

/-! ### Positions -/

section Positions

variable {α : Type} {xs ys : List α} {x y : α} {i k : Nat}

/-- What is left from a position on starts with the member there. -/
theorem drop_of_getElem? (h : xs[k]? = some x) : xs.drop k = x :: xs.drop (k + 1) := by
  rw [drop_eq_getElem?_toList_append, h]
  rfl

theorem getElem?_of_drop_eq_cons (h : xs.drop k = x :: ys) :
    xs[k]? = some x ∧ xs.drop (k + 1) = ys := by
  refine ⟨?_, ?_⟩
  · have hfirst := congrArg (·[0]?) h
    simpa using hfirst
  · rw [← tail_drop, h, tail_cons]

theorem pairwise_getElem? {R : α → α → Prop} (h : xs.Pairwise R) (hik : i < k)
    (hx : xs[i]? = some x) (hy : xs[k]? = some y) : R x y := by
  obtain ⟨hi, rfl⟩ := List.getElem?_eq_some_iff.1 hx
  obtain ⟨hk, rfl⟩ := List.getElem?_eq_some_iff.1 hy
  exact pairwise_iff_getElem.1 h i k hi hk hik

/-- Changing the member that comes after some others. -/
theorem modify_middle (front back : List α) (x : α) (f : α → α) :
    (front ++ x :: back).modify front.length f = front ++ f x :: back := by
  induction front with
  | nil => rfl
  | cons z front ih => exact congrArg (z :: ·) ih

theorem mem_of_lookup_eq_some {β γ : Type} [BEq β] [LawfulBEq β] {cs : List (β × γ)} {b : β} {c : γ}
    (h : cs.lookup b = some c) : (b, c) ∈ cs := by
  obtain ⟨front, back, rfl, -⟩ := lookup_eq_some_iff.1 h
  exact mem_append_right _ mem_cons_self

end Positions

end Resumable
