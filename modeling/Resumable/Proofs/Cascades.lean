/-
**Settlements that run no code.**

To settle a promise runs its callbacks, and the callback of an adoption settles another promise.  As
long as no callback runs code this is a search along the adoptions: a promise that has settled is
one that was seen before, and a promise that settles puts its callbacks on top of those that are
due.

A promise hands over its callbacks once.  So the callbacks that wait and those that are due get
fewer with every one that is invoked, and the search ends, whatever cycles the adoptions form.

Main results:

* `Machine.Cascades.run` — the machine ends within the bound, and has settled what the search
  visits;
* `Machine.run?_settle` — **a settlement that runs no code ends**, and floods the adoptions.
-/

import Mathlib.Algebra.GroupWithZero.Nat
import Resumable.Proofs.Callbacks
import Resumable.Search

set_option autoImplicit false

namespace Resumable

open Relation List

/-- The callback runs no code. -/
def Callback.IsPassive : Callback → Prop
  | .adopt _ | .note _ => True
  | .resume _ _ _ _ => False

/-- The promise that the callback settles. -/
def Callback.adopter? : Callback → Option Nat
  | .adopt q => some q
  | .note _ | .resume _ _ _ _ => none

/-- The callbacks that wait on a promise. -/
def Promise.callbacks : Promise → List Callback
  | .pending waiting => waiting
  | .settled _ => []

namespace Store

/-- No callback that waits runs code. -/
def Passive (s : Store) : Prop :=
  ∀ (q : Nat) (waiting : List Callback), s.promises[q]? = some (.pending waiting) →
    ∀ c ∈ waiting, c.IsPassive

/-- The promises that adopt a pending one. -/
def adopters (s : Store) (q : Nat) : List Nat :=
  match s.promises[q]? with
  | some (.pending waiting) => waiting.filterMap Callback.adopter?
  | _ => []

/-- The number of callbacks that wait. -/
def load (s : Store) : Nat := (s.promises.toList.map (·.callbacks.length)).sum

/-- **What a settlement does**: the pending promises that adopt the settled one, directly or by way
of other pending ones, settle with its outcome, and no others change. -/
structure Flooded (s : Store) (x : Nat) (o : Outcome Value) (u : Store) : Prop where
  reached : ∀ (q : Nat) (waiting : List Callback), s.promises[q]? = some (.pending waiting) →
    ReflTransGen (fun a b => b ∈ s.adopters a) x q → u.promises[q]? = some (.settled o)
  others : ∀ q, s.isSettled q = true ∨ ¬ ReflTransGen (fun a b => b ∈ s.adopters a) x q →
    u.promises[q]? = s.promises[q]?

/-! ### Searches -/

variable {s u : Store} {o : Outcome Value} {next : Nat → List Nat} {seen stack : List Nat} {d : Nat}

/-- The search along the adoptions has seen the settled promises, and can go on from the others. -/
structure Follows (s : Store) (next : Nat → List Nat) (seen : List Nat) : Prop where
  next : ∀ (q : Nat) (waiting : List Callback), s.promises[q]? = some (.pending waiting) →
    next q = waiting.filterMap Callback.adopter?
  seen : ∀ q < s.promises.size, q ∈ seen ↔ s.isSettled q = true

/-- What the search visits has settled in `u`, and nothing else has changed. -/
def Floods (o : Outcome Value) (next : Nat → List Nat) (stack seen : List Nat) (s u : Store) :
    Prop :=
  ∀ q : Nat, u.promises[q]? =
    if q ∈ Search.visited s.promises.size next stack seen then
      s.promises[q]?.map fun _ => Promise.settled o
    else s.promises[q]?

theorem Floods.of_mem (h : Floods o next stack seen s u) (hd : d ∈ seen) :
    Floods o next (d :: stack) seen s u := by
  rw [Floods, Search.visited_of_mem hd]
  exact h

theorem Floods.of_missing (h : Floods o next stack (d :: seen) s u) (hd : d ∉ seen)
    (hsize : ¬ d < s.promises.size) : Floods o next (d :: stack) seen s u := by
  intro q
  rw [h q, Search.visited_of_not_lt hd hsize]
  simp only [mem_cons]
  by_cases hq : q = d
  · have hnone : s.promises[q]? = none := Array.getElem?_eq_none_iff.2 (by omega)
    simp [hnone]
  · simp [hq]

variable {waiting : List Callback}

theorem Floods.of_pending (hpending : s.promises[d]? = some (.pending waiting))
    (h : Floods o next (next d ++ stack) (d :: seen)
      { s with promises := s.promises.setIfInBounds d (.settled o) } u)
    (hd : d ∉ seen) : Floods o next (d :: stack) seen s u := by
  have hlt := (Array.getElem?_eq_some_iff.1 hpending).1
  intro q
  have hq := h q
  simp only [Array.size_setIfInBounds, Event.getElem?_settle hpending] at hq
  rw [hq, Search.visited_of_lt hd hlt]
  simp only [mem_cons]
  by_cases heq : q = d
  · -- it settles once: it is not visited again
    subst heq
    have hnot : q ∉ Search.visited s.promises.size next (next q ++ stack) (q :: seen) := fun hmem =>
      (Search.nodup_visited _ _ _ _).2 q hmem mem_cons_self
    simp [hnot, hpending]
  · have hne : ¬ d = q := fun h => heq h.symm
    simp [heq, hne]

theorem isSettled_iff {q : Nat} : s.isSettled q = true ↔
    ∃ o, s.promises[q]? = some (.settled o) := by
  rw [isSettled, Option.isSome_iff_exists]
  exact exists_congr fun o => outcome?_eq_some

/-- The search has seen the promise that settles. -/
theorem Follows.settle (h : s.Follows next seen)
    (hpending : s.promises[d]? = some (.pending waiting)) (o : Outcome Value) :
    Follows { s with promises := s.promises.setIfInBounds d (.settled o) } next (d :: seen) := by
  constructor
  · intro q waiting' hq
    simp only [Event.getElem?_settle hpending] at hq
    split at hq
    · cases hq
    · exact h.next q waiting' hq
  · intro q hq
    rw [isSettled_iff, mem_cons]
    simp only [Event.getElem?_settle hpending]
    rw [Array.size_setIfInBounds] at hq
    by_cases heq : q = d
    · subst heq
      simp
    · have hne : ¬ d = q := fun h => heq h.symm
      rw [or_iff_right heq, h.seen q hq, isSettled_iff]
      simp [hne]

theorem Passive.settle (h : s.Passive) (hpending : s.promises[d]? = some (.pending waiting))
    (o : Outcome Value) :
    Passive { s with promises := s.promises.setIfInBounds d (.settled o) } := by
  intro q waiting' hq
  simp only [Event.getElem?_settle hpending] at hq
  split at hq
  · cases hq
  · exact h q waiting' hq

/-! ### Callbacks that wait -/

theorem sum_map_set {α : Type} (f : α → Nat) {xs : List α} {i : Nat} {x : α} (h : xs[i]? = some x)
    (y : α) : ((xs.set i y).map f).sum + f x = (xs.map f).sum + f y := by
  induction xs generalizing i with
  | nil => cases h
  | cons z zs ih =>
    cases i with
    | zero =>
      cases h
      simp only [set_cons_zero, map_cons, sum_cons]
      omega
    | succ i =>
      have hrest := ih h
      simp only [set_cons_succ, map_cons, sum_cons]
      omega

theorem load_settle (hpending : s.promises[d]? = some (.pending waiting)) (o : Outcome Value) :
    load { s with promises := s.promises.setIfInBounds d (.settled o) } + waiting.length =
      s.load := by
  have hlist : s.promises.toList[d]? = some (.pending waiting) := by
    rw [Array.getElem?_toList]
    exact hpending
  have hsum := sum_map_set (fun c : Promise => c.callbacks.length) hlist (.settled o)
  rw [load, load, Array.toList_setIfInBounds]
  simpa [Promise.callbacks] using hsum

end Store

/-! ### Machines -/

namespace Machine

/-- The promises that the callbacks that are due settle. -/
def targets (m : Machine) : List Nat := m.due.filterMap fun d => d.2.adopter?

/-- A bound for the steps of a settlement that runs no code. -/
def effort (m : Machine) : Nat :=
  3 * (m.store.load + m.due.length) + 2 * m.tasks.length +
    match m.control with
    | .deliver _ _ => 1
    | _ => 0

/-- **A settlement that runs no code**: callbacks are due with one outcome, and none of them, nor of
those that wait, runs code. -/
structure Cascades (o : Outcome Value) (m : Machine) : Prop where
  control : (∃ cs, m.control = .deliver o cs ∧ ∀ c ∈ cs, c.IsPassive) ∨ ∃ v, m.control = .answer v
  tasks : ∀ t ∈ m.tasks, ∃ cs, t = .deliver o cs ∧ ∀ c ∈ cs, c.IsPassive
  store : m.store.Passive

variable {p : Program} {o : Outcome Value} {next : Nat → List Nat} {seen : List Nat}

theorem filterMap_adopter?_map (o : Outcome Value) (cs : List Callback) :
    (cs.map (o, ·)).filterMap (fun d => d.2.adopter?) = cs.filterMap Callback.adopter? := by
  rw [filterMap_map]
  rfl

variable {s : Store}

/-- **A promise is settled**, with further callbacks due.  The search takes it from its stack. -/
theorem cascades_settle (hs : s.Passive) (hfollows : s.Follows next seen) (d : Nat) (ts : List Task)
    (hts : ∀ t ∈ ts, ∃ cs, t = .deliver o cs ∧ ∀ c ∈ cs, c.IsPassive) :
    (of (s.settle d o) ts).Cascades o ∧
      (of (s.settle d o) ts).effort ≤
        3 * (s.load + (ts.flatMap Task.due).length) + 2 * ts.length + 1 ∧
      ∃ seen', (s.settle d o).1.Follows next seen' ∧ ∀ u,
        Store.Floods o next (of (s.settle d o) ts).targets seen' (s.settle d o).1 u →
          Store.Floods o next
            (d :: (ts.flatMap Task.due).filterMap fun c => c.2.adopter?) seen s u := by
  by_cases hpending : ∃ waiting, s.promises[d]? = some (.pending waiting)
  · obtain ⟨waiting, hpending⟩ := hpending
    have hlt := (Array.getElem?_eq_some_iff.1 hpending).1
    have hd : d ∉ seen := by
      rw [hfollows.seen d hlt, Store.isSettled_iff, hpending]
      simp
    have hsettle : s.settle d o =
        ({ s with promises := s.promises.setIfInBounds d (.settled o) }, .deliver o waiting) := by
      rw [Store.settle, Store.settle?, hpending]
    rw [hsettle]
    refine ⟨⟨.inl ⟨waiting, rfl, hs d waiting hpending⟩, hts, hs.settle hpending o⟩, ?_, d :: seen,
      hfollows.settle hpending o, fun u hu => ?_⟩
    · have hload := Store.load_settle hpending o
      simp only [effort, of, due, Control.due, length_append, length_map]
      omega
    · refine Store.Floods.of_pending hpending ?_ hd
      rw [hfollows.next d waiting hpending]
      simpa only [targets, of, due, Control.due, filterMap_append, filterMap_adopter?_map] using hu
  · have hsettle : s.settle d o = (s, .answer (.bool false)) := by
      rw [Store.settle, Store.settle?]
      cases hpromise : s.promises[d]? with
      | none => rfl
      | some promise =>
        cases promise with
        | pending waiting => exact absurd ⟨waiting, hpromise⟩ hpending
        | settled o' => rfl
    rw [hsettle]
    have hcascades : Cascades o (of (s, .answer (.bool false)) ts) := ⟨.inr ⟨_, rfl⟩, hts, hs⟩
    have heffort : (of (s, .answer (.bool false)) ts).effort ≤
        3 * (s.load + (ts.flatMap Task.due).length) + 2 * ts.length + 1 := by
      simp only [effort, of, due, Control.due, nil_append]
      omega
    by_cases hd : d ∈ seen
    · exact ⟨hcascades, heffort, seen, hfollows, fun u hu => Store.Floods.of_mem hu hd⟩
    · have hsize : ¬ d < s.promises.size := by
        intro hlt
        have hnot : s.isSettled d ≠ true := fun h => hd ((hfollows.seen d hlt).2 h)
        rw [ne_eq, Store.isSettled_iff] at hnot
        cases hpromise : s.promises[d] with
        | pending waiting =>
          exact hpending ⟨waiting, Array.getElem?_eq_some_iff.2 ⟨hlt, hpromise⟩⟩
        | settled o' => exact hnot ⟨o', Array.getElem?_eq_some_iff.2 ⟨hlt, hpromise⟩⟩
      refine ⟨hcascades, heffort, d :: seen, ⟨hfollows.next, fun q hq => ?_⟩, fun u hu =>
        Store.Floods.of_missing hu hd hsize⟩
      have hne : q ≠ d := by
        rintro rfl
        exact hsize hq
      rw [mem_cons, or_iff_right hne]
      exact hfollows.seen q hq

/-- **A settlement that runs no code ends** within the bound, and has settled what the search along
the adoptions visits. -/
theorem Cascades.run {m : Machine} (h : m.Cascades o) (hfollows : m.store.Follows next seen)
    {steps : Nat} (hsteps : m.effort < steps) :
    ∃ u v, m.run? p steps = some (u, .ok v) ∧
      Store.Floods o next m.targets seen m.store u := by
  induction steps generalizing m seen with
  | zero => exact absurd hsteps (Nat.not_lt_zero _)
  | succ steps ih =>
    obtain ⟨s, control, ts⟩ := m
    obtain ⟨hcontrol, htasks, hstore⟩ := h
    simp only at hcontrol htasks hstore
    obtain ⟨cs, rfl, hcs⟩ | ⟨v, rfl⟩ := hcontrol
    · cases cs with
      | nil =>
        -- all callbacks have run
        have hless : effort ⟨s, .answer (.bool true), ts⟩ < steps := by
          simp only [effort, due, Control.due, map_nil] at hsteps ⊢
          omega
        obtain ⟨u, v, hrun, hfloods⟩ := ih (m := ⟨s, .answer (.bool true), ts⟩)
          ⟨.inr ⟨_, rfl⟩, htasks, hstore⟩ hfollows hless
        exact ⟨u, v, hrun, hfloods⟩
      | cons c cs =>
        have hts : ∀ t ∈ Task.deliver o cs :: ts,
            ∃ cs, t = .deliver o cs ∧ ∀ c ∈ cs, c.IsPassive := by
          intro t ht
          rcases mem_cons.1 ht with rfl | ht
          · exact ⟨cs, rfl, fun c hc => hcs c (mem_cons_of_mem _ hc)⟩
          · exact htasks t ht
        cases c with
        | adopt d =>
          obtain ⟨hcascades, heffort, seen', hfollows', hback⟩ :=
            cascades_settle hstore hfollows d _ hts
          have hless : (of (s.settle d o) (.deliver o cs :: ts)).effort < steps := by
            simp only [flatMap_cons, Task.due, length_append, length_map,
              length_cons] at heffort
            simp only [effort, due, Control.due, length_append, length_map,
              length_cons] at hsteps
            omega
          obtain ⟨u, v, hrun, hfloods⟩ := ih hcascades hfollows' hless
          exact ⟨u, v, hrun, hback u hfloods⟩
        | note tag =>
          have hload : (call s o (.deliver o cs :: ts) (.note tag)).store.load = s.load := rfl
          have hless : (call s o (.deliver o cs :: ts) (.note tag)).effort < steps := by
            simp only [effort, hload]
            simp only [call, effort, due, Control.due, length_append, length_map,
              length_cons, nil_append, flatMap_cons, Task.due] at hsteps ⊢
            omega
          obtain ⟨u, v, hrun, hfloods⟩ := ih (m := call s o (.deliver o cs :: ts) (.note tag))
            ⟨.inr ⟨_, rfl⟩, hts, hstore⟩ ⟨hfollows.next, hfollows.seen⟩ hless
          exact ⟨u, v, hrun, hfloods⟩
        | resume _ _ _ _ => exact (hcs _ mem_cons_self).elim
    · cases ts with
      | nil =>
        refine ⟨s, v, rfl, fun q => (if_neg ?_).symm⟩
        simp [targets, due, Control.due]
      | cons t ts =>
        obtain ⟨cs, rfl, hcs⟩ := htasks t mem_cons_self
        have hless : effort ⟨s, .deliver o cs, ts⟩ < steps := by
          simp only [effort, due, Control.due, Task.due, flatMap_cons, length_append,
            length_map, length_cons, nil_append] at hsteps ⊢
          omega
        obtain ⟨u, v, hrun, hfloods⟩ := ih (m := ⟨s, .deliver o cs, ts⟩)
          ⟨.inl ⟨cs, rfl, hcs⟩, fun t ht => htasks t (mem_cons_of_mem _ ht), hstore⟩
          hfollows hless
        exact ⟨u, v, hrun, hfloods⟩

/-- What the search along the adoptions visits. -/
theorem reaches_iff {x q : Nat} :
    Search.Reaches s.promises.size s.adopters x q ↔
      ReflTransGen (fun a b => b ∈ s.adopters a) x q := by
  constructor
  · intro h
    induction h with
    | refl a => exact .refl
    | step _ hb _ ih => exact .head hb ih
  · intro h
    induction h using ReflTransGen.head_induction_on with
    | refl => exact .refl q
    | @head a b hb _ ih =>
      refine .step ?_ hb ih
      simp only [Store.adopters] at hb
      split at hb
      · rename_i hpending
        exact (Array.getElem?_eq_some_iff.1 hpending).1
      · cases hb

/-- **A settlement that runs no code ends**, whatever cycles the adoptions form, and floods them.
It is over before anything that waits for it goes on. -/
theorem run?_settle (p : Program) (hs : s.Passive) (x : Nat) (o : Outcome Value) :
    ∃ u v, (Machine.settle s x o).run? p (3 * s.load + 2) = some (u, .ok v) ∧
      (∀ tasks, (of (s.settle x o) tasks).Steps p ⟨u, .answer v, tasks⟩) ∧ s.Flooded x o u := by
  have hfollows : s.Follows s.adopters ((range s.promises.size).filter s.isSettled) := by
    constructor
    · intro q waiting hq
      simp only [Store.adopters, hq]
    · intro q hq
      simp [hq]
  obtain ⟨hcascades, heffort, seen', hfollows', hback⟩ :=
    cascades_settle (o := o) hs hfollows x [] fun t ht => absurd ht not_mem_nil
  obtain ⟨u, v, hrun, hfloods⟩ := hcascades.run (p := p) hfollows' (Nat.lt_succ_of_le heffort)
  have hfloods := hback u hfloods
  -- nothing leads on from a settled promise
  have hclosed : ∀ a ∈ (range s.promises.size).filter s.isSettled, ∀ b ∈ s.adopters a,
      b ∈ (range s.promises.size).filter s.isSettled := by
    intro a ha b hb
    obtain ⟨o', ho'⟩ := Store.isSettled_iff.1 (mem_filter.1 ha).2
    simp only [Store.adopters, ho'] at hb
    cases hb
  have hvisited : ∀ q, q ∈ Search.visited s.promises.size s.adopters [x]
      ((range s.promises.size).filter s.isSettled) ↔
        ¬ (q < s.promises.size ∧ s.isSettled q = true) ∧
          ReflTransGen (fun a b => b ∈ s.adopters a) x q := by
    intro q
    rw [Search.mem_visited_iff hclosed, mem_filter, mem_range]
    simp only [mem_singleton, exists_eq_left, reaches_iff]
  have hfinishes : (Machine.settle s x o).Finishes p u (.ok v) := ⟨_, hrun⟩
  refine ⟨u, v, hrun, fun tasks => hfinishes.steps_atop tasks,
    ⟨fun q waiting hq hreach => ?_, fun q hq => ?_⟩⟩
  · have hnot : s.isSettled q ≠ true := by
      rw [ne_eq, Store.isSettled_iff, hq]
      simp
    rw [hfloods q]
    simp only [flatMap_nil, filterMap_nil]
    rw [if_pos ((hvisited q).2 ⟨fun h => hnot h.2, hreach⟩), hq]
    rfl
  · have hnot : q ∉ Search.visited s.promises.size s.adopters [x]
        ((range s.promises.size).filter s.isSettled) := by
      rw [hvisited]
      rintro ⟨hunseen, hreach⟩
      rcases hq with hq | hq
      · obtain ⟨o', ho'⟩ := Store.isSettled_iff.1 hq
        exact hunseen ⟨(Array.getElem?_eq_some_iff.1 ho').1, hq⟩
      · exact hq hreach
    rw [hfloods q]
    simp only [flatMap_nil, filterMap_nil]
    rw [if_neg hnot]

end Machine

end Resumable
