/-
**Accounts of promises.**

The *account* of a promise counts what gives it an outcome: the outcome itself, once it is there,
and the adoptions that are still to run.  Events change accounts and the callbacks that have not
run as entries in a ledger do: to register an adoption is a credit, to run it a debit, and to
settle the promise a credit.  So a promise that adopts an outcome keeps its account.

Main results:

* `Agenda.Turns.callbacks`, `Agenda.Turns.outcomes` — what events add and take;
* `Machine.Records.account` — **the account of a promise changes by credits and debits**;
* `Machine.Records.parked` — dispatchers are parked and resumed.
-/

import Mathlib.Algebra.Order.Group.Multiset
import Mathlib.Tactic.Abel
import Resumable.Proofs.Callbacks

set_option autoImplicit false

namespace Resumable

open List

/-! ### What waits and what is due -/

/-- The callbacks that wait for a promise. -/
def Promise.waiting : Promise → List Callback
  | .pending waiting => waiting
  | .settled _ => []

/-- The promise that takes over an outcome when the callback runs. -/
def Callback.adopts? : Callback → Option Nat
  | .adopt q => some q
  | .resume _ _ _ _ | .note _ => none

/-- The frame of the dispatcher that the callback resumes. -/
def Callback.frame? : Callback → Option Nat
  | .resume _ _ f _ => some f
  | .adopt _ | .note _ => none

namespace Event

/-- The callback that is registered. -/
def registered? : Event → Option Callback
  | .registered _ c => some c
  | _ => none

/-- The callback that is invoked. -/
def invoked? : Event → Option Callback
  | .invoked c _ => some c
  | _ => none

/-- The promise that settles. -/
def settled? : Event → Option Nat
  | .settled q _ => some q
  | _ => none

end Event

namespace Agenda

/-- All callbacks that have not run yet. -/
def callbacks (a : Agenda) : Multiset Callback :=
  ↑(a.promises.toList.flatMap Promise.waiting) + ↑(a.due.map Prod.snd)

/-- One if the promise has an outcome. -/
def outcomes (a : Agenda) (q : Nat) : Nat :=
  match a.promises[q]? with
  | some (.settled _) => 1
  | _ => 0

/-- One member of a list changes. -/
theorem coe_flatMap_set {α β : Type} (f : α → List β) {xs : List α} {i : Nat} {x : α}
    (h : xs[i]? = some x) (y : α) :
    (↑((xs.set i y).flatMap f) : Multiset β) + ↑(f x) = ↑(xs.flatMap f) + ↑(f y) := by
  induction xs generalizing i with
  | nil => cases h
  | cons z zs ih =>
    cases i with
    | zero =>
      cases h
      simp only [set_cons_zero, flatMap_cons, ← Multiset.coe_add]
      abel
    | succ i =>
      simp only [set_cons_succ, flatMap_cons, ← Multiset.coe_add, add_assoc]
      rw [ih h]

theorem callbacks_set {ps : Array Promise} {q : Nat} {x : Promise} (h : ps[q]? = some x)
    (y : Promise) :
    (↑((ps.setIfInBounds q y).toList.flatMap Promise.waiting) : Multiset Callback) + ↑x.waiting =
      ↑(ps.toList.flatMap Promise.waiting) + ↑y.waiting := by
  rw [Array.toList_setIfInBounds]
  exact coe_flatMap_set Promise.waiting (by rw [Array.getElem?_toList]; exact h) y

variable {a b : Agenda} {e : Event} {es : List Event}

/-- **An event adds the callback that it registers and takes the one that it invokes.** -/
theorem callbacks_turns (h : e.Turns a b) :
    a.callbacks + ↑e.registered?.toList = b.callbacks + ↑e.invoked?.toList := by
  cases h with
  | created => simp [callbacks, Event.registered?, Event.invoked?, Promise.waiting]
  | @waits ps due q c waiting hq =>
    have hset := callbacks_set hq (.pending (waiting ++ [c]))
    simp only [Promise.waiting, ← Multiset.coe_add, ← add_assoc] at hset
    rw [add_right_comm, add_left_inj] at hset
    simp only [callbacks, Event.registered?, Event.invoked?, Option.toList_some,
      Option.toList_none, Multiset.coe_nil, add_zero, hset]
    abel
  | @late ps due q c o hq | @invokes ps due c o urgent =>
    have hcons : (↑(c :: due.map Prod.snd) : Multiset Callback) = ↑(due.map Prod.snd) + ↑[c] :=
      add_comm (↑[c] : Multiset Callback) ↑(due.map Prod.snd)
    simp only [callbacks, Event.registered?, Event.invoked?, Option.toList_some,
      Option.toList_none, Multiset.coe_nil, add_zero, map_cons, hcons, add_assoc]
  | @settles ps due q o waiting hq =>
    have hset := callbacks_set hq (.settled o)
    simp only [Promise.waiting, Multiset.coe_nil, add_zero] at hset
    simp only [callbacks, Event.registered?, Event.invoked?, Option.toList_none,
      Multiset.coe_nil, add_zero, map_append, List.map_map, ← Multiset.coe_add, ← hset]
    simp only [Function.comp_def, List.map_id', add_assoc]

theorem Turns.callbacks (h : a.Turns es b) :
    a.callbacks + ↑(es.filterMap Event.registered?) =
      b.callbacks + ↑(es.filterMap Event.invoked?) := by
  induction h with
  | refl => rfl
  | @snoc es e b c _ he ih =>
    have hstep := callbacks_turns he
    have hone : ∀ f : Event → Option Callback, [e].filterMap f = (f e).toList := by
      intro f
      cases hf : f e <;> simp [hf]
    simp only [filterMap_append, hone, ← Multiset.coe_add, ← add_assoc, ih]
    rw [add_right_comm, hstep]
    abel

/-- **An event counts for the promise that it settles.** -/
theorem outcomes_turns (h : e.Turns a b) (q : Nat) :
    b.outcomes q = a.outcomes q + e.settled?.toList.count q := by
  cases h with
  | @created ps due =>
    simp only [outcomes, Event.settled?, Option.toList_none, count_nil, add_zero,
      Array.getElem?_push]
    split_ifs with hq
    · rw [hq, Array.getElem?_eq_none (Nat.le_refl _)]
    · rfl
  | @waits ps due r c waiting hr =>
    simp only [outcomes, Event.settled?, Option.toList_none, count_nil, add_zero]
    by_cases hq : r = q
    · subst hq
      rw [Array.getElem?_setIfInBounds_self_of_lt (Array.getElem?_eq_some_iff.1 hr).1, hr]
    · rw [Array.getElem?_setIfInBounds_ne hq]
  | late hq => rfl
  | @settles ps due r o waiting hr =>
    simp only [outcomes, Event.settled?, Option.toList_some]
    by_cases hq : r = q
    · subst hq
      rw [Array.getElem?_setIfInBounds_self_of_lt (Array.getElem?_eq_some_iff.1 hr).1, hr]
      simp
    · rw [Array.getElem?_setIfInBounds_ne hq, count_singleton, beq_eq_false_iff_ne.2 hq]
      simp
  | invokes => rfl

theorem Turns.outcomes (h : a.Turns es b) (q : Nat) :
    b.outcomes q = a.outcomes q + (es.filterMap Event.settled?).count q := by
  induction h with
  | refl => rfl
  | @snoc es e b c _ he ih =>
    have hone : [e].filterMap Event.settled? = e.settled?.toList := by
      cases hf : e.settled? <;> simp [hf]
    rw [outcomes_turns he, ih, filterMap_append, hone, count_append, add_assoc]

/-- An outcome was there before, or an event gave it. -/
theorem Turns.settled (h : a.Turns es b) {q : Nat} {o : Outcome Value}
    (hq : b.promises[q]? = some (.settled o)) :
    a.promises[q]? = some (.settled o) ∨ .settled q o ∈ es := by
  induction h with
  | refl => exact .inl hq
  | @snoc es e b c _ he ih =>
    have hbefore : b.promises[q]? = some (.settled o) ∨ e = .settled q o := by
      cases he with
      | created => exact .inl (Event.settled_push_pending.1 hq)
      | waits hr => exact .inl ((Event.settled_set_pending hr _).1 hq)
      | late hr => exact .inl hq
      | @settles ps due r o' waiting hr =>
        rw [Event.getElem?_settle hr] at hq
        split_ifs at hq with heq
        · cases hq
          exact .inr (heq ▸ rfl)
        · exact .inl hq
      | invokes => exact .inl hq
    rcases hbefore with hbefore | rfl
    · exact (ih hbefore).imp_right (mem_append_left _)
    · exact .inr (mem_append_right _ mem_cons_self)

end Agenda

/-! ### Machines -/

namespace Machine

/-- The agenda of a machine. -/
def agenda (m : Machine) : Agenda := ⟨m.store.promises, m.due, false⟩

/-- All callbacks of a machine that have not run yet. -/
def callbacks (m : Machine) : Multiset Callback := m.agenda.callbacks

/-- **The account of a promise**: its outcome, if it has one, and the adoptions that are to give it
one. -/
def account (m : Machine) (q : Nat) : Nat :=
  m.agenda.outcomes q + (m.callbacks.filterMap Callback.adopts?).count q

/-- The frames of the dispatchers that are to be resumed. -/
def parked (m : Machine) : Multiset Nat := m.callbacks.filterMap Callback.frame?

/-- **What the events on the way from one machine to another change.** -/
structure Records (m : Machine) (es : List Event) (m' : Machine) : Prop where
  callbacks : m.callbacks + ↑(es.filterMap Event.registered?) =
    m'.callbacks + ↑(es.filterMap Event.invoked?)
  outcomes : ∀ q, m'.agenda.outcomes q = m.agenda.outcomes q + (es.filterMap Event.settled?).count q
  settled : ∀ (q : Nat) (o : Outcome Value), m'.store.promises[q]? = some (.settled o) →
    m.store.promises[q]? = some (.settled o) ∨ .settled q o ∈ es

variable {p : Program} {m m' : Machine} {es : List Event}

theorem Records.of_turns {b : Agenda} (h : m.agenda.Turns es b) (hb : m'.Agrees b) :
    m.Records es m' := by
  have hagenda : b.callbacks = m'.callbacks ∧ ∀ q, b.outcomes q = m'.agenda.outcomes q := by
    obtain ⟨ps, due, urgent⟩ := b
    obtain ⟨rfl, rfl, -⟩ := hb
    exact ⟨rfl, fun _ => rfl⟩
  refine ⟨?_, fun q => ?_, fun q o hq => h.settled (hb.promises ▸ hq)⟩
  · rw [← hagenda.1]
    exact h.callbacks
  · rw [← hagenda.2]
    exact h.outcomes q

theorem Records.of_yields {s : Store} {r : Store × Control} {ts : List Task}
    (hs : m.store.promises = s.promises) (hdue : m.due = ts.flatMap Task.due)
    (h : s.Yields es r) : m.Records es (.of r ts) := by
  obtain ⟨urgent, hturns, hurgent⟩ := h (ts.flatMap Task.due)
  refine .of_turns (b := ⟨r.1.promises, r.2.due ++ ts.flatMap Task.due, urgent⟩) ?_
    ⟨rfl, rfl, hurgent⟩
  rw [agenda, hs, hdue]
  exact hturns

end Machine

/-! ### Credits and debits -/

namespace Event

/-- The promises whose accounts the event raises. -/
def credits : Event → List Nat
  | .settled q _ | .registered _ (.adopt q) => [q]
  | _ => []

/-- The promises whose accounts the event lowers. -/
def debits : Event → List Nat
  | .invoked (.adopt q) _ => [q]
  | _ => []

/-- The frame of a dispatcher that is parked. -/
def parks? : Event → Option Nat
  | .registered _ (.resume _ _ f _) => some f
  | _ => none

/-- The frame of a dispatcher that is resumed. -/
def resumes? : Event → Option Nat
  | .invoked (.resume _ _ f _) _ => some f
  | _ => none

end Event

namespace Machine

variable {m m' : Machine} {es : List Event}

theorem count_credits (es : List Event) (q : Nat) : (es.flatMap Event.credits).count q =
    (es.filterMap Event.settled?).count q +
      ((es.filterMap Event.registered?).filterMap Callback.adopts?).count q := by
  induction es with
  | nil => rfl
  | cons e es ih =>
    rw [flatMap_cons, count_append, ih]
    obtain _ | ⟨_, _ | _ | _⟩ | _ | _ := e <;>
      simp only [Event.credits, Event.settled?, Event.registered?, Callback.adopts?,
        filterMap_cons, count_cons, count_nil] <;> omega

theorem count_debits (es : List Event) (q : Nat) : (es.flatMap Event.debits).count q =
    ((es.filterMap Event.invoked?).filterMap Callback.adopts?).count q := by
  induction es with
  | nil => rfl
  | cons e es ih =>
    rw [flatMap_cons, count_append, ih]
    obtain _ | _ | _ | ⟨_ | _ | _, _⟩ := e <;>
      simp only [Event.debits, Event.invoked?, Callback.adopts?, filterMap_cons,
        count_cons, count_nil] <;> omega

/-- **The account of a promise changes by credits and debits.** -/
theorem Records.account (h : m.Records es m') (q : Nat) :
    m.account q + (es.flatMap Event.credits).count q =
      m'.account q + (es.flatMap Event.debits).count q := by
  have hcallbacks := congrArg (fun c => (Multiset.filterMap Callback.adopts? c).count q) h.callbacks
  simp only [Multiset.filterMap_add, Multiset.count_add, Multiset.filterMap_coe,
    Multiset.coe_count] at hcallbacks
  rw [count_credits, count_debits, Machine.account, Machine.account, h.outcomes q]
  omega

/-- **Dispatchers are parked and resumed.** -/
theorem Records.parked (h : m.Records es m') :
    m.parked + ↑(es.filterMap Event.parks?) = m'.parked + ↑(es.filterMap Event.resumes?) := by
  have hparks : es.filterMap Event.parks? =
      (es.filterMap Event.registered?).filterMap Callback.frame? := by
    rw [filterMap_filterMap]
    congr 1
    funext e
    obtain _ | ⟨_, _ | _ | _⟩ | _ | _ := e <;> rfl
  have hresumes : es.filterMap Event.resumes? =
      (es.filterMap Event.invoked?).filterMap Callback.frame? := by
    rw [filterMap_filterMap]
    congr 1
    funext e
    obtain _ | _ | _ | ⟨_ | _ | _, _⟩ := e <;> rfl
  have hcallbacks := congrArg (Multiset.filterMap Callback.frame?) h.callbacks
  simp only [Multiset.filterMap_add, Multiset.filterMap_coe] at hcallbacks
  rw [hparks, hresumes]
  exact hcallbacks

theorem Records.account_eq (h : m.Records es m') {q : Nat}
    (hq : (es.flatMap Event.credits).count q = (es.flatMap Event.debits).count q) :
    m'.account q = m.account q := by
  have := h.account q
  omega

theorem Records.parked_eq (h : m.Records es m') (hparks : es.filterMap Event.parks? = [])
    (hresumes : es.filterMap Event.resumes? = []) : m'.parked = m.parked := by
  have hparked := h.parked
  rw [hparks, hresumes] at hparked
  exact (add_right_cancel hparked).symm

/-- A callback was there before, or an event registered it. -/
theorem Records.mem_callbacks (h : m.Records es m') {c : Callback} (hc : c ∈ m'.callbacks) :
    c ∈ m.callbacks ∨ ∃ q, .registered q c ∈ es := by
  have hmem : c ∈ m.callbacks + ↑(es.filterMap Event.registered?) := by
    rw [h.callbacks]
    exact Multiset.mem_add.2 (.inl hc)
  refine (Multiset.mem_add.1 hmem).imp_right fun hc => ?_
  obtain ⟨e, he, heq⟩ := mem_filterMap.1 (Multiset.mem_coe.1 hc)
  cases e with
  | registered q c' =>
    cases heq
    exact ⟨q, he⟩
  | created | settled _ _ | invoked _ _ => cases heq

/-- Whoever is about to adopt an outcome has that on its account, next to the outcome that it has.
-/
theorem outcomes_lt_account {q : Nat} (h : .adopt q ∈ m.callbacks) :
    m.agenda.outcomes q < m.account q := by
  have hmem : q ∈ m.callbacks.filterMap Callback.adopts? :=
    (Multiset.mem_filterMap _ _).2 ⟨.adopt q, h, rfl⟩
  have := Multiset.one_le_count_iff_mem.2 hmem
  rw [account]
  omega

end Machine

end Resumable
