/-
**Runs of a machine.**

A machine is deterministic, so of two states that it gets to one comes after the other.  What a
machine does does not depend on the tasks below those that it works on.  The history of native calls
grows by at most one call in a step, so a run passes through every history between its first and
its last.

Main results:

* `Machine.Steps.total` — **runs are linear**;
* `Machine.finishes_iff` — the results that `Machine.run?` computes are those of the last states;
* `Machine.Steps.atop` — tasks below do not matter;
* `Machine.exists_calls_between` — the histories of a run have no gaps;
* `Machine.simulate` — **a simulation ends on both sides, or goes on for ever on both**.
-/

import Mathlib.Logic.Relation
import Resumable.Machine.Step

set_option autoImplicit false

namespace Resumable

open Relation List

/-- Control is with code that runs, that is called, or that is left by an exception or a fault. -/
def Control.isCode : Control → Bool
  | .exec _ | .enter _ _ _ | .unwind _ => true
  | .deliver _ _ | .answer _ => false

namespace Machine

variable {p q : Program} {m m' t t' : Machine}

/-! ### Steps -/

/-- One step. -/
def Step (p : Program) (m m' : Machine) : Prop := m.step? p = some m'

/-- Some steps, or none. -/
def Steps (p : Program) : Machine → Machine → Prop := ReflTransGen (Step p)

/-- At least one step. -/
def Runs (p : Program) : Machine → Machine → Prop := TransGen (Step p)

/-- The machine ends with the given store and result. -/
def Finishes (p : Program) (m : Machine) (s : Store) (r : Except Unwind Value) : Prop :=
  ∃ steps, m.run? p steps = some (s, r)

theorem Step.steps (h : m.Step p m') : m.Steps p m' := .single h

theorem Step.runs (h : m.Step p m') : m.Runs p m' := .single h

theorem Steps.refl (p : Program) (m : Machine) : m.Steps p m := ReflTransGen.refl

variable {k : Machine} {s : Store} {r : Except Unwind Value}

theorem Steps.trans (h : m.Steps p m') (h' : m'.Steps p k) : m.Steps p k :=
  ReflTransGen.trans h h'

theorem Runs.steps (h : m.Runs p m') : m.Steps p m' := TransGen.to_reflTransGen h

theorem Step.runs_trans (h : m.Step p m') (h' : m'.Steps p k) : m.Runs p k :=
  TransGen.head' h h'

theorem Steps.runs_of_step (h : m.Steps p m') (h' : m'.Step p k) : m.Runs p k :=
  TransGen.tail' h h'

theorem Runs.trans_steps (h : m.Runs p m') (h' : m'.Steps p k) : m.Runs p k :=
  TransGen.trans_left h h'

/-- **Runs are linear**: of two states that a machine gets to, one comes after the other. -/
theorem Steps.total {a b : Machine} (ha : m.Steps p a) (hb : m.Steps p b) :
    a.Steps p b ∨ b.Steps p a :=
  ReflTransGen.total_of_right_unique
    (fun _ _ _ h h' => Option.some.inj (Eq.trans (Eq.symm h) h')) ha hb

theorem Steps.eq_of_finished (h : m.Steps p m') (hm : m.step? p = none) : m' = m := by
  rcases ReflTransGen.cases_head h with rfl | ⟨k, hk, _⟩
  · rfl
  · rw [Step, hm] at hk
    cases hk

theorem Runs.not_finished (h : m.Runs p m') : m.step? p ≠ none := by
  intro hm
  obtain ⟨k, hk, _⟩ := TransGen.head'_iff.1 h
  rw [Step, hm] at hk
  cases hk

theorem Steps.of_step (h : m.Steps p k) (hs : m.Step p m') (hne : k ≠ m) : m'.Steps p k := by
  rcases ReflTransGen.cases_head h with rfl | ⟨j, hj, hjk⟩
  · exact absurd rfl hne
  · rw [Step] at hs hj
    rw [hs] at hj
    cases hj
    exact hjk

/-! ### Results -/

/-- **The result of a machine** is that of its last state. -/
theorem finishes_iff :
    m.Finishes p s r ↔ ∃ k, m.Steps p k ∧ k.step? p = none ∧ k.store = s ∧ k.result = r := by
  constructor
  · rintro ⟨steps, h⟩
    induction steps generalizing m with
    | zero => cases h
    | succ steps ih =>
      rw [run?] at h
      split at h
      · rename_i hm
        cases h
        exact ⟨m, .refl p m, hm, rfl, rfl⟩
      · rename_i k hk
        obtain ⟨j, hj, hend⟩ := ih h
        exact ⟨j, (Step.steps hk).trans hj, hend⟩
  · rintro ⟨k, hk, hend, rfl, rfl⟩
    induction hk using ReflTransGen.head_induction_on with
    | refl => exact ⟨1, by rw [run?, hend]⟩
    | head hab _ ih =>
      obtain ⟨steps, hsteps⟩ := ih
      exact ⟨steps + 1, by rw [run?, hab]; exact hsteps⟩

theorem Finishes.of_steps (h : m'.Finishes p s r) (hm : m.Steps p m') : m.Finishes p s r := by
  obtain ⟨k, hk, hend⟩ := finishes_iff.1 h
  exact finishes_iff.2 ⟨k, hm.trans hk, hend⟩

/-- A run that ends passes through every state that the machine gets to. -/
theorem Finishes.after (h : m.Finishes p s r) (hm : m.Steps p m') : m'.Finishes p s r := by
  obtain ⟨k, hk, hend, hs, hr⟩ := finishes_iff.1 h
  rcases hm.total hk with h' | h'
  · exact finishes_iff.2 ⟨k, h', hend, hs, hr⟩
  · rw [h'.eq_of_finished hend]
    exact finishes_iff.2 ⟨k, .refl p k, hend, hs, hr⟩

theorem finishes_answer (p : Program) (s : Store) (v : Value) :
    Finishes p ⟨s, .answer v, []⟩ s (.ok v) :=
  ⟨1, rfl⟩

theorem finishes_unwind (p : Program) (s : Store) (u : Unwind) :
    Finishes p ⟨s, .unwind u, []⟩ s (.error u) :=
  ⟨1, rfl⟩

theorem Finishes.unique {s' : Store} {r' : Except Unwind Value} (h : m.Finishes p s r)
    (h' : m.Finishes p s' r') : s = s' ∧ r = r' := by
  obtain ⟨k, hk, hend, rfl, rfl⟩ := finishes_iff.1 h
  obtain ⟨j, hj, hend', rfl, rfl⟩ := finishes_iff.1 (h'.after hk)
  rw [hj.eq_of_finished hend]
  exact ⟨rfl, rfl⟩

/-- A test of every state of a run, true only if the run ends within the given number of steps. -/
def holdsAlong (p : Program) (ok : Machine → Bool) : Nat → Machine → Bool
  | 0, _ => false
  | steps + 1, m =>
    ok m && match m.step? p with
      | none => true
      | some m' => holdsAlong p ok steps m'

theorem holds_of_holdsAlong {ok : Machine → Bool} {steps : Nat}
    (h : holdsAlong p ok steps m = true) (hm : m.Steps p m') : ok m' = true := by
  induction steps generalizing m with
  | zero => cases h
  | succ steps ih =>
    rw [holdsAlong, Bool.and_eq_true] at h
    rcases ReflTransGen.cases_head hm with rfl | ⟨k, hk, hkm⟩
    · exact h.1
    · have hrest := h.2
      rw [hk] at hrest
      exact ih hrest hkm

/-- Whether the machine is about to enter a function of one of the given names. -/
def enters (names : List String) (m : Machine) : Bool :=
  match m.control with
  | .enter name _ _ => names.contains name
  | _ => false

/-- Whether the machine unwinds because the calls got too deep. -/
def tooDeep (m : Machine) : Bool :=
  match m.control with
  | .unwind (.fault (.depthLimit _)) => true
  | _ => false

theorem not_mem_of_holdsAlong {names : List String} (steps : Nat)
    (h : holdsAlong p (fun k => !k.enters names) steps m = true) (hk : m.Steps p k) {name : String}
    {args : List Value} {depth : Nat} (hc : k.control = .enter name args depth) : name ∉ names := by
  have hok := holds_of_holdsAlong h hk
  simp only [enters, hc, Bool.not_eq_true', contains_eq_mem, decide_eq_false_iff_not] at hok
  exact hok

theorem not_mem_of_holdsAlong_next {names : List String} (steps : Nat)
    (h : (m.step? p).all (holdsAlong p (fun k => !k.enters names) steps) = true) (hk : m.Runs p k)
    {name : String} {args : List Value} {depth : Nat} (hc : k.control = .enter name args depth) :
    name ∉ names := by
  obtain ⟨m', hstep, hsteps⟩ := TransGen.head'_iff.1 hk
  rw [Step] at hstep
  rw [hstep] at h
  exact not_mem_of_holdsAlong steps h hsteps hc

theorem ne_depthLimit_of_holdsAlong (steps : Nat)
    (h : holdsAlong p (fun k => !k.tooDeep) steps m = true) (hk : m.Steps p k) (limit : Nat) :
    k.control ≠ .unwind (.fault (.depthLimit limit)) := by
  intro hc
  have hok := holds_of_holdsAlong h hk
  simp only [tooDeep, hc] at hok
  cases hok

theorem exists_finishes_throw (steps : Nat)
    (h : ((m.run? p steps).any fun c => c.2 matches .error (.throw _)) = true) :
    ∃ s e, m.Finishes p s (.error (.throw e)) := by
  obtain ⟨⟨s, x⟩, hrun, hx⟩ := (Option.any_eq_true ..).1 h
  split at hx
  · rename_i e heq
    exact ⟨s, e, steps, heq ▸ hrun⟩
  · cases hx

theorem exists_finishes_future (steps : Nat) {q : Nat}
    (h : ((m.run? p steps).any fun c => match c.2 with
      | .ok (.future q') => q' == q
      | _ => false) = true) :
    ∃ s, m.Finishes p s (.ok (.future q)) := by
  obtain ⟨⟨s, x⟩, hrun, hx⟩ := (Option.any_eq_true ..).1 h
  split at hx
  · rename_i q' heq
    rw [eq_of_beq hx] at heq
    exact ⟨s, steps, heq ▸ hrun⟩
  · cases hx

/-! ### Steps of running code -/

/-- Some steps of running code, during which nothing is settled, registered or returned. -/
def Inside (p : Program) : Machine → Machine → Prop :=
  ReflTransGen fun m m' => Step p m m' ∧ (∃ a, m.control = .exec a) ∧ m'.control.isCode = true

theorem Inside.steps (h : m.Inside p m') : m.Steps p m' := by
  induction h with
  | refl => exact .refl p m
  | tail _ h ih => exact ih.trans h.1.steps

theorem Inside.refl (p : Program) (m : Machine) : m.Inside p m := ReflTransGen.refl

theorem Inside.trans (h : m.Inside p m') (h' : m'.Inside p k) : m.Inside p k :=
  ReflTransGen.trans h h'

theorem Step.inside {s' : Store} {a : Activation} {c : Control} {ts ts' : List Task}
    (h : Step p ⟨s, .exec a, ts⟩ ⟨s', c, ts'⟩) (hc : c.isCode = true) :
    Inside p ⟨s, .exec a, ts⟩ ⟨s', c, ts'⟩ :=
  .single ⟨h, ⟨a, rfl⟩, hc⟩

/-! ### Runs that avoid states -/

/-- Some steps, none of them from a state with the given property. -/
def Avoids (p : Program) (P : Machine → Prop) : Machine → Machine → Prop :=
  ReflTransGen fun m m' => Step p m m' ∧ ¬ P m

section Avoids

variable {P : Machine → Prop}

theorem Avoids.steps (h : m.Avoids p P m') : m.Steps p m' := by
  induction h with
  | refl => exact .refl p m
  | tail _ hstep ih => exact ih.trans (Step.steps hstep.1)

theorem Avoids.trans {k : Machine} (h : m.Avoids p P m') (h' : m'.Avoids p P k) :
    m.Avoids p P k :=
  ReflTransGen.trans h h'

theorem Step.avoids (h : m.Step p m') (hm : ¬ P m) : m.Avoids p P m' := .single ⟨h, hm⟩

/-- A state with the property does not come before the end of such a run. -/
theorem Avoids.steps_of_holds {k : Machine} (h : m.Avoids p P m') (hk : m.Steps p k) (hP : P k) :
    m'.Steps p k := by
  induction h using ReflTransGen.head_induction_on with
  | refl => exact hk
  | head hac _ ih =>
    refine ih (hk.of_step hac.1 ?_)
    rintro rfl
    exact hac.2 hP

end Avoids

/-! ### Tasks below -/

/-- The machine with further tasks below its own. -/
def atop (m : Machine) (base : List Task) : Machine := { m with tasks := m.tasks ++ base }

section Over

variable (base : List Task)

theorem act_atop (p : Program) (a : Activation) (tasks : List Task) (c : Store × Action) :
    (act p a tasks c).atop base = act p a (tasks ++ base) c := by
  obtain ⟨s, c⟩ := c
  cases c <;> rfl

theorem execute_atop (p : Program) (s : Store) (a : Activation) (tasks : List Task) :
    (execute p s a tasks).atop base = execute p s a (tasks ++ base) := by
  unfold execute
  split
  · rfl
  · split
    · rw [act_atop]
    · split <;> rfl

theorem call_atop (s : Store) (o : Outcome Value) (tasks : List Task) (c : Callback) :
    (call s o tasks c).atop base = call s o (tasks ++ base) c := by
  cases c <;> rfl

theorem answered_atop (s : Store) (v : Value) (tasks : List Task) (t : Task) :
    (answered s v tasks t).atop base = answered s v (tasks ++ base) t := by
  cases t <;> rfl

theorem unwound_atop (p : Program) (s : Store) (u : Unwind) (tasks : List Task) (t : Task) :
    (unwound p s u tasks t).atop base = unwound p s u (tasks ++ base) t := by
  cases t with
  | caller a keep => cases u <;> rfl
  | resumed outer saved => cases outer <;> rfl
  | deliver o cs => rfl
  | restore saved => rfl

/-- **A step does not depend on the tasks below.** -/
theorem step?_atop (h : m.step? p = some m') : (m.atop base).step? p = some (m'.atop base) := by
  obtain ⟨s, c, ts⟩ := m
  cases c with
  | exec a =>
    cases h
    exact congrArg some (execute_atop base p s a ts).symm
  | enter name args depth =>
    cases h
    rfl
  | deliver o cs =>
    cases cs with
    | nil =>
      cases h
      rfl
    | cons c cs =>
      cases h
      exact congrArg some (call_atop base s o (.deliver o cs :: ts) c).symm
  | answer v =>
    cases ts with
    | nil => cases h
    | cons t ts =>
      cases h
      exact congrArg some (answered_atop base s v ts t).symm
  | unwind u =>
    cases ts with
    | nil => cases h
    | cons t ts =>
      cases h
      exact congrArg some (unwound_atop base p s u ts t).symm

end Over

theorem Steps.atop (h : m.Steps p m') (base : List Task) :
    (m.atop base).Steps p (m'.atop base) := by
  induction h with
  | refl => exact .refl p _
  | tail _ hstep ih => exact ih.trans (Step.steps (step?_atop base hstep))

/-- A machine that has finished hands over a result or unwinds. -/
theorem control_of_finished (h : m.step? p = none) :
    m.tasks = [] ∧ ((∃ v, m.control = .answer v) ∨ ∃ u, m.control = .unwind u) := by
  obtain ⟨s, c, ts⟩ := m
  cases c with
  | exec a => cases h
  | enter name args depth => cases h
  | deliver o cs => cases cs <;> cases h
  | answer v =>
    cases ts with
    | nil => exact ⟨rfl, .inl ⟨v, rfl⟩⟩
    | cons t ts => cases h
  | unwind u =>
    cases ts with
    | nil => exact ⟨rfl, .inr ⟨u, rfl⟩⟩
    | cons t ts => cases h

theorem Finishes.steps_atop {x : Except Unwind Value} (h : m.Finishes p s x) (base : List Task) :
    (m.atop base).Steps p
      ⟨s, match x with | .ok v => .answer v | .error u => .unwind u, base⟩ := by
  obtain ⟨⟨t, control, ts⟩, hk, hlast, rfl, rfl⟩ := finishes_iff.1 h
  obtain ⟨htasks, hcontrol⟩ := control_of_finished hlast
  simp only at htasks hcontrol
  subst htasks
  obtain ⟨w, rfl⟩ | ⟨u, rfl⟩ := hcontrol
  · exact hk.atop base
  · exact hk.atop base

end Machine

/-! ### Settlements -/

theorem register_of_pending {t : Store} {q : Nat} (h : t.outcome? q = none) (c : Callback) :
    t.register q c = ((t.subscribe q c).1, .answer (.bool true)) := by
  cases hq : t.promises[q]? with
  | none => simp only [Store.register, Store.subscribe, hq]
  | some promise =>
    cases promise with
    | pending waiting => simp only [Store.register, Store.subscribe, hq]
    | settled o =>
      rw [Store.outcome?, hq] at h
      cases h

namespace Machine

variable {p : Program} {m m' : Machine}

/-- A machine that settles a promise: whatever a callback does, the other callbacks run and the
settlement is answered. -/
inductive Shielded : Machine → Prop where
  | answer (s : Store) (v : Value) : Shielded ⟨s, .answer v, []⟩
  | deliver (s : Store) (o : Outcome Value) (cs : List Callback) : Shielded ⟨s, .deliver o cs, []⟩
  | inside (m : Machine) (o : Outcome Value) (cs : List Callback) :
      Shielded (m.atop [.deliver o cs])

theorem Shielded.step (h : m.Shielded) (hm : m.Step p m') : m'.Shielded := by
  cases h with
  | answer s v => cases hm
  | deliver s o cs =>
    cases cs with
    | nil =>
      cases hm
      exact .answer s _
    | cons c cs =>
      cases hm
      have hcall := call_atop [.deliver o cs] s o [] c
      rw [nil_append] at hcall
      exact hcall ▸ .inside _ o cs
  | inside k o cs =>
    cases hk : k.step? p with
    | some k' =>
      have hatop := step?_atop [.deliver o cs] hk
      rw [Step] at hm
      rw [hatop] at hm
      cases hm
      exact .inside k' o cs
    | none =>
      -- The callback has ended, and the next one is due.
      obtain ⟨s, control, ts⟩ := k
      obtain ⟨htasks, hcontrol⟩ := control_of_finished hk
      simp only at htasks hcontrol
      subst htasks
      obtain ⟨v, rfl⟩ | ⟨u, rfl⟩ := hcontrol
      · cases hm
        exact .deliver s o cs
      · cases hm
        exact .deliver s o cs

theorem Shielded.steps (h : m.Shielded) (hm : m.Steps p m') : m'.Shielded := by
  induction hm with
  | refl => exact h
  | tail _ hstep ih => exact ih.step hstep

/-- **A settlement never fails.** -/
theorem Shielded.finishes_ok (h : m.Shielded) {s : Store} {x : Except Unwind Value}
    (hm : m.Finishes p s x) : ∃ v, x = .ok v := by
  obtain ⟨k, hk, hlast, -, rfl⟩ := finishes_iff.1 hm
  cases h.steps hk with
  | answer s v => exact ⟨v, rfl⟩
  | deliver s o cs => exact ⟨_, rfl⟩
  | inside k o cs =>
    have htasks := (control_of_finished hlast).1
    simp [atop] at htasks

theorem shielded_settle (s : Store) (q : Nat) (o : Outcome Value) : (settle s q o).Shielded := by
  rw [settle, Store.settle]
  split
  · exact .deliver _ _ _
  · exact .answer _ _

theorem shielded_subscribe (s : Store) (q : Nat) (c : Callback) : (subscribe s q c).Shielded := by
  rw [subscribe, Store.register]
  split
  · exact .deliver _ _ _
  · exact .answer _ _

theorem shielded_fulfill (s : Store) (q : Nat) (v : Value) : (fulfill s q v).Shielded := by
  cases v with
  | future c =>
    rw [fulfill, Store.fulfill]
    split
    · exact .answer _ _
    · exact shielded_subscribe s c _
  | _ => exact shielded_settle s q _

theorem shielded_reject (s : Store) (q : Nat) (e : Value) : (reject s q e).Shielded :=
  shielded_settle s q (.rejected e)

/-- A machine with tasks below that ends: without them it ends, too. -/
theorem Finishes.of_atop {base : List Task} {s : Store} {x : Except Unwind Value}
    (h : (m.atop base).Finishes p s x) : ∃ s' y, m.Finishes p s' y := by
  obtain ⟨steps, h⟩ := h
  induction steps generalizing m with
  | zero => cases h
  | succ steps ih =>
    cases hm : m.step? p with
    | none => exact ⟨_, _, finishes_iff.2 ⟨m, .refl p m, hm, rfl, rfl⟩⟩
    | some m' =>
      rw [run?, step?_atop base hm] at h
      obtain ⟨s', y, hfinal⟩ := ih h
      exact ⟨s', y, hfinal.of_steps (Step.steps hm)⟩

end Machine

/-! ### Native calls -/

section Calls

variable {p : Program} {m m' : Machine}

theorem Store.calls_subscribe (s : Store) (q : Nat) (c : Callback) :
    (s.subscribe q c).1.calls = s.calls := by
  unfold Store.subscribe
  split <;> rfl

theorem Store.calls_settle (s : Store) (q : Nat) (o : Outcome Value) :
    (s.settle q o).1.calls = s.calls := by
  unfold Store.settle Store.settle?
  split
  · rename_i s' waiting h
    split at h
    · cases h
      rfl
    · cases h
  · rfl

theorem Store.calls_register (s : Store) (q : Nat) (c : Callback) :
    (s.register q c).1.calls = s.calls := by
  have h := s.calls_subscribe q c
  unfold Store.register
  split <;> rename_i heq <;> rw [heq] at h <;> exact h

theorem Store.calls_fulfill (s : Store) (q : Nat) (v : Value) :
    (s.fulfill q v).1.calls = s.calls := by
  unfold Store.fulfill
  split
  · split
    · rfl
    · exact s.calls_register _ _
  · exact s.calls_settle q _

theorem Store.calls_settledPromise (s : Store) (o : Outcome Value) :
    (s.settledPromise o).1.calls = s.calls := by
  unfold Store.settledPromise
  split
  · split
    · rfl
    · exact Store.calls_subscribe _ _ _
  · rfl

theorem Store.calls_perform (s : Store) (r : Request) : (s.perform r).1.calls = s.calls := by
  cases r with
  | settled o =>
    have h : (s.realizeOutcome o).1.calls = s.calls := by
      rcases o with (v | ⟨cls, message⟩) | (v | ⟨cls, message⟩) <;> rfl
    exact (Store.calls_settledPromise _ _).trans h
  | answer v => rfl
  | throw e => rfl
  | note line => rfl
  | pending tag => rfl
  | lookup key => rfl
  | assign key v => rfl
  | invoke name args => rfl

theorem Store.calls_storeSlot? {s t : Store} {f slot : Nat} {v : Value}
    (h : s.storeSlot? f slot v = some t) : t.calls = s.calls := by
  unfold Store.storeSlot? at h
  split at h
  · split at h
    · cases h
      rfl
    · cases h
  · cases h

theorem Activation.calls_exec (a : Activation) (s : Store) (i : Instr) :
    (a.exec s i).1.calls = s.calls := by
  cases i <;>
    simp only [Activation.exec, Activation.computed, Activation.unwrapped, Activation.withFuture,
      Activation.withFrame] <;>
    repeat' split
  all_goals first
    | rfl
    | exact Store.calls_storeSlot? (by assumption)

namespace Machine

theorem calls_enter (p : Program) (s : Store) (name : String) (args : List Value) (depth : Nat) :
    (p.enter s name args depth).1.calls = s.calls ∨
      ∃ c, (p.enter s name args depth).1.calls = c :: s.calls := by
  unfold Program.enter
  split
  · exact .inl rfl
  · split
    · exact .inr ⟨⟨name, args⟩, Store.calls_perform _ _⟩
    · split <;> exact .inl rfl

theorem calls_act (p : Program) (a : Activation) (tasks : List Task) (c : Store × Action) :
    (act p a tasks c).store.calls = c.1.calls := by
  obtain ⟨s, c⟩ := c
  cases c with
  | fulfill b q v => exact s.calls_fulfill q v
  | reject b q e => exact s.calls_settle q _
  | subscribe b q k => exact s.calls_register q k
  | next b => rfl
  | throw e => rfl
  | fault f => rfl
  | call b name args keep => rfl

theorem calls_execute (p : Program) (s : Store) (a : Activation) (tasks : List Task) :
    (execute p s a tasks).store.calls = s.calls := by
  unfold execute
  split
  · rfl
  · split
    · rw [calls_act, Activation.calls_exec]
    · split <;> rfl

theorem calls_unwound (p : Program) (s : Store) (u : Unwind) (tasks : List Task) (t : Task) :
    (unwound p s u tasks t).store.calls = s.calls := by
  cases t with
  | caller a keep => cases u <;> rfl
  | resumed outer saved =>
    cases outer with
    | none => rfl
    | some q => cases u <;> exact Store.calls_settle _ q _
  | deliver o cs => rfl
  | restore saved => rfl

/-- **A step adds at most one native call** to the history. -/
theorem calls_step (h : m.Step p m') :
    m'.store.calls = m.store.calls ∨ ∃ c, m'.store.calls = c :: m.store.calls := by
  obtain ⟨s, c, ts⟩ := m
  cases c with
  | exec a =>
    cases h
    exact .inl (calls_execute p s a ts)
  | enter name args depth =>
    cases h
    exact calls_enter p s name args depth
  | deliver o cs =>
    cases cs with
    | nil =>
      cases h
      exact .inl rfl
    | cons c cs =>
      cases h
      cases c with
      | adopt q => exact .inl (s.calls_settle q o)
      | resume d k f a => exact .inl rfl
      | note tag => exact .inl rfl
  | answer v =>
    cases ts with
    | nil => cases h
    | cons t ts =>
      cases h
      cases t <;> exact .inl rfl
  | unwind u =>
    cases ts with
    | nil => cases h
    | cons t ts =>
      cases h
      exact .inl (calls_unwound p s u ts t)

theorem calls_suffix (h : m.Steps p m') : m.store.calls <:+ m'.store.calls := by
  induction h with
  | refl => exact suffix_refl _
  | tail _ hstep ih =>
    rcases calls_step hstep with heq | ⟨c, hc⟩
    · rw [heq]
      exact ih
    · rw [hc]
      exact ih.trans (suffix_cons c _)

/-- **The histories of a run have no gaps**: the run passes through every history between its first
and its last. -/
theorem exists_calls_between (h : m.Steps p m') {cs : List NativeCall}
    (hm : m.store.calls <:+ cs) (hcs : cs <:+ m'.store.calls) :
    ∃ k, m.Steps p k ∧ k.Steps p m' ∧ k.store.calls = cs := by
  induction h with
  | refl => exact ⟨m, .refl p m, .refl p m, hm.eq_of_length_le hcs.length_le⟩
  | @tail j k hmj hjk ih =>
    have hsteps : m.Steps p j := hmj
    have hlast : cs = k.store.calls → ∃ i, m.Steps p i ∧ i.Steps p k ∧ i.store.calls = cs :=
      fun heq => ⟨k, hsteps.trans (Step.steps hjk), .refl p k, heq.symm⟩
    have hrest : cs <:+ j.store.calls → ∃ i, m.Steps p i ∧ i.Steps p k ∧ i.store.calls = cs := by
      intro hj
      obtain ⟨i, hi, hij, heq⟩ := ih hj
      exact ⟨i, hi, hij.trans (Step.steps hjk), heq⟩
    rcases calls_step hjk with heq | ⟨c, hc⟩
    · exact hrest (heq ▸ hcs)
    · rw [hc] at hcs
      rcases suffix_cons_iff.1 hcs with heq | hj
      · exact hlast (heq.trans hc.symm)
      · exact hrest hj

end Machine

end Calls

/-! ### Simulation -/

namespace Machine

variable {p q : Program} {R T : Machine → Machine → Prop} {m t : Machine}

/-- Two machines that go on for ever, side by side: whatever either gets to, it meets the other
again later. -/
structure Endless (p q : Program) (R : Machine → Machine → Prop) (m t : Machine) : Prop where
  source : ∀ k, m.Steps p k →
    k.step? p ≠ none ∧ ∃ m' t', k.Steps p m' ∧ t.Steps q t' ∧ R m' t'
  target : ∀ k, t.Steps q k →
    k.step? q ≠ none ∧ ∃ m' t', m.Steps p m' ∧ k.Steps q t' ∧ R m' t'

/-- If machines that meet always meet again, then after every state of the first there is a state in
which it meets the second. -/
theorem exists_meeting
    (hstep : ∀ m t, R m t → ∃ m' t', m.Runs p m' ∧ t.Runs q t' ∧ R m' t') (h : R m t) {k : Machine}
    (hk : m.Steps p k) : ∃ m' t', k.Steps p m' ∧ t.Steps q t' ∧ R m' t' := by
  induction hk with
  | refl => exact ⟨m, t, .refl p m, .refl q t, h⟩
  | @tail j k _ hjk ih =>
    obtain ⟨m', t', hm', ht', hR⟩ := ih
    by_cases hj : m' = j
    · obtain ⟨m'', t'', hm'', ht'', hR'⟩ := hstep m' t' hR
      have hne : k.Steps p m'' := by
        obtain ⟨i, hi, him⟩ := TransGen.head'_iff.1 hm''
        rw [hj, Step, hjk] at hi
        cases hi
        exact him
      exact ⟨m'', t'', hne, ht'.trans ht''.steps, hR'⟩
    · exact ⟨m', t', hm'.of_step hjk hj, ht', hR⟩

theorem not_finished_of_meeting
    (hstep : ∀ m t, R m t → ∃ m' t', m.Runs p m' ∧ t.Runs q t' ∧ R m' t') {k m' t' : Machine}
    (hk : k.Steps p m') (hR : R m' t') : k.step? p ≠ none := by
  intro hend
  obtain ⟨m'', t'', hm'', -⟩ := hstep m' t' hR
  rw [hk.eq_of_finished hend] at hm''
  exact hm''.not_finished hend

theorem endless_of_forall
    (hstep : ∀ m t, R m t → ∃ m' t', m.Runs p m' ∧ t.Runs q t' ∧ R m' t') (h : R m t) :
    Endless p q R m t where
  source k hk := by
    obtain ⟨m', t', hm', ht', hR⟩ := exists_meeting hstep h hk
    exact ⟨not_finished_of_meeting hstep hm' hR, m', t', hm', ht', hR⟩
  target k hk := by
    have hstep' : ∀ t m, R m t → ∃ t' m', t.Runs q t' ∧ m.Runs p m' ∧ R m' t' := by
      intro t m hR
      obtain ⟨m', t', hm', ht', hR'⟩ := hstep m t hR
      exact ⟨t', m', ht', hm', hR'⟩
    obtain ⟨t', m', ht', hm', hR⟩ := exists_meeting (R := fun t m => R m t) hstep' h hk
    exact ⟨not_finished_of_meeting (R := fun t m => R m t) hstep' ht' hR, m', t', hm', ht', hR⟩

theorem Endless.of_steps {m' t' : Machine} (h : Endless p q R m' t') (hm : m.Steps p m')
    (ht : t.Steps q t') : Endless p q R m t where
  source k hk := by
    obtain ⟨hgoes, m₁, t₁, hm₁, ht₁, hR⟩ := h.source m' (.refl p m')
    rcases hk.total hm with hkm | hmk
    · refine ⟨fun hlast => hgoes ?_, m₁, t₁, hkm.trans hm₁, ht.trans ht₁, hR⟩
      rwa [hkm.eq_of_finished hlast]
    · obtain ⟨hk', m₂, t₂, hm₂, ht₂, hR'⟩ := h.source k hmk
      exact ⟨hk', m₂, t₂, hm₂, ht.trans ht₂, hR'⟩
  target k hk := by
    obtain ⟨hgoes, m₁, t₁, hm₁, ht₁, hR⟩ := h.target t' (.refl q t')
    rcases hk.total ht with hkt | htk
    · refine ⟨fun hlast => hgoes ?_, m₁, t₁, hm.trans hm₁, hkt.trans ht₁, hR⟩
      rwa [hkt.eq_of_finished hlast]
    · obtain ⟨hk', m₂, t₂, hm₂, ht₂, hR'⟩ := h.target k htk
      exact ⟨hk', m₂, t₂, hm.trans hm₂, ht₂, hR'⟩

theorem Endless.not_finishes_source (h : Endless p q R m t) (s : Store) (x : Except Unwind Value) :
    ¬ m.Finishes p s x := by
  intro hm
  obtain ⟨k, hk, hlast, -⟩ := finishes_iff.1 hm
  exact (h.source k hk).1 hlast

theorem Endless.not_finishes_target (h : Endless p q R m t) (s : Store) (x : Except Unwind Value) :
    ¬ t.Finishes q s x := by
  intro ht
  obtain ⟨k, hk, hlast, -⟩ := finishes_iff.1 ht
  exact (h.target k hk).1 hlast

/-- **Simulation.**  If machines that meet meet again after some steps of both, or come to an end
together, then they come to an end together or go on for ever, side by side. -/
theorem simulate
    (hstep : ∀ m t, R m t → (∃ m' t', m.Runs p m' ∧ t.Runs q t' ∧ R m' t') ∨
      ∃ m' t', m.Steps p m' ∧ t.Steps q t' ∧ T m' t') (h : R m t) :
    (∃ m' t', m.Steps p m' ∧ t.Steps q t' ∧ T m' t') ∨ Endless p q R m t := by
  by_cases hT : ∃ m' t', m.Steps p m' ∧ t.Steps q t' ∧ T m' t'
  · exact .inl hT
  · -- Machines that meet without an end ahead meet again without an end ahead.
    have hstep' : ∀ m t, (R m t ∧ ¬ ∃ m' t', m.Steps p m' ∧ t.Steps q t' ∧ T m' t') →
        ∃ m' t', m.Runs p m' ∧ t.Runs q t' ∧
          (R m' t' ∧ ¬ ∃ m'' t'', m'.Steps p m'' ∧ t'.Steps q t'' ∧ T m'' t'') := by
      rintro m t ⟨hR, hno⟩
      rcases hstep m t hR with ⟨m', t', hm', ht', hR'⟩ | hend
      · refine ⟨m', t', hm', ht', hR', fun ⟨m'', t'', hm'', ht'', hT'⟩ => hno ?_⟩
        exact ⟨m'', t'', hm'.steps.trans hm'', ht'.steps.trans ht'', hT'⟩
      · exact absurd hend hno
    have hend := endless_of_forall hstep' ⟨h, hT⟩
    refine .inr ⟨fun k hk => ?_, fun k hk => ?_⟩
    · obtain ⟨hne, m', t', hm', ht', hR, -⟩ := hend.source k hk
      exact ⟨hne, m', t', hm', ht', hR⟩
    · obtain ⟨hne, m', t', hm', ht', hR, -⟩ := hend.target k hk
      exact ⟨hne, m', t', hm', ht', hR⟩

/-! ### Corresponding histories -/

section Histories

variable {κ : NativeCall → NativeCall} {m' t' : Machine} {k : Machine}

/-- Two runs between states with corresponding histories: every history of the first run has its
counterpart on the second. -/
theorem exists_calls_target (ht : t.Steps q t') (h : t.store.calls = m.store.calls.map κ)
    (h' : t'.store.calls = m'.store.calls.map κ) (hk : m.Steps p k) (hk' : k.Steps p m') :
    ∃ j, t.Steps q j ∧ j.store.calls = k.store.calls.map κ := by
  have hlow : t.store.calls <:+ k.store.calls.map κ := by
    rw [h]
    exact (calls_suffix hk).map κ
  have hhigh : k.store.calls.map κ <:+ t'.store.calls := by
    rw [h']
    exact (calls_suffix hk').map κ
  obtain ⟨j, hj, -, hcalls⟩ := exists_calls_between ht hlow hhigh
  exact ⟨j, hj, hcalls⟩

/-- Two runs between states with corresponding histories: every history of the second run is the
counterpart of one on the first. -/
theorem exists_calls_source (hm : m.Steps p m') (h : t.store.calls = m.store.calls.map κ)
    (h' : t'.store.calls = m'.store.calls.map κ) (hk : t.Steps q k) (hk' : k.Steps q t') :
    ∃ j, m.Steps p j ∧ k.store.calls = j.store.calls.map κ := by
  have hsuffix := calls_suffix hk'
  rw [h', suffix_map_iff] at hsuffix
  obtain ⟨cs, hcs, hcalls⟩ := hsuffix
  have hle : m.store.calls.length ≤ cs.length := by
    have hlength := (calls_suffix hk).length_le
    rwa [h, hcalls, length_map, length_map] at hlength
  have hlow := suffix_of_suffix_length_le (calls_suffix hm) hcs hle
  obtain ⟨j, hj, -, rfl⟩ := exists_calls_between hm hlow hcs
  exact ⟨j, hj, hcalls⟩

/-- Two machines whose histories of native calls are the same up to `κ`, in every state. -/
structure SameCalls (κ : NativeCall → NativeCall) (p q : Program) (m t : Machine) : Prop where
  source : ∀ k, m.Steps p k → ∃ j, t.Steps q j ∧ j.store.calls = k.store.calls.map κ
  target : ∀ j, t.Steps q j → ∃ k, m.Steps p k ∧ j.store.calls = k.store.calls.map κ

theorem Steps.to_last (hm : m.Steps p m') (hlast : m'.step? p = none) (hk : m.Steps p k) :
    k.Steps p m' := by
  rcases hk.total hm with hkm | hmk
  · exact hkm
  · rw [hmk.eq_of_finished hlast]
    exact .refl p m'

/-- A run to its end, and another to a state with the corresponding history: the histories of both
correspond, up to that state. -/
theorem calls_upTo (hm : m.Steps p m') (hlast : m'.step? p = none) (ht : t.Steps q t')
    (h : t.store.calls = m.store.calls.map κ) (h' : t'.store.calls = m'.store.calls.map κ) :
    (∀ k, m.Steps p k → ∃ j, t.Steps q j ∧ j.store.calls = k.store.calls.map κ) ∧
      ∀ j, t.Steps q j →
        t'.Steps q j ∨ ∃ k, m.Steps p k ∧ j.store.calls = k.store.calls.map κ := by
  refine ⟨fun k hk => exists_calls_target ht h h' hk (hm.to_last hlast hk), fun j hj => ?_⟩
  rcases ht.total hj with htj | hjt
  · exact .inl htj
  · exact .inr (exists_calls_source hm h h' hj hjt)

theorem SameCalls.of_finishes {s s' : Store} {x y : Except Unwind Value} (hm : m.Finishes p s x)
    (ht : t.Finishes q s' y) (h : t.store.calls = m.store.calls.map κ)
    (h' : s'.calls = s.calls.map κ) : SameCalls κ p q m t := by
  obtain ⟨m', hm', hend, rfl, -⟩ := finishes_iff.1 hm
  obtain ⟨t', ht', hend', rfl, -⟩ := finishes_iff.1 ht
  obtain ⟨hsource, htarget⟩ := calls_upTo hm' hend ht' h h'
  refine ⟨hsource, fun j hj => ?_⟩
  rcases htarget j hj with htj | hk
  · rw [htj.eq_of_finished hend']
    exact ⟨m', hm', h'⟩
  · exact hk

theorem SameCalls.of_endless (hend : Endless p q R m t)
    (hR : ∀ m t, R m t → t.store.calls = m.store.calls.map κ)
    (h : t.store.calls = m.store.calls.map κ) : SameCalls κ p q m t where
  source k hk := by
    obtain ⟨-, m', t', hm', ht', hmt⟩ := hend.source k hk
    exact exists_calls_target ht' h (hR m' t' hmt) hk hm'
  target j hj := by
    obtain ⟨-, m', t', hm', ht', hmt⟩ := hend.target j hj
    exact exists_calls_source hm' h (hR m' t' hmt) hj ht'

end Histories

end Machine

end Resumable
