/-
**What happens to promises.**

A machine makes promises, registers callbacks on them, settles them and invokes callbacks, and a
machine does nothing else to promises.  Each of these is an *event*.  This module reads the events
of a machine off its steps.  A step can have several: to invoke the callback of an adoption settles
the promise that adopts.

The events tell the whole story: the promises of a store and the callbacks that are due change from
state to state as the events say, `Machine.Agrees.step`.  Callbacks that are due stand in a stack,
since what a callback sets off runs before the callbacks after it.

Main results:

* `Machine.Agrees.step` — **a step does what its events say**;
* `Machine.Agrees.trace` — so does a run that ends;
* `History.turns` — so does a host, whose machines are at rest between the operations.
-/

import Resumable.Proofs.Runs

set_option autoImplicit false

namespace Resumable

/-! ### Events -/

/-- What happens to promises and to callbacks on them. -/
inductive Event where
  /-- A promise is made; it has the next number. -/
  | created
  /-- A callback is registered on a promise, which may be pending or not. -/
  | registered (q : Nat) (c : Callback)
  /-- A pending promise gets its outcome. -/
  | settled (q : Nat) (o : Outcome Value)
  /-- A callback is invoked with an outcome. -/
  | invoked (c : Callback) (o : Outcome Value)
deriving Inhabited

namespace Store

/-- The events of settling a promise: none if it is not pending. -/
def settleEvents (s : Store) (q : Nat) (o : Outcome Value) : List Event :=
  match s.promises[q]? with
  | some (.pending _) => [.settled q o]
  | _ => []

/-- The events of registering a callback: none if there is no such promise. -/
def registerEvents (s : Store) (q : Nat) (c : Callback) : List Event :=
  match s.promises[q]? with
  | some _ => [.registered q c]
  | none => []

/-- The events of fulfilling a promise. -/
def fulfillEvents (s : Store) (q : Nat) (v : Value) : List Event :=
  match v with
  | .future r => if s.isSettled q then [] else s.registerEvents r (.adopt q)
  | v => s.settleEvents q (.fulfilled v)

/-- The events of making a promise that is settled at once.  Given the future of a settled promise,
the new promise adopts its outcome at once. -/
def settledPromiseEvents (s : Store) (o : Outcome Value) : List Event :=
  let p := s.promises.size
  match o with
  | .fulfilled (.future q) =>
    match s.outcome? q with
    | some taken =>
      [.created, .registered q (.adopt p), .invoked (.adopt p) taken, .settled p taken]
    | none => .created :: s.newPromise.1.registerEvents q (.adopt p)
  | o => [.created, .settled p o]

/-- The events of what a native function asks for. -/
def performEvents (s : Store) : Request → List Event
  | .pending _ => [.created]
  | .settled o => (s.realizeOutcome o).1.settledPromiseEvents (s.realizeOutcome o).2
  | .answer _ | .throw _ | .note _ | .lookup _ | .assign _ _ | .invoke _ _ => []

end Store

/-- The events of an instruction itself. -/
def Instr.events : Instr → List Event
  | .futureNew => [.created]
  | _ => []

/-- The events of what an instruction leads to. -/
def Action.events (s : Store) : Action → List Event
  | .fulfill _ q v => s.fulfillEvents q v
  | .reject _ q e => s.settleEvents q (.rejected e)
  | .subscribe _ q c => s.registerEvents q c
  | .next _ | .throw _ | .fault _ | .call _ _ _ _ => []

/-- The events of the current instruction of an activation, if it has one. -/
def Activation.events (a : Activation) (s : Store) : List Event :=
  match a.method.block? a.block with
  | none => []
  | some block =>
    match block.instrs[a.offset]? with
    | some i => i.events ++ (a.exec s i).2.events (a.exec s i).1
    | none => []

/-- The events of a callback itself, after it has been invoked. -/
def Callback.events (s : Store) (o : Outcome Value) : Callback → List Event
  | .adopt q => s.settleEvents q o
  | .resume _ _ _ _ | .note _ => []

/-- The events of a call. -/
def Program.enterEvents (p : Program) (s : Store) (name : String) (args : List Value) :
    List Event :=
  if p.markers.contains name then []
  else
    match p.native? name with
    | some f => { s with calls := ⟨name, args⟩ :: s.calls }.performEvents (f s.calls args)
    | none => []

namespace Machine

/-- **The events of the next step.** -/
def events (p : Program) (m : Machine) : List Event :=
  match m.control, m.tasks with
  | .exec a, _ => a.events m.store
  | .enter name args _, _ => p.enterEvents m.store name args
  | .deliver o (c :: _), _ => .invoked c o :: c.events m.store o
  | .unwind u, .resumed (some outer) _ :: _ =>
    (failure m.store u).1.settleEvents outer (.rejected (failure m.store u).2)
  | _, _ => []

/-- The events of a machine that finishes within the given number of steps, and its last store. -/
def trace? (p : Program) : Nat → Machine → Option (List Event × Store)
  | 0, _ => none
  | steps + 1, m =>
    match m.step? p with
    | none => some ([], m.store)
    | some m' => (trace? p steps m').map fun c => (m.events p ++ c.1, c.2)

end Machine

/-! ### What events do -/

/-- Promises, and the callbacks that are due with their outcomes, the next one first. -/
structure Agenda where
  promises : Array Promise
  due : List (Outcome Value × Callback)
  /-- A callback was registered on a settled promise and has to run at once. -/
  urgent : Bool

/-- **What an event does.** -/
inductive Event.Turns : Event → Agenda → Agenda → Prop where
  | created {ps : Array Promise} {due : List (Outcome Value × Callback)} :
      Turns .created ⟨ps, due, false⟩ ⟨ps.push (.pending []), due, false⟩
  | waits {ps : Array Promise} {due : List (Outcome Value × Callback)} {q : Nat} {c : Callback}
      {waiting : List Callback} : ps[q]? = some (.pending waiting) →
      Turns (.registered q c) ⟨ps, due, false⟩
        ⟨ps.setIfInBounds q (.pending (waiting ++ [c])), due, false⟩
  | late {ps : Array Promise} {due : List (Outcome Value × Callback)} {q : Nat} {c : Callback}
      {o : Outcome Value} : ps[q]? = some (.settled o) →
      Turns (.registered q c) ⟨ps, due, false⟩ ⟨ps, (o, c) :: due, true⟩
  | settles {ps : Array Promise} {due : List (Outcome Value × Callback)} {q : Nat}
      {o : Outcome Value} {waiting : List Callback} : ps[q]? = some (.pending waiting) →
      Turns (.settled q o) ⟨ps, due, false⟩
        ⟨ps.setIfInBounds q (.settled o), waiting.map (o, ·) ++ due, false⟩
  | invokes {ps : Array Promise} {due : List (Outcome Value × Callback)} {c : Callback}
      {o : Outcome Value} {urgent : Bool} :
      Turns (.invoked c o) ⟨ps, (o, c) :: due, urgent⟩ ⟨ps, due, false⟩

/-- Events one after the other. -/
inductive Agenda.Turns (a : Agenda) : List Event → Agenda → Prop where
  | refl : Turns a [] a
  | snoc {es : List Event} {e : Event} {b c : Agenda} : Turns a es b → e.Turns b c →
      Turns a (es ++ [e]) c

namespace Agenda

variable {a b c : Agenda} {es es' : List Event} {e : Event}

theorem Turns.one (h : e.Turns a b) : a.Turns [e] b := .snoc .refl h

theorem Turns.trans (h : a.Turns es b) (h' : b.Turns es' c) : a.Turns (es ++ es') c := by
  induction h' with
  | refl =>
    rw [List.append_nil]
    exact h
  | snoc _ he ih =>
    rw [← List.append_assoc]
    exact ih.snoc he

theorem Turns.cons (h : e.Turns a b) (h' : b.Turns es c) : a.Turns (e :: es) c :=
  (Turns.one h).trans h'

end Agenda

/-! ### Settlements -/

/-- The callbacks that the control is about to run. -/
def Control.due : Control → List (Outcome Value × Callback)
  | .deliver o cs => cs.map (o, ·)
  | _ => []

/-- The callbacks that a task keeps. -/
def Task.due : Task → List (Outcome Value × Callback)
  | .deliver o cs => cs.map (o, ·)
  | _ => []

/-- The control is about to run a callback. -/
def Control.Delivers (c : Control) : Prop := ∃ o k ks, c = .deliver o (k :: ks)

/-- The events lead from the store to another and to a control, whatever else is due. -/
def Store.Yields (s : Store) (es : List Event) (r : Store × Control) : Prop :=
  ∀ due, ∃ urgent, Agenda.Turns ⟨s.promises, due, false⟩ es ⟨r.1.promises, r.2.due ++ due, urgent⟩ ∧
    (urgent = true → r.2.Delivers)

namespace Store

variable {s t : Store} {c : Control}

theorem Yields.of_eq (h : t.promises = s.promises) (hc : c.due = []) : s.Yields [] (t, c) := by
  intro due
  refine ⟨false, ?_, nofun⟩
  rw [h, hc]
  exact .refl

theorem Yields.of_promises {es : List Event} {r : Store × Control} (h : t.Yields es r)
    (hp : t.promises = s.promises) : s.Yields es r := by
  unfold Yields at h ⊢
  rw [← hp]
  exact h

theorem yields_settle (s : Store) (q : Nat) (o : Outcome Value) :
    s.Yields (s.settleEvents q o) (s.settle q o) := by
  intro due
  refine ⟨false, ?_, nofun⟩
  unfold settleEvents settle settle?
  cases hq : s.promises[q]? with
  | none => exact .refl
  | some promise =>
    cases promise with
    | pending waiting => exact .one (.settles hq)
    | settled o' => exact .refl

theorem yields_register (s : Store) (q : Nat) (c : Callback) :
    s.Yields (s.registerEvents q c) (s.register q c) := by
  intro due
  unfold registerEvents register subscribe
  cases hq : s.promises[q]? with
  | none => exact ⟨false, .refl, nofun⟩
  | some promise =>
    cases promise with
    | pending waiting => exact ⟨false, .one (.waits hq), nofun⟩
    | settled o => exact ⟨true, .one (.late hq), fun _ => ⟨o, c, [], rfl⟩⟩

theorem yields_fulfill (s : Store) (q : Nat) (v : Value) :
    s.Yields (s.fulfillEvents q v) (s.fulfill q v) := by
  cases v with
  | future r =>
    unfold fulfillEvents fulfill
    dsimp only
    split
    · exact .of_eq rfl rfl
    · exact yields_register s r (.adopt q)
  | _ => exact yields_settle s q _

theorem outcome?_eq_some {q : Nat} {o : Outcome Value} :
    s.outcome? q = some o ↔ s.promises[q]? = some (.settled o) := by
  unfold outcome?
  split
  · rename_i o' ho
    rw [ho]
    simp
  · rename_i hne
    exact ⟨nofun, fun h => absurd h (hne o)⟩

theorem outcome?_newPromise {q : Nat} (h : s.outcome? q = none) :
    s.newPromise.1.outcome? q = none := by
  simp only [outcome?, newPromise, addPromise, Array.getElem?_push] at h ⊢
  by_cases hq : q = s.promises.size
  · rw [if_pos hq]
  · rw [if_neg hq]
    exact h

theorem turns_settledPromise (s : Store) (o : Outcome Value)
    (due : List (Outcome Value × Callback)) :
    Agenda.Turns ⟨s.promises, due, false⟩ (s.settledPromiseEvents o)
      ⟨(s.settledPromise o).1.promises, due, false⟩ := by
  -- A new promise that is settled before anything else happens to it.
  have hsettle : ∀ o, Event.Turns (.settled s.promises.size o)
      ⟨s.promises.push (.pending []), due, false⟩ ⟨s.promises.push (.settled o), due, false⟩ := by
    intro o
    have hnew : (s.promises.push (.pending []))[s.promises.size]? = some (.pending []) := by simp
    have hset : (s.promises.push (.pending [])).setIfInBounds s.promises.size (.settled o) =
        s.promises.push (.settled o) := by
      simp [Array.setIfInBounds, Array.set_push]
    rw [← hset]
    exact .settles hnew
  cases o with
  | rejected e => exact .cons .created (.one (hsettle _))
  | fulfilled v =>
    cases v with
    | future q =>
      cases hq : s.outcome? q with
      | some taken =>
        simp only [settledPromiseEvents, settledPromise, hq]
        have hold := outcome?_eq_some.1 hq
        have hne : q ≠ s.promises.size := by
          rintro rfl
          simp at hold
        have hlate : (s.promises.push (.pending []))[q]? = some (.settled taken) := by
          rw [Array.getElem?_push, if_neg hne, hold]
        exact .cons .created (.cons (.late hlate) (.cons .invokes (.one (hsettle taken))))
      | none =>
        simp only [settledPromiseEvents, settledPromise, hq]
        obtain ⟨urgent, hturns, hurgent⟩ :=
          yields_register s.newPromise.1 q (.adopt s.promises.size) due
        rw [register_of_pending (outcome?_newPromise hq)] at hturns hurgent
        cases urgent with
        | false => exact .cons .created hturns
        | true =>
          obtain ⟨o, k, ks, hcontrol⟩ := hurgent rfl
          cases hcontrol
    | _ => exact .cons .created (.one (hsettle _))

theorem yields_perform (s : Store) (r : Request) : s.Yields (s.performEvents r) (s.perform r) := by
  cases r with
  | pending tag => exact fun due => ⟨false, .one .created, nofun⟩
  | settled o =>
    intro due
    have hpromises : (s.realizeOutcome o).1.promises = s.promises := by
      obtain (v | ⟨cls, message⟩) | (v | ⟨cls, message⟩) := o <;> rfl
    have hturns := turns_settledPromise (s.realizeOutcome o).1 (s.realizeOutcome o).2 due
    rw [hpromises] at hturns
    exact ⟨false, hturns, nofun⟩
  | answer _ | throw _ | note _ | lookup _ | assign _ _ | invoke _ _ => exact .of_eq rfl rfl

end Store

theorem Program.yields_enter (p : Program) (s : Store) (name : String) (args : List Value)
    (depth : Nat) : s.Yields (p.enterEvents s name args) (p.enter s name args depth) := by
  unfold enterEvents enter
  split
  · refine .of_eq rfl ?_
    unfold joinMarker
    split
    · split <;> rfl
    · rfl
  · cases p.native? name with
    | some f => exact Store.yields_perform { s with calls := ⟨name, args⟩ :: s.calls } _
    | none =>
      dsimp only
      split
      · refine .of_eq rfl ?_
        unfold enterMethod
        split
        · rfl
        · split <;> rfl
      · exact .of_eq rfl rfl

variable {s t : Store} {p : Program} {es : List Event}

theorem Store.promises_storeSlot? {f slot : Nat} {v : Value} (h : s.storeSlot? f slot v = some t) :
    t.promises = s.promises := by
  unfold storeSlot? at h
  split at h
  · split at h
    · cases h
      rfl
    · cases h
  · cases h

/-- An instruction makes a promise or leaves the promises as they are. -/
theorem Activation.turns_exec (a : Activation) (s : Store) (i : Instr)
    (due : List (Outcome Value × Callback)) :
    Agenda.Turns ⟨s.promises, due, false⟩ i.events ⟨(a.exec s i).1.promises, due, false⟩ := by
  cases i with
  | futureNew => exact .one .created
  | frameStore frame slot =>
    simp only [exec, withFrame]
    split
    · split
      · split
        · rename_i h
          rw [Store.promises_storeSlot? h]
          exact .refl
        · exact .refl
      · exact .refl
    · exact .refl
  | _ =>
    simp only [exec, computed, unwrapped, withFuture, withFrame]
    repeat' split
    all_goals exact .refl

/-! ### Machines -/

namespace Machine

variable {p : Program} {m m' : Machine} {a : Agenda}

/-- The callbacks that are due, the next one first. -/
def due (m : Machine) : List (Outcome Value × Callback) := m.control.due ++ m.tasks.flatMap Task.due

/-- The agenda of a machine. -/
structure Agrees (m : Machine) (a : Agenda) : Prop where
  promises : a.promises = m.store.promises
  due : a.due = m.due
  urgent : a.urgent = true → m.control.Delivers

theorem due_raise (p : Program) (b : Activation) (e : Value) : (p.raise b e).due = [] := by
  unfold Program.raise
  split <;> rfl

/-- The agenda of a machine that is not about to run a callback. -/
theorem Agrees.eq (h : m.Agrees a) (hc : ¬ m.control.Delivers) :
    a = ⟨m.store.promises, m.tasks.flatMap Task.due, false⟩ := by
  obtain ⟨ps, due, urgent⟩ := a
  have hurgent : urgent = false := Bool.eq_false_iff.2 fun hu => hc (h.urgent hu)
  have hdue : m.control.due = [] := by
    cases hcontrol : m.control with
    | deliver o cs =>
      cases cs with
      | nil => rfl
      | cons k ks => exact absurd ⟨o, k, ks, hcontrol⟩ hc
    | exec _ | enter _ _ _ | answer _ | unwind _ => rfl
  have hdue' : due = m.due := h.due
  rw [Machine.due, hdue, List.nil_append] at hdue'
  rw [hurgent, hdue']
  exact congrArg (Agenda.mk · _ false) h.promises

theorem Agrees.of_yields (h : m.Agrees a) (hc : ¬ m.control.Delivers) {es : List Event}
    {r : Store × Control} {ts : List Task} (hr : m.store.Yields es r)
    (hts : ts.flatMap Task.due = m.tasks.flatMap Task.due) :
    ∃ b, a.Turns es b ∧ (of r ts).Agrees b := by
  obtain ⟨urgent, hturns, hurgent⟩ := hr (m.tasks.flatMap Task.due)
  rw [h.eq hc]
  exact ⟨_, hturns, rfl, hts ▸ rfl, hurgent⟩

theorem Agrees.idle (h : m.Agrees a) (hc : ¬ m.control.Delivers)
    (hp : m'.store.promises = m.store.promises) (hd : m'.due = m.tasks.flatMap Task.due) :
    ∃ b, a.Turns [] b ∧ m'.Agrees b := by
  rw [h.eq hc]
  exact ⟨_, .refl, hp.symm, hd.symm, nofun⟩

theorem exists_yields_act (p : Program) (b : Activation) (ts : List Task) (s : Store)
    (action : Action) :
    ∃ r ts', act p b ts (s, action) = of r ts' ∧ s.Yields (action.events s) r ∧
      ts'.flatMap Task.due = ts.flatMap Task.due := by
  cases action with
  | next b' => exact ⟨(s, .exec b'), ts, rfl, .of_eq rfl rfl, rfl⟩
  | throw e => exact ⟨(s, p.raise b e), ts, rfl, .of_eq rfl (due_raise p b e), rfl⟩
  | fault f => exact ⟨(s, .unwind (.fault f)), ts, rfl, .of_eq rfl rfl, rfl⟩
  | call b' name args keep =>
    exact ⟨(s, .enter name args b'.depth), .caller b' keep :: ts, rfl, .of_eq rfl rfl, rfl⟩
  | fulfill b' q v => exact ⟨_, .caller b' false :: ts, rfl, s.yields_fulfill q v, rfl⟩
  | reject b' q e => exact ⟨_, .caller b' false :: ts, rfl, s.yields_settle q _, rfl⟩
  | subscribe b' q c => exact ⟨_, .caller b' false :: ts, rfl, s.yields_register q c, rfl⟩

theorem exists_yields_execute (p : Program) (s : Store) (b : Activation) (ts : List Task) :
    ∃ r ts', execute p s b ts = of r ts' ∧ s.Yields (b.events s) r ∧
      ts'.flatMap Task.due = ts.flatMap Task.due := by
  unfold execute Activation.events
  cases b.method.block? b.block with
  | none => exact ⟨(s, .unwind _), ts, rfl, .of_eq rfl rfl, rfl⟩
  | some block =>
    dsimp only
    cases block.instrs[b.offset]? with
    | some i =>
      obtain ⟨r, ts', hact, hyields, hts⟩ :=
        exists_yields_act p b ts (b.exec s i).1 (b.exec s i).2
      refine ⟨r, ts', hact, fun due => ?_, hts⟩
      obtain ⟨urgent, hturns, hurgent⟩ := hyields due
      exact ⟨urgent, (b.turns_exec s i due).trans hturns, hurgent⟩
    | none =>
      dsimp only
      split
      · exact ⟨(s, .exec _), ts, rfl, .of_eq rfl rfl, rfl⟩
      · exact ⟨(s, .answer _), ts, rfl, .of_eq rfl rfl, rfl⟩
      · exact ⟨(s, p.raise b _), ts, rfl, .of_eq rfl (due_raise p b _), rfl⟩
      · exact ⟨(s, .unwind _), ts, rfl, .of_eq rfl rfl, rfl⟩

theorem exists_turns_call {s : Store} {o : Outcome Value} {k : Callback} {ks : List Callback}
    {ts : List Task} (h : Agrees ⟨s, .deliver o (k :: ks), ts⟩ a) :
    ∃ b, a.Turns (.invoked k o :: k.events s o) b ∧
      (call s o (.deliver o ks :: ts) k).Agrees b := by
  obtain ⟨ps, due, urgent⟩ := a
  obtain ⟨rfl, rfl, -⟩ := h
  have hinvoke : Event.Turns (.invoked k o)
      ⟨s.promises, (o, k) :: (Task.deliver o ks :: ts).flatMap Task.due, urgent⟩
      ⟨s.promises, (Task.deliver o ks :: ts).flatMap Task.due, false⟩ := .invokes
  cases k with
  | adopt q =>
    obtain ⟨urgent, hturns, hurgent⟩ :=
      s.yields_settle q o ((Task.deliver o ks :: ts).flatMap Task.due)
    exact ⟨_, .cons hinvoke hturns, rfl, rfl, hurgent⟩
  | resume dispatcher state frame ambient => exact ⟨_, .one hinvoke, rfl, rfl, nofun⟩
  | note tag => exact ⟨_, .one hinvoke, rfl, rfl, nofun⟩

theorem promises_failure (s : Store) (u : Unwind) : (failure s u).1.promises = s.promises := by
  cases u <;> rfl

/-- **A step does what its events say.** -/
theorem Agrees.step (h : m.Agrees a) (hm : m.Step p m') :
    ∃ b, a.Turns (m.events p) b ∧ m'.Agrees b := by
  obtain ⟨s, control, ts⟩ := m
  cases control with
  | exec b =>
    cases hm
    obtain ⟨r, ts', heq, hyields, hts⟩ := exists_yields_execute p s b ts
    rw [heq]
    exact h.of_yields nofun hyields hts
  | enter name args depth =>
    cases hm
    exact h.of_yields nofun (p.yields_enter s name args depth) rfl
  | deliver o cs =>
    cases cs with
    | nil =>
      cases hm
      exact h.idle nofun rfl rfl
    | cons k ks =>
      cases hm
      exact exists_turns_call h
  | answer v =>
    cases ts with
    | nil => cases hm
    | cons t ts =>
      cases hm
      cases t with
      | caller b keep | deliver o cs | resumed outer saved | restore saved =>
        exact h.idle nofun rfl rfl
  | unwind u =>
    cases ts with
    | nil => cases hm
    | cons t ts =>
      cases hm
      cases t with
      | caller b keep =>
        cases u with
        | throw e => exact h.idle nofun rfl (congrArg (· ++ _) (due_raise p b e))
        | fault f => exact h.idle nofun rfl rfl
      | deliver o cs => exact h.idle nofun rfl rfl
      | restore saved => exact h.idle nofun rfl rfl
      | resumed outer saved =>
        cases outer with
        | none => exact h.idle nofun rfl rfl
        | some q =>
          have hyields := ((failure s u).1.yields_settle q (.rejected (failure s u).2)).of_promises
            (promises_failure s u)
          exact h.of_yields nofun hyields rfl

/-- **A run does what its events say**, and at its end no callback is due. -/
theorem Agrees.trace {steps : Nat} {es : List Event} {s : Store} (h : m.Agrees a)
    (hm : m.trace? p steps = some (es, s)) : a.Turns es ⟨s.promises, [], false⟩ := by
  induction steps generalizing m a es with
  | zero => cases hm
  | succ steps ih =>
    rw [trace?] at hm
    split at hm
    · rename_i hend
      cases hm
      obtain ⟨htasks, hcontrol⟩ := control_of_finished hend
      have hc : ¬ m.control.Delivers := by
        rintro ⟨o, k, ks, hk⟩
        rw [hk] at hcontrol
        obtain ⟨v, hv⟩ | ⟨u, hu⟩ := hcontrol
        · cases hv
        · cases hu
      rw [h.eq hc, htasks]
      exact .refl
    · rename_i m' hstep
      obtain ⟨⟨es', s'⟩, hes, heq⟩ := Option.map_eq_some_iff.1 hm
      cases heq
      obtain ⟨b, hturns, hagrees⟩ := h.step hstep
      exact hturns.trans (ih hagrees hes)

end Machine

/-! ### Hosts -/

/-- What a host does with promises. -/
inductive Operation where
  /-- Makes a promise. -/
  | new
  /-- Makes a promise that is settled at once. -/
  | settled (o : Outcome Value)
  | subscribe (q : Nat) (c : Callback)
  | fulfill (q : Nat) (v : Value)
  | reject (q : Nat) (e : Value)
  | settle (q : Nat) (o : Outcome Value)
  /-- Calls a function. -/
  | invoke (name : String) (args : List Value)

namespace Operation

/-- The machine that an operation starts. -/
def machine (s : Store) : Operation → Machine
  | .new => ⟨s.newPromise.1, .answer (.future s.newPromise.2), []⟩
  | .settled o => ⟨(s.settledPromise o).1, .answer (.future (s.settledPromise o).2), []⟩
  | .subscribe q c => .subscribe s q c
  | .fulfill q v => .fulfill s q v
  | .reject q e => .reject s q e
  | .settle q o => .settle s q o
  | .invoke name args => .invoke s name args

/-- The events of an operation before the first step of its machine. -/
def events (s : Store) : Operation → List Event
  | .new => [.created]
  | .settled o => s.settledPromiseEvents o
  | .subscribe q c => s.registerEvents q c
  | .fulfill q v => s.fulfillEvents q v
  | .reject q e => s.settleEvents q (.rejected e)
  | .settle q o => s.settleEvents q o
  | .invoke _ _ => []

/-- The events and the last store of an operation that ends within the given number of steps. -/
def trace? (p : Program) (steps : Nat) (s : Store) (op : Operation) : Option (List Event × Store) :=
  ((op.machine s).trace? p steps).map fun c => (op.events s ++ c.1, c.2)

theorem exists_agrees (s : Store) (op : Operation) :
    ∃ b, Agenda.Turns ⟨s.promises, [], false⟩ (op.events s) b ∧ (op.machine s).Agrees b := by
  have hyields : ∀ {es : List Event} {r : Store × Control}, s.Yields es r →
      ∃ b, Agenda.Turns ⟨s.promises, [], false⟩ es b ∧ (Machine.of r []).Agrees b := by
    intro es r hr
    obtain ⟨urgent, hturns, hurgent⟩ := hr []
    exact ⟨_, hturns, rfl, rfl, hurgent⟩
  cases op with
  | new => exact ⟨_, .one .created, rfl, rfl, nofun⟩
  | settled o => exact ⟨_, s.turns_settledPromise o [], rfl, rfl, nofun⟩
  | subscribe q c => exact hyields (s.yields_register q c)
  | fulfill q v => exact hyields (s.yields_fulfill q v)
  | reject q e => exact hyields (s.yields_settle q _)
  | settle q o => exact hyields (s.yields_settle q o)
  | invoke name args => exact ⟨_, .refl, rfl, rfl, nofun⟩

end Operation

/-- **One operation after the other**: from the first store the host gets to the last, by way of the
events.  Each operation is over before the next begins, and in between the host can change
everything in the store but promises. -/
inductive History (p : Program) (s : Store) : List Event → Store → Prop where
  | start : History p s [] s
  | between {es : List Event} {t u : Store} : History p s es t → u.promises = t.promises →
      History p s es u
  | operate {es es' : List Event} {t u : Store} {op : Operation} {steps : Nat} : History p s es t →
      op.trace? p steps t = some (es', u) → History p s (es ++ es') u

/-- Operations one after the other, each within the given number of steps. -/
def Operation.play? (p : Program) (steps : Nat) (s : Store) :
    List Operation → Option (List Event × Store)
  | [] => some ([], s)
  | op :: ops =>
    match op.trace? p steps s with
    | none => none
    | some (es, t) => (play? p steps t ops).map fun c => (es ++ c.1, c.2)

theorem History.trans {u : Store} {es' : List Event} (h : History p s es t)
    (h' : History p t es' u) :
    History p s (es ++ es') u := by
  induction h' with
  | start =>
    rw [List.append_nil]
    exact h
  | between _ hp ih => exact ih.between hp
  | operate _ hop ih =>
    rw [← List.append_assoc]
    exact ih.operate hop

theorem History.of_play {steps : Nat} {ops : List Operation}
    (h : Operation.play? p steps s ops = some (es, t)) : History p s es t := by
  induction ops generalizing s es with
  | nil =>
    cases h
    exact .start
  | cons op ops ih =>
    rw [Operation.play?] at h
    split at h
    · cases h
    · rename_i es₁ s₁ hop
      obtain ⟨⟨es₂, s₂⟩, hplay, heq⟩ := Option.map_eq_some_iff.1 h
      cases heq
      exact (History.operate .start hop).trans (ih hplay)

/-- **A host does what its events say**; between the operations no callback is due. -/
theorem History.turns (h : History p s es t) :
    Agenda.Turns ⟨s.promises, [], false⟩ es ⟨t.promises, [], false⟩ := by
  induction h with
  | start => exact .refl
  | between _ hp ih =>
    rw [hp]
    exact ih
  | @operate es es' t u op steps _ hop ih =>
    obtain ⟨⟨es'', u'⟩, htrace, heq⟩ := Option.map_eq_some_iff.1 hop
    cases heq
    obtain ⟨b, hturns, hagrees⟩ := op.exists_agrees t
    exact ih.trans (hturns.trans (hagrees.trace htrace))

end Resumable
