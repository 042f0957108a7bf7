/-
**The ambient context does not leak.**

A settlement runs callbacks, and these run code that may set the ambient context as it likes, settle
further promises, park again or fail.  Whatever they do, the context after the settlement is the one
before it: while a resumed dispatcher runs, the context of whoever settled the promise waits in a
task below it, and that task is met however the dispatcher ends.

In the other direction, a resumed dispatcher starts in the context of the moment at which the
method was parked.  For this the run of a host is followed from a store without promises, together
with its events, so that every callback that runs can be traced back to the instruction that
registered it.

Main statements:

* `Machine.Framed.step` — what a step preserves;
* `Machine.Framed.ambient_eq` — the context after a settlement;
* `Moment.Leads.exists_suspends` — where a resumption comes from;
* `Machine.ambient_kept` — **the ambient context does not leak across resumptions**.
-/

import Resumable.Proofs.ActivationSteps
import Resumable.Proofs.Callbacks

set_option autoImplicit false

namespace Resumable

open Relation List

/-! ### Settlements leave the context alone -/

namespace Store

theorem ambient_settle (s : Store) (q : Nat) (o : Outcome Value) :
    (s.settle q o).1.ambient = s.ambient := by
  unfold settle settle?
  split
  · rename_i s' waiting h
    split at h
    · cases h
      rfl
    · cases h
  · rfl

theorem isCode_settle (s : Store) (q : Nat) (o : Outcome Value) :
    (s.settle q o).2.isCode = false := by
  unfold settle
  split <;> rfl

theorem ambient_register (s : Store) (q : Nat) (c : Callback) :
    (s.register q c).1.ambient = s.ambient := by
  unfold register subscribe
  cases s.promises[q]? with
  | none => rfl
  | some promise => cases promise <;> rfl

theorem ambient_storeSlot? {s t : Store} {f slot : Nat} {v : Value}
    (h : s.storeSlot? f slot v = some t) : t.ambient = s.ambient := by
  unfold storeSlot? at h
  split at h
  · split at h
    · cases h
      rfl
    · cases h
  · cases h

theorem isCode_register (s : Store) (q : Nat) (c : Callback) :
    (s.register q c).2.isCode = false := by
  unfold register
  split <;> rfl

end Store

/-- The operation settles a promise or registers a callback, so that it runs callbacks and nothing
else. -/
def Operation.runsCallbacks : Operation → Bool
  | .fulfill _ _ | .reject _ _ | .settle _ _ | .subscribe _ _ => true
  | .new | .settled _ | .invoke _ _ => false

/-- The task brings the ambient context back. -/
def Task.BringsBack (a : Ambient) : Task → Prop
  | .resumed _ saved | .restore saved => saved = a
  | .caller _ _ | .deliver _ _ => False

/-- The task holds callbacks that are still to run. -/
def Task.isDeliver : Task → Bool
  | .deliver _ _ => true
  | .caller _ _ | .resumed _ _ | .restore _ => false

namespace Machine

variable {p : Program} {m m' : Machine} {a : Ambient}

/-- **A settlement under way** that began in the ambient context `a`.  Between two callbacks the
context is `a`; inside one, the task that brings it back lies above the remaining callbacks. -/
inductive Framed (a : Ambient) : Machine → Prop where
  | between {s : Store} {c : Control} {ds : List Task} : s.ambient = a → c.isCode = false →
      (∀ d ∈ ds, d.isDeliver = true) → Framed a ⟨s, c, ds⟩
  /-- A callback has failed; the next task is still one of callbacks. -/
  | failed {s : Store} {u : Unwind} {d : Task} {ds : List Task} : s.ambient = a →
      (∀ d' ∈ d :: ds, d'.isDeliver = true) → Framed a ⟨s, .unwind u, d :: ds⟩
  | inside (k : Machine) {t d : Task} {ds : List Task} : t.BringsBack a →
      (∀ d' ∈ d :: ds, d'.isDeliver = true) → Framed a (k.atop (t :: d :: ds))

variable {ds : List Task}

theorem framed_deliver {s : Store} {o : Outcome Value} {cs : List Callback} (hs : s.ambient = a)
    (hds : ∀ d ∈ Task.deliver o cs :: ds, d.isDeliver = true) : Framed a ⟨s, .deliver o cs, ds⟩ :=
  .between hs rfl fun d hd => hds d (mem_cons_of_mem _ hd)

theorem framed_call {s : Store} {o : Outcome Value} {cs : List Callback} (hs : s.ambient = a)
    (hds : ∀ d ∈ ds, d.isDeliver = true) (c : Callback) :
    Framed a (call s o (.deliver o cs :: ds) c) := by
  have hall : ∀ d ∈ Task.deliver o cs :: ds, d.isDeliver = true := by
    intro d hd
    obtain rfl | hd := mem_cons.1 hd
    · rfl
    · exact hds d hd
  cases c with
  | adopt q => exact .between ((s.ambient_settle q o).trans hs) (s.isCode_settle q o) hall
  | resume d k f ambient =>
    exact .inside ⟨{ s with ambient := ambient }, .enter d _ 0, []⟩
      (t := .resumed (s.outer? f) s.ambient) hs hall
  | note tag => exact .between hs rfl hall

/-- A callback has ended, and its context is brought back.  A failure first rejects the future that
stands for the result, which is again a settlement above the same task. -/
theorem framed_of_finished {k : Machine} {t d : Task} (hk : k.step? p = none) (ht : t.BringsBack a)
    (hds : ∀ d' ∈ d :: ds, d'.isDeliver = true) (hm : (k.atop (t :: d :: ds)).Step p m') :
    Framed a m' := by
  obtain ⟨s, control, ts⟩ := k
  obtain ⟨htasks, hcontrol⟩ := control_of_finished hk
  simp only at htasks hcontrol
  subst htasks
  obtain ⟨v, rfl⟩ | ⟨u, rfl⟩ := hcontrol
  · cases t with
    | caller _ _ | deliver _ _ => cases ht
    | resumed outer saved | restore saved =>
      cases hm
      exact .between ht rfl hds
  · cases t with
    | caller _ _ | deliver _ _ => cases ht
    | resumed outer saved =>
      cases hm
      cases outer with
      | none => exact .between ht rfl hds
      | some q =>
        exact .inside (of ((failure s u).1.reject q (failure s u).2) [])
          (t := .restore saved) ht hds
    | restore saved =>
      cases hm
      exact .failed ht hds

theorem Framed.step (h : m.Framed a) (hm : m.Step p m') : m'.Framed a := by
  cases h with
  | @between s c ds hs hc hds =>
    cases c with
    | exec _ | enter _ _ _ | unwind _ => cases hc
    | deliver o cs =>
      cases cs with
      | nil =>
        cases hm
        exact .between hs rfl hds
      | cons c cs =>
        cases hm
        exact framed_call hs hds c
    | answer v =>
      cases ds with
      | nil => cases hm
      | cons d ds =>
        cases d with
        | deliver o cs =>
          cases hm
          exact framed_deliver hs hds
        | caller _ _ | resumed _ _ | restore _ => cases hds _ mem_cons_self
  | @failed s u d ds hs hds =>
    cases d with
    | deliver o cs =>
      cases hm
      exact framed_deliver hs hds
    | caller _ _ | resumed _ _ | restore _ => cases hds _ mem_cons_self
  | @inside k t d ds ht hds =>
    cases hk : k.step? p with
    | none => exact framed_of_finished hk ht hds hm
    | some k' =>
      have hatop := step?_atop (t :: d :: ds) hk
      rw [Step, hatop] at hm
      cases hm
      exact .inside k' ht hds

theorem Framed.steps (h : m.Framed a) (hm : m.Steps p m') : m'.Framed a := by
  induction hm with
  | refl => exact h
  | tail _ hstep ih => exact ih.step hstep

/-- **The context after a settlement.** -/
theorem Framed.ambient_eq (h : m.Framed a) (hm : m.step? p = none) : m.store.ambient = a := by
  cases h with
  | between hs _ _ => exact hs
  | failed hs _ => exact hs
  | inside k _ _ =>
    have htasks := (control_of_finished hm).1
    simp [atop] at htasks

end Machine

namespace Operation

theorem framed_machine {op : Operation} (hop : op.runsCallbacks = true) (s : Store) :
    (op.machine s).Framed s.ambient := by
  have hnone : ∀ t ∈ ([] : List Task), t.isDeliver = true := fun _ ht => absurd ht not_mem_nil
  have hsettle (q : Nat) (o : Outcome Value) : (Machine.settle s q o).Framed s.ambient :=
    .between (s.ambient_settle q o) (s.isCode_settle q o) hnone
  have hregister (q : Nat) (c : Callback) : (Machine.subscribe s q c).Framed s.ambient :=
    .between (s.ambient_register q c) (s.isCode_register q c) hnone
  cases op with
  | new | settled _ | invoke _ _ => cases hop
  | subscribe q c => exact hregister q c
  | reject q e => exact hsettle q (.rejected e)
  | settle q o => exact hsettle q o
  | fulfill q v =>
    cases v with
    | future r =>
      rw [machine, Machine.fulfill, Store.fulfill]
      split
      · exact .between rfl rfl hnone
      · exact hregister r (.adopt q)
    | _ => exact hsettle q _

theorem shielded_machine {op : Operation} (hop : op.runsCallbacks = true) (s : Store) :
    (op.machine s).Shielded := by
  cases op with
  | new | settled _ | invoke _ _ => cases hop
  | subscribe q c => exact Machine.shielded_subscribe s q c
  | reject q e => exact Machine.shielded_reject s q e
  | settle q o => exact Machine.shielded_settle s q o
  | fulfill q v => exact Machine.shielded_fulfill s q v

end Operation

/-! ### Settlements inside running code -/

/-- The operation that an instruction leads to, with the activation that waits for it. -/
def Action.operation? : Action → Option (Activation × Operation)
  | .fulfill b q v => some (b, .fulfill q v)
  | .reject b q e => some (b, .reject q e)
  | .subscribe b q c => some (b, .subscribe q c)
  | .next _ | .throw _ | .fault _ | .call _ _ _ _ => none

theorem Action.runsCallbacks_of_operation? {action : Action} {b : Activation} {op : Operation}
    (h : action.operation? = some (b, op)) : op.runsCallbacks = true := by
  cases action <;> cases h <;> rfl

/-- No instruction changes the context. -/
theorem Activation.ambient_exec (a : Activation) (s : Store) (i : Instr) :
    (a.exec s i).1.ambient = s.ambient := by
  cases i with
  | frameStore frame slot =>
    simp only [exec, withFrame]
    split
    · split
      · split
        · rename_i h
          exact Store.ambient_storeSlot? h
        · rfl
      · rfl
    · rfl
  | _ =>
    simp only [exec, computed, unwrapped, withFuture, withFrame]
    repeat' split
    all_goals rfl

namespace Machine

variable {p : Program} {m m' x : Machine}

/-- A state after a machine with tasks below it: the machine is still at work, or it has ended
before. -/
theorem Steps.of_atop {base : List Task} (h : (m.atop base).Steps p x) :
    ∃ k, m.Steps p k ∧ (x = k.atop base ∨ k.step? p = none ∧ (k.atop base).Steps p x) := by
  induction h with
  | refl => exact ⟨m, .refl p m, .inl rfl⟩
  | @tail y x _ hstep ih =>
    obtain ⟨k, hk, rfl | ⟨hend, hrest⟩⟩ := ih
    · cases hnext : k.step? p with
      | none => exact ⟨k, hk, .inr ⟨hnext, Step.steps hstep⟩⟩
      | some k' =>
        have hatop := step?_atop base hnext
        rw [Step, hatop] at hstep
        cases hstep
        exact ⟨k', hk.trans (Step.steps hnext), .inl rfl⟩
    · exact ⟨k, hk, .inr ⟨hend, hrest.trans (Step.steps hstep)⟩⟩

variable {s : Store} {b b' : Activation} {op : Operation}

theorem act_of_operation? {action : Action} (h : action.operation? = some (b', op))
    {tasks : List Task} :
    act p b tasks (s, action) = (op.machine s).atop (.caller b' false :: tasks) := by
  cases action with
  | next _ | throw _ | fault _ | call _ _ _ _ => cases h
  | fulfill _ q v | reject _ q e | subscribe _ q c =>
    cases h
    rfl

theorem step_of_operation? {i : Instr} (hi : b.At i)
    (hop : (b.exec s i).2.operation? = some (b', op)) (tasks : List Task) :
    Step p ⟨s, .exec b, tasks⟩ ((op.machine (b.exec s i).1).atop (.caller b' false :: tasks)) := by
  obtain ⟨block, hblock, hi⟩ := hi
  rw [← act_of_operation? (p := p) (b := b) hop]
  simp only [Step, step?, execute, hblock, hi]

/-- **A settlement inside running code**: the activation waits for it, or it has gone on in the
context in which it came to the instruction. -/
theorem ambient_of_operation? {i : Instr} (hi : b.At i)
    (hop : (b.exec s i).2.operation? = some (b', op)) {tasks : List Task}
    (hx : Steps p ⟨s, .exec b, tasks⟩ x) :
    x = ⟨s, .exec b, tasks⟩ ∨ (∃ above, x.tasks = above ++ .caller b' false :: tasks) ∨
      ∃ t : Store, t.ambient = s.ambient ∧
        Steps p ⟨s, .exec b, tasks⟩ ⟨t, .exec (b'.advance b'.stack), tasks⟩ ∧
        Steps p ⟨t, .exec (b'.advance b'.stack), tasks⟩ x := by
  have hruns := Action.runsCallbacks_of_operation? hop
  have hfirst := step_of_operation? (p := p) hi hop tasks
  by_cases hne : x = ⟨s, .exec b, tasks⟩
  · exact .inl hne
  obtain ⟨k, hk, rfl | ⟨hend, hrest⟩⟩ := Steps.of_atop (hx.of_step hfirst hne)
  · exact .inr (.inl ⟨k.tasks, rfl⟩)
  -- The settlement has ended with an answer, which the activation does not keep.
  have hambient := ((Operation.framed_machine hruns _).steps hk).ambient_eq hend
  obtain ⟨v, hv⟩ := ((Operation.shielded_machine hruns _).steps hk).finishes_ok
    (finishes_iff.2 ⟨k, .refl p k, hend, rfl, rfl⟩)
  obtain ⟨t, control, ts⟩ := k
  obtain ⟨htasks, hcontrol⟩ := control_of_finished hend
  simp only at htasks hcontrol
  subst htasks
  obtain ⟨w, rfl⟩ | ⟨u, rfl⟩ := hcontrol
  · have hback : Step p (Machine.atop ⟨t, .answer w, []⟩ (.caller b' false :: tasks))
        ⟨t, .exec (b'.advance b'.stack), tasks⟩ := rfl
    by_cases hlast : x = Machine.atop ⟨t, .answer w, []⟩ (.caller b' false :: tasks)
    · exact .inr (.inl ⟨[], hlast ▸ rfl⟩)
    · refine .inr (.inr ⟨t, hambient.trans (b.ambient_exec s i), ?_, hrest.of_step hback hlast⟩)
      exact (hfirst.steps.trans (hk.atop _)).trans hback.steps
  · cases hv

end Machine

/-! ### The run of a host -/

/-- A host does not make resumptions itself. -/
def Operation.plain : Operation → Bool
  | .subscribe _ (.resume _ _ _ _) => false
  | _ => true

/-- A state in the run of a host, with the events up to it. -/
structure Moment where
  events : List Event
  machine : Machine

namespace Moment

/-- **What comes next**: the next step of the machine; or, when that has finished, the next
operation of the host, which can change everything in the store but promises before. -/
inductive Next (p : Program) : Moment → Moment → Prop where
  | step {es : List Event} {m m' : Machine} : m.Step p m' → Next p ⟨es, m⟩ ⟨es ++ m.events p, m'⟩
  | operate {es : List Event} {m : Machine} {t : Store} {op : Operation} : m.step? p = none →
      t.promises = m.store.promises → op.plain = true →
      Next p ⟨es, m⟩ ⟨es ++ op.events t, op.machine t⟩

/-- One moment after the other. -/
def Leads (p : Program) : Moment → Moment → Prop := ReflTransGen (Next p)

/-- Before the first operation. -/
def start (s : Store) : Moment := ⟨[], ⟨s, .answer .null, []⟩⟩

/-- A method is about to be parked: the current instruction asks for `dispatcher` to be called at
`state` with the frame when the promise `q` settles. -/
def Suspends (k : Moment) (q : Nat) (dispatcher : String) (state frame : Nat) : Prop :=
  ∃ a l rest, k.machine.control = .exec a ∧ a.At (.resume dispatcher state l) ∧
    a.locals.get l = .frame frame ∧ a.stack = .future q :: rest

variable {p : Program} {s : Store} {j k : Moment}

/-- The events tell what happened to promises, and which callbacks are due. -/
theorem Leads.turns (h : (start s).Leads p k) :
    ∃ a, Agenda.Turns ⟨s.promises, [], false⟩ k.events a ∧ k.machine.Agrees a := by
  induction h with
  | refl => exact ⟨_, .refl, rfl, rfl, nofun⟩
  | tail _ hnext ih =>
    obtain ⟨a, hturns, hagrees⟩ := ih
    cases hnext with
    | step hstep =>
      obtain ⟨b, hb, hagrees'⟩ := hagrees.step hstep
      exact ⟨b, hturns.trans hb, hagrees'⟩
    | @operate es m t op hend ht _ =>
      obtain ⟨htasks, hcontrol⟩ := Machine.control_of_finished hend
      have hidle : ¬ m.control.Delivers := by
        rintro ⟨o, c, cs, hc⟩
        obtain ⟨v, hv⟩ | ⟨u, hu⟩ := hcontrol
        · cases hc.symm.trans hv
        · cases hc.symm.trans hu
      obtain ⟨b, hb, hagrees'⟩ := op.exists_agrees t
      rw [hagrees.eq hidle, htasks, ← ht] at hturns
      exact ⟨b, hturns.trans hb, hagrees'⟩

end Moment

/-! ### Where resumptions come from -/

namespace Store

variable {s : Store} {q : Nat} {c : Callback} {r : Nat}

theorem registered_of_settleEvents {o : Outcome Value} : .registered q c ∉ s.settleEvents r o := by
  unfold settleEvents
  split <;> simp

theorem registered_of_registerEvents {c' : Callback} (h : .registered q c ∈ s.registerEvents r c') :
    q = r ∧ c = c' ∧ s.registerEvents r c' = [.registered r c'] := by
  unfold registerEvents at h ⊢
  split at h
  · simp only [mem_singleton, Event.registered.injEq] at h
    exact ⟨h.1, h.2, rfl⟩
  · cases h

theorem registered_of_fulfillEvents {v : Value} (h : .registered q c ∈ s.fulfillEvents r v) :
    ∃ r', c = .adopt r' := by
  unfold fulfillEvents at h
  split at h
  · split at h
    · cases h
    · exact ⟨_, (registered_of_registerEvents h).2.1⟩
  · exact absurd h registered_of_settleEvents

theorem registered_of_settledPromiseEvents {o : Outcome Value}
    (h : .registered q c ∈ s.settledPromiseEvents o) : ∃ r', c = .adopt r' := by
  unfold settledPromiseEvents at h
  dsimp only at h
  split at h
  · split at h
    · simp at h
      exact ⟨_, h.2⟩
    · obtain h | h := mem_cons.1 h
      · cases h
      · exact ⟨_, (registered_of_registerEvents h).2.1⟩
  · simp at h

theorem registered_of_performEvents {r : Request} (h : .registered q c ∈ s.performEvents r) :
    ∃ r', c = .adopt r' := by
  cases r with
  | settled o => exact registered_of_settledPromiseEvents h
  | pending _ => simp [performEvents] at h
  | answer _ | throw _ | note _ | lookup _ | assign _ _ | invoke _ _ => cases h

end Store

variable {q n f : Nat} {d : String} {amb : Ambient}

theorem Operation.not_registered_of_plain {op : Operation} (hop : op.plain = true) {s : Store} :
    .registered q (.resume d n f amb) ∉ op.events s := by
  intro h
  cases op with
  | new => simp [events] at h
  | settled o =>
    obtain ⟨r, hr⟩ := Store.registered_of_settledPromiseEvents h
    cases hr
  | subscribe r c =>
    rw [← (Store.registered_of_registerEvents h).2.1] at hop
    cases hop
  | fulfill r v =>
    obtain ⟨r, hr⟩ := Store.registered_of_fulfillEvents h
    cases hr
  | reject _ _ | settle _ _ => exact Store.registered_of_settleEvents h
  | invoke _ _ => cases h

/-- Of all instructions only one registers a resumption, with the context of its moment. -/
theorem Activation.registered_of_exec {a : Activation} {s : Store} {i : Instr}
    (h : .registered q (.resume d n f amb) ∈ i.events ++ (a.exec s i).2.events (a.exec s i).1) :
    ∃ l rest, i = .resume d n l ∧ a.locals.get l = .frame f ∧ a.stack = .future q :: rest ∧
      s.ambient = amb ∧
      i.events ++ (a.exec s i).2.events (a.exec s i).1 = [.registered q (.resume d n f amb)] := by
  cases i with
  | futureNew => simp [Instr.events, exec, Action.events] at h
  | resume d' n' l =>
    simp only [Instr.events, nil_append, exec, withFuture, withFrame] at h ⊢
    split at h
    · rename_i r rest hstack
      split at h
      · rename_i f' hf
        obtain ⟨rfl, heq, hevents⟩ := Store.registered_of_registerEvents h
        cases heq
        rw [hstack]
        exact ⟨l, rest, rfl, hf, rfl, rfl, hevents⟩
      · cases h
    · cases h
    · cases h
  | futureFulfill =>
    simp only [Instr.events, nil_append, exec, withFuture] at h
    split at h
    · split at h
      · obtain ⟨r, hr⟩ := Store.registered_of_fulfillEvents h
        cases hr
      · cases h
      · cases h
    · cases h
  | futureReject =>
    simp only [Instr.events, nil_append, exec, withFuture] at h
    split at h
    · split at h
      · exact absurd h Store.registered_of_settleEvents
      · cases h
      · cases h
    · cases h
  | _ =>
    simp only [Instr.events, nil_append, exec, computed, unwrapped, withFuture, withFrame] at h
    repeat' split at h
    all_goals cases h

/-- **A resumption is registered by the instruction that parks a method**, with the context of its
moment. -/
theorem Moment.suspends_of_registered {p : Program} {k : Moment}
    (h : .registered q (.resume d n f amb) ∈ k.machine.events p) :
    k.Suspends q d n f ∧ k.machine.store.ambient = amb ∧
      k.machine.events p = [.registered q (.resume d n f amb)] := by
  obtain ⟨es, s, control, ts⟩ := k
  cases control with
  | exec a =>
    simp only [Machine.events, Activation.events] at h ⊢
    split at h
    · cases h
    · rename_i block hblock
      split at h
      · rename_i i hi
        obtain ⟨l, rest, rfl, hf, hstack, rfl, hevents⟩ := Activation.registered_of_exec h
        exact ⟨⟨a, l, rest, rfl, ⟨block, hblock, hi⟩, hf, hstack⟩, rfl, hevents⟩
      · cases h
  | enter name args depth =>
    simp only [Machine.events, Program.enterEvents] at h
    split at h
    · cases h
    · split at h
      · obtain ⟨r, hr⟩ := Store.registered_of_performEvents h
        cases hr
      · cases h
  | deliver o cs =>
    cases cs with
    | nil => cases h
    | cons c cs =>
      obtain h | h := mem_cons.1 h
      · cases h
      · cases c with
        | adopt r => exact absurd h Store.registered_of_settleEvents
        | resume _ _ _ _ | note _ => cases h
  | answer v => cases h
  | unwind u =>
    cases ts with
    | nil => cases h
    | cons t ts =>
      cases t with
      | caller _ _ | deliver _ _ | restore _ => cases h
      | resumed outer saved =>
        cases outer with
        | none => cases h
        | some r => exact absurd h Store.registered_of_settleEvents

namespace Moment

variable {p : Program} {s : Store} {j k : Moment}

/-- **Where a resumption comes from**: the event that registers it stands for a moment at which a
method was parked, in the context that the resumption carries. -/
theorem Leads.exists_suspends (h : (start s).Leads p k) {i q : Nat} {d : String} {n f : Nat}
    {amb : Ambient} (hi : k.events[i]? = some (.registered q (.resume d n f amb))) :
    ∃ j, (start s).Leads p j ∧ j.Leads p k ∧ j.events.length = i ∧ j.Suspends q d n f ∧
      j.machine.store.ambient = amb := by
  induction h with
  | refl => simp [start] at hi
  | @tail k' k hk' hnext ih =>
    by_cases hlt : i < k'.events.length
    · -- The event is an old one.
      have hold : k'.events[i]? = some (.registered q (.resume d n f amb)) := by
        cases hnext with
        | step _ | operate _ _ _ =>
          rw [← hi]
          exact (getElem?_append_left hlt).symm
      obtain ⟨j, hj, hjk, hrest⟩ := ih hold
      exact ⟨j, hj, hjk.tail hnext, hrest⟩
    · have hge := Nat.le_of_not_lt hlt
      cases hnext with
      | @step es m m' hstep =>
        rw [getElem?_append_right hge] at hi
        obtain ⟨hsuspends, hambient, hevents⟩ :=
          suspends_of_registered (k := ⟨es, m⟩) (mem_of_getElem? hi)
        rw [hevents] at hi
        have hlength : es.length = i := by
          have hzero : i - es.length < 1 := (List.getElem?_eq_some_iff.1 hi).1
          have hle : es.length ≤ i := hge
          omega
        exact ⟨⟨es, m⟩, hk', .single (.step hstep), hlength, hsuspends, hambient⟩
      | operate _ _ hplain =>
        rw [getElem?_append_right hge] at hi
        exact absurd (mem_of_getElem? hi) (Operation.not_registered_of_plain hplain)

/-- The callback that is next belongs to the registration that is due first. -/
theorem Leads.exists_due (h : (start s).Leads p k) (hs : s.promises = #[]) {o : Outcome Value}
    {c : Callback} {cs : List Callback} (hc : k.machine.control = .deliver o (c :: cs)) :
    ∃ a ran i due, k.machine.Agrees a ∧ Event.Ledger k.events a ran (i :: due) ∧
      ∃ q, k.events[i]? = some (.registered q c) := by
  obtain ⟨a, hturns, hagrees⟩ := h.turns
  rw [hs] at hturns
  obtain ⟨-, ran, due, hledger⟩ := Event.exists_ledger hturns
  have hagenda := hledger.agenda
  rw [hagrees.due, Machine.due, hc] at hagenda
  cases due with
  | nil => cases hagenda
  | cons i due =>
    obtain ⟨⟨q, hi, -⟩, -⟩ := forall₂_cons.1 hagenda
    exact ⟨a, ran, i, due, hagrees, hledger, q, hi⟩

end Moment

/-- **The ambient context does not leak across resumptions.**

* After a host has settled or rejected a promise, or registered a callback, the context is the one
  before, whatever the callbacks did, and the operation has not failed.
* An instruction that does so lets its activation wait, or the activation has gone on behind the
  instruction, and at that point the context was the one before.
* Whenever a callback is about to resume a method, in a run of a host from a store without promises,
  the dispatcher starts in the context that was current when the method was parked: at an earlier
  moment of the run, that of the registration which is due first. -/
theorem Machine.ambient_kept (p : Program) :
    (∀ (s t : Store) (op : Operation) r, op.runsCallbacks = true → (op.machine s).Finishes p t r →
      t.ambient = s.ambient ∧ ∃ v, r = .ok v) ∧
    (∀ (s : Store) (b b' : Activation) i op tasks x, b.At i →
      (b.exec s i).2.operation? = some (b', op) → Steps p ⟨s, .exec b, tasks⟩ x →
      x = ⟨s, .exec b, tasks⟩ ∨ (∃ above, x.tasks = above ++ .caller b' false :: tasks) ∨
        ∃ t : Store, t.ambient = s.ambient ∧
          Steps p ⟨s, .exec b, tasks⟩ ⟨t, .exec (b'.advance b'.stack), tasks⟩ ∧
          Steps p ⟨t, .exec (b'.advance b'.stack), tasks⟩ x) ∧
    ∀ (s : Store) (k : Moment) o d n f amb cs, s.promises = #[] → (Moment.start s).Leads p k →
      k.machine.control = .deliver o (.resume d n f amb :: cs) →
      (∃ m', k.machine.Step p m' ∧ m'.store.ambient = amb ∧
        m'.control = .enter d [.int (Int64.ofNat n), .outcome o, .frame f] 0) ∧
      ∃ j q, (Moment.start s).Leads p j ∧ j.Leads p k ∧ j.Suspends q d n f ∧
        j.machine.store.ambient = amb ∧
        ∃ a ran due, k.machine.Agrees a ∧ Event.Ledger k.events a ran (j.events.length :: due) := by
  refine ⟨?host, ?code, ?resumed⟩
  case host =>
    intro s t op r hop hfinishes
    obtain ⟨k, hk, hend, rfl, -⟩ := finishes_iff.1 hfinishes
    exact ⟨((Operation.framed_machine hop s).steps hk).ambient_eq hend,
      (Operation.shielded_machine hop s).finishes_ok hfinishes⟩
  case code =>
    intro s b b' i op tasks x hi hop hx
    exact ambient_of_operation? hi hop hx
  case resumed =>
    intro s k o d n f amb cs hs hk hc
    obtain ⟨a, ran, i, due, hagrees, hledger, q, hi⟩ := hk.exists_due hs hc
    obtain ⟨j, hj, hjk, rfl, hsuspends, hambient⟩ := hk.exists_suspends hi
    refine ⟨?_, j, q, hj, hjk, hsuspends, hambient, a, ran, due, hagrees, hledger⟩
    exact ⟨call k.machine.store o (.deliver o cs :: k.machine.tasks) (.resume d n f amb),
      by rw [Step, step?, hc], rfl, rfl⟩

end Resumable
