/-
**No continuation is lost, and none runs twice.**

A host calls converted methods, makes promises and settles them, in any order, and leaves the outer
futures of the calls to the generated code.  Whatever the order: when the host is at rest, each
outer future that a call returned has settled, or is to adopt the outcome of a pending promise, or
is carried by a continuation that waits, and only one of these.  The run of a host is the run of
its machines, and the books balance in every state of it.

Main results:

* `Machine.Balanced.secures` — the future that an entry returns stays in the books;
* `Hosted.balanced` — **the books of a run**;
* `Hosted.registered_eq` — every continuation that was registered has run or waits;
* `Hosted.continues_once` — **no continuation is lost, and none runs twice**.
-/

import Resumable.Proofs.AmbientContext
import Resumable.Proofs.DutySteps

set_option autoImplicit false

namespace Resumable

open Dispatcher List

/-! ### Programs of converted methods -/

/-- **A converted method of a program.**  It had no protocol instructions of its own, and declared
its parameters.  The name of its dispatcher stands for the dispatcher. -/
structure Program.Includes (prog : Program) (pair : Conversion.Pair) : Prop where
  converted : ∃ (m : Method) (cls : String) (o : Options),
    m.convert cls o = .ok (.converted pair) ∧ m.Plain ∧ m.DeclaresParams
  dispatcher : prog.Resolves pair.dispatcher.name pair.dispatcher

/-- **A program of converted methods** and of methods without protocol instructions. -/
def Program.Converted (prog : Program) : Prop :=
  ∀ name m, prog.method? name = some m →
    m.Plain ∨ ∃ pair, prog.Includes pair ∧ (m = pair.entry ∨ m = pair.dispatcher)

section

variable {prog : Program} {pair : Conversion.Pair}

/-- The dispatcher of a converted method keeps its duty. -/
theorem Program.Includes.dispatches (h : prog.Includes pair) :
    ∃ m p, prog.Dispatches p ∧ pair.entry = entry m p.name ∧ pair.dispatcher = p.dispatcher := by
  obtain ⟨⟨m, cls, o, hconvert, hplain, hparams⟩, hresolves⟩ := h
  obtain ⟨a, n, -, -, hn⟩ := m.exists_analysis hconvert
  obtain ⟨-, hgrows, p, r, hmade, hmethod, hentry, hdispatcher, -⟩ := Method.exists_plan hconvert hn
  have hplain' : p.method.Plain := hmethod ▸ hgrows.plain hplain
  have hparams' : p.method.DeclaresParams := hmethod ▸ hparams.of_grows hgrows
  rw [hdispatcher] at hresolves
  exact ⟨m, p, ⟨Plan.checks_custody hmade hplain' hparams', hresolves⟩, hentry, hdispatcher⟩

theorem Program.Converted.orderly (h : prog.Converted) : prog.Orderly := by
  intro name m hm
  rcases h name m hm with hplain | ⟨pair, hpair, heq⟩
  · exact .plain hplain
  · obtain ⟨n, p, hp, hentry, hdispatcher⟩ := hpair.dispatches
    rcases heq with rfl | rfl
    · exact hentry ▸ .entry hp n
    · exact hdispatcher ▸ .dispatcher hp

end

/-! ### What entries return -/

namespace Machine

variable {prog : Program} {K : Nat → Prop} {A F : Multiset Nat} {m m' : Machine} {s : Store}
  {ts : List Task} {a : Activation} {n : Method} {v : Value}

/-- **An activation of the method returns a value.** -/
def Returns (prog : Program) (n : Method) (v : Value) (m : Machine) : Prop :=
  ∃ a, m.control = .exec a ∧ a.method = n ∧ m.Step prog ⟨m.store, .answer v, m.tasks⟩

theorem act_ne_answer (prog : Program) (a : Activation) (ts : List Task) (c : Store × Action)
    (s : Store) (v : Value) : act prog a ts c ≠ ⟨s, .answer v, ts⟩ := by
  obtain ⟨t, action⟩ := c
  intro h
  cases action with
  | next _ | fault _ | call _ _ _ _ => cases h
  | throw e =>
    simp only [act, Program.raise] at h
    split at h <;> cases h
  | fulfill _ _ _ | reject _ _ _ | subscribe _ _ _ =>
    exact cons_ne_self _ _ (congrArg Machine.tasks h)

end Machine

variable {prog : Program} {ms : List Machine} {m : Machine}

/-- Code that has a duty does not return before it has handed it over. -/
theorem Custody.At.free_of_answer {C : Custody} {n : Method} {s : Store} {used : Nat → Prop}
    {o : Nat} {a : Activation} (h : C.At n s used o a) {ts : List Task} {v : Value}
    (ha : Machine.execute prog s a ts = ⟨s, .answer v, ts⟩) : C.free := by
  obtain ⟨hm, hnone | ⟨σ, is, t, hahead, htends, -⟩⟩ := h
  · rw [Machine.execute, hm, hnone] at ha
    cases ha
  · cases is with
    | cons i is =>
      have hexecute := Option.some.inj (hahead.step_instr prog s ts)
      exact absurd (hexecute.symm.trans ha) (Machine.act_ne_answer prog a ts _ s v)
    | nil =>
      have hexecute := Option.some.inj (hahead.step_leave prog s ts)
      rw [ha] at hexecute
      split at hexecute
      · cases hexecute
      · rename_i w hleave
        exact htends.2 (of_leave_eq_ret hleave).1
      · unfold Program.raise at hexecute
        split at hexecute <;> cases hexecute
      · cases hexecute

theorem not_plain_entry (n : Method) (name : String) : ¬ (entry n name).Plain := fun h =>
  absurd (h _ mem_cons_self .futureNew mem_cons_self) (by decide)

namespace Machine

variable {prog : Program} {K : Nat → Prop} {A F : Multiset Nat} {m : Machine}

/-- **An entry returns a future that stays in the books.** -/
theorem Balanced.secures (h : m.Balanced prog K A F) {n : Method} {name : String} {v : Value}
    (hv : m.Returns prog (entry n name) v) : ∃ o, v = .future o ∧ K o := by
  obtain ⟨s, control, ts⟩ := m
  obtain ⟨a, rfl, ha, hstep⟩ := hv
  have hexecute : Machine.execute prog s a ts = ⟨s, .answer v, ts⟩ := Option.some.inj hstep
  obtain ⟨-, d, D, E, hbears, -, -⟩ := h
  cases hbears with
  | runs hC hat =>
    have hfree := hat.free_of_answer hexecute
    cases hC with
    | plain hplain => exact absurd (hat.1 ▸ hplain) (ha ▸ not_plain_entry n name)
    | entry _ _ | dispatcher _ _ => exact hfree.elim
  | @astray p args depth hargs =>
    obtain ⟨f, hfault⟩ := p.execute_astray hargs depth prog ts
    cases hexecute.symm.trans hfault
  | @opens p n' args depth _ hargs =>
    obtain ⟨b, hnext, -⟩ := execute_entry n' p.name hargs (fun _ => True) depth prog ts
    exact absurd (congrArg Machine.control (hexecute.symm.trans hnext)) nofun
  | @returns o _ _ hret ho _ =>
    rcases hret.execute prog s ts with ⟨b, -, hnext⟩ | hnext
    · cases hexecute.symm.trans hnext
    · cases hexecute.symm.trans hnext
      exact ⟨o, rfl, ho⟩

/-! ### Machines at rest -/

theorem idle_of_rest (hrest : m.step? prog = none) :
    m.due = [] ∧ m.applied = [] ∧ m.events prog = [] := by
  obtain ⟨s, control, ts⟩ := m
  obtain ⟨rfl, ⟨v, rfl⟩ | ⟨u, rfl⟩⟩ := control_of_finished hrest
  · exact ⟨rfl, rfl, rfl⟩
  · exact ⟨rfl, rfl, rfl⟩

/-- **At rest nobody has a duty.** -/
theorem Balanced.rest (h : m.Balanced prog K A F) (hrest : m.step? prog = none) :
    Books K A F 0 m := by
  obtain ⟨s, control, ts⟩ := m
  obtain ⟨rfl, hcontrol⟩ := control_of_finished hrest
  obtain ⟨-, d, D, E, hbears, hts, hbooks⟩ := h
  cases hts with
  | nil =>
    rcases hcontrol with ⟨v, rfl⟩ | ⟨u, rfl⟩
    · cases hbears with
      | answers _ _ => exact hbooks
    · cases hbears with
      | throws _ => exact hbooks

theorem Books.exists_outer (h : Books K A F 0 m) {q : Nat} (hq : q ∈ m.carried + A) :
    ∃ f, m.store.outer? f = some q := by
  rcases Multiset.mem_add.1 hq with hq | hq
  · obtain ⟨f, -, hf⟩ := (Multiset.mem_filterMap _ _).1 hq
    exact ⟨f, hf⟩
  · exact h.named q (.inr hq)

end Machine

/-! ### Hosts -/

/-- **What a host may do** while nothing runs.  It has no frames, and it leaves the outer futures to
the generated code. -/
inductive Operation.Allowed (s : Store) : Operation → Prop where
  | new : Allowed s .new
  | settled {x : Outcome Value} (hx : x.payload.Ordinary s.promises.size) : Allowed s (.settled x)
  | note (q : Nat) (tag : String) : Allowed s (.subscribe q (.note tag))
  | fulfill {q : Nat} {v : Value} (hq : q < s.promises.size) (houter : ∀ f, s.outer? f ≠ some q)
      (hv : v.Ordinary s.promises.size) : Allowed s (.fulfill q v)
  | reject {q : Nat} {e : Value} (hq : q < s.promises.size) (houter : ∀ f, s.outer? f ≠ some q)
      (he : e.Ordinary s.promises.size) : Allowed s (.reject q e)
  | settle {q : Nat} {x : Outcome Value} (hq : q < s.promises.size)
      (houter : ∀ f, s.outer? f ≠ some q) (hx : x.payload.Ordinary s.promises.size) :
      Allowed s (.settle q x)
  | invoke {args : List Value} (name : String) (hargs : ∀ v ∈ args, v.Ordinary s.promises.size) :
      Allowed s (.invoke name args)

/-- What a host may change between its operations: ambient values, and what is no value. -/
structure Store.Adjusts (s t : Store) : Prop where
  promises : t.promises = s.promises
  frames : t.frames = s.frames
  ambient : t.ambient.Ordinary s.promises.size

/-- **The run of a host**: the states before, the latest first, and the present one.  The native
functions hand out no cells but those that there are. -/
inductive Hosted (prog : Program) : List Machine → Machine → Prop where
  | start : Hosted prog [] ⟨{}, .answer .null, []⟩
  | step {ms : List Machine} {m m' : Machine} (h : Hosted prog ms m)
      (hnatives : prog.Honest m.store) (hm : m.Step prog m') : Hosted prog (m :: ms) m'
  | operate {ms : List Machine} {m : Machine} {t : Store} {op : Operation} (h : Hosted prog ms m)
      (hrest : m.step? prog = none) (ht : m.store.Adjusts t) (hop : op.Allowed t) :
      Hosted prog (m :: ms) (op.machine t)

theorem Store.registerEvents_cases (s : Store) (q : Nat) (c : Callback) :
    s.registerEvents q c = [] ∨ s.registerEvents q c = [.registered q c] := by
  unfold registerEvents
  split
  · exact .inr rfl
  · exact .inl rfl

/-- No operation of a host registers a continuation, and none runs before the first step. -/
theorem Operation.Allowed.events {s : Store} {op : Operation} (h : op.Allowed s) :
    (op.events s).filterMap Event.parks? = [] ∧ (op.events s).filterMap Event.resumes? = [] := by
  have hconcerns : ∀ {es : List Event} {q : Nat}, (∀ e ∈ es, e.Concerns q) →
      es.filterMap Event.parks? = [] ∧ es.filterMap Event.resumes? = [] := fun hes =>
    ⟨filterMap_eq_nil_iff.2 fun e he => (hes e he).parks?,
      filterMap_eq_nil_iff.2 fun e he => (hes e he).resumes?⟩
  cases h with
  | new | invoke _ _ => exact ⟨rfl, rfl⟩
  | settled _ => exact hconcerns fun e he => Store.concerns_of_settledPromise he
  | note q tag =>
    show (s.registerEvents q (.note tag)).filterMap Event.parks? = [] ∧
      (s.registerEvents q (.note tag)).filterMap Event.resumes? = []
    rcases s.registerEvents_cases q (.note tag) with hes | hes
    all_goals
      rw [hes]
      exact ⟨rfl, rfl⟩
  | fulfill _ _ _ => exact hconcerns fun e he => Store.concerns_of_fulfill he
  | reject _ _ _ | settle _ _ _ => exact hconcerns fun e he => Store.concerns_of_settle he

namespace Machine

variable {prog : Program} {K : Nat → Prop} {A F : Multiset Nat} {m : Machine} {es : List Event}
  {r : Store × Control} {q : Nat}

/-- The host changes a promise that is no outer future. -/
theorem balanced_of_host (hm : m.Tidy prog) (hbooks : Books K A F 0 m) (hdue : m.due = [])
    (hr : m.store.Change prog es r) (hq : q < m.store.promises.size)
    (houter : ∀ f, m.store.outer? f ≠ some q) (hes : ∀ e ∈ es, e.Concerns q) :
    Balanced prog K A F (.of r []) := by
  refine .of_concerns (d := .result) hm hbooks (.of_yields rfl hdue hr.yields) hr.grows hr.same
    hr.settled (Nat.lt_of_lt_of_le hq hr.grows.promises) hes (fun hmem => ?_) (hr.control trivial)
    .nil
  rw [Multiset.map_zero, zero_add] at hmem
  obtain ⟨f, hf⟩ := hbooks.exists_outer hmem
  exact houter f hf

variable {op : Operation}

/-- **An operation of the host keeps the books.** -/
theorem balanced_machine (hm : m.Tidy prog) (hbooks : Books K A F 0 m) (hdue : m.due = [])
    (hop : op.Allowed m.store) : Balanced prog K A F (op.machine m.store) := by
  cases hop with
  | new => exact balanced_of_newPromise hm hdue .nil hbooks ⟨rfl, rfl⟩ rfl
  | settled hx => exact balanced_of_settledPromise hm hdue .nil hbooks hx
  | note q tag =>
    have hr : m.store.Change prog _ (m.store.register q (.note tag)) :=
      Store.change_register (c := .note tag) hm.ordinary trivial q
    refine .of_records (d := .result) (D := 0) (E := 0) hm hbooks (.of_yields rfl hdue hr.yields)
      hr.grows hr.same hr.settled hr.registered ?_ ?_ (fun k _ => ?_) (hr.control trivial) .nil
    all_goals
      rcases m.store.registerEvents_cases q (.note tag) with hes | hes
      all_goals
        rw [hes]
        rfl
  | @fulfill q v hq houter hv =>
    exact balanced_of_host hm hbooks hdue (Store.change_fulfill hm.ordinary hv hq) hq houter
      fun e he => Store.concerns_of_fulfill he
  | @reject q e hq houter he =>
    exact balanced_of_host hm hbooks hdue (Store.change_settle (x := .rejected e) he q) hq houter
      fun e he => Store.concerns_of_settle he
  | @settle q x hq houter hx =>
    exact balanced_of_host hm hbooks hdue (Store.change_settle hx q) hq houter
      fun e he => Store.concerns_of_settle he
  | invoke name hargs =>
    exact .of_quiet (D := 0) (E := 0) hm hbooks (.refl hm.ordinary) hdue.symm (.calls hargs) .nil

theorem balanced_start : Balanced prog (fun _ => False) 0 0 ⟨{}, .answer .null, []⟩ := by
  have hordinary : ({} : Store).Ordinary :=
    ⟨fun _ _ h => by simp at h, fun _ _ h => by simp at h, nofun⟩
  refine ⟨⟨hordinary, nofun⟩, .result, 0, 0, .answers Value.ordinary_null trivial, .nil, ?_⟩
  exact ⟨Multiset.nodup_zero, nofun, nofun, nofun, Multiset.nodup_zero, nofun, nofun, nofun⟩

/-- **The next operation of the host keeps the books.** -/
theorem Balanced.operate (h : m.Balanced prog K A F) (hrest : m.step? prog = none) {t : Store}
    (ht : m.store.Adjusts t) (hop : op.Allowed t) : Balanced prog K A F (op.machine t) := by
  have hbooks := h.rest hrest
  have hquiet : m.store.Quiet t :=
    h.ordinary.quiet ht.promises ht.frames ht.ambient
  have hagenda : agenda ⟨t, m.control, m.tasks⟩ = m.agenda := by
    rw [agenda, agenda, ht.promises]
    rfl
  exact balanced_machine (h.toTidy.idle hquiet.grows hquiet.ordinary hagenda)
    (hbooks.idle hquiet.grows hagenda) (idle_of_rest hrest).1 hop

/-- The next operation of the host neither registers nor runs a continuation. -/
theorem parked_operate (hrest : m.step? prog = none) {t : Store} (ht : m.store.Adjusts t)
    (hop : op.Allowed t) : (op.machine t).parked = m.parked := by
  obtain ⟨b, hturns, hagrees⟩ := op.exists_agrees t
  obtain ⟨hparks, hresumes⟩ := hop.events
  have hagenda : m.agenda = ⟨t.promises, [], false⟩ := by
    rw [agenda, (idle_of_rest hrest).1, ht.promises]
  exact Records.parked_eq (.of_turns (hagenda ▸ hturns) hagrees) hparks hresumes

end Machine

/-- **The books of a run**: the promises that were fulfilled or rejected by code and by failures,
and the frames of the continuations that ran. -/
theorem Hosted.balanced (hprog : prog.Orderly) (h : Hosted prog ms m) : ∃ K : Nat → Prop,
      m.Balanced prog K ↑(ms.flatMap Machine.applied) ↑(ms.flatMap (Machine.dispatched prog)) ∧
      ∀ k ∈ ms, ∀ n name v, k.Returns prog (entry n name) v → ∃ o, v = .future o ∧ K o := by
  induction h with
  | start => exact ⟨fun _ => False, Machine.balanced_start, fun k hk => by cases hk⟩
  | @step ms m m' _ hnatives hm ih =>
    obtain ⟨K, hbalanced, hreturns⟩ := ih
    obtain ⟨K', hK, hbalanced'⟩ := hbalanced.step hprog hnatives hm
    refine ⟨K', ?_, forall_mem_cons.2 ⟨fun n name v hv => ?_, fun k hk n name v hv => ?_⟩⟩
    · rw [flatMap_cons, flatMap_cons, ← Multiset.coe_add, ← Multiset.coe_add]
      exact hbalanced'
    · obtain ⟨o, rfl, ho⟩ := hbalanced.secures hv
      exact ⟨o, rfl, hK o ho⟩
    · obtain ⟨o, rfl, ho⟩ := hreturns k hk n name v hv
      exact ⟨o, rfl, hK o ho⟩
  | @operate ms m t op _ hrest ht hop ih =>
    obtain ⟨K, hbalanced, hreturns⟩ := ih
    refine ⟨K, ?_, forall_mem_cons.2 ⟨?_, hreturns⟩⟩
    · obtain ⟨-, happlied, hevents⟩ := Machine.idle_of_rest hrest
      rw [flatMap_cons, flatMap_cons, happlied, Machine.dispatched, hevents]
      exact hbalanced.operate hrest ht hop
    · rintro n name v ⟨a, -, -, hstep⟩
      cases hrest.symm.trans hstep

/-- **Every continuation that was registered has run or waits.** -/
theorem Hosted.registered_eq (h : Hosted prog ms m) :
    (↑(ms.flatMap (Machine.registered prog)) : Multiset Nat) =
      ↑(ms.flatMap (Machine.dispatched prog)) + m.parked := by
  induction h with
  | start => rfl
  | @step ms m m' _ _ hm ih =>
    have hagrees : m.Agrees m.agenda := ⟨rfl, rfl, nofun⟩
    obtain ⟨b, hturns, hb⟩ := hagrees.step hm
    have hparked := (Machine.Records.of_turns hturns hb).parked
    rw [flatMap_cons, flatMap_cons, ← Multiset.coe_add, ← Multiset.coe_add, ih]
    calc (↑(m.registered prog) : Multiset Nat) +
          (↑(ms.flatMap (Machine.dispatched prog)) + m.parked)
        = ↑(ms.flatMap (Machine.dispatched prog)) + (m.parked + ↑(m.registered prog)) := by abel
      _ = ↑(ms.flatMap (Machine.dispatched prog)) + (m'.parked + ↑(m.dispatched prog)) := by
          rw [Machine.registered, Machine.dispatched, hparked]
      _ = ↑(m.dispatched prog) + ↑(ms.flatMap (Machine.dispatched prog)) + m'.parked := by abel
  | @operate ms m t op _ hrest ht hop ih =>
    obtain ⟨-, -, hevents⟩ := Machine.idle_of_rest hrest
    rw [flatMap_cons, flatMap_cons, Machine.registered, Machine.dispatched, hevents,
      Machine.parked_operate hrest ht hop]
    exact ih

/-! ### Outer futures -/

namespace Store

variable (s : Store) (o : Nat)

/-- The callbacks that wait for promises. -/
def waiting : List Callback := s.promises.toList.flatMap Promise.waiting

/-- How often a promise is to adopt the outcome of a pending one. -/
def adoptions : Nat := (s.waiting.filterMap Callback.adopts?).count o

/-- How many continuations wait that carry a frame with the outer future. -/
def continuations : Nat := ((s.waiting.filterMap Callback.frame?).filterMap s.outer?).count o

variable {s o}

theorem outcome?_settle {ws : List Callback} (h : s.promises[o]? = some (.pending ws))
    (x : Outcome Value) : (s.settle o x).1.outcome? o = some x := by
  have hlt : o < s.promises.size := (Array.getElem?_eq_some_iff.1 h).1
  rw [outcome?_eq_some]
  simp only [settle, settle?, h]
  exact Array.getElem?_setIfInBounds_self_of_lt hlt

end Store

namespace Machine

variable {prog : Program} {K : Nat → Prop} {A F : Multiset Nat} {m : Machine} {o : Nat}

theorem outcomes_eq (m : Machine) (q : Nat) :
    m.agenda.outcomes q = (m.store.isSettled q).toNat := by
  have hpromise : m.agenda.promises[q]? = m.store.promises[q]? := rfl
  rw [Agenda.outcomes, hpromise, Store.isSettled, Store.outcome?]
  cases m.store.promises[q]? with
  | none => rfl
  | some promise => cases promise <;> rfl

theorem callbacks_of_due (hdue : m.due = []) : m.callbacks = ↑m.store.waiting := by
  rw [callbacks, Agenda.callbacks, agenda, hdue]
  exact add_zero _

/-- **At rest an outer future has settled, or is to adopt an outcome, or is carried by a
continuation that waits.** -/
theorem Books.once (h : Books K A F 0 m) (hdue : m.due = []) (ho : K o) :
    (∃ f, m.store.outer? f = some o) ∧
      (m.store.isSettled o).toNat + m.store.adoptions o + m.store.continuations o = 1 := by
  have haccount : m.account o = (m.store.isSettled o).toNat + m.store.adoptions o := by
    rw [account, outcomes_eq, callbacks_of_due hdue, Multiset.filterMap_coe, Multiset.coe_count]
    rfl
  have hcarried : m.carried.count o = m.store.continuations o := by
    rw [carried, parked, callbacks_of_due hdue, Multiset.filterMap_coe, Multiset.filterMap_coe,
      Multiset.coe_count]
    rfl
  rw [← haccount, ← hcarried]
  have hnodup := h.nodup
  rw [Multiset.map_zero, zero_add] at hnodup
  obtain ⟨hcarried, -, hdisjoint⟩ := Multiset.nodup_add.1 hnodup
  rcases h.secure o ho with ho | ho | ho
  · exact absurd ho (Multiset.notMem_zero _)
  · refine ⟨h.exists_outer (Multiset.mem_add.2 (.inl ho)), ?_⟩
    rw [h.unsettled o (Multiset.mem_add.2 (.inr ho)), Multiset.count_eq_one_of_mem hcarried ho]
  · refine ⟨h.exists_outer (Multiset.mem_add.2 (.inr ho)), ?_⟩
    rw [h.settled o ho, Multiset.count_eq_zero_of_notMem fun hmem =>
      Multiset.disjoint_left.1 hdisjoint hmem ho]

/-- **A resumed dispatcher that fails gets its outer future rejected**, which was pending. -/
theorem Balanced.rejects {s : Store} {ts : List Task} {u : Unwind} {outer : Option Nat}
    {saved : Ambient} (h : Balanced prog K A F ⟨s, .unwind u, .resumed outer saved :: ts⟩) :
    ∃ o, outer = some o ∧ s.outcome? o = none ∧
      (Machine.unwound prog s u ts (.resumed outer saved)).store.outcome? o =
        some (.rejected (failure s u).2) := by
  obtain ⟨-, d, D, E, hbears, hts, hbooks⟩ := h
  cases hts with
  | @resumed o _ d E _ _ hd hts =>
    cases hbears with
    | fails hu =>
      obtain ⟨ws, hws⟩ := hbooks.pending (o := o) (by simp)
      have hws' : (failure s u).1.promises[o]? = some (.pending ws) := by
        rw [promises_failure]
        exact hws
      refine ⟨o, rfl, ?_, Store.outcome?_settle hws' _⟩
      rw [Store.outcome?, hws]

end Machine

/-- **No continuation is lost, and none runs twice.**  In the run of a host with converted methods:

* when the host is at rest, the future that a call of an entry returned has settled, or it is to
  adopt the outcome of one pending promise, or one continuation waits whose frame has it as outer
  future, and only one of these;
* generated code and the failures of resumed dispatchers fulfil and reject no promise twice;
* no continuation is registered twice, and those that were registered have run once or have not run
  yet;
* a failure of a resumed dispatcher rejects its outer future, which was pending;
* and a host that settles a promise never meets a failure. -/
theorem Hosted.continues_once {prog : Program} (hprog : prog.Converted) {ms : List Machine}
    {m : Machine} (h : Hosted prog ms m) :
    (m.step? prog = none → ∀ pair, prog.Includes pair → ∀ k ∈ ms, ∀ v,
      k.Returns prog pair.entry v → ∃ o, v = .future o ∧ (∃ f, m.store.outer? f = some o) ∧
        (m.store.isSettled o).toNat + m.store.adoptions o + m.store.continuations o = 1) ∧
    (ms.flatMap Machine.applied).Nodup ∧
    (ms.flatMap (Machine.registered prog)).Nodup ∧
    (↑(ms.flatMap (Machine.registered prog)) : Multiset Nat) =
      ↑(ms.flatMap (Machine.dispatched prog)) + m.parked ∧
    (∀ u outer saved ts, m.control = .unwind u → m.tasks = .resumed outer saved :: ts →
      ∃ o m', outer = some o ∧ m.store.outcome? o = none ∧ m.Step prog m' ∧
        m'.store.outcome? o = some (.rejected (Machine.failure m.store u).2) ∧
        m'.tasks = .restore saved :: ts) ∧
    ∀ (op : Operation) s t r, op.runsCallbacks = true → (op.machine s).Finishes prog t r →
      ∃ v, r = .ok v := by
  obtain ⟨K, hbalanced, hreturns⟩ := h.balanced hprog.orderly
  obtain ⟨d, D, E, -, -, hbooks⟩ := hbalanced.duties
  refine ⟨?fates, ?applied, ?registered, h.registered_eq, ?failures, ?host⟩
  case fates =>
    intro hrest pair hpair k hk v hv
    obtain ⟨n, p, -, hentry, -⟩ := hpair.dispatches
    obtain ⟨o, rfl, ho⟩ := hreturns k hk n p.name v (hentry ▸ hv)
    exact ⟨o, rfl, (hbalanced.rest hrest).once (Machine.idle_of_rest hrest).1 ho⟩
  case applied =>
    exact Multiset.coe_nodup.1 (Multiset.nodup_add.1 hbooks.nodup).2.1
  case registered =>
    rw [← Multiset.coe_nodup, h.registered_eq, add_comm]
    exact hbooks.frames
  case failures =>
    intro u outer saved ts hcontrol htasks
    obtain ⟨s, control, tasks⟩ := m
    subst hcontrol htasks
    obtain ⟨o, rfl, hpending, hrejected⟩ := hbalanced.rejects
    exact ⟨o, _, rfl, hpending, rfl, hrejected, rfl⟩
  case host =>
    intro op s t r hop hfinishes
    exact (Operation.shielded_machine hop s).finishes_ok hfinishes

/-! ### A method that waits and then adds -/

/-- The states before `Machine.after`, the latest first. -/
def Machine.past (prog : Program) : Nat → Machine → List Machine
  | 0, _ => []
  | steps + 1, k =>
    match k.step? prog with
    | some k' => k'.past prog steps ++ [k]
    | none => []

theorem Hosted.after (hnatives : ∀ s, prog.Honest s) (h : Hosted prog ms m) (steps : Nat) :
    Hosted prog (m.past prog steps ++ ms) (m.after prog steps) := by
  induction steps generalizing ms m with
  | zero => exact h
  | succ steps ih =>
    cases hm : m.step? prog with
    | some k =>
      simp only [Machine.past, Machine.after, hm, append_assoc]
      exact ih (h.step (hnatives _) hm)
    | none =>
      simp only [Machine.past, Machine.after, hm]
      exact h

/-- A host that changes nothing between its operations, where there are no ambient values. -/
theorem Store.adjusts_self {s : Store} (h : s.ambient.isEmpty = true) : s.Adjusts s where
  promises := rfl
  frames := rfl
  ambient c hc := by
    rw [isEmpty_iff.1 h] at hc
    cases hc

/-- Whether an activation of the method is about to return the future. -/
def Machine.returnsNext (n : Method) (q : Nat) (m : Machine) : Bool :=
  match m.control with
  | .exec a =>
    a.method == n &&
      match a.method.block? a.block with
      | some block =>
        block.instrs[a.offset]?.isNone &&
          match a.leave block.terminator with
          | .ret (.future o) => o == q
          | _ => false
      | none => false
  | _ => false

theorem Machine.returns_of_returnsNext {n : Method} {q : Nat} (h : m.returnsNext n q = true)
    (prog : Program) : m.Returns prog n (.future q) := by
  obtain ⟨s, control, ts⟩ := m
  unfold returnsNext at h
  split at h
  · rename_i a hcontrol
    cases hcontrol
    obtain ⟨hmethod, h⟩ := Bool.and_eq_true_iff.1 h
    split at h
    · rename_i block hblock
      obtain ⟨hnone, h⟩ := Bool.and_eq_true_iff.1 h
      split at h
      · rename_i o hleave
        rw [beq_iff_eq] at h hmethod
        subst h
        have hahead : a.Ahead [] block.terminator := by
          refine ⟨block, hblock, ?_, rfl⟩
          rw [drop_eq_nil_iff]
          exact List.getElem?_eq_none_iff.1 (Option.isNone_iff_eq_none.1 hnone)
        have hstep := hahead.step_leave prog s ts
        rw [hleave] at hstep
        exact ⟨a, rfl, hmethod, hstep⟩
      · cases h
    · cases h
  · cases h

namespace awaitAndAdd

theorem includes_pair : target.Includes pair where
  converted := ⟨awaitAndAdd, "C", {}, convert_eq, by decide, by decide⟩
  dispatcher := replaces.dispatcher

theorem converted_target : target.Converted := by
  intro name m hm
  rcases mem_cons.1 (mem_of_lookup_eq_some hm) with heq | hmem
  · exact .inr ⟨pair, includes_pair, .inr (congrArg Prod.snd heq)⟩
  · exact .inr ⟨pair, includes_pair, .inl (congrArg Prod.snd (mem_singleton.1 hmem))⟩

theorem honest_target (s : Store) : target.Honest s := fun _ _ hf =>
  Native.ordinary_builtins hf _ _

/-- The host has made a promise. -/
def made : Machine := Operation.new.machine {}

/-- It calls the method, which parks. -/
def called : Machine := (Operation.invoke "m" [.future 0, .int 7]).machine made.store

/-- It fulfils the promise, and the method is resumed. -/
def fulfilled : Machine := (Operation.fulfill 0 (.int 5)).machine (called.after target 39).store

/-- All states before the last, the latest first. -/
def states : List Machine :=
  fulfilled.past target 24 ++ called.after target 39 ::
    (called.past target 39 ++ [made, ⟨{}, .answer .null, []⟩])

theorem hosted_called (prog : Program) : Hosted prog [made, ⟨{}, .answer .null, []⟩] called := by
  have hmade : Hosted prog _ made := Hosted.start.operate rfl (Store.adjusts_self rfl) .new
  have hargs : ∀ v ∈ [Value.future 0, .int 7], v.Ordinary made.store.promises.size :=
    forall_mem_cons.2 ⟨Value.ordinary_future.2 (by decide),
      forall_mem_singleton.2 (Value.ordinary_int 7)⟩
  exact hmade.operate rfl (Store.adjusts_self rfl) (.invoke "m" hargs)

theorem hosted_states : Hosted target states (fulfilled.after target 24) := by
  have hparked := hosted_called target |>.after honest_target 39
  have hrest : ((called.after target 39).step? target).isNone = true := by decide +kernel
  have hframes : (called.after target 39).store.frames.toList.all (·.outer != 0) = true := by
    decide +kernel
  have houter : ∀ f, (called.after target 39).store.outer? f ≠ some 0 := by
    intro f hf
    obtain ⟨frame, hframe, hzero⟩ := Option.map_eq_some_iff.1 hf
    have hmem := Array.mem_toList_iff.2 (Array.mem_of_getElem? hframe)
    have hne := all_eq_true.1 hframes frame hmem
    rw [hzero] at hne
    cases hne
  have hfulfilled : Hosted target _ fulfilled :=
    hparked.operate (Option.isNone_iff_eq_none.1 hrest) (Store.adjusts_self (by decide +kernel))
      (.fulfill (by decide +kernel) houter (Value.ordinary_int 5))
  exact hfulfilled.after honest_target 24

end awaitAndAdd

open awaitAndAdd in
/-- The method is called and parks; it is resumed when the promise that it waits for is fulfilled,
and fulfils its outer future. -/
theorem continues_once_awaitAndAdd : target.Converted ∧
    ∃ m, Hosted target states m ∧ m.step? target = none ∧
      (∃ k ∈ states, k.Returns target pair.entry (.future 1)) ∧
      states.flatMap Machine.applied = [1] ∧ states.flatMap (Machine.dispatched target) = [1] ∧
      (m.store.isSettled 1).toNat + m.store.adoptions 1 + m.store.continuations 1 = 1 := by
  have hrest : ((fulfilled.after target 24).step? target).isNone = true := by decide +kernel
  have hany : states.any (·.returnsNext pair.entry 1) = true := by decide +kernel
  obtain ⟨k, hk, hnext⟩ := List.any_eq_true.1 hany
  have hreturns := Machine.returns_of_returnsNext hnext target
  obtain ⟨hfates, -⟩ := Hosted.continues_once converted_target hosted_states
  obtain ⟨o, heq, -, honce⟩ :=
    hfates (Option.isNone_iff_eq_none.1 hrest) pair includes_pair k hk _ hreturns
  cases heq
  exact ⟨converted_target, _, hosted_states, Option.isNone_iff_eq_none.1 hrest, ⟨k, hk, hreturns⟩,
    by decide +kernel, by decide +kernel, honce⟩

/-- Its argument is stored over the outer future. -/
def overOuter : Method := { undeclared [4] [.push (.int 3)] .ret with name := "b" }

namespace overOuter

/-- A program with the method that waits and then adds, and with this one. -/
def program : Program :=
  (awaitAndAdd.target.addMethod overOuter.generated.entry).addMethod overOuter.generated.dispatcher

theorem converted_program (name : String) (m : Method) (hm : program.method? name = some m) :
    ∃ (n : Method) (pair : Conversion.Pair), n.convert "C" {} = .ok (.converted pair) ∧ n.Plain ∧
      program.Resolves pair.dispatcher.name pair.dispatcher ∧
      (m = pair.entry ∨ m = pair.dispatcher) := by
  have hb : overOuter.convert "C" {} = .ok (.converted overOuter.generated) := by decide +kernel
  have hresolves : program.Resolves overOuter.generated.dispatcher.name
      overOuter.generated.dispatcher := by
    constructor <;> decide +kernel
  have hresolves' : program.Resolves awaitAndAdd.pair.dispatcher.name
      awaitAndAdd.pair.dispatcher := by
    constructor <;> decide +kernel
  have hmem := mem_of_lookup_eq_some hm
  simp only [program, awaitAndAdd.target, Program.addMethod, mem_cons, Prod.mk.injEq, not_mem_nil,
    or_false] at hmem
  rcases hmem with ⟨-, rfl⟩ | ⟨-, rfl⟩ | ⟨-, rfl⟩ | ⟨-, rfl⟩
  · exact ⟨_, _, hb, by decide, hresolves, .inr rfl⟩
  · exact ⟨_, _, hb, by decide, hresolves, .inl rfl⟩
  · exact ⟨_, _, awaitAndAdd.convert_eq, by decide, hresolves', .inr rfl⟩
  · exact ⟨_, _, awaitAndAdd.convert_eq, by decide, hresolves', .inl rfl⟩

/-- The first method has parked, and its future is given to the second. -/
def called : Machine :=
  (Operation.invoke "b" [.future 1]).machine (awaitAndAdd.called.after program 39).store

/-- All states before the last, the latest first. -/
def states : List Machine :=
  called.past program 31 ++ awaitAndAdd.called.after program 39 ::
    (awaitAndAdd.called.past program 39 ++ [awaitAndAdd.made, ⟨{}, .answer .null, []⟩])

theorem hosted_states : Hosted program states (called.after program 31) := by
  have hhonest : ∀ s, program.Honest s := fun s _ _ hf => Native.ordinary_builtins hf _ _
  have hparked := awaitAndAdd.hosted_called program |>.after hhonest 39
  have hrest : ((awaitAndAdd.called.after program 39).step? program).isNone = true := by
    decide +kernel
  have hargs : ∀ v ∈ [Value.future 1],
      v.Ordinary (awaitAndAdd.called.after program 39).store.promises.size :=
    forall_mem_singleton.2 (Value.ordinary_future.2 (by decide +kernel))
  have hcalled : Hosted program _ called := hparked.operate (Option.isNone_iff_eq_none.1 hrest)
    (Store.adjusts_self (by decide +kernel)) (.invoke "b" hargs)
  exact hcalled.after hhonest 31

end overOuter

open overOuter in
/-- **An undeclared parameter.**  The future that the first method returned has settled, and a
continuation waits that will settle it again; nothing settles the outer future that was made for the
second. -/
theorem continues_twice_overOuter :
    (∀ name m, program.method? name = some m → ∃ (n : Method) (pair : Conversion.Pair),
      n.convert "C" {} = .ok (.converted pair) ∧ n.Plain ∧
        program.Resolves pair.dispatcher.name pair.dispatcher ∧
        (m = pair.entry ∨ m = pair.dispatcher)) ∧
    ∃ m, Hosted program states m ∧ m.step? program = none ∧
      (∃ k ∈ states, k.Returns program awaitAndAdd.pair.entry (.future 1)) ∧
      (m.store.isSettled 1).toNat + m.store.adoptions 1 + m.store.continuations 1 = 2 ∧
      m.store.outer? 2 = some 2 ∧
      (m.store.isSettled 2).toNat + m.store.adoptions 2 + m.store.continuations 2 = 0 := by
  have hrest : ((called.after program 31).step? program).isNone = true := by decide +kernel
  have hany : states.any (·.returnsNext awaitAndAdd.pair.entry 1) = true := by decide +kernel
  obtain ⟨k, hk, hnext⟩ := List.any_eq_true.1 hany
  exact ⟨converted_program, _, hosted_states, Option.isNone_iff_eq_none.1 hrest,
    ⟨k, hk, Machine.returns_of_returnsNext hnext program⟩, by decide +kernel, by decide +kernel,
    by decide +kernel⟩

end Resumable
