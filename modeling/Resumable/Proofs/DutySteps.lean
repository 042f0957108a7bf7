/-
**Every step keeps the books.**

What is left after the steps of activations: calls, with what native functions ask for; callbacks,
which adopt outcomes and resume parked dispatchers; and answers and failures that reach a task.  A
failure of a resumed dispatcher ends its duty, since its outer future is rejected.

Main results:

* `Machine.Balanced.enter`, `Machine.Balanced.answered`, `Machine.Balanced.unwound` — calls, answers
  and failures;
* `Machine.Balanced.adopt`, `Machine.Balanced.resume`, `Machine.Balanced.note` — callbacks;
* `Machine.Balanced.step` — **a step keeps the books**.
-/

import Resumable.Proofs.Duties

set_option autoImplicit false

namespace Resumable

open Dispatcher List

/-! ### Ambient values -/

theorem Ambient.Ordinary.get? {n : Nat} {ambient : Ambient} (h : ambient.Ordinary n)
    (key : String) : ((ambient.get? key).getD .null).Ordinary n := by
  cases hkey : ambient.get? key with
  | none => exact Value.ordinary_null
  | some v =>
    exact h (key, v) (mem_of_lookup_eq_some hkey)

theorem Ambient.Ordinary.set {n : Nat} {ambient : Ambient} (h : ambient.Ordinary n) (key : String)
    {v : Value} (hv : v.Ordinary n) : (ambient.set key v).Ordinary n :=
  forall_mem_cons.2 ⟨hv, fun c hc => h c (mem_filter.1 hc).1⟩

/-! ### Promises that are made -/

/-- The event makes a promise, or is about the promise `p` alone. -/
def Event.Concerns (p : Nat) : Event → Prop
  | .created => True
  | .registered _ c | .invoked c _ => c = .adopt p
  | .settled q _ => q = p

namespace Event.Concerns

variable {p : Nat} {e : Event}

theorem parks? (h : e.Concerns p) : e.parks? = none := by
  cases e with
  | registered q c =>
    cases h
    rfl
  | created | settled _ _ | invoked _ _ => rfl

theorem resumes? (h : e.Concerns p) : e.resumes? = none := by
  cases e with
  | invoked c x =>
    cases h
    rfl
  | created | settled _ _ | registered _ _ => rfl

theorem credits (h : e.Concerns p) : ∀ q ∈ e.credits, q = p := by
  cases e with
  | created | invoked _ _ => exact nofun
  | registered _ _ | settled _ _ =>
    cases h
    exact fun q hq => mem_singleton.1 hq

theorem debits (h : e.Concerns p) : ∀ q ∈ e.debits, q = p := by
  cases e with
  | created | registered _ _ | settled _ _ => exact nofun
  | invoked _ _ =>
    cases h
    exact fun q hq => mem_singleton.1 hq

end Event.Concerns

namespace Store

variable {s t : Store} {o : Outcome Value} {e : Event}

theorem Ordinary.quiet (h : s.Ordinary) (hp : t.promises = s.promises) (hf : t.frames = s.frames)
    (hambient : t.ambient.Ordinary s.promises.size) : s.Quiet t := by
  refine ⟨hp, (Evolves.of_eq (C := fun _ => True) hp hf).toExtends, ?_⟩
  constructor <;> rw [hp]
  · exact h.outcomes
  · rw [hf]
    exact h.slots
  · exact hambient

variable {q : Nat}

theorem concerns_of_settle (h : e ∈ s.settleEvents q o) : e.Concerns q := by
  unfold settleEvents at h
  split at h
  · cases mem_singleton.1 h
    rfl
  · cases h

theorem concerns_of_adoption {k : Nat} (h : e ∈ s.registerEvents k (.adopt q)) : e.Concerns q := by
  unfold registerEvents at h
  split at h
  · cases mem_singleton.1 h
    rfl
  · cases h

theorem concerns_of_fulfill {v : Value} (h : e ∈ s.fulfillEvents q v) : e.Concerns q := by
  cases v with
  | future k =>
    unfold fulfillEvents at h
    dsimp only at h
    split at h
    · cases h
    · exact concerns_of_adoption h
  | _ => exact concerns_of_settle h

/-- **All events of making a settled promise are about that promise.** -/
theorem concerns_of_settledPromise (h : e ∈ s.settledPromiseEvents o) :
    e.Concerns s.promises.size := by
  unfold settledPromiseEvents at h
  split at h
  · rename_i q
    split at h
    · simp only [mem_cons, not_mem_nil, or_false] at h
      rcases h with rfl | rfl | rfl | rfl
      · trivial
      · rfl
      · rfl
      · rfl
    · rcases mem_cons.1 h with rfl | h
      · trivial
      · exact concerns_of_adoption h
  · simp only [mem_cons, not_mem_nil, or_false] at h
    rcases h with rfl | rfl
    · trivial
    · rfl

/-- It gets the given outcome, or one that was there. -/
theorem settled_of_settledPromise {x : Outcome Value}
    (h : .settled q x ∈ s.settledPromiseEvents o) :
    x = o ∨ ∃ k, s.outcome? k = some x := by
  unfold settledPromiseEvents at h
  split at h
  · rename_i k
    split at h
    · rename_i taken hk
      simp only [mem_cons, not_mem_nil, or_false, reduceCtorEq, false_or] at h
      cases h
      exact .inr ⟨k, hk⟩
    · unfold registerEvents at h
      split at h <;> simp at h
  · simp only [mem_cons, not_mem_nil, or_false, reduceCtorEq, false_or] at h
    cases h
    exact .inl rfl

theorem same_subscribe (s : Store) (q : Nat) (c : Callback) : s.Same (s.subscribe q c).1 := by
  unfold subscribe
  split <;> exact ⟨rfl, rfl⟩

theorem size_subscribe (s : Store) (q : Nat) (c : Callback) :
    (s.subscribe q c).1.promises.size = s.promises.size := by
  unfold subscribe
  split
  · exact Array.size_setIfInBounds
  · rfl
  · rfl

/-- A settled promise is one more promise, and nothing else changes. -/
theorem settledPromise_spec (s : Store) (o : Outcome Value) :
    (s.settledPromise o).2 = s.promises.size ∧ s.Same (s.settledPromise o).1 ∧
      (s.settledPromise o).1.promises.size = s.promises.size + 1 := by
  unfold settledPromise
  split
  · rename_i q
    split
    · exact ⟨rfl, ⟨rfl, rfl⟩, Array.size_push _⟩
    · have hsame := s.newPromise.1.same_subscribe q (.adopt s.promises.size)
      refine ⟨rfl, ⟨hsame.frames, hsame.ambient⟩, ?_⟩
      exact (size_subscribe _ _ _).trans (Array.size_push _)
  · exact ⟨rfl, ⟨rfl, rfl⟩, Array.size_push _⟩

/-- An outcome is made: at most a new exception. -/
theorem realizeOutcome_spec (s : Store) {x : Outcome Payload} {n : Nat}
    (hx : ∀ v, x.payload = .value v → v.Ordinary n) :
    (s.realizeOutcome x).1.promises = s.promises ∧ s.Same (s.realizeOutcome x).1 ∧
      (s.realizeOutcome x).2.payload.Ordinary n := by
  obtain (v | ⟨cls, message⟩) | (v | ⟨cls, message⟩) := x
  · exact ⟨rfl, ⟨rfl, rfl⟩, hx v rfl⟩
  · exact ⟨rfl, ⟨rfl, rfl⟩, by simp [realizeOutcome, realize, newException, newObject,
      Outcome.payload]⟩
  · exact ⟨rfl, ⟨rfl, rfl⟩, hx v rfl⟩
  · exact ⟨rfl, ⟨rfl, rfl⟩, by simp [realizeOutcome, realize, newException, newObject,
      Outcome.payload]⟩

end Store

namespace Machine

variable {prog : Program} {K : Nat → Prop} {A F : Multiset Nat} {D E : Multiset (Nat × Bool)}
  {d : Demand} {C : Custody} {n : Method} {o : Nat} {s : Store} {ts : List Task} {m m' : Machine}
  {es : List Event} {r : Store × Control}

/-- **Events that are about a promise alone** which is not in the books. -/
theorem Balanced.of_concerns {q : Nat} (hm : m.Tidy prog) (hbooks : Books K A F E m)
    (hrec : m.Records es m') (hst : m.store.Extends m'.store) (hsame : m.store.Same m'.store)
    (hsettled : ∀ k x, .settled k x ∈ es → x.payload.Ordinary m'.store.promises.size)
    (hq : q < m'.store.promises.size) (hes : ∀ e ∈ es, e.Concerns q)
    (hnot : q ∉ E.map Prod.fst + m.carried + A)
    (hbears : m'.control.Bears prog m'.store (· ∈ m.parked + F) K d 0)
    (hts : Task.Await prog m'.store K m'.tasks d E) : m'.Balanced prog K A F := by
  refine .of_records hm ((zero_add E).symm ▸ hbooks) hrec hst hsame hsettled (fun k c hc => ?_)
    (filterMap_eq_nil_iff.2 fun e he => (hes e he).parks?)
    (filterMap_eq_nil_iff.2 fun e he => (hes e he).resumes?) (fun k hk => ?_) hbears hts
  · have : c = .adopt q := hes _ hc
    exact this ▸ hq
  · rw [zero_add] at hk
    have hcredits : k ∉ es.flatMap Event.credits := by
      intro hmem
      obtain ⟨e, he, hke⟩ := mem_flatMap.1 hmem
      exact hnot ((hes e he).credits k hke ▸ hk)
    have hdebits : k ∉ es.flatMap Event.debits := by
      intro hmem
      obtain ⟨e, he, hke⟩ := mem_flatMap.1 hmem
      exact hnot ((hes e he).debits k hke ▸ hk)
    rw [count_eq_zero_of_not_mem hcredits, count_eq_zero_of_not_mem hdebits]

theorem balanced_of_making {t : Store} (hm : m.Tidy prog)
    (hts : Task.Await prog m.store K ts .result E) (hbooks : Books K A F E m)
    (hst : m.store.Extends t) (hsame : m.store.Same t)
    (hsize : m.store.promises.size < t.promises.size)
    (hturns : m.agenda.Turns es ⟨t.promises, ts.flatMap Task.due, false⟩)
    (hes : ∀ e ∈ es, e.Concerns m.store.promises.size)
    (hsettled : ∀ q x, .settled q x ∈ es → x.payload.Ordinary t.promises.size) :
    Balanced prog K A F ⟨t, .answer (.future m.store.promises.size), ts⟩ :=
  .of_concerns (d := .result) hm hbooks (.of_turns hturns ⟨rfl, rfl, nofun⟩) hst hsame hsettled
    hsize hes (fun hmem => Nat.lt_irrefl _ (hbooks.bound _ hmem))
    (.answers (Value.ordinary_future.2 hsize) trivial) (hts.mono hst fun _ hq => hq)

theorem balanced_of_newPromise {t : Store} (hm : m.Tidy prog) (hdue : m.due = ts.flatMap Task.due)
    (hts : Task.Await prog m.store K ts .result E) (hbooks : Books K A F E m)
    (hsame : m.store.Same t) (hpromises : t.promises = m.store.newPromise.1.promises) :
    Balanced prog K A F ⟨t, .answer (.future m.store.promises.size), ts⟩ := by
  have hst : m.store.Extends t :=
    (Store.evolves_newPromise (C := fun _ => True) m.store).toExtends.trans
      (Store.Evolves.of_eq (C := fun _ => True) hpromises hsame.frames).toExtends
  have hturns : m.agenda.Turns [.created] ⟨t.promises, ts.flatMap Task.due, false⟩ := by
    rw [agenda, hdue, hpromises]
    exact .one .created
  refine balanced_of_making hm hts hbooks hst hsame ?_ hturns (forall_mem_singleton.2 trivial)
    fun q x hmem => by cases mem_singleton.1 hmem
  rw [hpromises]
  exact Nat.lt_of_lt_of_eq (Nat.lt_succ_self _) (Array.size_push _).symm

theorem balanced_of_settledPromise {x : Outcome Value} (hm : m.Tidy prog)
    (hdue : m.due = ts.flatMap Task.due) (hts : Task.Await prog m.store K ts .result E)
    (hbooks : Books K A F E m) (hx : x.payload.Ordinary m.store.promises.size) :
    Balanced prog K A F
      ⟨(m.store.settledPromise x).1, .answer (.future (m.store.settledPromise x).2), ts⟩ := by
  obtain ⟨hnumber, hsame, hsize⟩ := m.store.settledPromise_spec x
  have hlt : m.store.promises.size < (m.store.settledPromise x).1.promises.size :=
    hsize ▸ Nat.lt_succ_self _
  rw [hnumber]
  have hturns : m.agenda.Turns (m.store.settledPromiseEvents x)
      ⟨(m.store.settledPromise x).1.promises, ts.flatMap Task.due, false⟩ := by
    rw [agenda, hdue]
    exact Store.turns_settledPromise m.store x _
  refine balanced_of_making hm hts hbooks
    (Store.evolves_settledPromise (C := fun _ => True) (fun _ => trivial) _ x).toExtends hsame hlt
    hturns (fun e he => Store.concerns_of_settledPromise he) fun q y hy => ?_
  rcases Store.settled_of_settledPromise hy with rfl | ⟨k, hk⟩
  · exact hx.mono hlt.le
  · exact (hm.ordinary.outcomes k y (Store.outcome?_eq_some.1 hk)).mono hlt.le

/-! ### Calls -/

theorem bears_enterMethod {used : Nat → Prop} (hn : prog.Hosts n) {args : List Value}
    (hargs : ∀ v ∈ args, v.Ordinary s.promises.size) (name : String) (depth : Nat) :
    Control.Bears prog s used K (prog.enterMethod name n args depth) .result 0 := by
  unfold Program.enterMethod
  split
  · exact .throws (u := .fault _) trivial
  · split
    · exact .throws (u := .fault _) trivial
    · cases hn with
      | plain hn => exact .runs (o := 0) (.plain hn) (Custody.at_start_plain hn hargs _)
      | entry hp n => exact .opens hp hargs
      | dispatcher hp => exact .astray hargs

theorem due_enterMethod (prog : Program) (name : String) (n : Method) (args : List Value)
    (depth : Nat) : (prog.enterMethod name n args depth).due = [] := by
  unfold Program.enterMethod
  split
  · rfl
  · split <;> rfl

theorem bears_joinMarker {used : Nat → Prop} (hs : s.Ordinary) (name : String) (args : List Value) :
    Control.Bears prog s used K (Program.joinMarker s name args) .result 0 := by
  unfold Program.joinMarker
  split
  · split
    · rename_i hq
      exact .answers (hs.outcomes _ _ (Store.outcome?_eq_some.1 hq)) trivial
    · rename_i hq
      exact .throws (u := .throw _) (hs.outcomes _ _ (Store.outcome?_eq_some.1 hq))
    · exact .throws (u := .fault _) trivial
  · exact .throws (u := .fault _) trivial

theorem due_joinMarker (s : Store) (name : String) (args : List Value) :
    (Program.joinMarker s name args).due = [] := by
  unfold Program.joinMarker
  split
  · split <;> rfl
  · rfl

/-- **A native function asks for something.** -/
theorem balanced_of_perform {x : Request} (hm : m.Tidy prog) (hdue : m.due = ts.flatMap Task.due)
    (hts : Task.Await prog m.store K ts .result E) (hbooks : Books K A F E m)
    (hx : x.Ordinary m.store.promises.size) : Balanced prog K A F (.of (m.store.perform x) ts) := by
  have hbooks' : Books K A F (0 + E) m := (zero_add E).symm ▸ hbooks
  have hs := hm.ordinary
  cases x with
  | answer v =>
    exact .of_quiet (d := .result) hm hbooks' (.refl hs) hdue.symm (.answers hx trivial) hts
  | throw e =>
    exact .of_quiet hm hbooks' (.refl hs) hdue.symm (.throws (u := .throw e) hx) hts
  | note line =>
    have hquiet : m.store.Quiet (m.store.note line) := hs.quiet rfl rfl hs.ambient
    exact .of_quiet (d := .result) hm hbooks' hquiet hdue.symm
      (.answers Value.ordinary_null trivial) (hts.mono hquiet.grows fun _ hq => hq)
  | pending tag => exact balanced_of_newPromise hm hdue hts hbooks ⟨rfl, rfl⟩ rfl
  | settled x =>
    obtain ⟨hp, hsame, hordinary⟩ := m.store.realizeOutcome_spec hx
    have hquiet : m.store.Quiet (m.store.realizeOutcome x).1 :=
      hs.quiet hp hsame.frames (hsame.ambient ▸ hs.ambient)
    have hagenda : agenda ⟨(m.store.realizeOutcome x).1, m.control, m.tasks⟩ = m.agenda := by
      rw [agenda, agenda, hp]
      rfl
    exact balanced_of_settledPromise (hm.idle hquiet.grows hquiet.ordinary hagenda) hdue
      (hts.mono hquiet.grows fun _ hq => hq) (hbooks.idle hquiet.grows hagenda) (hp ▸ hordinary)
  | lookup key =>
    exact .of_quiet (d := .result) hm hbooks' (.refl hs) hdue.symm
      (.answers (hs.ambient.get? key) trivial) hts
  | assign key v =>
    have hquiet := hs.quiet (t := { m.store with ambient := m.store.ambient.set key v }) rfl rfl
      (hs.ambient.set key hx)
    exact .of_quiet (d := .result) hm hbooks' hquiet hdue.symm
      (.answers Value.ordinary_null trivial) (hts.mono hquiet.grows fun _ hq => hq)
  | invoke name args => exact .of_quiet hm hbooks' (.refl hs) hdue.symm (.calls hx) hts

theorem Balanced.enter {name : String} {args : List Value} {depth : Nat} (hprog : prog.Orderly)
    (hnatives : prog.Honest s) (h : Balanced prog K A F ⟨s, .enter name args depth, ts⟩) :
    Balanced prog K A F (.of (prog.enter s name args depth) ts) := by
  obtain ⟨hm, d, D, E, hbears, hts, hbooks⟩ := h
  cases hbears with
  | @dispatches p x y f o _ kept hp hx hy hf =>
    have henter : prog.enter s p.name [x, y, .frame f] depth =
        (s, prog.enterMethod p.name p.dispatcher [x, y, .frame f] depth) := by
      simp only [Program.enter, hp.resolves.marker, hp.resolves.native, hp.resolves.method]
      rfl
    rw [henter]
    have hlength : [x, y, .frame f].length = p.dispatcher.params.length := rfl
    by_cases hdepth : depth < prog.maxDepth
    · rw [Program.enterMethod_eq_exec p.name hlength hdepth]
      exact .of_quiet hm hbooks (.refl hm.ordinary) rfl
        (.runs (.dispatcher hp kept) (p.at_start_custody hx hy hf _)) hts
    · have hfault : prog.enterMethod p.name p.dispatcher [x, y, .frame f] depth =
          .unwind (.fault (.depthLimit prog.maxDepth)) := by
        rw [Program.enterMethod, if_neg (not_not_intro hlength), if_pos (Nat.le_of_not_lt hdepth)]
      obtain ⟨D', hbears, hbooks'⟩ := (Program.Keeps.dispatcher hp kept).fails
        (u := .fault (.depthLimit prog.maxDepth)) trivial hbooks
      rw [hfault]
      exact .of_quiet hm hbooks' (.refl hm.ordinary) rfl hbears hts
  | calls hargs =>
    unfold Program.enter
    split
    · exact .of_quiet hm hbooks (.refl hm.ordinary)
        (congrArg (· ++ _) (due_joinMarker s name args))
        (bears_joinMarker hm.ordinary name args) hts
    · split
      · rename_i f hf
        have hquiet : s.Quiet { s with calls := ⟨name, args⟩ :: s.calls } :=
          hm.ordinary.quiet rfl rfl hm.ordinary.ambient
        rw [zero_add] at hbooks
        exact balanced_of_perform
          (m := ⟨{ s with calls := ⟨name, args⟩ :: s.calls }, .enter name args depth, ts⟩)
          (hm.idle hquiet.grows hquiet.ordinary rfl) rfl
          (hts.mono hquiet.grows fun _ hq => hq) (hbooks.idle hquiet.grows rfl)
          (hnatives name f hf args hargs)
      · split
        · rename_i n hn
          exact .of_quiet hm hbooks (.refl hm.ordinary)
            (congrArg (· ++ _) (due_enterMethod prog name n args depth))
            (bears_enterMethod (hprog name n hn) hargs name depth) hts
        · exact .of_quiet hm hbooks (.refl hm.ordinary) rfl (.throws (u := .fault _) trivial) hts

/-! ### Callbacks -/

theorem records_call (s : Store) (x : Outcome Value) (c : Callback) (cs : List Callback)
    (ts : List Task) : Records ⟨s, .deliver x (c :: cs), ts⟩ (.invoked c x :: c.events s x)
      (call s x (.deliver x cs :: ts) c) := by
  have hagrees : Agrees ⟨s, .deliver x (c :: cs), ts⟩ (agenda ⟨s, .deliver x (c :: cs), ts⟩) :=
    ⟨rfl, rfl, nofun⟩
  obtain ⟨b, hturns, hb⟩ := exists_turns_call hagrees
  exact .of_turns hturns hb

theorem mem_callbacks_of_deliver {x : Outcome Value} {c : Callback} {cs : List Callback} :
    c ∈ callbacks ⟨s, .deliver x (c :: cs), ts⟩ :=
  Multiset.mem_add.2 (.inr (Multiset.mem_coe.2 mem_cons_self))

/-- **A promise adopts an outcome.**  A future in the books that is to adopt one is pending, so that
its account stays as it is. -/
theorem count_adopted (hbooks : Books K A F E m) {q k : Nat} (hq : .adopt q ∈ m.callbacks)
    (hk : k ∈ E.map Prod.fst + m.carried + A) (x : Outcome Value) :
    ((m.store.settleEvents q x).flatMap Event.credits).count k = [q].count k := by
  by_cases hqk : q = k
  · subst hqk
    have hlt := outcomes_lt_account hq
    have haccount : m.account q = 1 := by
      rcases Multiset.mem_add.1 hk with hk | hk
      · have := hbooks.unsettled q hk
        omega
      · exact hbooks.settled q hk
    obtain ⟨ws, hws⟩ := pending_of_outcomes (m := m) (q := q) (by omega) (hbooks.bound q hk)
    rw [Store.settleEvents_of_pending hws]
    rfl
  · have hne : k ∉ (m.store.settleEvents q x).flatMap Event.credits := by
      unfold Store.settleEvents
      split
      · exact fun h => hqk (mem_singleton.1 h).symm
      · exact nofun
    rw [count_eq_zero_of_not_mem hne,
      count_eq_zero_of_not_mem fun h => hqk (mem_singleton.1 h).symm]

section

variable {x : Outcome Value} {cs : List Callback}

theorem Balanced.adopt {q : Nat} (h : Balanced prog K A F ⟨s, .deliver x (.adopt q :: cs), ts⟩) :
    Balanced prog K A F (.of (s.settle q x) (.deliver x cs :: ts)) := by
  obtain ⟨hm, d, D, E, hbears, hts, hbooks⟩ := h
  cases hbears with
  | delivers hx hd =>
    have hr : s.Change prog (s.settleEvents q x) (s.settle q x) := Store.change_settle hx q
    obtain ⟨hparks, hresumes, hdebits⟩ := s.settleEvents_spec q x
    refine .of_records (d := .result) hm hbooks (records_call s x (.adopt q) cs ts) hr.grows
      hr.same (fun k y hy => ?_) (fun k c hc => ?_) hparks hresumes (fun k hk => ?_)
      (hr.control trivial)
      (.delivers (hx.mono hr.grows.promises) hd (hts.mono hr.grows fun _ hq => hq))
    · exact hr.settled k y ((mem_cons.1 hy).resolve_left nofun)
    · exact hr.registered k c ((mem_cons.1 hc).resolve_left nofun)
    · simp only [flatMap_cons, Callback.events, Event.credits, Event.debits, nil_append,
        hdebits, append_nil]
      exact count_adopted hbooks mem_callbacks_of_deliver hk x

theorem Balanced.resume {name : String} {k f : Nat} {ambient : Ambient}
    (h : Balanced prog K A F ⟨s, .deliver x (.resume name k f ambient :: cs), ts⟩) :
    Balanced prog K A (f ::ₘ F) (call s x (.deliver x cs :: ts) (.resume name k f ambient)) := by
  obtain ⟨hm, d, D, E, hbears, hts, hbooks⟩ := h
  cases hbears with
  | delivers hx hd =>
    obtain ⟨⟨p, hp, rfl⟩, ⟨o, ho⟩, hambient⟩ :=
      hm.callbacks (.resume name k f ambient) mem_callbacks_of_deliver
    have hrec := records_call s x (.resume p.name k f ambient) cs ts
    have hquiet : s.Quiet { s with ambient := ambient } :=
      hm.ordinary.quiet rfl rfl hambient
    have hcall : call s x (.deliver x cs :: ts) (.resume p.name k f ambient) =
        ⟨{ s with ambient := ambient },
          .enter p.name [.int (Int64.ofNat k), .outcome x, .frame f] 0,
          .resumed (some o) s.ambient :: .deliver x cs :: ts⟩ := by
      rw [← ho]
      rfl
    rw [hcall] at hrec ⊢
    refine ⟨⟨hquiet.ordinary, fun c hc => ?_⟩, .dispatch true o, {(o, true)}, E,
      .dispatches hp (Value.ordinary_int _) (Value.ordinary_outcome.2 hx) ho,
      .resumed (d := .result) hm.ordinary.ambient trivial
        (.delivers hx hd (hts.mono hquiet.grows fun _ hq => hq)), ?_⟩
    · rcases hrec.mem_callbacks hc with hc | ⟨q, hq⟩
      · exact (hm.callbacks c hc).mono hquiet.grows
      · exact absurd (mem_singleton.1 hq) nofun
    · rw [zero_add] at hbooks
      refine hbooks.resume hquiet.grows ?_ (fun q => hrec.account_eq rfl) ho
      rw [← Multiset.singleton_add, add_comm]
      exact (add_zero _).symm.trans hrec.parked

theorem Balanced.note {tag : String}
    (h : Balanced prog K A F ⟨s, .deliver x (.note tag :: cs), ts⟩) :
    Balanced prog K A F (call s x (.deliver x cs :: ts) (.note tag)) := by
  obtain ⟨hm, d, D, E, hbears, hts, hbooks⟩ := h
  cases hbears with
  | delivers hx hd =>
    have hst : s.Extends (call s x (.deliver x cs :: ts) (.note tag)).store := by
      refine (Store.Evolves.of_eq (C := fun _ => True) ?_ ?_).toExtends <;> rfl
    exact .of_records (d := .result) hm hbooks (records_call s x (.note tag) cs ts) hst
      ⟨rfl, rfl⟩ (by simp [Callback.events]) (by simp [Callback.events]) rfl rfl
      (fun _ _ => rfl) (.answers Value.ordinary_null trivial)
      (.delivers hx hd (hts.mono hst fun _ hq => hq))

theorem Balanced.delivered (h : Balanced prog K A F ⟨s, .deliver x [], ts⟩) :
    Balanced prog K A F ⟨s, .answer (.bool true), ts⟩ := by
  obtain ⟨hm, d, D, E, hbears, hts, hbooks⟩ := h
  cases hbears with
  | delivers _ hd =>
    exact .of_quiet hm hbooks (.refl hm.ordinary) rfl (.answers (Value.ordinary_bool _) hd) hts

end

/-! ### Answers and failures -/

/-- **The promises that the next step fulfils or rejects**: an instruction does, and the failure of
a resumed dispatcher. -/
def applied (m : Machine) : List Nat :=
  match m.control, m.tasks with
  | .exec a, _ => a.applied m.store
  | .unwind _, .resumed (some outer) _ :: _ => [outer]
  | _, _ => []

theorem Balanced.answered {v : Value} {t : Task} (h : Balanced prog K A F ⟨s, .answer v, t :: ts⟩) :
    Balanced prog K A F (answered s v ts t) := by
  obtain ⟨hm, d, D, E, hbears, hts, hbooks⟩ := h
  have hs := hm.ordinary
  have hrestored : ∀ {saved : Ambient}, saved.Ordinary s.promises.size →
      s.Quiet { s with ambient := saved } := fun hsaved => hs.quiet rfl rfl hsaved
  cases hts with
  | @waits C n o d D E a keep _ hC ha hts =>
    cases hbears with
    | answers hv _ =>
      rw [zero_add] at hbooks
      exact .of_quiet hm hbooks (.refl hs) rfl (.runs hC (ha.answered hC.checks hv keep _)) hts
  | entry _ ha hts =>
    cases hbears with
    | gives ho => exact .of_quiet hm hbooks (.refl hs) rfl (.returns (ha _) ho (.inl rfl)) hts
    | answers _ hd => exact hd.elim
  | @given a o kept _ _ ha ho hts =>
    cases hbears with
    | answers _ _ =>
      exact .of_quiet hm hbooks (.refl hs) rfl (.returns ha ho (.inr ⟨kept, rfl⟩)) hts
  | delivers ho hd hts =>
    cases hbears with
    | answers _ _ => exact .of_quiet hm hbooks (.refl hs) rfl (.delivers ho hd) hts
  | resumed hsaved hd hts =>
    cases hbears with
    | gives _ =>
      exact .of_quiet hm hbooks (hrestored hsaved) rfl (.answers Value.ordinary_null hd)
        (hts.mono (hrestored hsaved).grows fun _ hq => hq)
    | answers _ hd => exact hd.elim
  | restore hsaved hd hts =>
    cases hbears with
    | answers _ _ =>
      exact .of_quiet hm hbooks (hrestored hsaved) rfl (.answers Value.ordinary_null hd)
        (hts.mono (hrestored hsaved).grows fun _ hq => hq)

variable {u : Unwind}

theorem failure_spec (hs : s.Ordinary) (hu : u.Ordinary s.promises.size) :
    s.Quiet (failure s u).1 ∧ (failure s u).2.Ordinary s.promises.size := by
  cases u with
  | throw e => exact ⟨.refl hs, hu⟩
  | fault f =>
    refine ⟨hs.quiet rfl rfl hs.ambient, ?_⟩
    simp [failure, Store.newException, Store.newObject]

/-- **A resumed dispatcher fails**, and its outer future is rejected. -/
theorem balanced_of_failure {saved : Ambient}
    (hm : Tidy prog ⟨s, .unwind u, .resumed (some o) saved :: ts⟩)
    (hbooks : Books K A F ((o, true) ::ₘ E) ⟨s, .unwind u, .resumed (some o) saved :: ts⟩)
    (hu : u.Ordinary s.promises.size) (hsaved : saved.Ordinary s.promises.size) (hd : d.isValue)
    (hts : Task.Await prog s K ts d E) :
    Balanced prog (fun q => K q ∨ q = o) (o ::ₘ A) F
      (unwound prog s u ts (.resumed (some o) saved)) := by
  obtain ⟨hquiet, he⟩ := failure_spec hm.ordinary hu
  have hagenda : agenda ⟨(failure s u).1, .unwind u, .resumed (some o) saved :: ts⟩ =
      agenda ⟨s, .unwind u, .resumed (some o) saved :: ts⟩ := by
    rw [agenda, agenda, hquiet.promises]
    rfl
  have hm' := hm.idle hquiet.grows hquiet.ordinary hagenda
  have hbooks' := hbooks.idle hquiet.grows hagenda
  obtain ⟨ws, hws⟩ := hbooks'.pending (o := o) (by simp)
  have hr : (failure s u).1.Change prog _ _ :=
    Store.change_settle (x := .rejected (failure s u).2) (hquiet.promises.symm ▸ he) o
  have hst := hquiet.grows.trans hr.grows
  have hnamed := hbooks'.named o (.inl (Multiset.mem_cons_self _ E))
  exact balanced_of_settlement hm' hbooks' rfl hnamed hr
    (.inl ⟨_, Store.settleEvents_of_pending hws _⟩)
    (.restore (hsaved.mono hst.promises) hd (hts.mono hst fun _ => .inl))

/-- **A call fails**: what waits for it handles the exception, or fails too. -/
theorem balanced_of_raised {a : Activation} {keep : Bool} (hC : prog.Keeps o C n d D)
    (ha : C.Waits n s o a) (hm : Tidy prog ⟨s, .unwind u, .caller a keep :: ts⟩)
    (hbooks : Books K A F (D + E) ⟨s, .unwind u, .caller a keep :: ts⟩)
    (hu : u.Ordinary s.promises.size) (hts : Task.Await prog s K ts d E) :
    Balanced prog K A F (unwound prog s u ts (.caller a keep)) := by
  have hfails : Balanced prog K A F ⟨s, .unwind u, ts⟩ := by
    obtain ⟨D', hbears, hbooks'⟩ := hC.fails hu hbooks
    exact .of_quiet hm hbooks' (.refl hm.ordinary) rfl hbears hts
  cases u with
  | fault f => exact hfails
  | throw e =>
    show Balanced prog K A F ⟨s, prog.raise a e, ts⟩
    rcases ha.raised hC.checks hu _ prog with ⟨b, hb, hat⟩ | hb
    · rw [hb]
      exact .of_quiet hm hbooks (.refl hm.ordinary) rfl (.runs hC hat) hts
    · rw [hb]
      exact hfails

theorem unwound_entry {a : Activation} {name : String} (ha : a.method = entry n name)
    (prog : Program) (s : Store) (u : Unwind) (ts : List Task) (keep : Bool) :
    unwound prog s u ts (.caller a keep) = ⟨s, .unwind u, ts⟩ := by
  cases u with
  | fault f => rfl
  | throw e =>
    have hraise : prog.raise a e = .unwind (.throw e) := by
      rw [Program.raise, Program.handler?, ha]
      rfl
    rw [← hraise]
    rfl

theorem Balanced.unwound {t : Task} (h : Balanced prog K A F ⟨s, .unwind u, t :: ts⟩) :
    ∃ K', (∀ q, K q → K' q) ∧
      Balanced prog K' (↑(applied ⟨s, .unwind u, t :: ts⟩) + A) F (unwound prog s u ts t) := by
  obtain ⟨hm, d, D, E, hbears, hts, hbooks⟩ := h
  have hs := hm.ordinary
  have hsame : ∀ {m' : Machine}, m'.Balanced prog K A F →
      ∃ K', (∀ q, K q → K' q) ∧ m'.Balanced prog K' (0 + A) F :=
    fun h' => ⟨K, fun _ hq => hq, (zero_add A).symm ▸ h'⟩
  cases hts with
  | waits hC ha hts =>
    cases hbears with
    | throws hu =>
      rw [zero_add] at hbooks
      exact hsame (balanced_of_raised hC ha hm hbooks hu hts)
  | entry ha _ hts =>
    cases hbears with
    | drops hu =>
      refine hsame ?_
      rw [unwound_entry ha]
      exact .of_quiet hm hbooks (.refl hs) rfl (.throws hu) hts
  | delivers ho hd hts =>
    cases hbears with
    | throws _ => exact hsame (.of_quiet hm hbooks (.refl hs) rfl (.delivers ho hd) hts)
  | resumed hsaved hd hts =>
    cases hbears with
    | fails hu => exact ⟨_, fun _ => .inl, balanced_of_failure hm hbooks hu hsaved hd hts⟩
  | given _ _ _ | restore _ _ _ => cases hbears

end Machine

/-! ### Steps -/

theorem Store.filterMap_resumes? (s : Store) (q : Nat) (c : Callback) :
    (s.registerEvents q c).filterMap Event.resumes? = [] := by
  unfold registerEvents
  split <;> rfl

/-- An instruction runs no callback. -/
theorem Activation.filterMap_resumes? (a : Activation) (s : Store) :
    (a.events s).filterMap Event.resumes? = [] := by
  have hinstr : ∀ i : Instr, i.events.filterMap Event.resumes? = [] := by
    intro i
    cases i <;> rfl
  have haction : ∀ (t : Store) (action : Action),
      (action.events t).filterMap Event.resumes? = [] := by
    intro t action
    cases action with
    | fulfill b q v =>
      exact filterMap_eq_nil_iff.2 fun e he => (Store.concerns_of_fulfill he).resumes?
    | reject b q e => exact (t.settleEvents_spec q _).2.1
    | subscribe b q c => exact t.filterMap_resumes? q c
    | next _ | throw _ | fault _ | call _ _ _ _ => rfl
  unfold Activation.events
  split
  · rfl
  · split
    · rw [filterMap_append, hinstr, haction]
      rfl
    · rfl

/-- A call runs no callback but that of an adoption. -/
theorem Program.filterMap_resumes? (prog : Program) (s : Store) (name : String)
    (args : List Value) :
    (prog.enterEvents s name args).filterMap Event.resumes? = [] := by
  unfold Program.enterEvents
  split
  · rfl
  · split
    · rename_i f hf
      cases f s.calls args with
      | settled x =>
        exact filterMap_eq_nil_iff.2 fun e he =>
          (Store.concerns_of_settledPromise he).resumes?
      | answer _ | throw _ | note _ | pending _ | lookup _ | assign _ _ | invoke _ _ => rfl
    · rfl

namespace Machine

variable {prog : Program} {K : Nat → Prop} {A F : Multiset Nat} {m m' : Machine}

/-- The frames of the continuations that the next step registers. -/
def registered (prog : Program) (m : Machine) : List Nat := (m.events prog).filterMap Event.parks?

/-- The frames of the continuations that the next step runs. -/
def dispatched (prog : Program) (m : Machine) : List Nat := (m.events prog).filterMap Event.resumes?

/-- Only a callback that runs resumes a dispatcher. -/
theorem dispatched_eq (prog : Program) (m : Machine) : m.dispatched prog =
    match m.control with
    | .deliver _ (c :: _) => c.frame?.toList
    | _ => [] := by
  obtain ⟨s, control, ts⟩ := m
  cases control with
  | exec a => exact a.filterMap_resumes? s
  | enter name args depth => exact prog.filterMap_resumes? s name args
  | deliver x cs =>
    cases cs with
    | nil => rfl
    | cons c cs =>
      cases c with
      | adopt q => exact (s.settleEvents_spec q x).2.1
      | resume _ _ _ _ | note _ => rfl
  | answer v => rfl
  | unwind u =>
    cases ts with
    | nil => rfl
    | cons t ts =>
      cases t with
      | resumed outer saved =>
        cases outer with
        | none => rfl
        | some o => exact (Store.settleEvents_spec _ o _).2.1
      | caller _ _ | deliver _ _ | restore _ => rfl

/-- **A step keeps the books**: the promises that it fulfils or rejects and the frame of the
dispatcher that it resumes are added. -/
theorem Balanced.step (hprog : prog.Orderly) (hnatives : prog.Honest m.store)
    (h : m.Balanced prog K A F) (hm : m.Step prog m') :
    ∃ K', (∀ q, K q → K' q) ∧ m'.Balanced prog K' (↑m.applied + A) (↑(m.dispatched prog) + F) := by
  rw [dispatched_eq]
  have hsame : ∀ {m' : Machine}, m'.Balanced prog K A F →
      ∃ K', (∀ q, K q → K' q) ∧ m'.Balanced prog K' (0 + A) (0 + F) := by
    intro m' h'
    rw [zero_add, zero_add]
    exact ⟨K, fun _ hq => hq, h'⟩
  have hframes : ∀ {m' : Machine} {B : Multiset Nat},
      (∃ K', (∀ q, K q → K' q) ∧ m'.Balanced prog K' B F) →
      ∃ K', (∀ q, K q → K' q) ∧ m'.Balanced prog K' B (0 + F) := by
    intro m' B h'
    rw [zero_add]
    exact h'
  obtain ⟨s, control, ts⟩ := m
  cases control with
  | exec a =>
    cases hm
    exact hframes h.execute
  | enter name args depth =>
    cases hm
    exact hsame (h.enter hprog hnatives)
  | deliver x cs =>
    cases cs with
    | nil =>
      cases hm
      exact hsame h.delivered
    | cons c cs =>
      cases hm
      cases c with
      | adopt q => exact hsame h.adopt
      | resume name k f ambient =>
        have h' : Balanced prog K (0 + A) (↑[f] + F)
            (Machine.call s x (.deliver x cs :: ts) (.resume name k f ambient)) := by
          rw [zero_add, Multiset.coe_singleton, Multiset.singleton_add]
          exact h.resume
        exact ⟨K, fun _ hq => hq, h'⟩
      | note tag => exact hsame h.note
  | answer v =>
    cases ts with
    | nil => cases hm
    | cons t ts =>
      cases hm
      exact hsame h.answered
  | unwind u =>
    cases ts with
    | nil => cases hm
    | cons t ts =>
      cases hm
      exact hframes h.unwound

end Machine

end Resumable
