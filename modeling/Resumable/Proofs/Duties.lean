/-
**Who has the duty for an outer future.**

The machine of a program whose protocol instructions are all generated keeps books of the outer
futures: a duty is with the control, or with a task that waits for it, or with a parked dispatcher,
and otherwise the future has been settled.  What a task expects of the control, a result or the end
of a settlement or the outer future of a dispatcher, says what happens to the duty when the control
fails.

This module defines when the books of a machine balance, and follows the steps of activations.

Main results:

* `Machine.balanced_of_settlement`, `Machine.balanced_of_parking` — the ends of a duty;
* `Machine.Balanced.execute` — **the step of an activation keeps the books**.
-/

import Resumable.Proofs.Books
import Resumable.Proofs.Handover

set_option autoImplicit false

namespace Resumable

open Dispatcher

/-! ### Programs -/

/-- A dispatcher that keeps its duty and is called by its name. -/
structure Program.Dispatches (prog : Program) (p : Plan) : Prop where
  checks : p.custody.Checks p.dispatcher
  resolves : prog.Resolves p.name p.dispatcher

/-- The methods of a program: without protocol instructions, or generated. -/
inductive Program.Hosts (prog : Program) : Method → Prop where
  | plain {m : Method} (hm : m.Plain) : Hosts prog m
  | entry {p : Plan} (hp : prog.Dispatches p) (m : Method) : Hosts prog (entry m p.name)
  | dispatcher {p : Plan} (hp : prog.Dispatches p) : Hosts prog p.dispatcher

/-- **A program whose protocol instructions are all generated.** -/
def Program.Orderly (prog : Program) : Prop := ∀ name m, prog.method? name = some m → prog.Hosts m

/-- The native functions of the program make up no cells. -/
def Program.Honest (prog : Program) (s : Store) : Prop :=
  ∀ name f, prog.native? name = some f → f.Ordinary s.promises.size s.calls

/-- The callbacks of such a program. -/
def Program.Fits (prog : Program) (s : Store) : Callback → Prop
  | .adopt q => q < s.promises.size
  | .resume d _ f ambient => (∃ p, prog.Dispatches p ∧ d = p.name) ∧
      (∃ o, s.outer? f = some o) ∧ ambient.Ordinary s.promises.size
  | .note _ => True

/-! ### Demands -/

/-- What a task expects of the control. -/
inductive Demand where
  /-- An ordinary value, or a failure. -/
  | result
  /-- An ordinary value, and no failure. -/
  | settlement
  /-- The outer future of a dispatcher.  If the dispatcher fails, the duty for the future is kept or
  not. -/
  | dispatch (kept : Bool) (o : Nat)

/-- An ordinary value is expected. -/
def Demand.isValue : Demand → Prop
  | .result | .settlement => True
  | .dispatch _ _ => False

/-- The code that has a custody, what it is expected to return, and the duties that it has. -/
inductive Program.Keeps (prog : Program) (o : Nat) :
    Custody → Method → Demand → Multiset (Nat × Bool) → Prop where
  | plain {m : Method} (hm : m.Plain) : Keeps prog o .plain m .result 0
  | entry {p : Plan} (hp : prog.Dispatches p) (m : Method) :
      Keeps prog o (entryCustody p.name) (entry m p.name) .result {(o, false)}
  | dispatcher {p : Plan} (hp : prog.Dispatches p) (kept : Bool) :
      Keeps prog o p.custody p.dispatcher (.dispatch kept o) {(o, kept)}

section

variable (prog : Program) (s : Store) (used : Nat → Prop) (K : Nat → Prop)

/-- **What the control is about to do**, and the duties that it has. -/
inductive Control.Bears : Control → Demand → Multiset (Nat × Bool) → Prop where
  | runs {C : Custody} {m : Method} {o : Nat} {d : Demand} {D : Multiset (Nat × Bool)}
      {a : Activation} (hC : prog.Keeps o C m d D) (ha : C.At m s used o a) : Bears (.exec a) d D
  /-- A dispatcher is called without a frame. -/
  | astray {p : Plan} {args : List Value} {depth : Nat}
      (hargs : ∀ v ∈ args, v.Ordinary s.promises.size) :
      Bears (.exec (.start p.dispatcher args depth)) .result 0
  /-- An entry is called. -/
  | opens {p : Plan} {m : Method} {args : List Value} {depth : Nat} (hp : prog.Dispatches p)
      (hargs : ∀ v ∈ args, v.Ordinary s.promises.size) :
      Bears (.exec (.start (entry m p.name) args depth)) .result 0
  | returns {o : Nat} {d : Demand} {a : Activation} (ha : a.Returning o) (ho : K o)
      (hd : d = .result ∨ ∃ kept, d = .dispatch kept o) : Bears (.exec a) d 0
  | calls {name : String} {args : List Value} {depth : Nat}
      (hargs : ∀ v ∈ args, v.Ordinary s.promises.size) : Bears (.enter name args depth) .result 0
  | dispatches {p : Plan} {x y : Value} {f o depth : Nat} {kept : Bool} (hp : prog.Dispatches p)
      (hx : x.Ordinary s.promises.size) (hy : y.Ordinary s.promises.size)
      (hf : s.outer? f = some o) :
      Bears (.enter p.name [x, y, .frame f] depth) (.dispatch kept o) {(o, kept)}
  | delivers {o : Outcome Value} {cs : List Callback} {d : Demand}
      (ho : o.payload.Ordinary s.promises.size) (hd : d.isValue) : Bears (.deliver o cs) d 0
  | answers {v : Value} {d : Demand} (hv : v.Ordinary s.promises.size) (hd : d.isValue) :
      Bears (.answer v) d 0
  | gives {o : Nat} {kept : Bool} (ho : K o) : Bears (.answer (.future o)) (.dispatch kept o) 0
  | throws {u : Unwind} (hu : u.Ordinary s.promises.size) : Bears (.unwind u) .result 0
  | drops {u : Unwind} {o : Nat} (hu : u.Ordinary s.promises.size) :
      Bears (.unwind u) (.dispatch false o) 0
  | fails {u : Unwind} {o : Nat} (hu : u.Ordinary s.promises.size) :
      Bears (.unwind u) (.dispatch true o) {(o, true)}

/-- **What the tasks expect**, and the duties that they have. -/
inductive Task.Await : List Task → Demand → Multiset (Nat × Bool) → Prop where
  | nil : Await [] .result 0
  | waits {C : Custody} {m : Method} {o : Nat} {d : Demand} {D E : Multiset (Nat × Bool)}
      {a : Activation} {keep : Bool} {ts : List Task} (hC : prog.Keeps o C m d D)
      (ha : C.Waits m s o a) (hts : Await ts d E) : Await (.caller a keep :: ts) .result (D + E)
  /-- An entry has called its dispatcher. -/
  | entry {a : Activation} {m : Method} {n : String} {o : Nat} {E : Multiset (Nat × Bool)}
      {ts : List Task} (hm : a.method = entry m n)
      (ha : ∀ vs, (a.advance (.future o :: vs)).Returning o) (hts : Await ts .result E) :
      Await (.caller a true :: ts) (.dispatch false o) E
  /-- A dispatcher has handed over its duty. -/
  | given {a : Activation} {o : Nat} {kept : Bool} {E : Multiset (Nat × Bool)} {ts : List Task}
      (ha : (a.advance a.stack).Returning o) (ho : K o) (hts : Await ts (.dispatch kept o) E) :
      Await (.caller a false :: ts) .settlement E
  | delivers {o : Outcome Value} {cs : List Callback} {d : Demand} {E : Multiset (Nat × Bool)}
      {ts : List Task} (ho : o.payload.Ordinary s.promises.size) (hd : d.isValue)
      (hts : Await ts d E) : Await (.deliver o cs :: ts) .result E
  | resumed {o : Nat} {saved : Ambient} {d : Demand} {E : Multiset (Nat × Bool)} {ts : List Task}
      (hsaved : saved.Ordinary s.promises.size) (hd : d.isValue) (hts : Await ts d E) :
      Await (.resumed (some o) saved :: ts) (.dispatch true o) E
  | restore {saved : Ambient} {d : Demand} {E : Multiset (Nat × Bool)} {ts : List Task}
      (hsaved : saved.Ordinary s.promises.size) (hd : d.isValue) (hts : Await ts d E) :
      Await (.restore saved :: ts) .settlement E

end

/-! ### Machines -/

namespace Machine

/-- The values of the store and the callbacks are those of an orderly program. -/
structure Tidy (prog : Program) (m : Machine) : Prop where
  ordinary : m.store.Ordinary
  callbacks : ∀ c ∈ m.callbacks, prog.Fits m.store c

/-- **The books of a machine balance**: they are kept by its control and its tasks. -/
structure Balanced (prog : Program) (K : Nat → Prop) (A F : Multiset Nat) (m : Machine) : Prop
    extends m.Tidy prog where
  duties : ∃ d D E, m.control.Bears prog m.store (· ∈ m.parked + F) K d D ∧
    Task.Await prog m.store K m.tasks d E ∧ Books K A F (D + E) m

end Machine

section

variable {prog : Program} {s t : Store} {used : Nat → Prop} {K K' : Nat → Prop} {A F : Multiset Nat}
  {D E : Multiset (Nat × Bool)} {d : Demand} {C : Custody} {m : Method} {o : Nat}

theorem Ambient.Ordinary.mono {n k : Nat} {ambient : Ambient} (h : ambient.Ordinary n)
    (hnk : n ≤ k) : ambient.Ordinary k := fun c hc => (h c hc).mono hnk

theorem Program.Fits.mono {c : Callback} (h : prog.Fits s c) (hst : s.Extends t) :
    prog.Fits t c := by
  cases c with
  | adopt q => exact Nat.lt_of_lt_of_le h hst.promises
  | resume n k f ambient =>
    obtain ⟨hp, ⟨o, ho⟩, hambient⟩ := h
    exact ⟨hp, ⟨o, hst.outer? ho⟩, hambient.mono hst.promises⟩
  | note tag => trivial

theorem Program.Keeps.checks (h : prog.Keeps o C m d D) : C.Checks m := by
  cases h with
  | plain hm => exact Custody.checks_plain hm
  | entry hp m => exact checks_entryCustody m _
  | dispatcher hp kept => exact hp.checks

theorem Task.Await.mono {ts : List Task} (h : Task.Await prog s K ts d E) (hst : s.Extends t)
    (hK : ∀ q, K q → K' q) : Task.Await prog t K' ts d E := by
  induction h with
  | nil => exact .nil
  | waits hC ha _ ih => exact .waits hC (ha.mono hC.checks hst) ih
  | entry hm ha _ ih => exact .entry hm ha ih
  | given ha ho _ ih => exact .given ha (hK _ ho) ih
  | delivers ho hd _ ih => exact .delivers (ho.mono hst.promises) hd ih
  | resumed hsaved hd _ ih => exact .resumed (hsaved.mono hst.promises) hd ih
  | restore hsaved hd _ ih => exact .restore (hsaved.mono hst.promises) hd ih

theorem Program.Keeps.fails (h : prog.Keeps o C m d D) {u : Unwind}
    (hu : u.Ordinary s.promises.size) {k : Machine} (hbooks : Machine.Books K A F (D + E) k) :
    ∃ D', Control.Bears prog s used K (.unwind u) d D' ∧ Machine.Books K A F (D' + E) k := by
  cases h with
  | plain hm => exact ⟨0, .throws hu, hbooks⟩
  | entry hp m => exact ⟨0, .throws hu, (zero_add E).symm ▸ hbooks.drop⟩
  | dispatcher hp kept =>
    cases kept with
    | true => exact ⟨_, .fails hu, hbooks⟩
    | false => exact ⟨0, .drops hu, (zero_add E).symm ▸ hbooks.drop⟩

end

namespace Machine

variable {prog : Program} {K : Nat → Prop} {A F : Multiset Nat} {D E : Multiset (Nat × Bool)}
  {d : Demand} {C : Custody} {n : Method} {o : Nat} {s : Store} {ts : List Task} {m m' : Machine}

/-! ### Steps without events -/

theorem parked_congr (h : m'.agenda = m.agenda) : m'.parked = m.parked := by
  rw [parked, parked, callbacks, callbacks, h]

theorem Books.idle (h : Books K A F D m) (hst : m.store.Extends m'.store)
    (hagenda : m'.agenda = m.agenda) : Books K A F D m' :=
  h.post hst (parked_congr hagenda) fun q _ => by
    rw [account, account, callbacks, callbacks, hagenda]

theorem Tidy.idle (h : m.Tidy prog) (hst : m.store.Extends m'.store) (hs : m'.store.Ordinary)
    (hagenda : m'.agenda = m.agenda) : m'.Tidy prog where
  ordinary := hs
  callbacks c hc := by
    rw [Machine.callbacks, hagenda] at hc
    exact (h.callbacks c hc).mono hst

/-- **Nothing happens to promises and callbacks.** -/
theorem Balanced.of_quiet (hm : m.Tidy prog) (hbooks : Books K A F (D + E) m)
    (hs : m.store.Quiet m'.store) (hdue : m'.due = m.due)
    (hbears : m'.control.Bears prog m'.store (· ∈ m.parked + F) K d D)
    (hts : Task.Await prog m'.store K m'.tasks d E) : m'.Balanced prog K A F := by
  have hagenda : m'.agenda = m.agenda := by rw [agenda, agenda, hs.promises, hdue]
  refine ⟨hm.idle hs.grows hs.ordinary hagenda, d, D, E, ?_, hts, hbooks.idle hs.grows hagenda⟩
  rw [parked_congr hagenda]
  exact hbears

/-- **Code that has a duty does something else than to hand it over.** -/
theorem balanced_of_leads {a : Activation} (hC : prog.Keeps o C n d D)
    (hm : Tidy prog ⟨s, .exec a, ts⟩) (hts : Task.Await prog s K ts d E)
    (hbooks : Books K A F (D + E) ⟨s, .exec a, ts⟩)
    (h : C.Leads n s (· ∈ parked ⟨s, .exec a, ts⟩ + F) o ts m') : m'.Balanced prog K A F := by
  have hid : ∀ q, K q → K q := fun _ hq => hq
  cases h with
  | runs hs hb =>
    exact .of_quiet hm hbooks hs rfl (.runs hC hb) (hts.mono hs.grows hid)
  | fails hs hu =>
    obtain ⟨D', hbears, hbooks'⟩ := hC.fails hu hbooks
    exact .of_quiet hm hbooks' hs rfl hbears (hts.mono hs.grows hid)
  | calls hs hargs hb =>
    exact .of_quiet hm ((zero_add (D + E)).symm ▸ hbooks) hs rfl (.calls hargs)
      (.waits hC hb (hts.mono hs.grows hid))
  | returns hfree hv =>
    cases hC with
    | plain _ =>
      exact .of_quiet (d := .result) hm hbooks (.refl hm.ordinary) rfl (.answers hv trivial) hts
    | entry _ _ | dispatcher _ _ => exact hfree.elim

end Machine

/-! ### Changes of promises -/

namespace Store

variable {prog : Program} {s t : Store} {es : List Event} {r : Store × Control} {q o : Nat}

/-- The stores have the same frames and ambient values. -/
structure Same (s t : Store) : Prop where
  frames : t.frames = s.frames
  ambient : t.ambient = s.ambient

/-- **Something happens to promises**, and a settlement may follow. -/
structure Change (prog : Program) (s : Store) (es : List Event) (r : Store × Control) : Prop where
  yields : s.Yields es r
  grows : s.Extends r.1
  same : s.Same r.1
  settled : ∀ q x, .settled q x ∈ es → x.payload.Ordinary r.1.promises.size
  registered : ∀ q c, .registered q c ∈ es → prog.Fits r.1 c
  control : ∀ {used K : Nat → Prop} {d : Demand}, d.isValue → r.2.Bears prog r.1 used K d 0

theorem change_settle {x : Outcome Value} (hx : x.payload.Ordinary s.promises.size) (q : Nat) :
    s.Change prog (s.settleEvents q x) (s.settle q x) := by
  have hgrows : s.Extends (s.settle q x).1 := Machine.extends_settle s q x
  refine ⟨s.yields_settle q x, hgrows, ?_, ?_, ?_, ?_⟩
  · unfold settle settle?
    split
    · rename_i h
      split at h
      · cases h
        exact ⟨rfl, rfl⟩
      · cases h
    · exact ⟨rfl, rfl⟩
  · intro q' x' h
    unfold settleEvents at h
    split at h
    · cases List.mem_singleton.1 h
      exact hx.mono hgrows.promises
    · cases h
  · intro q' c h
    unfold settleEvents at h
    split at h
    · cases List.mem_singleton.1 h
    · cases h
  · intro used K d hd
    have hx' := hx.mono hgrows.promises
    revert hx'
    unfold settle
    split
    · exact fun hx' => .delivers hx' hd
    · exact fun _ => .answers (Value.ordinary_bool _) hd

theorem change_register (hs : s.Ordinary) {c : Callback} (hc : prog.Fits s c) (q : Nat) :
    s.Change prog (s.registerEvents q c) (s.register q c) := by
  have hgrows : s.Extends (s.register q c).1 :=
    (evolves_register (C := fun _ => True) s q fun _ => trivial).1.toExtends
  refine ⟨s.yields_register q c, hgrows, ?_, ?_, ?_, ?_⟩
  · unfold register subscribe
    split
    · rename_i h
      split at h <;> cases h
      exact ⟨rfl, rfl⟩
    · rename_i h
      split at h <;> cases h <;> exact ⟨rfl, rfl⟩
  · intro q' x' h
    unfold registerEvents at h
    split at h
    · cases List.mem_singleton.1 h
    · cases h
  · intro q' c' h
    unfold registerEvents at h
    split at h
    · cases List.mem_singleton.1 h
      exact hc.mono hgrows
    · cases h
  · intro used K d hd
    unfold register subscribe
    split
    · rename_i h
      split at h <;> cases h
      rename_i hq
      exact .delivers (hs.outcomes _ _ hq) hd
    · exact .answers (Value.ordinary_bool _) hd

theorem change_fulfill (hs : s.Ordinary) {v : Value} (hv : v.Ordinary s.promises.size)
    (hq : q < s.promises.size) : s.Change prog (s.fulfillEvents q v) (s.fulfill q v) := by
  cases v with
  | future r =>
    unfold fulfillEvents fulfill
    dsimp only
    split
    · exact ⟨.of_eq rfl rfl, .refl s, ⟨rfl, rfl⟩, nofun, nofun,
        fun hd => .answers (Value.ordinary_bool _) hd⟩
    · exact change_register (c := .adopt q) hs hq r
  | _ => exact change_settle hv q

/-- To settle a promise parks and resumes no dispatcher, and lowers no account. -/
theorem settleEvents_spec (s : Store) (q : Nat) (x : Outcome Value) :
    (s.settleEvents q x).filterMap Event.parks? = [] ∧
      (s.settleEvents q x).filterMap Event.resumes? = [] ∧
      (s.settleEvents q x).flatMap Event.debits = [] := by
  unfold settleEvents
  split <;> exact ⟨rfl, rfl, rfl⟩

theorem settleEvents_of_pending {ws : List Callback} (hq : s.promises[q]? = some (.pending ws))
    (x : Outcome Value) : s.settleEvents q x = [.settled q x] := by
  rw [settleEvents, hq]

/-- A pending promise is settled, or is to adopt an outcome. -/
theorem fulfillEvents_of_pending {ws : List Callback} (hq : s.promises[q]? = some (.pending ws))
    {v : Value} (hv : v.Ordinary s.promises.size) :
    (∃ x, s.fulfillEvents q v = [.settled q x]) ∨
      ∃ k, s.fulfillEvents q v = [.registered k (.adopt q)] := by
  cases v with
  | future k =>
    right
    have hsettled : s.isSettled q = false := by rw [isSettled, outcome?, hq]; rfl
    have hk : s.promises[k]? = some _ := Array.getElem?_eq_getElem (Value.ordinary_future.1 hv)
    refine ⟨k, ?_⟩
    simp only [fulfillEvents, hsettled, registerEvents, hk]
    rfl
  | _ => exact .inl ⟨_, settleEvents_of_pending hq _⟩

end Store

namespace Machine

variable {prog : Program} {K : Nat → Prop} {A F : Multiset Nat} {D E : Multiset (Nat × Bool)}
  {d : Demand} {C : Custody} {n : Method} {o : Nat} {s : Store} {ts : List Task} {m m' : Machine}
  {es : List Event} {r : Store × Control}

/-- Ordinary values and the callbacks of the program stay so. -/
theorem Tidy.records (h : m.Tidy prog) (hrec : m.Records es m') (hst : m.store.Extends m'.store)
    (hsame : m.store.Same m'.store)
    (hsettled : ∀ q x, .settled q x ∈ es → x.payload.Ordinary m'.store.promises.size)
    (hregistered : ∀ q c, .registered q c ∈ es → prog.Fits m'.store c) : m'.Tidy prog where
  ordinary := by
    refine ⟨fun q x hq => ?_, ?_, ?_⟩
    · rcases hrec.settled q x hq with hq | hq
      · exact (h.ordinary.outcomes q x hq).mono hst.promises
      · exact hsettled q x hq
    · rw [hsame.frames]
      exact fun f frame hf v hv => (h.ordinary.slots f frame hf v hv).mono hst.promises
    · rw [hsame.ambient]
      exact h.ordinary.ambient.mono hst.promises
  callbacks c hc := by
    rcases hrec.mem_callbacks hc with hc | ⟨q, hq⟩
    · exact (h.callbacks c hc).mono hst
    · exact hregistered q c hq

theorem Tidy.change (h : m.Tidy prog) (hrec : m.Records es (.of r ts))
    (hr : m.store.Change prog es r) : Tidy prog (.of r ts) :=
  h.records hrec hr.grows hr.same hr.settled hr.registered

theorem Balanced.of_records (hm : m.Tidy prog) (hbooks : Books K A F (D + E) m)
    (hrec : m.Records es m') (hst : m.store.Extends m'.store) (hsame : m.store.Same m'.store)
    (hsettled : ∀ q x, .settled q x ∈ es → x.payload.Ordinary m'.store.promises.size)
    (hregistered : ∀ q c, .registered q c ∈ es → prog.Fits m'.store c)
    (hparks : es.filterMap Event.parks? = []) (hresumes : es.filterMap Event.resumes? = [])
    (haccount : ∀ q ∈ (D + E).map Prod.fst + m.carried + A,
      (es.flatMap Event.credits).count q = (es.flatMap Event.debits).count q)
    (hbears : m'.control.Bears prog m'.store (· ∈ m.parked + F) K d D)
    (hts : Task.Await prog m'.store K m'.tasks d E) : m'.Balanced prog K A F := by
  have hparked := hrec.parked_eq hparks hresumes
  refine ⟨hm.records hrec hst hsame hsettled hregistered, d, D, E, ?_, hts,
    hbooks.post hst hparked fun q hq => hrec.account_eq (haccount q hq)⟩
  rw [hparked]
  exact hbears

variable {q : Nat}

/-- A promise that is not made yet has nothing on its account. -/
theorem Tidy.account_eq_zero (h : m.Tidy prog) (hq : m.store.promises.size ≤ q) :
    m.account q = 0 := by
  have houtcomes : m.agenda.outcomes q = 0 := by
    simp only [Agenda.outcomes, agenda, Array.getElem?_eq_none hq]
  have hadopts : q ∉ m.callbacks.filterMap Callback.adopts? := by
    intro hmem
    obtain ⟨c, hc, heq⟩ := (Multiset.mem_filterMap _ _).1 hmem
    cases c with
    | adopt k =>
      cases heq
      exact Nat.not_lt_of_le hq (h.callbacks _ hc)
    | resume _ _ _ _ | note _ => cases heq
  rw [account, houtcomes, Multiset.count_eq_zero_of_notMem hadopts]

theorem pending_of_outcomes (h : m.agenda.outcomes q = 0) (hq : q < m.store.promises.size) :
    ∃ ws, m.store.promises[q]? = some (.pending ws) := by
  cases hp : m.store.promises[q]? with
  | none => exact absurd (Array.getElem?_eq_none_iff.1 hp) (Nat.not_le_of_lt hq)
  | some promise =>
    cases promise with
    | pending ws => exact ⟨ws, rfl⟩
    | settled x => simp [Agenda.outcomes, agenda, hp] at h

theorem Books.pending (h : Books K A F D m) (ho : o ∈ D.map Prod.fst + m.carried) :
    ∃ ws, m.store.promises[o]? = some (.pending ws) := by
  refine pending_of_outcomes ?_ (h.bound o (Multiset.mem_add.2 (.inl ho)))
  have := h.unsettled o ho
  rw [account] at this
  omega

/-- **The duty for a future ends** with its settlement. -/
theorem balanced_of_settlement {kept : Bool} (hm : m.Tidy prog)
    (hbooks : Books K A F ((o, kept) ::ₘ E) m) (hdue : m.due = ts.flatMap Task.due)
    (hf : ∃ f, m.store.outer? f = some o) (hr : m.store.Change prog es r)
    (hes : (∃ x, es = [.settled o x]) ∨ ∃ k, es = [.registered k (.adopt o)])
    (hts : Task.Await prog r.1 (fun q => K q ∨ q = o) ts .settlement E) :
    Balanced prog (fun q => K q ∨ q = o) (o ::ₘ A) F (.of r ts) := by
  have hrec : m.Records es (.of r ts) := .of_yields rfl hdue hr.yields
  obtain ⟨hcredits, hdebits, hparks, hresumes⟩ : es.flatMap Event.credits = [o] ∧
      es.flatMap Event.debits = [] ∧ es.filterMap Event.parks? = [] ∧
      es.filterMap Event.resumes? = [] := by
    rcases hes with ⟨x, rfl⟩ | ⟨k, rfl⟩ <;> exact ⟨rfl, rfl, rfl, rfl⟩
  have hparked := hrec.parked_eq hparks hresumes
  have haccount : ∀ q, (Machine.of r ts).account q = m.account q + [o].count q := by
    intro q
    have := hrec.account q
    rw [hcredits, hdebits] at this
    simpa using this.symm
  refine ⟨hm.change hrec hr, .settlement, 0, E, hr.control trivial, hts, ?_⟩
  rw [zero_add]
  exact hbooks.settle hr.grows hparked haccount hf

/-- **The duty for a future waits** while its dispatcher is parked. -/
theorem balanced_of_parking {kept : Bool} {k f : Nat} {name : String} {ambient : Ambient}
    (hm : m.Tidy prog) (hbooks : Books K A F ((o, kept) ::ₘ E) m)
    (hdue : m.due = ts.flatMap Task.due) (hf : m.store.outer? f = some o) (hnew : f ∉ m.parked + F)
    (hr : m.store.Change prog [.registered q (.resume name k f ambient)] r)
    (hts : Task.Await prog r.1 (fun q => K q ∨ q = o) ts .settlement E) :
    Balanced prog (fun q => K q ∨ q = o) A F (.of r ts) := by
  have hrec : m.Records _ (.of r ts) := .of_yields rfl hdue hr.yields
  have hparked : (Machine.of r ts).parked = f ::ₘ m.parked := by
    have : m.parked + {f} = (Machine.of r ts).parked + 0 := hrec.parked
    rw [← Multiset.singleton_add, add_comm, this, add_zero]
  have haccount : ∀ q, (Machine.of r ts).account q = m.account q := fun q => hrec.account_eq rfl
  refine ⟨hm.change hrec hr, .settlement, 0, E, hr.control trivial, hts, ?_⟩
  rw [zero_add]
  exact hbooks.park hr.grows hparked haccount hf hnew

end Machine

/-- The promises that an action of code settles. -/
def Action.applied : Action → List Nat
  | .fulfill _ q _ | .reject _ q _ => [q]
  | .next _ | .throw _ | .fault _ | .call _ _ _ _ | .subscribe _ _ _ => []

/-- The promises that the current instruction of an activation fulfils or rejects. -/
def Activation.applied (a : Activation) (s : Store) : List Nat :=
  match a.method.block? a.block with
  | none => []
  | some block =>
    match block.instrs[a.offset]? with
    | some i => (a.exec s i).2.applied
    | none => []

section

variable {a : Activation} {is : List Instr} {t : Terminator}

theorem Activation.Ahead.applied_instr {i : Instr} (h : a.Ahead (i :: is) t) (s : Store) :
    a.applied s = (a.exec s i).2.applied := by
  obtain ⟨block, hblock, hdrop, -⟩ := h
  have hi : block.instrs[a.offset]? = some i := by
    rw [← List.head?_drop, hdrop]
    rfl
  simp only [Activation.applied, hblock, hi]

theorem Activation.Ahead.applied_leave (h : a.Ahead [] t) (s : Store) : a.applied s = [] := by
  obtain ⟨block, hblock, hdrop, -⟩ := h
  have hnone : block.instrs[a.offset]? = none := by
    rw [← List.head?_drop, hdrop]
    rfl
  simp only [Activation.applied, hblock, hnone]

theorem Activation.Returning.applied {o : Nat} (h : a.Returning o) (s : Store) :
    a.applied s = [] := by
  cases h with
  | loads hahead _ _ => exact hahead.applied_instr s
  | returns hahead _ _ => exact hahead.applied_leave s

theorem Activation.applied_exec {i : Instr} (hfulfill : i ≠ .futureFulfill)
    (hreject : i ≠ .futureReject) (a : Activation) (s : Store) : (a.exec s i).2.applied = [] := by
  cases i with
  | futureFulfill => exact absurd rfl hfulfill
  | futureReject => exact absurd rfl hreject
  | _ =>
    simp only [exec, computed, unwrapped, withFuture, withFrame]
    repeat' split
    all_goals rfl

/-- Code that has a duty settles a promise only when it hands the duty over. -/
theorem Custody.At.applied {C : Custody} {m : Method} {s : Store} {used : Nat → Prop} {o : Nat}
    (h : C.At m s used o a) :
    (∃ σ i is t, a.Ahead (i :: is) t ∧ C.hands σ i is t ∧ σ.Holds s used o a) ∨
      a.applied s = [] := by
  obtain ⟨hm, hnone | ⟨σ, is, t, hahead, htends, hσ⟩⟩ := h
  · right
    rw [Activation.applied, hm, hnone]
  cases is with
  | nil => exact .inr (hahead.applied_leave s)
  | cons i is =>
    rcases htends with hhands | ⟨-, τ, hτ, -⟩
    · exact .inl ⟨σ, i, is, t, hahead, hhands, hσ⟩
    · right
      rw [hahead.applied_instr]
      refine Activation.applied_exec ?_ ?_ a s <;> rintro rfl <;> cases hτ

end

namespace Machine

variable {prog : Program} {K : Nat → Prop} {A F : Multiset Nat} {D E : Multiset (Nat × Bool)}
  {d : Demand} {C : Custody} {n : Method} {o : Nat} {s : Store} {ts : List Task} {m m' : Machine}
  {es : List Event} {r : Store × Control} {a : Activation}

/-- **A dispatcher hands over its duty.** -/
theorem balanced_of_gives {p : Plan} {kept : Bool} {c : Store × Action} (hp : prog.Dispatches p)
    (hm : Tidy prog ⟨s, .exec a, ts⟩) (hts : Task.Await prog s K ts (.dispatch kept o) E)
    (hbooks : Books K A F ((o, kept) ::ₘ E) ⟨s, .exec a, ts⟩) (hf : ∃ f, s.outer? f = some o)
    (h : Gives p.name s (· ∈ parked ⟨s, .exec a, ts⟩ + F) o c) :
    ∃ K', (∀ q, K q → K' q) ∧ (act prog a ts c).Balanced prog K' (↑c.2.applied + A) F := by
  have hmem : o ∈ ((o, kept) ::ₘ E).map Prod.fst + carried ⟨s, .exec a, ts⟩ := by simp
  have hbound : o < s.promises.size := hbooks.bound o (Multiset.mem_add.2 (.inl hmem))
  obtain ⟨ws, hws⟩ := hbooks.pending hmem
  have happlied : ↑[o] + A = o ::ₘ A := by
    rw [Multiset.coe_singleton, Multiset.singleton_add]
  -- What waits below the dispatcher goes on to wait.
  have hgiven : ∀ {t : Store} {b : Activation}, s.Extends t → (b.advance b.stack).Returning o →
      Task.Await prog t (fun q => K q ∨ q = o) (.caller b false :: ts) .settlement E :=
    fun hst hb => .given hb (.inr rfl) (hts.mono hst fun _ => .inl)
  have hdue : ∀ b, due ⟨s, .exec a, ts⟩ = (Task.caller b false :: ts).flatMap Task.due :=
    fun _ => rfl
  cases h with
  | fails f =>
    obtain ⟨D', hbears, hbooks'⟩ := (Program.Keeps.dispatcher hp kept).fails
      (u := .fault f) trivial hbooks
    exact ⟨K, fun _ hq => hq, (zero_add A).symm ▸
      .of_quiet hm hbooks' (.refl hm.ordinary) rfl hbears hts⟩
  | @fulfills b v hv hb =>
    have hr : s.Change prog _ _ := Store.change_fulfill hm.ordinary hv hbound
    refine ⟨fun q => K q ∨ q = o, fun _ => .inl, happlied.symm ▸ ?_⟩
    exact balanced_of_settlement hm hbooks (hdue b) hf hr (Store.fulfillEvents_of_pending hws hv)
      (hgiven hr.grows hb)
  | @rejects b e he hb =>
    have hr : s.Change prog _ _ := Store.change_settle (x := .rejected e) he o
    refine ⟨fun q => K q ∨ q = o, fun _ => .inl, happlied.symm ▸ ?_⟩
    exact balanced_of_settlement hm hbooks (hdue b) hf hr
      (.inl ⟨_, Store.settleEvents_of_pending hws _⟩) (hgiven hr.grows hb)
  | @parks b q k f hq hf hused hb =>
    have hfits : prog.Fits s (.resume p.name k f s.ambient) :=
      ⟨⟨p, hp, rfl⟩, ⟨o, hf⟩, hm.ordinary.ambient⟩
    have hr := Store.change_register hm.ordinary hfits q
    have hevents : s.registerEvents q (.resume p.name k f s.ambient) =
        [.registered q (.resume p.name k f s.ambient)] := by
      rw [Store.registerEvents, Array.getElem?_eq_getElem hq]
    rw [hevents] at hr
    refine ⟨fun q => K q ∨ q = o, fun _ => .inl, (zero_add A).symm ▸ ?_⟩
    exact balanced_of_parking hm hbooks (hdue b) hf hused hr (hgiven hr.grows hb)

theorem balanced_of_hands (hC : prog.Keeps o C n d D) (hm : Tidy prog ⟨s, .exec a, ts⟩)
    (hts : Task.Await prog s K ts d E) (hbooks : Books K A F (D + E) ⟨s, .exec a, ts⟩)
    (ha : a.method = n) (h : ∃ σ i is t, a.Ahead (i :: is) t ∧ C.hands σ i is t ∧
      σ.Holds s (· ∈ parked ⟨s, .exec a, ts⟩ + F) o a) :
    ∃ K', (∀ q, K q → K' q) ∧
      (execute prog s a ts).Balanced prog K' (↑(a.applied s) + A) F := by
  obtain ⟨σ, i, is, t, hahead, hhands, hσ⟩ := h
  have hexecute : execute prog s a ts = act prog a ts (a.exec s i) :=
    Option.some.inj (hahead.step_instr prog s ts)
  rw [hexecute, hahead.applied_instr]
  cases hC with
  | plain _ => exact hhands.elim
  | dispatcher hp kept =>
    obtain ⟨hf, hgives⟩ := hhands.gives ha hahead hσ
    exact balanced_of_gives hp hm hts hbooks hf hgives
  | @entry p hp n =>
    rcases hhands.exec ha hahead hσ with ⟨f, hexec⟩ | ⟨b, x, y, f, hexec, hx, hy, hf, hb, hret⟩
    · rw [hexec]
      exact ⟨K, fun _ hq => hq, (zero_add A).symm ▸ .of_quiet hm ((zero_add E).symm ▸ hbooks.drop)
        (.refl hm.ordinary) rfl (.throws (u := .fault f) trivial) hts⟩
    · rw [hexec]
      exact ⟨K, fun _ hq => hq, (zero_add A).symm ▸ .of_quiet hm hbooks (.refl hm.ordinary) rfl
        (.dispatches hp hx hy hf) (.entry hb hret hts)⟩

/-- **An entry makes its outer future.** -/
theorem balanced_of_opening {p : Plan} {b : Activation} (hp : prog.Dispatches p)
    (hm : Tidy prog ⟨s, .exec a, ts⟩) (hts : Task.Await prog s K ts .result E)
    (hbooks : Books K A F (0 + E) ⟨s, .exec a, ts⟩)
    (hb : (entryCustody p.name).At (entry n p.name) s.newPromise.1
      (· ∈ parked ⟨s.newPromise.1, .exec b, ts⟩ + F) s.promises.size b) :
    Balanced prog K A F ⟨s.newPromise.1, .exec b, ts⟩ := by
  have hst : s.Extends s.newPromise.1 :=
    (Store.evolves_newPromise (C := fun _ => True) s).toExtends
  have hrec : Records ⟨s, .exec a, ts⟩ [.created] ⟨s.newPromise.1, .exec b, ts⟩ :=
    .of_turns (.one .created) ⟨rfl, rfl, nofun⟩
  have haccount : ∀ q, account ⟨s.newPromise.1, .exec b, ts⟩ q = account ⟨s, .exec a, ts⟩ q :=
    fun q => hrec.account_eq rfl
  have hparked := hrec.parked_eq rfl rfl
  refine ⟨hm.records hrec hst ⟨rfl, rfl⟩ nofun nofun, .result, _, E, .runs (.entry hp n) hb,
    hts.mono hst fun _ hq => hq, ?_⟩
  rw [zero_add] at hbooks
  refine (hbooks.post hst hparked fun q _ => haccount q).enroll (fun hmem => ?_) ?_ ?_
  · rw [hbooks.carried_eq hst hparked] at hmem
    exact Nat.lt_irrefl _ (hbooks.bound _ hmem)
  · simp [Store.newPromise, Store.addPromise]
  · rw [haccount]
    exact hm.account_eq_zero (Nat.le_refl _)

/-- **The step of an activation.** -/
theorem Balanced.execute (h : Balanced prog K A F ⟨s, .exec a, ts⟩) :
    ∃ K', (∀ q, K q → K' q) ∧
      (execute prog s a ts).Balanced prog K' (↑(a.applied s) + A) F := by
  obtain ⟨hm, d, D, E, hbears, hts, hbooks⟩ := h
  have hsame : ∀ {m' : Machine}, a.applied s = [] → m'.Balanced prog K A F →
      ∃ K', (∀ q, K q → K' q) ∧ m'.Balanced prog K' (↑(a.applied s) + A) F := by
    intro m' happlied h'
    rw [happlied]
    exact ⟨K, fun _ hq => hq, (zero_add A).symm ▸ h'⟩
  cases hbears with
  | @runs C n o _ _ _ hC ha =>
    have hmade := fun f (hf : f ∈ parked ⟨s, .exec a, ts⟩ + F) => hbooks.made f hf
    rcases ha.applied with hhands | happlied
    · exact balanced_of_hands hC hm hts hbooks ha.1 hhands
    · rcases ha.execute hC.checks hm.ordinary hmade prog ts with hhands | hleads
      · exact balanced_of_hands hC hm hts hbooks ha.1 hhands
      · exact hsame happlied (balanced_of_leads hC hm hts hbooks hleads)
  | @astray p args depth hargs =>
    obtain ⟨f, hexecute⟩ := p.execute_astray hargs depth prog ts
    have happlied : (Activation.start p.dispatcher args depth).applied s = [] := by
      rw [(p.ahead_start args depth).applied_instr]
      exact Activation.applied_exec (i := .frameOuter p.slots.frame) nofun nofun _ s
    rw [hexecute]
    exact hsame happlied
      (.of_quiet hm hbooks (.refl hm.ordinary) rfl (.throws (u := .fault f) trivial) hts)
  | @opens p n args depth hp hargs =>
    have happlied : (Activation.start (entry n p.name) args depth).applied s = [] :=
      (ahead_start_entry n p.name args depth).applied_instr s
    obtain ⟨b, hexecute, hat⟩ := execute_entry n p.name hargs
      (· ∈ parked ⟨s.newPromise.1, .exec (.start (entry n p.name) args depth), ts⟩ + F) depth
      prog ts
    rw [hexecute]
    exact hsame happlied (balanced_of_opening hp hm hts hbooks hat)
  | @returns o _ _ ha ho hd =>
    refine hsame (ha.applied s) ?_
    rcases ha.execute prog s ts with ⟨b, hb, hexecute⟩ | hexecute
    · rw [hexecute]
      exact .of_quiet hm hbooks (.refl hm.ordinary) rfl (.returns hb ho hd) hts
    · rw [hexecute]
      refine .of_quiet hm hbooks (.refl hm.ordinary) rfl ?_ hts
      rcases hd with rfl | ⟨kept, rfl⟩
      · exact .answers (Value.ordinary_future.2 (hbooks.lt_of_secure ho)) trivial
      · exact .gives ho

end Machine

end Resumable
