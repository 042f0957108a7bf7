/-
**What all code of a machine keeps to.**

Some facts hold of every activation and of every registered callback, whoever made them, because
each step keeps them.  A *discipline* collects such facts: what holds of activations, what holds of
callbacks, and which functions are called.  If the methods and the native functions of a program
keep to it one instruction at a time, then the machine does, with everything it sets off.

The store only grows: a settled promise keeps its outcome, and a frame keeps its outer future and
the number of its slots.  So what a discipline says may depend on the store.

Main results:

* `Machine.extends_step` — **a step only extends the store**;
* `Discipline.Holds.step`, `Discipline.Holds.steps` — **a machine keeps to a discipline**.
-/

import Resumable.Proofs.Runs

set_option autoImplicit false

namespace Resumable

open Relation List

/-! ### Stores that grow -/

namespace Store

/-- Every callback that waits for a promise satisfies `C`. -/
def Waiting (C : Callback → Prop) (s : Store) : Prop :=
  ∀ (q : Nat) (waiting : List Callback), s.promises[q]? = some (.pending waiting) →
    ∀ c ∈ waiting, C c

/-- **The store only grows**: promises that have settled keep their outcomes, frames keep their
outer futures and the number of their slots. -/
structure Extends (s t : Store) : Prop where
  promises : s.promises.size ≤ t.promises.size
  outcomes : ∀ (q : Nat) (o : Outcome Value), s.outcome? q = some o → t.outcome? q = some o
  frames : ∀ (f : Nat) (frame : Frame), s.frames[f]? = some frame →
    ∃ slots, t.frames[f]? = some ⟨frame.outer, slots⟩ ∧ slots.length = frame.slots.length

/-- The store grows, and the callbacks that are registered on the way satisfy `C`. -/
structure Evolves (C : Callback → Prop) (s t : Store) : Prop extends s.Extends t where
  waiting : s.Waiting C → t.Waiting C

variable {C : Callback → Prop} {s t u : Store}

theorem Extends.refl (s : Store) : s.Extends s where
  promises := Nat.le_refl _
  outcomes _ _ h := h
  frames _ frame h := ⟨frame.slots, h, rfl⟩

theorem Extends.trans (h : s.Extends t) (h' : t.Extends u) : s.Extends u where
  promises := Nat.le_trans h.promises h'.promises
  outcomes q o hq := h'.outcomes q o (h.outcomes q o hq)
  frames f frame hf := by
    obtain ⟨slots, ht, hlen⟩ := h.frames f frame hf
    obtain ⟨slots', hu, hlen'⟩ := h'.frames f _ ht
    exact ⟨slots', hu, hlen'.trans hlen⟩

theorem Evolves.trans (h : s.Evolves C t) (h' : t.Evolves C u) : s.Evolves C u :=
  ⟨h.toExtends.trans h'.toExtends, fun hs => h'.waiting (h.waiting hs)⟩

theorem Evolves.of_eq (hp : t.promises = s.promises) (hf : t.frames = s.frames) :
    s.Evolves C t where
  promises := Nat.le_of_eq (by rw [hp])
  outcomes q o h := by rw [← h, outcome?, outcome?, hp]
  frames f frame h := ⟨frame.slots, by rw [hf, h], rfl⟩
  waiting h q waiting hq := h q waiting (by rwa [hp] at hq)

theorem Evolves.refl (s : Store) : s.Evolves C s := .of_eq rfl rfl

/-- A new promise that nobody waits for. -/
theorem evolves_addPromise (s : Store) {p : Promise}
    (hp : ∀ waiting, p = .pending waiting → waiting = []) :
    s.Evolves C (s.addPromise p).1 where
  promises := by
    simp only [addPromise, Array.size_push]
    omega
  outcomes q o h := by
    have hlt : q < s.promises.size := by
      rcases Nat.lt_or_ge q s.promises.size with hlt | hge
      · exact hlt
      · rw [outcome?, Array.getElem?_eq_none hge] at h
        cases h
    rw [← h, outcome?, outcome?, addPromise, Array.getElem?_push_lt hlt,
      Array.getElem?_eq_getElem hlt]
  frames _ frame h := ⟨frame.slots, h, rfl⟩
  waiting h q waiting hq c hc := by
    simp only [addPromise, Array.getElem?_push] at hq
    split at hq
    · rw [hp waiting (Option.some.inj hq)] at hc
      cases hc
    · exact h q waiting hq c hc

theorem evolves_newPromise (s : Store) : s.Evolves C s.newPromise.1 :=
  s.evolves_addPromise fun _ h => (Promise.pending.inj h).symm

theorem evolves_setPending {q : Nat} {waiting : List Callback}
    (hq : s.promises[q]? = some (.pending waiting)) {p : Promise}
    (hp : s.Waiting C → ∀ waiting', p = .pending waiting' → ∀ c ∈ waiting', C c) :
    s.Evolves C { s with promises := s.promises.setIfInBounds q p } where
  promises := by simp
  outcomes k o h := by
    have hne : q ≠ k := by
      rintro rfl
      rw [outcome?, hq] at h
      cases h
    rw [← h, outcome?, outcome?, Array.getElem?_setIfInBounds_ne hne]
  frames _ frame h := ⟨frame.slots, h, rfl⟩
  waiting h k waiting' hk c hc := by
    by_cases hqk : q = k
    · subst hqk
      have hlt : q < s.promises.size := (Array.getElem?_eq_some_iff.1 hq).1
      rw [Array.getElem?_setIfInBounds_self_of_lt hlt] at hk
      exact hp h waiting' (Option.some.inj hk) c hc
    · rw [Array.getElem?_setIfInBounds_ne hqk] at hk
      exact h k waiting' hk c hc

/-- **Settling a promise** hands over callbacks that satisfy the condition. -/
theorem evolves_settle? {q : Nat} {o : Outcome Value} {waiting : List Callback}
    (h : s.settle? q o = some (t, waiting)) :
    s.Evolves C t ∧ (s.Waiting C → ∀ c ∈ waiting, C c) := by
  unfold settle? at h
  split at h
  · rename_i waiting' hq
    cases h
    exact ⟨evolves_setPending hq fun _ _ hp => (by cases hp), fun hs => hs q waiting hq⟩
  · cases h

/-- **Registering a callback** that satisfies the condition. -/
theorem evolves_subscribe (s : Store) (q : Nat) {c : Callback} (hc : s.Waiting C → C c) :
    s.Evolves C (s.subscribe q c).1 := by
  unfold subscribe
  split
  · rename_i waiting hq
    refine evolves_setPending hq fun hs waiting' hp c' hc' => ?_
    cases hp
    rcases mem_append.1 hc' with hc' | hc'
    · exact hs q waiting hq c' hc'
    · rw [mem_singleton.1 hc']
      exact hc hs
  · exact .refl s
  · exact .refl s

theorem evolves_settledPromise (hadopt : ∀ q, C (.adopt q)) (s : Store) (o : Outcome Value) :
    s.Evolves C (s.settledPromise o).1 := by
  unfold settledPromise
  split
  · split
    · exact s.evolves_addPromise fun _ h => by cases h
    · exact s.evolves_newPromise.trans (evolves_subscribe _ _ fun _ => hadopt _)
  · exact s.evolves_addPromise fun _ h => by cases h

theorem evolves_newFrame (s : Store) (outer slots : Nat) :
    s.Evolves C (s.newFrame outer slots).1 where
  promises := Nat.le_refl _
  outcomes _ _ h := h
  frames f frame h := by
    have hlt : f < s.frames.size := (Array.getElem?_eq_some_iff.1 h).1
    refine ⟨frame.slots, ?_, rfl⟩
    rw [newFrame, Array.getElem?_push_lt hlt, ← Array.getElem?_eq_getElem hlt]
    exact h
  waiting h := h

theorem evolves_storeSlot? {f slot : Nat} {v : Value} (h : s.storeSlot? f slot v = some t) :
    s.Evolves C t := by
  unfold storeSlot? at h
  split at h
  · rename_i frame hf
    split at h
    · cases h
      refine ⟨⟨Nat.le_refl _, fun _ _ h => h, fun k frame' hk => ?_⟩, fun h => h⟩
      by_cases hfk : f = k
      · subst hfk
        rw [hf] at hk
        cases hk
        have hlt : f < s.frames.size := (Array.getElem?_eq_some_iff.1 hf).1
        exact ⟨_, Array.getElem?_setIfInBounds_self_of_lt hlt, length_set⟩
      · exact ⟨frame'.slots, (Array.getElem?_setIfInBounds_ne hfk).trans hk, rfl⟩
    · cases h
  · cases h

theorem evolves_realizeOutcome (s : Store) (o : Outcome Payload) :
    s.Evolves C (s.realizeOutcome o).1 := by
  cases o with
  | fulfilled p => cases p <;> exact .of_eq rfl rfl
  | rejected p => cases p <;> exact .of_eq rfl rfl

theorem evolves_perform (hadopt : ∀ q, C (.adopt q)) (s : Store) (r : Request) :
    s.Evolves C (s.perform r).1 := by
  cases r with
  | pending tag => exact s.evolves_newPromise.trans (.of_eq rfl rfl)
  | settled o => exact (s.evolves_realizeOutcome o).trans (evolves_settledPromise hadopt _ _)
  | answer v | throw e | note line | lookup key | assign key v | invoke name args =>
    exact .of_eq rfl rfl

/-- The callbacks that a control still has to run satisfy the condition. -/
def Control.Delivers (C : Callback → Prop) : Control → Prop
  | .deliver _ cs => ∀ c ∈ cs, C c
  | .exec _ | .enter _ _ _ | .unwind _ => False
  | .answer _ => True

theorem evolves_settle (s : Store) (q : Nat) (o : Outcome Value) :
    s.Evolves C (s.settle q o).1 ∧ (s.Waiting C → Control.Delivers C (s.settle q o).2) := by
  unfold settle
  split
  · rename_i t waiting h
    exact evolves_settle? h
  · exact ⟨.refl s, fun _ => trivial⟩

theorem evolves_register (s : Store) (q : Nat) {c : Callback} (hc : s.Waiting C → C c) :
    s.Evolves C (s.register q c).1 ∧ (s.Waiting C → Control.Delivers C (s.register q c).2) := by
  have hsub := evolves_subscribe s q hc
  unfold register
  split
  · rename_i t o h
    rw [h] at hsub
    refine ⟨hsub, fun hs c' hc' => ?_⟩
    rw [mem_singleton.1 hc']
    exact hc hs
  · rename_i t h
    rw [h] at hsub
    exact ⟨hsub, fun _ => trivial⟩

theorem evolves_fulfill (hadopt : ∀ q, C (.adopt q)) (s : Store) (q : Nat) (v : Value) :
    s.Evolves C (s.fulfill q v).1 ∧ (s.Waiting C → Control.Delivers C (s.fulfill q v).2) := by
  unfold fulfill
  split
  · split
    · exact ⟨.refl s, fun _ => trivial⟩
    · exact evolves_register s _ fun _ => hadopt q
  · exact evolves_settle s q _

end Store

/-- **An instruction only extends the store**, and registers nothing by itself. -/
theorem Activation.evolves_exec (C : Callback → Prop) (a : Activation) (s : Store) (i : Instr) :
    s.Evolves C (a.exec s i).1 := by
  cases i with
  | futureNew => exact s.evolves_newPromise
  | frameNew slots =>
    simp only [exec, withFuture]
    split
    · exact s.evolves_newFrame _ slots
    · exact .refl s
    · exact .refl s
  | frameStore frame slot =>
    simp only [exec, withFrame]
    split
    · split
      · split
        · rename_i h
          exact Store.evolves_storeSlot? h
        · exact .refl s
      · exact .refl s
    · exact .refl s
  | _ =>
    simp only [exec, computed, unwrapped, withFuture, withFrame]
    repeat' split
    all_goals exact .of_eq rfl rfl

/-- The activation that waits while other code has a part in an instruction. -/
def Action.waiting? : Action → Option Activation
  | .call b _ _ _ | .fulfill b _ _ | .reject b _ _ | .subscribe b _ _ => some b
  | .next _ | .throw _ | .fault _ => none

/-- An activation that waits has the operands taken, and is still at the instruction. -/
theorem Activation.eq_of_waiting? {a b : Activation} {s t : Store} {i : Instr} {act : Action}
    (h : a.exec s i = (t, act)) (hb : act.waiting? = some b) :
    ∃ rest, b = { a with stack := rest } := by
  cases i <;>
    simp only [exec, computed, unwrapped, withFuture, withFrame] at h <;>
    repeat' split at h
  all_goals
    cases h
    first
      | cases hb
        exact ⟨_, rfl⟩
      | cases hb

/-! ### Disciplines -/

/-- **A discipline**: what holds of the activations and of the callbacks of a program in a store,
and the functions that are called.  Each instruction keeps to it, and a store that grows does not
matter. -/
structure Discipline (p : Program) where
  activation : Store → Activation → Prop
  callback : Store → Callback → Prop
  called : String → Prop
  activation_mono : ∀ {s t : Store} {a : Activation}, s.Extends t → activation s a → activation t a
  callback_mono : ∀ {s t : Store} {c : Callback}, s.Extends t → callback s c → callback t c
  adopt : ∀ (s : Store) (q : Nat), callback s (.adopt q)
  resume : ∀ {s : Store} {d : String} {k f : Nat} {ambient : Ambient},
    callback s (.resume d k f ambient) → called d
  native : ∀ {name g : String} {f : Native} {history : List NativeCall} {args xs : List Value},
    called name → p.native? name = some f → f history args = .invoke g xs → called g
  start : ∀ {name : String} {m : Method}, called name → p.markers.contains name = false →
    p.native? name = none → p.method? name = some m →
    ∀ (s : Store) (args : List Value) (depth : Nat), activation s (Activation.start m args depth)
  handle : ∀ {s : Store} {a : Activation}, activation s a → ∀ (h : Nat) (e : Value),
    activation s (a.handle h e)
  jump : ∀ {s : Store} {a : Activation} {block : Block} {b : Nat} {stack : List Value},
    activation s a → a.method.block? a.block = some block → block.instrs[a.offset]? = none →
    a.leave block.terminator = .jump b stack → activation s (a.jump b stack)
  next : ∀ {s t : Store} {a b : Activation} {block : Block} {i : Instr}, activation s a →
    a.method.block? a.block = some block → block.instrs[a.offset]? = some i →
    a.exec s i = (t, .next b) → activation t b
  call : ∀ {s t : Store} {a b : Activation} {block : Block} {i : Instr} {name : String}
    {args : List Value} {keep : Bool}, activation s a → a.method.block? a.block = some block →
    block.instrs[a.offset]? = some i → a.exec s i = (t, .call b name args keep) →
    called name ∧ ∀ v, activation t (b.advance (if keep then v :: b.stack else b.stack))
  settle : ∀ {s t : Store} {a b : Activation} {block : Block} {i : Instr} {q : Nat} {v : Value},
    activation s a → a.method.block? a.block = some block → block.instrs[a.offset]? = some i →
    a.exec s i = (t, .fulfill b q v) ∨ a.exec s i = (t, .reject b q v) →
    activation t (b.advance b.stack)
  subscribe : ∀ {s t : Store} {a b : Activation} {block : Block} {i : Instr} {q : Nat}
    {c : Callback}, activation s a → a.method.block? a.block = some block →
    block.instrs[a.offset]? = some i → a.exec s i = (t, .subscribe b q c) →
    callback t c ∧ activation t (b.advance b.stack)

namespace Discipline

variable {p : Program} (D : Discipline p)

/-- What holds of an activation that waits: it can go on with any result, and with any exception. -/
def Waits (s : Store) (a : Activation) (keep : Bool) : Prop :=
  (∀ v, D.activation s (a.advance (if keep then v :: a.stack else a.stack))) ∧
    ∀ h e, D.activation s (a.handle h e)

/-- A control that keeps to the discipline. -/
def OfControl (s : Store) : Control → Prop
  | .exec a => D.activation s a
  | .enter name _ _ => D.called name
  | .deliver _ cs => ∀ c ∈ cs, D.callback s c
  | .answer _ | .unwind _ => True

/-- A task that keeps to the discipline. -/
def OfTask (s : Store) : Task → Prop
  | .caller a keep => D.Waits s a keep
  | .deliver _ cs => ∀ c ∈ cs, D.callback s c
  | .resumed _ _ | .restore _ => True

/-- **A machine that keeps to the discipline.** -/
structure Holds (m : Machine) : Prop where
  store : m.store.Waiting (D.callback m.store)
  control : D.OfControl m.store m.control
  tasks : ∀ t ∈ m.tasks, D.OfTask m.store t

variable {D} {s t : Store} {a b : Activation} {c : Control} {ts : List Task} {k : Task}

theorem ofTask_mono (h : s.Extends t) (hk : D.OfTask s k) : D.OfTask t k := by
  cases k with
  | caller a keep =>
    exact ⟨fun v => D.activation_mono h (hk.1 v), fun j e => D.activation_mono h (hk.2 j e)⟩
  | deliver o cs => exact fun c hc => D.callback_mono h (hk c hc)
  | resumed outer saved => trivial
  | restore saved => trivial

/-- The store of a machine grows: what was registered and what waits still keeps to the
discipline. -/
theorem of_evolves (hs : s.Waiting (D.callback s)) (hts : ∀ k ∈ ts, D.OfTask s k)
    (h : s.Evolves (D.callback t) t) (hc : D.OfControl t c) : D.Holds ⟨t, c, ts⟩ where
  store := h.waiting fun q waiting hq k hk => D.callback_mono h.toExtends (hs q waiting hq k hk)
  control := hc
  tasks k hk := ofTask_mono h.toExtends (hts k hk)

theorem ofControl_of_delivers (h : Store.Control.Delivers (D.callback s) c) : D.OfControl s c := by
  cases c with
  | deliver o cs => exact h
  | answer v => trivial
  | exec _ | enter _ _ _ | unwind _ => exact h.elim

/-- A settlement, or the registration of a callback, that starts from a store which keeps to the
discipline. -/
theorem holds_of_delivers {r : Store × Control} (hs : s.Waiting (D.callback s))
    (hts : ∀ k ∈ ts, D.OfTask s k)
    (h : ∀ C : Callback → Prop, (∀ k, D.callback s k → C k) →
      s.Evolves C r.1 ∧ (s.Waiting C → Store.Control.Delivers C r.2)) :
    D.Holds (.of r ts) := by
  have hext : s.Extends r.1 := (h (fun _ => True) fun _ _ => trivial).1.toExtends
  obtain ⟨hev, hdel⟩ := h (D.callback r.1) fun k hk => D.callback_mono hext hk
  refine of_evolves hs hts hev (ofControl_of_delivers (hdel ?_))
  exact fun q waiting hq k hk => D.callback_mono hext (hs q waiting hq k hk)

theorem holds_settle (hs : s.Waiting (D.callback s)) (hts : ∀ k ∈ ts, D.OfTask s k) (q : Nat)
    (o : Outcome Value) : D.Holds (.of (s.settle q o) ts) :=
  holds_of_delivers hs hts fun _ _ => s.evolves_settle q o

theorem holds_register (hs : s.Waiting (D.callback s)) (hts : ∀ k ∈ ts, D.OfTask s k) (q : Nat)
    {k : Callback} (hk : D.callback s k) : D.Holds (.of (s.register q k) ts) :=
  holds_of_delivers hs hts fun _ hC => s.evolves_register q fun _ => hC k hk

theorem holds_fulfill (hs : s.Waiting (D.callback s)) (hts : ∀ k ∈ ts, D.OfTask s k) (q : Nat)
    (v : Value) : D.Holds (.of (s.fulfill q v) ts) :=
  holds_of_delivers hs hts fun _ hC => s.evolves_fulfill (fun _ => hC _ (D.adopt s _)) q v

theorem holds_raise (hs : s.Waiting (D.callback s)) (hts : ∀ k ∈ ts, D.OfTask s k)
    (ha : ∀ h e, D.activation s (a.handle h e)) (e : Value) : D.Holds ⟨s, p.raise a e, ts⟩ := by
  refine ⟨hs, ?_, hts⟩
  show D.OfControl s (p.raise a e)
  unfold Program.raise
  split
  · exact ha _ e
  · trivial

/-! ### Steps -/

theorem holds_act (hs : s.Waiting (D.callback s)) (hts : ∀ k ∈ ts, D.OfTask s k)
    (ha : D.activation s a) {block : Block} (hblock : a.method.block? a.block = some block)
    {i : Instr} (hi : block.instrs[a.offset]? = some i) :
    D.Holds (Machine.act p a ts (a.exec s i)) := by
  have hev := fun C => a.evolves_exec C s i
  cases hexec : a.exec s i with
  | mk u action =>
    rw [hexec] at hev
    have hext : s.Extends u := (hev fun _ => True).toExtends
    have hs' : u.Waiting (D.callback u) := (hev (D.callback u)).waiting fun q waiting hq k hk =>
      D.callback_mono hext (hs q waiting hq k hk)
    have hts' : ∀ k ∈ ts, D.OfTask u k := fun k hk => ofTask_mono hext (hts k hk)
    have hhandle : ∀ h e, D.activation u (a.handle h e) :=
      fun h e => D.handle (D.activation_mono hext ha) h e
    -- The activation that waits has the operands taken, which no handler sees.
    have hwaits : ∀ {b : Activation} (keep : Bool), action.waiting? = some b →
        (∀ v, D.activation u (b.advance (if keep then v :: b.stack else b.stack))) →
        ∀ k ∈ .caller b keep :: ts, D.OfTask u k := by
      intro b keep hb hadvance k hk
      obtain ⟨rest, rfl⟩ := Activation.eq_of_waiting? hexec hb
      rcases mem_cons.1 hk with rfl | hk
      · exact ⟨hadvance, hhandle⟩
      · exact hts' k hk
    cases action with
    | next b => exact ⟨hs', D.next ha hblock hi hexec, hts'⟩
    | throw e => exact holds_raise hs' hts' hhandle e
    | fault f => exact ⟨hs', trivial, hts'⟩
    | call b name args keep =>
      obtain ⟨hname, hadvance⟩ := D.call ha hblock hi hexec
      exact ⟨hs', hname, hwaits keep rfl hadvance⟩
    | fulfill b q v =>
      have hadvance := D.settle ha hblock hi (.inl hexec)
      exact holds_fulfill hs' (hwaits false rfl fun _ => hadvance) q v
    | reject b q e =>
      have hadvance := D.settle ha hblock hi (.inr hexec)
      exact holds_settle hs' (hwaits false rfl fun _ => hadvance) q _
    | subscribe b q k =>
      obtain ⟨hcallback, hadvance⟩ := D.subscribe ha hblock hi hexec
      exact holds_register hs' (hwaits false rfl fun _ => hadvance) q hcallback

theorem holds_execute (hs : s.Waiting (D.callback s)) (hts : ∀ k ∈ ts, D.OfTask s k)
    (ha : D.activation s a) : D.Holds (Machine.execute p s a ts) := by
  unfold Machine.execute
  split
  · exact ⟨hs, trivial, hts⟩
  · rename_i block hblock
    split
    · rename_i i hi
      exact holds_act hs hts ha hblock hi
    · rename_i hend
      split
      · rename_i b stack hleave
        exact ⟨hs, D.jump ha hblock hend hleave, hts⟩
      · exact ⟨hs, trivial, hts⟩
      · exact holds_raise hs hts (D.handle ha) _
      · exact ⟨hs, trivial, hts⟩

theorem holds_enter (hs : s.Waiting (D.callback s)) (hts : ∀ k ∈ ts, D.OfTask s k) {name : String}
    (hname : D.called name) (args : List Value) (depth : Nat) :
    D.Holds (.of (p.enter s name args depth) ts) := by
  unfold Program.enter
  split
  · refine ⟨hs, ?_, hts⟩
    show D.OfControl s (Program.joinMarker s name args)
    unfold Program.joinMarker
    split
    · split <;> trivial
    · trivial
  · rename_i hmarker
    split
    · rename_i f hf
      have hperform := fun C => fun hadopt =>
        Store.evolves_perform (C := C) hadopt { s with calls := ⟨name, args⟩ :: s.calls }
          (f s.calls args)
      have hcalls : ∀ C, s.Evolves C { s with calls := ⟨name, args⟩ :: s.calls } :=
        fun C => .of_eq rfl rfl
      refine of_evolves hs hts ((hcalls _).trans (hperform _ fun q => D.adopt _ q)) ?_
      cases hrequest : f s.calls args with
      | invoke g xs => exact D.native hname hf hrequest
      | answer v | throw e | note line | lookup key | assign key v | pending tag | settled o =>
        trivial
    · rename_i hnative
      split
      · rename_i m hm
        refine ⟨hs, ?_, hts⟩
        show D.OfControl s (p.enterMethod name m args depth)
        unfold Program.enterMethod
        split
        · trivial
        · split
          · trivial
          · exact D.start hname (Bool.not_eq_true _ ▸ hmarker) hnative hm s args (depth + 1)
      · exact ⟨hs, trivial, hts⟩

theorem holds_call (hs : s.Waiting (D.callback s)) (hts : ∀ k ∈ ts, D.OfTask s k) {k : Callback}
    (hk : D.callback s k) (o : Outcome Value) : D.Holds (Machine.call s o ts k) := by
  cases k with
  | adopt q => exact holds_settle hs hts q o
  | resume d state f ambient =>
    refine of_evolves hs (fun t ht => ?_) (.of_eq rfl rfl) (D.resume hk)
    rcases mem_cons.1 ht with rfl | ht
    · trivial
    · exact hts t ht
  | note tag => exact of_evolves hs hts (.of_eq rfl rfl) trivial

theorem holds_answered (hs : s.Waiting (D.callback s)) (hts : ∀ k ∈ ts, D.OfTask s k)
    (hk : D.OfTask s k) (v : Value) : D.Holds (Machine.answered s v ts k) := by
  cases k with
  | caller a keep => exact ⟨hs, hk.1 v, hts⟩
  | deliver o cs => exact ⟨hs, hk, hts⟩
  | resumed outer saved | restore saved => exact of_evolves hs hts (.of_eq rfl rfl) trivial

theorem holds_unwound (hs : s.Waiting (D.callback s)) (hts : ∀ k ∈ ts, D.OfTask s k)
    (hk : D.OfTask s k) (u : Unwind) : D.Holds (Machine.unwound p s u ts k) := by
  cases k with
  | caller a keep =>
    cases u with
    | throw e => exact holds_raise hs hts hk.2 e
    | fault f => exact ⟨hs, trivial, hts⟩
  | deliver o cs => exact ⟨hs, hk, hts⟩
  | resumed outer saved =>
    cases outer with
    | none => exact of_evolves hs hts (.of_eq rfl rfl) trivial
    | some q =>
      have hfailure : s.Evolves (D.callback (Machine.failure s u).1) (Machine.failure s u).1 := by
        cases u <;> exact .of_eq rfl rfl
      have hfailed := of_evolves hs hts hfailure (c := .unwind u) trivial
      refine holds_settle hfailed.store (fun t ht => ?_) q _
      rcases mem_cons.1 ht with rfl | ht
      · trivial
      · exact hfailed.tasks t ht
  | restore saved => exact of_evolves hs hts (.of_eq rfl rfl) trivial

/-- **A step keeps to the discipline.** -/
theorem Holds.step {m m' : Machine} (h : D.Holds m) (hstep : m.Step p m') : D.Holds m' := by
  obtain ⟨s, c, ts⟩ := m
  obtain ⟨hs, hc, hts⟩ := h
  have htail : ∀ {k : Task} {ts' : List Task}, ts = k :: ts' →
      D.OfTask s k ∧ ∀ j ∈ ts', D.OfTask s j := by
    rintro k ts' rfl
    exact ⟨hts k mem_cons_self, fun j hj => hts j (mem_cons_of_mem _ hj)⟩
  cases c with
  | exec a =>
    cases hstep
    exact holds_execute hs hts hc
  | enter name args depth =>
    cases hstep
    exact holds_enter hs hts hc args depth
  | deliver o cs =>
    cases cs with
    | nil =>
      cases hstep
      exact ⟨hs, trivial, hts⟩
    | cons k cs =>
      cases hstep
      refine holds_call hs (fun t ht => ?_) (hc k mem_cons_self) o
      rcases mem_cons.1 ht with rfl | ht
      · exact fun j hj => hc j (mem_cons_of_mem _ hj)
      · exact hts t ht
  | answer v =>
    cases ts with
    | nil => cases hstep
    | cons k ts =>
      cases hstep
      exact holds_answered hs (htail rfl).2 (htail rfl).1 v
  | unwind u =>
    cases ts with
    | nil => cases hstep
    | cons k ts =>
      cases hstep
      exact holds_unwound hs (htail rfl).2 (htail rfl).1 u

/-- **A machine keeps to the discipline**, however long it runs. -/
theorem Holds.steps {m m' : Machine} (h : D.Holds m) (hsteps : m.Steps p m') : D.Holds m' := by
  induction hsteps with
  | refl => exact h
  | tail _ hstep ih => exact ih.step hstep

end Discipline

/-! ### Growth along a run -/

namespace Machine

variable {p : Program}

theorem extends_settle (s : Store) (q : Nat) (o : Outcome Value) : s.Extends (s.settle q o).1 :=
  (Store.evolves_settle (C := fun _ => True) s q o).1.toExtends

theorem extends_act (a : Activation) (ts : List Task) (r : Store × Action) :
    r.1.Extends (act p a ts r).store := by
  obtain ⟨s, action⟩ := r
  cases action with
  | next b | throw e | fault f | call b name args keep => exact .refl s
  | fulfill b q v =>
    exact (Store.evolves_fulfill (C := fun _ => True) (fun _ => trivial) s q v).1.toExtends
  | reject b q e => exact extends_settle s q _
  | subscribe b q c =>
    exact (Store.evolves_register (C := fun _ => True) s q fun _ => trivial).1.toExtends

theorem extends_execute (s : Store) (a : Activation) (ts : List Task) :
    s.Extends (execute p s a ts).store := by
  unfold execute
  split
  · exact .refl s
  · split
    · rename_i i _
      exact (a.evolves_exec (fun _ => True) s i).toExtends.trans (extends_act a ts _)
    · split <;> exact .refl s

theorem extends_enter (s : Store) (name : String) (args : List Value) (depth : Nat) :
    s.Extends (p.enter s name args depth).1 := by
  unfold Program.enter
  split
  · exact .refl s
  · split
    · have hcalls : s.Evolves (fun _ => True) { s with calls := ⟨name, args⟩ :: s.calls } :=
        .of_eq rfl rfl
      exact (hcalls.trans (Store.evolves_perform (fun _ => trivial) _ _)).toExtends
    · split <;> exact .refl s

/-- **A step only extends the store.** -/
theorem extends_step {m m' : Machine} (h : m.Step p m') : m.store.Extends m'.store := by
  have same : ∀ {s t : Store}, t.promises = s.promises → t.frames = s.frames → s.Extends t :=
    fun hp hf => (Store.Evolves.of_eq (C := fun _ => True) hp hf).toExtends
  obtain ⟨s, c, ts⟩ := m
  cases c with
  | exec a =>
    cases h
    exact extends_execute s a ts
  | enter name args depth =>
    cases h
    exact extends_enter s name args depth
  | deliver o cs =>
    cases cs with
    | nil =>
      cases h
      exact .refl s
    | cons c cs =>
      cases h
      cases c with
      | adopt q => exact extends_settle s q o
      | resume d k f ambient => exact same rfl rfl
      | note tag => exact same rfl rfl
  | answer v =>
    cases ts with
    | nil => cases h
    | cons t ts =>
      cases h
      cases t <;> exact same rfl rfl
  | unwind u =>
    cases ts with
    | nil => cases h
    | cons t ts =>
      cases h
      cases t with
      | caller a keep => cases u <;> exact .refl s
      | deliver o cs => exact .refl s
      | restore saved => exact same rfl rfl
      | resumed outer saved =>
        cases outer with
        | none => exact same rfl rfl
        | some q =>
          have hfailure : s.Extends (failure s u).1 := by
            cases u <;> exact same rfl rfl
          exact hfailure.trans (extends_settle _ q _)

end Machine

/-! ### What a host does -/

/-- What a host does with a machine at rest. -/
inductive Move where
  | invoke (name : String) (args : List Value)
  | fulfill (q : Nat) (v : Value)
  | reject (q : Nat) (e : Value)

/-- The machine that a move starts. -/
def Move.machine (s : Store) : Move → Machine
  | .invoke name args => .invoke s name args
  | .fulfill q v => .fulfill s q v
  | .reject q e => .reject s q e

/-- **A host makes one move after the other**, each after the machine has finished with the one
before; `none` if a machine does not finish within the given number of steps.  The results come with
the store at the end. -/
def Machine.plays (p : Program) (steps : Nat) (s : Store) :
    List Move → Option (Store × List (Except Unwind Value))
  | [] => some (s, [])
  | move :: moves =>
    match (move.machine s).run? p steps with
    | none => none
    | some (t, r) => (plays p steps t moves).map fun c => (c.1, r :: c.2)

/-- The functions that the host calls satisfy a condition. -/
def Move.Calls (ok : String → Prop) : Move → Prop
  | .invoke name _ => ok name
  | .fulfill _ _ | .reject _ _ => True

theorem Discipline.holds_machine {p : Program} {D : Discipline p} {s : Store}
    (hs : s.Waiting (D.callback s)) {move : Move} (hmove : move.Calls D.called) :
    D.Holds (move.machine s) := by
  cases move with
  | invoke name args => exact ⟨hs, hmove, fun _ h => by cases h⟩
  | fulfill q v => exact holds_fulfill hs (fun _ h => by cases h) q v
  | reject q e => exact holds_settle hs (fun _ h => by cases h) q _

end Resumable
