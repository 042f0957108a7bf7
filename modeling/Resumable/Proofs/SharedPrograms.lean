/-
**Classes in one program.**

A program with many classes has one table of methods, by qualified and by plain names, and what is
loaded later takes the place of what had the same name.  Generated code calls dispatchers by their
plain names.  So two classes that each have a converted method of the same name share one dispatcher
in a program that holds both, and a call of the first runs the code of the second.

Where the dispatchers of a class keep their names, nothing else in the program matters: if the
methods of the class call only native functions and markers, then every call of its entries and
every settlement goes as if the class were alone.

Main results:

* `Machine.plays_congr` — **programs with the same functions under the names that are called** play
  alike;
* `Batch.plays_load_eq` — **a class whose dispatchers keep their names is not disturbed**;
* `Batch.dispatcher_shared` — two classes that share a dispatcher.
-/

import Resumable.Proofs.Discipline
import Resumable.Proofs.Reconversion

set_option autoImplicit false

namespace Resumable

open Dispatcher

/-! ### Functions that are called -/

/-- The functions that the instruction calls, and the dispatcher that it registers, satisfy `ok`.  A
closure can stand for any function. -/
def Instr.CallsOnly (ok : String → Prop) : Instr → Prop
  | .invoke callee => ok callee.name
  | .callClosure _ _ => False
  | .resume dispatcher _ _ => ok dispatcher
  | _ => True

/-- The functions that the method calls, and the dispatchers that it registers, satisfy `ok`. -/
def Method.CallsOnly (ok : String → Prop) (m : Method) : Prop :=
  ∀ b ∈ m.blocks, ∀ i ∈ b.instrs, i.CallsOnly ok

/-- The dispatcher that the callback calls satisfies `ok`. -/
def Callback.CallsOnly (ok : String → Prop) : Callback → Prop
  | .resume dispatcher _ _ _ => ok dispatcher
  | .adopt _ | .note _ => True

variable {ok : String → Prop} {i : Instr}

theorem Instr.CallsOnly.mono {ok' : String → Prop} (h : ∀ name, ok name → ok' name)
    (hi : i.CallsOnly ok) : i.CallsOnly ok' := by
  cases i <;> first | exact h _ hi | exact hi

theorem Instr.callsOnly_mapLocals {f : Nat → Nat} (h : i.CallsOnly ok) :
    (i.mapLocals f).CallsOnly ok := by
  cases i <;> exact h

theorem Instr.callsOnly_of_isGlue {d : String} (hd : ok d) (h : i.isGlue d = true) :
    i.CallsOnly ok := by
  cases i with
  | resume dispatcher state frame =>
    have heq : dispatcher = d := by simpa [isGlue] using h
    exact heq ▸ hd
  | invoke callee => cases h
  | callClosure argc ret => cases h
  | _ => trivial

/-- A program in which what satisfies `ok` calls only what satisfies it. -/
structure Program.Confines (p : Program) (ok : String → Prop) : Prop where
  natives : ∀ {name g : String} {f : Native} {history : List NativeCall} {args xs : List Value},
    ok name → p.native? name = some f → f history args = .invoke g xs → ok g
  methods : ∀ {name : String} {m : Method}, ok name → p.markers.contains name = false →
    p.native? name = none → p.method? name = some m → m.CallsOnly ok

/-- The functions that are called stay among those that satisfy `ok`. -/
def Program.Confines.discipline {p : Program} {ok : String → Prop} (h : p.Confines ok) :
    Discipline p where
  activation _ a := a.method.CallsOnly ok
  callback _ c := c.CallsOnly ok
  called := ok
  activation_mono _ ha := ha
  callback_mono _ hc := hc
  adopt _ _ := trivial
  resume hc := hc
  native := h.natives
  start hname hmarker hnative hm _ _ _ := h.methods hname hmarker hnative hm
  handle ha _ _ := ha
  jump ha _ _ _ := ha
  next ha _ _ hexec := by rwa [(Activation.moves_of_exec hexec).method]
  call := by
    intro s t a b block i name args keep ha hblock hi hexec
    have hcalls := ha block (List.mem_of_getElem? hblock) i (List.mem_of_getElem? hi)
    obtain ⟨rest, rfl⟩ := Activation.eq_of_waiting? hexec rfl
    refine ⟨?_, fun _ => ha⟩
    cases i <;>
      simp only [Activation.exec, Activation.computed, Activation.unwrapped,
        Activation.withFuture, Activation.withFrame] at hexec <;>
      repeat' split at hexec
    all_goals first
      | cases hexec
        first
          | exact hcalls
          | exact hcalls.elim
      | cases hexec
  settle := by
    intro s t a b block i q v ha _ _ hexec
    rcases hexec with hexec | hexec
    · obtain ⟨rest, rfl⟩ := Activation.eq_of_waiting? hexec rfl
      exact ha
    · obtain ⟨rest, rfl⟩ := Activation.eq_of_waiting? hexec rfl
      exact ha
  subscribe := by
    intro s t a b block i q c ha hblock hi hexec
    have hcalls := ha block (List.mem_of_getElem? hblock) i (List.mem_of_getElem? hi)
    obtain ⟨rest, rfl⟩ := Activation.eq_of_waiting? hexec rfl
    refine ⟨?_, ha⟩
    cases i <;>
      simp only [Activation.exec, Activation.computed, Activation.unwrapped,
        Activation.withFuture, Activation.withFrame] at hexec <;>
      repeat' split at hexec
    all_goals first
      | cases hexec
        exact hcalls
      | cases hexec

/-! ### Programs with the same functions -/

/-- Other methods under the names that satisfy `ok` are the same, unless a marker or a native
function has the name. -/
def Program.SameOn (ok : String → Prop) (p : Program) (methods : List (String × Method)) : Prop :=
  ∀ name, ok name → p.markers.contains name = false → p.native? name = none →
    methods.lookup name = p.method? name

namespace Machine

variable {p : Program} {ok : String → Prop} {methods : List (String × Method)} {m : Machine}

/-- **A step of two programs** that have the same methods under the names that are called. -/
theorem step?_congr (h : p.Confines ok) (hsame : p.SameOn ok methods) (hm : h.discipline.Holds m) :
    m.step? { p with methods := methods } = m.step? p := by
  obtain ⟨s, c, ts⟩ := m
  cases c with
  | exec a => rfl
  | enter name args depth =>
    have henter : { p with methods := methods }.enter s name args depth =
        p.enter s name args depth := by
      unfold Program.enter
      split
      · rfl
      · rename_i hmarker
        cases hnative : p.native? name with
        | some f =>
          have hnative' : { p with methods := methods }.native? name = some f := hnative
          rw [hnative']
        | none =>
          have hnative' : { p with methods := methods }.native? name = none := hnative
          have hmethod : { p with methods := methods }.method? name = p.method? name :=
            hsame name hm.control (Bool.not_eq_true _ ▸ hmarker) hnative
          rw [hnative', hmethod]
          rfl
    exact congrArg (fun c => some (of c ts)) henter
  | deliver o cs => cases cs <;> rfl
  | answer v => cases ts <;> rfl
  | unwind u => cases ts <;> rfl

theorem run?_congr (h : p.Confines ok) (hsame : p.SameOn ok methods) (steps : Nat)
    (hm : h.discipline.Holds m) : m.run? { p with methods := methods } steps = m.run? p steps := by
  induction steps generalizing m with
  | zero => rfl
  | succ steps ih =>
    rw [run?, run?, step?_congr h hsame hm]
    cases hstep : m.step? p with
    | none => rfl
    | some m' => exact ih (hm.step hstep)

theorem waiting_of_run? {D : Discipline p} {steps : Nat} (hm : D.Holds m) {s : Store}
    {r : Except Unwind Value} (h : m.run? p steps = some (s, r)) : s.Waiting (D.callback s) := by
  obtain ⟨k, hk, -, rfl, -⟩ := finishes_iff.1 ⟨steps, h⟩
  exact (hm.steps hk).store

/-- **Whatever the host does**, two programs play alike that have the same methods under the names
that are called. -/
theorem plays_congr (h : p.Confines ok) (hsame : p.SameOn ok methods) (steps : Nat) {s : Store}
    (hs : s.Waiting (Callback.CallsOnly ok)) {moves : List Move}
    (hmoves : ∀ move ∈ moves, move.Calls ok) :
    plays { p with methods := methods } steps s moves = plays p steps s moves := by
  induction moves generalizing s with
  | nil => rfl
  | cons move moves ih =>
    have hm : h.discipline.Holds (move.machine s) :=
      Discipline.holds_machine hs (hmoves move List.mem_cons_self)
    rw [plays, plays, run?_congr h hsame steps hm]
    cases hrun : (move.machine s).run? p steps with
    | none => rfl
    | some result =>
      have hs' := waiting_of_run? hm hrun
      simp only [ih hs' fun k hk => hmoves k (List.mem_cons_of_mem _ hk)]

end Machine

/-! ### Loading classes -/

namespace Program

/-- The program with classes loaded one after the other. -/
def load (p : Program) (units : List ClassUnit) : Program := units.foldl addClass p

/-- The names under which the methods of a class are loaded, the last one in front. -/
def bindings (u : ClassUnit) : List (String × Method) :=
  u.methods.reverse.flatMap fun m => [(m.name, m), (m.qualified u.name, m)]

theorem addClass_eq (p : Program) (u : ClassUnit) :
    p.addClass u = { p with methods := bindings u ++ p.methods } := by
  obtain ⟨cls, ms⟩ := u
  unfold addClass bindings
  induction ms generalizing p with
  | nil => rfl
  | cons m ms ih => simp [ih]

theorem load_eq (p : Program) (units : List ClassUnit) :
    p.load units = { p with methods := units.reverse.flatMap bindings ++ p.methods } := by
  unfold load
  induction units generalizing p with
  | nil => rfl
  | cons u us ih => simp [ih, addClass_eq]

/-- **A name that stands for one method only** among those that are loaded. -/
theorem method?_load (p : Program) {units : List ClassUnit} {name : String} {m : Method}
    (hmem : ∃ u ∈ units, (name, m) ∈ bindings u)
    (hone : ∀ u ∈ units, ∀ c ∈ bindings u, c.1 = name → c.2 = m) :
    (p.load units).method? name = some m := by
  have hlookup : ∀ cs : List (String × Method), (name, m) ∈ cs → (∀ c ∈ cs, c.1 = name → c.2 = m) →
      (cs ++ p.methods).lookup name = some m := by
    -- The first binding of the name counts, and all of them are for `m`.
    intro cs hmem hone
    induction cs with
    | nil => cases hmem
    | cons c cs ih =>
      rw [List.cons_append, List.lookup_cons]
      by_cases hname : name = c.1
      · rw [beq_iff_eq.2 hname, hone c List.mem_cons_self hname.symm]
      · rw [beq_eq_false_iff_ne.2 hname]
        refine ih ((List.mem_cons.1 hmem).resolve_left fun h => hname (h ▸ rfl)) fun c hc => ?_
        exact hone c (List.mem_cons_of_mem _ hc)
  obtain ⟨u, hu, hc⟩ := hmem
  rw [method?, load_eq]
  refine hlookup _ (List.mem_flatMap.2 ⟨u, List.mem_reverse.2 hu, hc⟩) fun c hc => ?_
  obtain ⟨u, hu, hc⟩ := List.mem_flatMap.1 hc
  exact hone u (List.mem_reverse.1 hu) c hc

/-- The function is a marker or a native function. -/
def IsForeign (p : Program) (name : String) : Prop :=
  p.markers.contains name = true ∨ (p.native? name).isSome = true

/-- **The entry and the dispatcher of a method have their names**: the entry its qualified one, and
the dispatcher its plain one. -/
structure Provides (p : Program) (cls : String) (pair : Conversion.Pair) : Prop where
  entry : p.method? (pair.entry.qualified cls) = some pair.entry
  dispatcher : p.method? pair.dispatcher.name = some pair.dispatcher

end Program

/-- **A class keeps its names** among loaded classes: no other method has the qualified name of one
of its entries or the name of one of its dispatchers. -/
def ClassOutput.KeepsNames (c : ClassOutput) (units : List ClassUnit) : Prop :=
  ∀ pair, .converted pair ∈ c.results → ∀ u ∈ units, ∀ b ∈ Program.bindings u,
    (b.1 = pair.entry.qualified c.name → b.2 = pair.entry) ∧
      (b.1 = pair.dispatcher.name → b.2 = pair.dispatcher)

/-- A class that keeps its names provides its entries and dispatchers, with the others and alone. -/
theorem ClassOutput.KeepsNames.provides {c : ClassOutput} {units : List ClassUnit}
    (h : c.KeepsNames units) (hc : c.unit ∈ units) (base : Program) (pair : Conversion.Pair)
    (hpair : .converted pair ∈ c.results) :
    (base.load units).Provides c.name pair ∧ (base.load [c.unit]).Provides c.name pair := by
  have hmem : (pair.entry.qualified c.name, pair.entry) ∈ Program.bindings c.unit ∧
      (pair.dispatcher.name, pair.dispatcher) ∈ Program.bindings c.unit := by
    have hmethods : ∀ m ∈ Conversion.methods (.converted pair), m ∈ c.unit.methods :=
      fun m hm => List.mem_flatMap.2 ⟨_, hpair, hm⟩
    simp only [Program.bindings, List.mem_flatMap, List.mem_reverse]
    exact ⟨⟨pair.entry, hmethods _ (by simp [Conversion.methods]), by simp [unit]⟩,
      ⟨pair.dispatcher, hmethods _ (by simp [Conversion.methods]), by simp⟩⟩
  have hprovides : ∀ us : List ClassUnit, c.unit ∈ us → (∀ u ∈ us, u ∈ units) →
      (base.load us).Provides c.name pair := fun us hc hsub =>
    ⟨base.method?_load ⟨_, hc, hmem.1⟩ fun u hu b hb => (h pair hpair u (hsub u hu) b hb).1,
      base.method?_load ⟨_, hc, hmem.2⟩ fun u hu b hb => (h pair hpair u (hsub u hu) b hb).2⟩
  exact ⟨hprovides units hc fun _ hu => hu,
    hprovides _ (List.mem_singleton_self _) fun _ hu => List.mem_singleton.1 hu ▸ hc⟩

/-! ### Generated code -/

/-- What a method that calls only native functions and markers is converted to calls these and its
dispatcher. -/
theorem Conversion.Pair.callsOnly {m : Method} {cls : String} {o : Options} {pair : Conversion.Pair}
    (hconvert : m.convert cls o = .ok (.converted pair)) (hm : m.CallsOnly ok)
    (hd : ok pair.dispatcher.name) : pair.entry.CallsOnly ok ∧ pair.dispatcher.CallsOnly ok := by
  obtain ⟨a, n, ha, rfl, hn⟩ := m.exists_analysis hconvert
  obtain ⟨-, hgrows, hmethod, hmade⟩ := Method.made_of_analyze ha hn (o.dispatcherName m.name)
  refine ⟨fun b hb i hi => ?_, fun b hb i hi => ?_⟩
  · rw [List.mem_singleton.1 hb] at hi
    rcases mem_entryCode hi with hglue | rfl
    · exact Instr.callsOnly_of_isGlue hd hglue
    · exact hd
  · rcases hmade.mem_dispatcher hb hi with hglue | ⟨block, hblock, j, hj, -, rfl⟩
    · exact Instr.callsOnly_of_isGlue hd hglue
    · refine Instr.callsOnly_mapLocals ?_
      have hinstrs : ∀ b ∈ n.blocks, ∀ i ∈ b.instrs, i.CallsOnly ok :=
        hgrows.forall_instrs hm fun i hi => by cases i <;> trivial
      exact hinstrs block (hmethod ▸ hblock) j hj

namespace Batch

section

variable {units : List ClassUnit} {o : Options} {base : Program}

/-- The entries of a class, its dispatchers, and all functions that do not belong to a class. -/
def Reach (base : Program) (c : ClassOutput) (name : String) : Prop :=
  base.IsForeign name ∨ ∃ pair, .converted pair ∈ c.results ∧
    (name = pair.entry.qualified c.name ∨ name = pair.dispatcher.name)

/-- **A class whose dispatchers keep their names is not disturbed** by the other classes of a batch:
if all methods call only native functions and markers, then calls of the entries of the class and
settlements go in the program with all classes as they go in the program with this one. -/
theorem plays_load_eq (hcalls : ∀ u ∈ units, ∀ m ∈ u.methods, m.CallsOnly base.IsForeign)
    (hnatives : ∀ {name g : String} {f : Native} {history : List NativeCall} {args xs : List Value},
      base.native? name = some f → f history args = .invoke g xs → base.IsForeign g)
    {c : ClassOutput} (hc : c ∈ (convert units o).classes)
    (hall : ∀ pair, .converted pair ∈ c.results →
      (base.load (convert units o).units).Provides c.name pair)
    (hone : ∀ pair, .converted pair ∈ c.results → (base.load [c.unit]).Provides c.name pair)
    (steps : Nat) {s : Store} (hs : s.Waiting fun _ => False) {moves : List Move}
    (hmoves : ∀ move ∈ moves, move.Calls fun name => ∃ pair, .converted pair ∈ c.results ∧
      name = pair.entry.qualified c.name) :
    Machine.plays (base.load (convert units o).units) steps s moves =
      Machine.plays (base.load [c.unit]) steps s moves := by
  rw [base.load_eq] at hall hone
  rw [base.load_eq, base.load_eq]
  generalize (convert units o).units.reverse.flatMap Program.bindings ++ base.methods = methods
    at hall ⊢
  generalize [c.unit].reverse.flatMap Program.bindings ++ base.methods = methods' at hone ⊢
  -- What the entries and the dispatchers of the class call.
  have hpair : ∀ pair, .converted pair ∈ c.results →
      pair.entry.CallsOnly (Reach base c) ∧ pair.dispatcher.CallsOnly (Reach base c) := by
    intro pair hpair
    rw [convert_eq] at hc
    obtain ⟨u, hu, rfl⟩ := List.mem_map.1 hc
    obtain ⟨m, hm, hresult⟩ := mem_accepted.1 hpair
    have hconvert := convert_of_convertMethod hresult
    refine Conversion.Pair.callsOnly hconvert ?_ (.inr ⟨pair, hpair, .inr rfl⟩)
    exact fun b hb i hi => (hcalls u hu m hm b hb i hi).mono fun _ h => .inl h
  -- Under the names that are called both programs have the same methods.
  have hnames : ∀ name, Reach base c name → base.markers.contains name = false →
      base.native? name = none → ∃ m, m.CallsOnly (Reach base c) ∧
        { base with methods := methods }.method? name = some m ∧
        { base with methods := methods' }.method? name = some m := by
    rintro name (hforeign | ⟨pair, hmem, rfl | rfl⟩) hmarker hnative
    · rcases hforeign with h | h
      · rw [h] at hmarker
        cases hmarker
      · rw [hnative] at h
        cases h
    · exact ⟨pair.entry, (hpair pair hmem).1, (hall pair hmem).entry, (hone pair hmem).entry⟩
    · exact ⟨pair.dispatcher, (hpair pair hmem).2, (hall pair hmem).dispatcher,
        (hone pair hmem).dispatcher⟩
  have hconfines : { base with methods := methods' }.Confines (Reach base c) := {
    natives := fun _ hf hrequest => .inl (hnatives hf hrequest)
    methods := fun hname hmarker hnative hm => by
      obtain ⟨m', hcalls', -, hm'⟩ := hnames _ hname hmarker hnative
      rw [hm'] at hm
      cases hm
      exact hcalls' }
  have hsame : { base with methods := methods' }.SameOn (Reach base c) methods := by
    intro name hname hmarker hnative
    obtain ⟨m', -, hm, hm'⟩ := hnames name hname hmarker hnative
    exact hm.trans hm'.symm
  refine Machine.plays_congr hconfines hsame steps (fun q waiting hq k hk =>
    (hs q waiting hq k hk).elim)
    fun move hmove => ?_
  cases move with
  | invoke name args =>
    obtain ⟨pair, hmem, hname⟩ := hmoves _ hmove
    exact .inr ⟨pair, hmem, .inl hname⟩
  | fulfill q v => trivial
  | reject q e => trivial

end

/-! ### Two classes with a method of the same name -/

namespace Twins

/-- A method that waits for its argument and then runs the given instructions. -/
def method (name : String) (after : List Instr) : Method where
  name := name
  params := [⟨0, some "f", .future, true⟩]
  ret := .int
  locals := [⟨0, some "f", .future, true⟩]
  blocks := [⟨0, [.load 0, .invoke ⟨"Await.await", 1, .int⟩] ++ after, .ret⟩]
  entry := 0
  regions := []

/-- Two classes, of which the first returns the awaited value, the second one its negation. -/
def units (first second : String) : List ClassUnit :=
  [⟨"A", [method first []]⟩, ⟨"B", [method second [.unary .neg]]⟩]

/-- The first class, converted. -/
def output (first second : String) : ClassOutput :=
  ((convert (units first second) {}).classes).headD default

/-- What the method of the first class is converted to. -/
def pair (name : String) : Conversion.Pair :=
  match (method name []).convert "A" {} with
  | .ok (.converted pair) => pair
  | _ => default

/-- A store with a promise that was fulfilled with 5. -/
def store : Store := { promises := #[.settled (.fulfilled (.int 5))] }

/-- The integer that the future with the given number was fulfilled with. -/
def delivered (q : Nat) (r : Option (Store × List (Except Unwind Value))) : Option Int64 :=
  (r.bind fun c => c.1.outcome? q).bind fun o => o.payload.int?

end Twins

open Twins in
/-- **Two classes that share a dispatcher**: with both loaded, a call of the first one's method runs
the code of the second. -/
theorem dispatcher_shared :
    (units "m" "m").Pairwise (·.name ≠ ·.name) ∧
    (∀ u ∈ units "m" "m", (u.methods.map (·.name)).Nodup) ∧
    (convert (units "m" "m") {}).failures = [] ∧
    delivered 1 (Machine.plays (Program.load {} (convert (units "m" "m") {}).units) 100 store
      [.invoke "A.m" [.future 0]]) = some (-5) ∧
    delivered 1 (Machine.plays (Program.load {} [(output "m" "m").unit]) 100 store
      [.invoke "A.m" [.future 0]]) = some 5 := by
  refine ⟨by decide, by decide, by decide +kernel, by decide +kernel, by decide +kernel⟩

open Twins in
/-- Two classes whose methods have different names do not disturb each other. -/
theorem plays_load_eq_of_names :
    delivered 1 (Machine.plays (Program.load {} (convert (units "m" "n") {}).units) 100 store
        [.invoke "A.m" [.future 0]]) = some 5 ∧
      Machine.plays (Program.load {} (convert (units "m" "n") {}).units) 100 store
          [.invoke "A.m" [.future 0]] =
        Machine.plays (Program.load {} [(output "m" "n").unit]) 100 store
          [.invoke "A.m" [.future 0]] := by
  have hresults : (output "m" "n").results = [.converted (Twins.pair "m")] := by decide +kernel
  have hnames : (output "m" "n").KeepsNames (convert (units "m" "n") {}).units := by
    intro pair hpair
    rw [hresults, List.mem_singleton] at hpair
    cases hpair
    decide +kernel
  have hprovides := hnames.provides (by decide +kernel) {}
  refine ⟨by decide +kernel, plays_load_eq ?_ ?_ (?_ : output "m" "n" ∈ _)
    (fun pair h => (hprovides pair h).1) (fun pair h => (hprovides pair h).2) 100 ?_ ?_⟩
  · have hforeign : Program.IsForeign {} "Await.await" := .inl rfl
    simp [units, method, Method.CallsOnly, Instr.CallsOnly, hforeign]
  · intro name g f history args xs hf hrequest
    have hbuiltin : (name, f) ∈ Native.builtins := mem_of_lookup_eq_some hf
    simp only [Native.builtins, List.mem_cons, Prod.mk.injEq, List.not_mem_nil,
      or_false] at hbuiltin
    rcases hbuiltin with ⟨-, rfl⟩ | ⟨-, rfl⟩ | ⟨-, rfl⟩ | ⟨-, rfl⟩ <;> cases hrequest
  · decide +kernel
  · intro q waiting hq
    cases q with
    | zero => cases hq
    | succ q => cases hq
  · intro move hmove
    rw [List.mem_singleton.1 hmove]
    exact ⟨Twins.pair "m", hresults ▸ List.mem_singleton_self _, by decide +kernel⟩

end Batch

end Resumable
