/-
**A method and what replaces it.**

A method that is converted passes all checks, and its plan is made from its graph.  Two programs can
then be compared that differ in this method only: one has the method without cleanup regions, the
other has the entry and the dispatcher.

Main results:

* `Method.exists_plan` — **the plan that a conversion comes from**;
* `Conversion.Pair.Replaces.serves` — the dispatcher follows the method.
-/

import Resumable.Conversion
import Resumable.Proofs.Simulation

set_option autoImplicit false

namespace Resumable

open Dispatcher

namespace Method

variable {m n : Method} {o : Options}

/-! ### Checks -/

theorem check_eq_ok (h : m.check o = .ok ()) :
    m.referenceDefects = [] ∧ m.arityDefects o.isMarker = [] := by
  obtain ⟨_, hreferences, h⟩ := bind_eq_ok h
  obtain ⟨_, harity, -⟩ := bind_eq_ok h
  exact ⟨report_eq_ok_iff.1 hreferences, report_eq_ok_iff.1 harity⟩

/-- The method has no instruction of the protocol between entry and dispatcher. -/
def Plain (m : Method) : Prop := ∀ b ∈ m.blocks, ∀ i ∈ b.instrs, i.isProtocol = false

instance (m : Method) : Decidable m.Plain :=
  inferInstanceAs (Decidable (∀ b ∈ m.blocks, ∀ i ∈ b.instrs, i.isProtocol = false))

theorem Grows.plain (h : m.Grows n) (hplain : m.Plain) : n.Plain :=
  h.forall_instrs hplain fun i hi => by cases i <;> first | rfl | cases hi

/-! ### Plans -/

/-- **What an analysis goes through.** -/
theorem analyze_eq_ok {a : Analysis} (h : m.analyze o = .ok a) :
    m.check o = .ok () ∧ ∃ n levels, m.withoutCleanup = .ok n ∧
      (Graph.ofMethod n o.isMarker).balance n.ret = .ok levels ∧
      (Graph.ofMethod n o.isMarker).unenteredDefects (Graph.reached levels) m.blocks.length = [] ∧
      a = Analysis.ofGraph n (Graph.ofMethod n o.isMarker) (Graph.reached levels) := by
  obtain ⟨⟨⟩, hcheck, h⟩ := bind_eq_ok h
  obtain ⟨n, hn, h⟩ := bind_eq_ok h
  obtain ⟨levels, hlevels, h⟩ := bind_eq_ok h
  obtain ⟨_, hentered, h⟩ := bind_eq_ok h
  exact ⟨hcheck, n, levels, hn, hlevels, report_eq_ok_iff.1 hentered, (Except.ok.inj h).symm⟩

theorem made_of_analyze {a : Analysis} (h : m.analyze o = .ok a) (hn : m.withoutCleanup = .ok n)
    (name : String) :
    m.check o = .ok () ∧ m.Grows n ∧ a.method = n ∧ (a.plan name).Made o.isMarker a.reached := by
  obtain ⟨hcheck, n', levels, hn', hlevels, -, rfl⟩ := analyze_eq_ok h
  cases hn.symm.trans hn'
  have hgrows := grows_withoutCleanup (referenceDefects_eq_nil_iff.1 (check_eq_ok hcheck).1) hn
  exact ⟨hcheck, hgrows, rfl, hgrows.sound, rfl, Graph.flowSet_reached hgrows.sound hlevels, rfl,
    rfl⟩

/-- **The plan that a conversion comes from.** -/
theorem exists_plan {cls : String} {pair : Conversion.Pair}
    (h : m.convert cls o = .ok (.converted pair)) (hn : m.withoutCleanup = .ok n) :
    m.check o = .ok () ∧ m.Grows n ∧ ∃ p r, Plan.Made p o.isMarker r ∧ p.method = n ∧
      pair.entry = Dispatcher.entry m p.name ∧ pair.dispatcher = p.dispatcher ∧
      pair.points = p.points := by
  rw [convert] at h
  split at h
  · split at h
    · rename_i a ha
      cases h
      obtain ⟨hcheck, hgrows, hmethod, hmade⟩ := made_of_analyze ha hn (o.dispatcherName m.name)
      exact ⟨hcheck, hgrows, _, _, hmade, hmethod, rfl, rfl, rfl⟩
    · cases h
  · cases h

end Method

/-! ### Programs -/

/-- A name stands for a method: it is no marker and no native function. -/
structure Program.Resolves (p : Program) (name : String) (m : Method) : Prop where
  marker : p.markers.contains name = false
  native : p.native? name = none
  method : p.method? name = some m

variable {p : Program} {m : Method}

theorem Program.Resolves.step {name : String} (h : p.Resolves name m) (s : Store)
    (args : List Value) (depth : Nat) (ts : List Task) :
    Machine.Step p ⟨s, .enter name args depth, ts⟩ ⟨s, p.enterMethod name m args depth, ts⟩ := by
  simp only [Machine.Step, Machine.step?, Program.enter, h.marker, h.native, h.method]
  rfl

/-- A method that is called with as many arguments as it has parameters starts, unless the calls are
too deep. -/
theorem Program.enterMethod_eq_exec (f : String) {xs : List Value} (h : xs.length = m.params.length)
    {depth : Nat} (hdepth : depth < p.maxDepth) :
    p.enterMethod f m xs depth = .exec (Activation.start m xs (depth + 1)) := by
  rw [Program.enterMethod, if_neg (not_not_intro h), if_neg (Nat.not_le_of_lt hdepth)]

theorem Program.lt_maxDepth (f : String) {xs : List Value} (h : xs.length = m.params.length)
    {depth : Nat}
    (hdepth : ∀ limit, p.enterMethod f m xs depth ≠ .unwind (.fault (.depthLimit limit))) :
    depth < p.maxDepth := by
  refine Nat.lt_of_not_le fun hle => hdepth p.maxDepth ?_
  rw [Program.enterMethod, if_neg (not_not_intro h), if_pos hle]

/-- Two programs that differ at most under the given names.  Markers are those of the conversion,
and the second program has the dispatcher under its name. -/
structure Conversion.Pair.Replaces (pair : Conversion.Pair) (o : Options) (names : List String)
    (src tgt : Program) : Prop where
  agree : src.AgreeOff names tgt
  markers : src.markers = o.markers
  dispatcher : tgt.Resolves pair.dispatcher.name pair.dispatcher

/-- **The dispatcher of a converted method follows the method.** -/
theorem Conversion.Pair.Replaces.serves {pair : Conversion.Pair} {o : Options} {names : List String}
    {src tgt : Program} (h : pair.Replaces o names src tgt) (hcheck : m.check o = .ok ())
    (hplain : m.Plain) {p : Plan} {r : IdSet} (hmade : p.Made o.isMarker r)
    (hgrows : m.Grows p.method) : p.Serves o.isMarker r names src tgt where
  made := hmade
  agree := h.agree
  markers name := by rw [h.markers, Options.isMarker]
  plain := hgrows.plain hplain
  unary := by
    intro b hb c hc hmarker
    have hargc : ∀ b ∈ p.method.blocks, ∀ i ∈ b.instrs, ∀ c, i = .invoke c →
        o.isMarker c.name = true → c.argc = 1 := by
      refine hgrows.forall_instrs (fun b hb i hi c hic hc => ?_) fun i hi c hic => ?_
      · exact Method.argc_of_arityDefects (Method.check_eq_ok hcheck).2 hb (hic ▸ hi) hc
      · rw [hic] at hi
        cases hi
    exact hargc b hb _ hc c rfl hmarker

/-- A program with a method, and with two others in its place. -/
theorem Program.agreeOff_addMethod (p : Program) {m e d : Method} {names : List String}
    (hm : m.name ∈ names) (he : e.name ∈ names) (hd : d.name ∈ names) :
    (p.addMethod m).AgreeOff names ((p.addMethod e).addMethod d) where
  methods name hname := by
    have hne : ∀ {k : String}, k ∈ names → (name == k) = false :=
      fun hk => beq_eq_false_iff_ne.2 fun h => hname (h ▸ hk)
    simp only [Program.method?, Program.addMethod, List.lookup_cons, hne hm, hne he, hne hd]
  natives := rfl
  parents := rfl
  markers := rfl
  maxDepth := rfl

/-! ### Undeclared parameters -/

/-- What a method of the class `C` is converted to. -/
def Method.generated (m : Method) : Conversion.Pair :=
  match m.convert "C" {} with
  | .ok (.converted pair) => pair
  | _ => default

/-- A program of an entry and its dispatcher. -/
def Conversion.Pair.program (pair : Conversion.Pair) : Program :=
  (Program.addMethod {} pair.entry).addMethod pair.dispatcher

/-- **A method that does not declare its parameters.**  It runs the given code; another way, which
it does not take, waits.  A dispatcher keeps a value that has no place among the locals under its
own number, where it has other things: 0 is the state, 2 the frame, 4 the outer future. -/
def undeclared (params : List Nat) (code : List Instr) (t : Terminator) : Method where
  name := "m"
  params := params.map fun l => ⟨l, none, .int, true⟩
  ret := .int
  locals := [⟨9, none, .future, false⟩]
  blocks :=
    [⟨0, [.push (.bool true)], .branch 1 2⟩, ⟨1, code, t⟩,
      ⟨2, [.load 9, .invoke ⟨"Await.await", 1, .int⟩], .ret⟩]
  entry := 0
  regions := []

end Resumable
