/-
**The dispatcher follows the method.**

While a method runs, its dispatcher can run beside it: both are at the same instruction of the same
node, with the same operands, and the locals that are still needed have the same values.  One step
of the method leads to the next such position, or into a call that runs alike on both sides, or to
an end of both: the method returns, throws, faults, or waits at a marker for a future that has not
settled, where the dispatcher parks.

The cells of the dispatcher's side may be renamed, since an entry makes a future and a frame of its
own.

Main results:

* `Dispatcher.Plan.Serves.step` — **machines that meet meet again or end together**;
* `Dispatcher.Plan.Serves.run` — **whole runs end together or go on for ever**.
-/

import Resumable.Proofs.Alike
import Resumable.Proofs.GeneratedCode
import Resumable.Proofs.Paths

set_option autoImplicit false

namespace Resumable

open List

/-- The method waits at one of its own marker calls for a future that has not settled; `a` is its
activation, and `base` are the tasks below. -/
structure Machine.BlockedAt (p : Program) (n : Method) (base : List Task) (a : Activation) (q : Nat)
    (k : Machine) : Prop where
  method : a.method = n
  marker : ∃ c keep, n.instrAt? a.location = some (.invoke c) ∧ p.markers.contains c.name = true ∧
    k.control = .enter c.name [.future q] a.depth ∧ k.tasks = .caller a keep :: base
  pending : k.store.outcome? q = none

/-- The method waits at one of its own marker calls. -/
def Machine.Blocked (p : Program) (n : Method) (base : List Task) (k : Machine) : Prop :=
  ∃ a q, Machine.BlockedAt p n base a q k

/-- Only a machine that is about to enter a function is blocked. -/
theorem Machine.not_blocked_of_control {p : Program} {n : Method} {base : List Task} {k : Machine}
    (h : ∀ name args depth, k.control ≠ .enter name args depth) : ¬ Machine.Blocked p n base k := by
  rintro ⟨a, q, -, ⟨c, keep, -, -, hcontrol, -⟩, -⟩
  exact h _ _ _ hcontrol

theorem Machine.not_blocked_exec (p : Program) (n : Method) (base : List Task) (s : Store)
    (a : Activation) (ts : List Task) : ¬ Machine.Blocked p n base ⟨s, .exec a, ts⟩ :=
  Machine.not_blocked_of_control fun _ _ _ heq => by cases heq

/-- A run that ends with a fault before the method waits gets to no state in which it waits: that
would come after the last one. -/
theorem Machine.Avoids.not_blocked {p : Program} {n : Method} {m : Machine} {s : Store} {f : Fault}
    (h : m.Avoids p (Machine.Blocked p n []) ⟨s, .unwind (.fault f), []⟩) (k : Machine)
    (hk : m.Steps p k) : ¬ Machine.Blocked p n [] k := by
  intro hblocked
  obtain rfl := (h.steps_of_holds hk hblocked).eq_of_finished rfl
  exact Machine.not_blocked_of_control (fun _ _ _ heq => by cases heq) hblocked

theorem step_marker {prog : Program} {name : String} (h : prog.markers.contains name = true)
    (s : Store) (args : List Value) (depth : Nat) (ts : List Task) :
    Machine.Step prog ⟨s, .enter name args depth, ts⟩
      ⟨s, Program.joinMarker s name args, ts⟩ := by
  simp only [Machine.Step, Machine.step?, Program.enter, h, if_true]
  rfl

section Blocked

variable {p : Program} {n : Method} {a : Activation} {q : Nat} {k j : Machine}

/-- A method that waits, with nothing below it, ends with a fault two steps later. -/
theorem Machine.BlockedAt.ends (h : Machine.BlockedAt p n [] a q k) :
    ∃ marker keep,
      k.Step p ⟨k.store, .unwind (.fault (.wouldBlock marker)), [.caller a keep]⟩ ∧
      Machine.Step p ⟨k.store, .unwind (.fault (.wouldBlock marker)), [.caller a keep]⟩
        ⟨k.store, .unwind (.fault (.wouldBlock marker)), []⟩ := by
  obtain ⟨s, control, ts⟩ := k
  obtain ⟨-, ⟨c, keep, -, hmarker, hcontrol, htasks⟩, hpending⟩ := h
  simp only at hcontrol htasks hpending
  subst hcontrol htasks
  have hstep := step_marker hmarker s [.future q] a.depth [.caller a keep]
  simp only [Program.joinMarker, hpending] at hstep
  exact ⟨c.name, keep, hstep, rfl⟩

theorem Machine.BlockedAt.finishes (h : Machine.BlockedAt p n [] a q k) :
    ∃ marker, k.Finishes p k.store (.error (.fault (.wouldBlock marker))) := by
  obtain ⟨marker, keep, hstep, hstep'⟩ := h.ends
  exact ⟨marker, (Machine.finishes_unwind p _ _).of_steps
    ((Machine.Step.steps hstep).trans (Machine.Step.steps hstep'))⟩

end Blocked

namespace Dispatcher.Plan

open Activation

/-! ### Positions -/

/-- The plan and the two programs: the first runs the method, the second its dispatcher, and they
differ at most in the methods of some names.  The method has no protocol instruction, and a marker
takes one argument. -/
structure Serves (p : Plan) (isMarker : String → Bool) (r : IdSet) (names : List String)
    (src tgt : Program) : Prop where
  made : p.Made isMarker r
  agree : src.AgreeOff names tgt
  markers : ∀ name, src.markers.contains name = isMarker name
  plain : ∀ b ∈ p.method.blocks, ∀ i ∈ b.instrs, i.isProtocol = false
  unary : ∀ b ∈ p.method.blocks, ∀ c, .invoke c ∈ b.instrs → isMarker c.name = true → c.argc = 1

/-- What a method and its dispatcher have in common: `live` are the locals that are still needed. -/
structure Shares (p : Plan) (ρ : Renaming) (outer : Nat) (state : Int64) (live : Nat → Prop)
    (a b : Activation) : Prop where
  method : a.method = p.method
  dispatcher : b.method = p.dispatcher
  monitors : b.monitors = a.monitors
  depth : a.depth ≤ b.depth
  state : b.locals.get p.slots.state = .int state
  outer : b.locals.get p.slots.outer = .future outer
  locals : ∀ l ∈ p.method.localIds, live l →
    b.locals.get (p.slots.local l) = (a.locals.get l).rename ρ

/-- The locals that are live before instruction `j` of a node. -/
def LiveAt (p : Plan) (r : IdSet) (n : Node) (j : Nat) (l : Nat) : Prop :=
  Liveness.LiveFrom (p.liveness r) p.graph n.id (n.instrs.drop j) l

/-- A method and its dispatcher at instruction `j` of a node that control gets to, or at its end. -/
structure Abreast (p : Plan) (r : IdSet) (ρ : Renaming) (outer : Nat) (state : Int64) (n : Node)
    (j : Nat) (a b : Activation) : Prop where
  node : p.graph.node? n.id = some n
  reached : n.id ∈ r
  inside : j ≤ n.instrs.length
  source : a.block = n.origin ∧ a.offset = n.start + j
  target : b.block = p.nodeBlock n.id ∧ b.offset = j
  stack : b.stack = a.stack.map (Value.rename ρ)
  visits : p.method.Visits a.location a.locals
  shares : p.Shares ρ outer state (p.LiveAt r n j) a b

variable {p : Plan} {isMarker : String → Bool} {r : IdSet} {names : List String} {src tgt : Program}
  {ρ : Renaming} {outer : Nat} {state : Int64} {n : Node} {j : Nat} {a b : Activation}

/-- What stands in the block of a node: its instructions, and what is generated after them. -/
theorem ahead_of_node (h : p.Made isMarker r) (hn : p.graph.node? n.id = some n) (hr : n.id ∈ r)
    {tail : List Instr} {t : Terminator}
    (hcode : p.nodeCode n = (n.instrs.map (·.mapLocals p.slots.local) ++ tail, t))
    (hm : b.method = p.dispatcher) (hb : b.block = p.nodeBlock n.id) (hj : b.offset = j)
    (hle : j ≤ n.instrs.length) :
    b.Ahead ((n.instrs.drop j).map (·.mapLocals p.slots.local) ++ tail) t := by
  refine ⟨⟨p.nodeBlock n.id, (p.code (.node n.id)).1, (p.code (.node n.id)).2⟩, ?_, ?_, ?_⟩
  · rw [hm, hb]
    exact block?_dispatcher (h.mem_roles_node hr)
  · rw [hj]
    simp only [code, hn, hcode]
    rw [drop_append_of_le_length (by simpa using hle), map_drop]
  · simp only [code, hn, hcode]

namespace Abreast

theorem mem_nodes (h : p.Abreast r ρ outer state n j a b) (hp : p.Made isMarker r) :
    n ∈ (Graph.ofMethod p.method isMarker).nodes := by
  rw [← hp.graph]
  exact Graph.mem_of_node? h.node

theorem piece (h : p.Abreast r ρ outer state n j a b) (hp : p.Made isMarker r) :
    ∃ block ∈ p.method.blocks, p.method.block? n.origin = some block ∧
      n.PieceOf isMarker (Graph.ofMethod p.method isMarker).nodes block := by
  obtain ⟨block, hblock, hpiece⟩ := Graph.pieceOf hp.sound (h.mem_nodes hp)
  exact ⟨block, mem_of_getElem? hblock, hblock, hpiece⟩

variable {i : Instr}

theorem ahead_instr (h : p.Abreast r ρ outer state n j a b) (hp : p.Made isMarker r)
    (hi : n.instrs[j]? = some i) : ∃ is t, a.Ahead (i :: is) t := by
  obtain ⟨block, -, hblock, hpiece⟩ := h.piece hp
  refine ⟨block.instrs.drop (n.start + j + 1), block.terminator, block, ?_, ?_, rfl⟩
  · rw [h.shares.method, h.source.1]
    exact hblock
  · rw [h.source.2, drop_of_getElem? (hpiece.getElem? hi)]

theorem instrAt? (h : p.Abreast r ρ outer state n j a b) (hp : p.Made isMarker r)
    (hi : n.instrs[j]? = some i) : p.method.instrAt? a.location = some i := by
  obtain ⟨block, -, hblock, hpiece⟩ := h.piece hp
  rw [Method.instrAt?, location, h.source.1, h.source.2, hblock]
  exact hpiece.getElem? hi

theorem mem_instrs (h : p.Abreast r ρ outer state n j a b) (hp : p.Made isMarker r)
    (hi : n.instrs[j]? = some i) :
    i.callee? isMarker = none ∧ ∃ block ∈ p.method.blocks, i ∈ block.instrs := by
  obtain ⟨block, hmem, -, hpiece⟩ := h.piece hp
  exact ⟨hpiece.plain i (mem_of_getElem? hi), block, hmem,
    mem_of_getElem? (hpiece.getElem? hi)⟩

end Abreast

/-! ### Entering a node -/

/-- **Entering a node**: it is enough that the locals that are live at its start agree. -/
theorem abreast_enter (hp : p.Made isMarker r) {live : Nat → Prop}
    (h : p.Shares ρ outer state live a b) {k : Nat} (hk : k ∈ r) (hn : p.graph.node? k = some n)
    (hlive : ∀ l, l ∈ (p.liveness r).liveIn k → live l)
    (hsource : a.block = n.origin ∧ a.offset = n.start)
    (htarget : b.block = p.nodeBlock k ∧ b.offset = 0)
    (hstack : b.stack = a.stack.map (Value.rename ρ))
    (hvisits : p.method.Visits a.location a.locals) :
    p.Abreast r ρ outer state n 0 a b := by
  obtain ⟨-, hid⟩ := hp.mem_nodes hn
  refine ⟨hid.symm ▸ hn, hid.symm ▸ hk, Nat.zero_le _, hsource, hid.symm ▸ htarget, hstack, hvisits,
    ?_⟩
  refine { h with locals := fun l hl hlive' => h.locals l hl (hlive l ?_) }
  rw [LiveAt, drop_zero, hid] at hlive'
  refine Liveness.mem_liveIn_of_liveFrom hk hn (fun q hq => ?_) hlive'
  rw [hp.graph] at hq ⊢
  exact Graph.lt_size_of_mem_next hp.sound hq

theorem abreast_jump (hp : p.Made isMarker r) {live : Nat → Prop}
    (h : p.Shares ρ outer state live a b) {k : Nat} (hk : k ∈ r) (hlt : k < p.method.blocks.length)
    (hlive : ∀ l, l ∈ (p.liveness r).liveIn k → live l) (stack : List Value)
    (hvisits : p.method.Visits ⟨k, 0⟩ a.locals) :
    ∃ n, p.Abreast r ρ outer state n 0 (a.jump k stack)
      (b.jump (p.nodeBlock k) (stack.map (Value.rename ρ))) := by
  obtain ⟨n, hn, horigin, hstart⟩ :
      ∃ n, (Graph.ofMethod p.method isMarker).node? k = some n ∧ n.origin = k ∧ n.start = 0 :=
    Graph.exists_head hp.sound hlt
  rw [← hp.graph] at hn
  have h' : p.Shares ρ outer state live (a.jump k stack)
      (b.jump (p.nodeBlock k) (stack.map (Value.rename ρ))) := { h with }
  exact ⟨n, abreast_enter hp h' hk hn hlive ⟨horigin.symm, hstart.symm⟩ ⟨rfl, rfl⟩ rfl hvisits⟩

/-! ### Machines -/

/-- Machines on the way: both run the code of the node, or both run a call made there, alike. -/
inductive Meets (p : Plan) (r : IdSet) (ρ : Renaming) (base : Store) (outer : Nat) (state : Int64)
    (below below' : List Task) : Machine → Machine → Prop where
  | own {s t : Store} {n : Node} {j : Nat} {a b : Activation} : Store.Renamed ρ base s t →
      p.Abreast r ρ outer state n j a b →
      Meets p r ρ base outer state below below' ⟨s, .exec a, below⟩ ⟨t, .exec b, below'⟩
  | call {m t : Machine} {n : Node} {j : Nat} {i : Instr} {a b : Activation} (keep : Bool) :
      m.Alike ρ base t → p.Abreast r ρ outer state n j a b → n.instrs[j]? = some i →
      i.mayThrow = true →
      Meets p r ρ base outer state below below' (m.atop (.caller a keep :: below))
        (t.atop (.caller b keep :: below'))

/-- Machines at the end: the method has returned or thrown, it has come to a fault, or it waits at a
marker.  In state 0 an exception leaves the dispatcher, in other states it goes to the outer future.
-/
inductive Ends (p : Plan) (src : Program) (ρ : Renaming) (base : Store) (outer : Nat)
    (state : Int64) (below below' : List Task) : Machine → Machine → Prop where
  | returns {s t : Store} (v : Value) {b : Activation} : Store.Renamed ρ base s t →
      (p.method.ret.isVoid = true → v = .null) → p.Yields outer b →
      Ends p src ρ base outer state below below' ⟨s, .answer v, below⟩
        (Machine.of (t.fulfill outer (v.rename ρ)) (.caller b false :: below'))
  | throws {s t : Store} (e : Value) : Store.Renamed ρ base s t → state = 0 →
      Ends p src ρ base outer state below below' ⟨s, .unwind (.throw e), below⟩
        ⟨t, .unwind (.throw (e.rename ρ)), below'⟩
  | rejects {s t : Store} (e : Value) {b : Activation} : Store.Renamed ρ base s t → state ≠ 0 →
      p.Yields outer b →
      Ends p src ρ base outer state below below' ⟨s, .unwind (.throw e), below⟩
        (Machine.of (t.reject outer (e.rename ρ)) (.caller b false :: below'))
  | parks {k : Machine} {t : Store} {q : Suspension} {c : Nat} {a b : Activation} :
      Store.Renamed ρ base k.store t → Machine.BlockedAt src p.method below a c k → q ∈ p.points →
      a.location = q.location → p.method.Visits q.location a.locals → p.Yields outer b →
      Ends p src ρ base outer state below below' k
        (Machine.of
          ((t.addFrame ⟨outer, q.live.map fun l => (a.locals.get l.1).rename ρ⟩).register
            (ρ.promise c) (.resume p.name q.index t.frames.size t.ambient))
          (.caller b false :: below'))
  | faults {s t : Store} {f f' : Fault} : Fault.Answers p.method.name p.name f f' →
      Store.Renamed ρ base s t →
      Ends p src ρ base outer state below below' ⟨s, .unwind (.fault f), below⟩
        ⟨t, .unwind (.fault f'), below'⟩

/-- The two machines end together. -/
def Concludes (p : Plan) (src tgt : Program) (ρ : Renaming) (base : Store) (outer : Nat)
    (state : Int64) (below below' : List Task) (m t : Machine) : Prop :=
  ∃ m' t', m.Avoids src (Machine.Blocked src p.method below) m' ∧ t.Steps tgt t' ∧
    p.Ends src ρ base outer state below below' m' t'

/-- The two machines meet, or end together after some steps of the dispatcher's side. -/
def Arrives (p : Plan) (r : IdSet) (src tgt : Program) (ρ : Renaming) (base : Store) (outer : Nat)
    (state : Int64) (below below' : List Task) (m t : Machine) : Prop :=
  p.Meets r ρ base outer state below below' m t ∨
    ∃ t', t.Steps tgt t' ∧ p.Ends src ρ base outer state below below' m t'

/-- The two machines meet again after some steps, or end together. -/
def Proceeds (p : Plan) (r : IdSet) (src tgt : Program) (ρ : Renaming) (base : Store) (outer : Nat)
    (state : Int64) (below below' : List Task) (m t : Machine) : Prop :=
  (∃ m' t', m.Runs src m' ∧ m.Avoids src (Machine.Blocked src p.method below) m' ∧
    t.Runs tgt t' ∧ p.Meets r ρ base outer state below below' m' t') ∨
  p.Concludes src tgt ρ base outer state below below' m t

section Machines

variable {base s t : Store} {below below' : List Task} {m : Machine} {i : Instr} {end' : Terminator}
  {l : Nat} {q : Suspension} {c : Callee}

theorem Proceeds.of_step {m' t : Machine}
    (h : p.Proceeds r src tgt ρ base outer state below below' m' t) (hm : m.Step src m')
    (hclear : ¬ Machine.Blocked src p.method below m) :
    p.Proceeds r src tgt ρ base outer state below below' m t := by
  rcases h with ⟨m'', t'', hruns, havoids, hruns', hmeets⟩ | ⟨m'', t'', havoids, hsteps, hends⟩
  · exact .inl ⟨m'', t'', hm.runs_trans hruns.steps, (hm.avoids hclear).trans havoids, hruns',
      hmeets⟩
  · exact .inr ⟨m'', t'', (hm.avoids hclear).trans havoids, hsteps, hends⟩

theorem Arrives.proceeds {m' t t' : Machine}
    (h : p.Arrives r src tgt ρ base outer state below below' m' t') (hm : m.Runs src m')
    (havoids : m.Avoids src (Machine.Blocked src p.method below) m') (ht : t.Runs tgt t') :
    p.Proceeds r src tgt ρ base outer state below below' m t := by
  rcases h with hmeets | ⟨t'', hsteps, hends⟩
  · exact .inl ⟨m', t', hm, havoids, ht, hmeets⟩
  · exact .inr ⟨m', t'', havoids, ht.steps.trans hsteps, hends⟩

theorem Arrives.of_exec {m' t t' : Machine}
    (h : p.Arrives r src tgt ρ base outer state below below' m' t')
    (hm : Machine.Step src ⟨s, .exec a, below⟩ m') (ht : t.Step tgt t') :
    p.Proceeds r src tgt ρ base outer state below below' ⟨s, .exec a, below⟩ t :=
  h.proceeds hm.runs (hm.avoids (Machine.not_blocked_exec _ _ _ _ _ _)) ht.runs

/-- A fault that the code of both sides comes to. -/
theorem Shares.faults {live : Nat → Prop} (h : p.Shares ρ outer state live a b)
    (hs : Store.Renamed ρ base s t) {k : String → Location → Fault} (hk : Fault.AnyPlace k) :
    p.Ends src ρ base outer state below below'
      ⟨s, .unwind (.fault (k a.method.name a.location)), below⟩
      ⟨t, .unwind (.fault (k b.method.name b.location)), below'⟩ :=
  .faults (hk.answers (congrArg Method.name h.method) (congrArg Method.name h.dispatcher) _ _) hs

/-- An exception that the method does not handle. -/
theorem ends_of_fail (h : p.Shares ρ outer state (fun _ => False) a b)
    (hs : Store.Renamed ρ base s t) (e : Value) :
    ∃ t', Machine.Steps tgt
        ⟨t, .exec (b.handle (p.block .fail) (e.rename ρ)), below'⟩ t' ∧
      p.Ends src ρ base outer state below below' ⟨s, .unwind (.throw e), below⟩ t' := by
  have hstands : p.Stands .fail (b.handle (p.block .fail) (e.rename ρ)) := ⟨h.dispatcher, rfl, rfl⟩
  by_cases hstate : state = 0
  · have hinside := inside_rethrow hstands rfl (hstate ▸ h.state) tgt t below'
    exact ⟨_, hinside.steps, .throws e hs hstate⟩
  · obtain ⟨d, c, hinside, hdoes, hyields⟩ :=
      inside_reject hstands rfl h.state hstate h.outer tgt t below'
    exact ⟨_, hinside.steps.trans (Machine.Step.steps (hdoes.step tgt below')),
      .rejects e hs hstate hyields⟩

/-- **An exception inside the method**: both sides go to the handler that the method chooses, or the
method is left.  The dispatcher is in the block of the node or in one that is covered like it. -/
theorem raise_meets (below below' : List Task) (h : p.Serves isMarker r names src tgt)
    {live : Nat → Prop} (hshares : p.Shares ρ outer state live a b)
    (hs : Store.Renamed ρ base s t) (hn : n ∈ (Graph.ofMethod p.method isMarker).nodes)
    (hr : n.id ∈ r) (hthrow : n.canThrow = true) (hblock : a.block = n.origin)
    (hlive : ∀ k ∈ p.graph.handlers n.id, ∀ l, l ∈ (p.liveness r).liveIn k → live l)
    (e : Value)
    (hhandler : tgt.handler? p.dispatcher b.block (e.rename ρ) =
      some (((tgt.handler? p.method n.origin (e.rename ρ)).map p.nodeBlock).getD (p.block .fail)))
    (hvisits : ∀ k ∈ p.method.handlers n.origin, p.method.Visits ⟨k, 0⟩ a.locals) :
    p.Arrives r src tgt ρ base outer state below below' ⟨s, src.raise a e, below⟩
      ⟨t, tgt.raise b (e.rename ρ), below'⟩ := by
  rw [h.agree.handler? p.method] at hhandler
  rw [Program.raise, Program.raise, hshares.method, hshares.dispatcher, hblock, hhandler]
  cases hk : src.handler? p.method n.origin e with
  | none =>
    right
    exact ends_of_fail { hshares with locals := fun _ _ hf => hf.elim } hs e
  | some k =>
    left
    have hmem := Program.mem_handlers_of_handler? hk
    have hnode : p.graph.node? n.id = some n := by
      rw [h.made.graph]
      exact Graph.node?_of_mem h.made.sound hn
    have hmem' := h.made.mem_handlers hnode hk
    have hreached := h.made.flow.handlers n.id hr n hnode hthrow k hmem'
    obtain ⟨n', habreast⟩ := abreast_jump h.made hshares hreached
      (Graph.lt_of_mem_handlers h.made.sound hmem) (hlive k hmem') [e] (hvisits k hmem)
    exact .own hs habreast

/-! ### One instruction -/

/-- The locals after an instruction of the method, on both sides. -/
theorem Shares.write (h : p.Shares ρ outer state (p.LiveAt r n j) a b) (hi : n.instrs[j]? = some i)
    (hdeclared : ∀ l, i.Mentions l → l ∈ p.method.localIds) (v : Value) :
    ∀ l ∈ p.method.localIds, p.LiveAt r n (j + 1) l →
      (b.locals.write (i.mapLocals p.slots.local) (v.rename ρ)).get (p.slots.local l) =
        ((a.locals.write i v).get l).rename ρ := by
  intro l hl hlive
  have hdrop := drop_of_getElem? hi
  rw [Locals.write, Locals.write, Instr.defines?_mapLocals]
  cases hdef : i.defines? with
  | none =>
    refine h.locals l hl ?_
    rw [LiveAt, hdrop]
    exact .step (by simp [hdef]) hlive
  | some k =>
    have hk : k ∈ p.method.localIds := hdeclared k (.inr hdef)
    simp only [Option.map_some, Locals.get_set]
    by_cases hlk : l = k
    · rw [if_pos hlk, if_pos (congrArg p.slots.local hlk)]
    · have hne : p.slots.local l ≠ p.slots.local k := fun heq => hlk (Slots.local_inj hl hk heq)
      rw [if_neg hlk, if_neg hne]
      refine h.locals l hl ?_
      rw [LiveAt, hdrop]
      refine .step ?_ hlive
      rw [hdef]
      exact fun heq => hlk (Option.some.inj heq).symm

/-- The dispatcher's own locals are not written by an instruction of the method. -/
theorem get_write_own {ls : Locals} (hdeclared : ∀ l, i.Mentions l → l ∈ p.method.localIds)
    (v : Value) {k : Nat} (hk : k < 3 ∨ p.slots.outer ≤ k) :
    (ls.write (i.mapLocals p.slots.local) v).get k = ls.get k := by
  rw [Locals.write, Instr.defines?_mapLocals]
  cases hdef : i.defines? with
  | none => rfl
  | some l =>
    obtain ⟨hlow, hhigh⟩ := Slots.local_bounds (hdeclared l (.inr hdef))
    have hne : k ≠ p.slots.local l := by
      change 3 ≤ p.slots.local l at hlow
      change p.slots.local l < p.slots.outer at hhigh
      omega
    simp only [Option.map_some, Locals.get_set]
    rw [if_neg hne]

theorem visits_write {m : Method} {k q : Location} {ls : Locals} (h : m.Visits k ls)
    (hi : m.instrAt? k = some i) (hkq : m.Flow k q) (v : Value) : m.Visits q (ls.write i v) := by
  rw [Locals.write]
  cases hdef : i.defines? with
  | none => exact h.flow hkq
  | some l =>
    have heq : i = .store l := by
      cases i <;> simp_all [Instr.defines?]
    exact h.store (heq ▸ hi) hkq v

theorem Abreast.next (h : p.Serves isMarker r names src tgt)
    (hab : p.Abreast r ρ outer state n j a b) (hi : n.instrs[j]? = some i) (v : Value)
    (stack : List Value) (monitors : Nat) :
    p.Abreast r ρ outer state n (j + 1)
      { a with
        locals := a.locals.write i v, stack := stack, monitors := monitors
        offset := a.offset + 1 }
      { b with
        locals := b.locals.write (i.mapLocals p.slots.local) (v.rename ρ)
        stack := stack.map (Value.rename ρ), monitors := monitors, offset := b.offset + 1 } := by
  obtain ⟨-, block, hblock, himem⟩ := hab.mem_instrs h.made hi
  have hdeclared := (h.made.sound.blocks block hblock).declared i himem
  have hlt := (List.getElem?_eq_some_iff.1 hi).1
  have hflow : p.method.Flow a.location ⟨a.block, a.offset + 1⟩ := by
    obtain ⟨block', -, hblock', hpiece⟩ := hab.piece h.made
    refine .next (hab.source.1.symm ▸ hblock') ?_
    rw [hab.source.2]
    exact (List.getElem?_eq_some_iff.1 (hpiece.getElem? hi)).1
  have hshares := hab.shares
  exact {
    node := hab.node
    reached := hab.reached
    inside := hlt
    source := ⟨hab.source.1, by simp only [hab.source.2]; omega⟩
    target := ⟨hab.target.1, by simp only [hab.target.2]⟩
    stack := rfl
    visits := visits_write hab.visits (hab.instrAt? h.made hi) hflow v
    shares := {
      method := hshares.method
      dispatcher := hshares.dispatcher
      monitors := rfl
      depth := hshares.depth
      state := (get_write_own hdeclared _ (.inl (Nat.zero_lt_succ 2))).trans hshares.state
      outer := (get_write_own hdeclared _ (.inr (Nat.le_refl _))).trans hshares.outer
      locals := hshares.write hi hdeclared v } }

theorem nodeCode_append (p : Plan) (n : Node) :
    ∃ tail t, p.nodeCode n = (n.instrs.map (·.mapLocals p.slots.local) ++ tail, t) := by
  unfold nodeCode
  split
  · exact ⟨_, _, rfl⟩
  · exact ⟨[], _, by rw [append_nil]⟩
  · split
    · exact ⟨_, _, rfl⟩
    · exact ⟨[], _, by rw [append_nil]⟩

theorem Abreast.raise (below below' : List Task) (h : p.Serves isMarker r names src tgt)
    (hab : p.Abreast r ρ outer state n j a b) (hi : n.instrs[j]? = some i)
    (hthrow : i.mayThrow = true) (hs : Store.Renamed ρ base s t) (e : Value) :
    p.Arrives r src tgt ρ base outer state below below' ⟨s, src.raise a e, below⟩
      ⟨t, tgt.raise b (e.rename ρ), below'⟩ := by
  have hcan : n.canThrow = true := by
    have hany : n.instrs.any (·.mayThrow) = true :=
      any_eq_true.2 ⟨i, mem_of_getElem? hi, hthrow⟩
    rw [Node.canThrow, hany]
    rfl
  have hdrop := drop_of_getElem? hi
  obtain ⟨block, -, hblock, hpiece⟩ := hab.piece h.made
  refine raise_meets below below' h hab.shares hs (hab.mem_nodes h.made) hab.reached hcan
    hab.source.1 ?_ e ?_ ?_
  · intro k hk l hl
    rw [LiveAt, hdrop]
    exact .throw hthrow hk hl
  · rw [hab.target.1]
    exact h.made.handler?_node hab.reached hab.node hcan tgt (e.rename ρ)
  · intro k hk
    refine hab.visits.flow ?_
    rw [location, hab.source.1, hab.source.2]
    exact .throw hblock (hpiece.getElem? hi) hthrow hk

/-- **One instruction of the method.** -/
theorem proceeds_instr (h : p.Serves isMarker r names src tgt) (hs : Store.Renamed ρ base s t)
    (hab : p.Abreast r ρ outer state n j a b) (hi : n.instrs[j]? = some i) :
    p.Proceeds r src tgt ρ base outer state below below' ⟨s, .exec a, below⟩
      ⟨t, .exec b, below'⟩ := by
  obtain ⟨hmarker, block, hblock, himem⟩ := hab.mem_instrs h.made hi
  have hplain := h.plain block hblock i himem
  have hdrop := drop_of_getElem? hi
  obtain ⟨is, end', hahead⟩ := hab.ahead_instr h.made hi
  obtain ⟨tail, end'', hcode⟩ := p.nodeCode_append n
  have hahead' := ahead_of_node h.made hab.node hab.reached hcode hab.shares.dispatcher
    hab.target.1 hab.target.2 hab.inside
  rw [hdrop] at hahead'
  have hstep := hahead.step_instr src s below
  have hstep' := hahead'.step_instr tgt t below'
  have huse : ∀ l, i.uses? = some l →
      b.locals.get (p.slots.local l) = (a.locals.get l).rename ρ := by
    intro l hl
    refine hab.shares.locals l ((h.made.sound.blocks block hblock).declared i himem l (.inl hl)) ?_
    rw [LiveAt, hdrop]
    exact .use hl
  obtain ⟨hrenamed, hfollows⟩ := follows_exec i hs hab.stack hab.shares.monitors huse
  generalize a.exec s i = x at hstep hrenamed hfollows
  generalize b.exec t (i.mapLocals p.slots.local) = y at hstep' hrenamed hfollows
  obtain ⟨s', x⟩ := x
  obtain ⟨t', y⟩ := y
  cases hfollows with
  | next v stack monitors =>
    exact Arrives.of_exec (.inl (.own hrenamed (hab.next h hi v stack monitors))) hstep hstep'
  | throw e hthrow =>
    exact (hab.raise below below' h hi hthrow hrenamed e).of_exec hstep hstep'
  | fault k hk =>
    exact Arrives.of_exec (.inr ⟨_, .refl .., hab.shares.faults hrenamed hk⟩) hstep hstep'
  | call stack name args keep hthrow =>
    refine Arrives.of_exec (.inl ?_) hstep hstep'
    have halike : Machine.Alike ρ base ⟨s', .enter name args a.depth, []⟩
        ⟨t', .enter name (args.map (Value.rename ρ)) b.depth, []⟩ :=
      ⟨hrenamed, .enter name args hab.shares.depth, .nil⟩
    refine .call keep halike (i := i) (n := n) (j := j) ?_ hi hthrow
    exact { hab with stack := rfl, shares := { hab.shares with } }
  | fulfill stack q v hprotocol => rw [hplain] at hprotocol; cases hprotocol
  | reject stack q v hprotocol => rw [hplain] at hprotocol; cases hprotocol
  | subscribe stack q v hprotocol => rw [hplain] at hprotocol; cases hprotocol

/-! ### The end of a block -/

theorem Abreast.ahead_leave (hab : p.Abreast r ρ outer state n n.instrs.length a b)
    (hp : p.Made isMarker r) (hexit : n.exit = .leave end') : a.Ahead [] end' := by
  obtain ⟨block, -, hblock, hpiece⟩ := hab.piece hp
  obtain ⟨hend, hlength⟩ := hpiece.of_leave hexit
  refine ⟨block, ?_, ?_, hend⟩
  · rw [hab.shares.method, hab.source.1]
    exact hblock
  · rw [hab.source.2, ← hlength]
    exact drop_length

theorem liveAt_of_next {k : Nat} (hk : k ∈ p.graph.next n.id) (hl : l ∈ (p.liveness r).liveIn k) :
    p.LiveAt r n n.instrs.length l := by
  rw [LiveAt, drop_length]
  exact .exit hk hl

/-- **The end of a block that does not return.** -/
theorem proceeds_leave (h : p.Serves isMarker r names src tgt) (hs : Store.Renamed ρ base s t)
    (hab : p.Abreast r ρ outer state n n.instrs.length a b) (hexit : n.exit = .leave end')
    (hret : end' ≠ .ret) :
    p.Proceeds r src tgt ρ base outer state below below' ⟨s, .exec a, below⟩
      ⟨t, .exec b, below'⟩ := by
  have hcode : p.nodeCode n =
      (n.instrs.map (·.mapLocals p.slots.local) ++ [], end'.mapTargets p.nodeBlock) := by
    rw [nodeCode, hexit, append_nil]
    cases end' <;> first | rfl | exact absurd rfl hret
  have hahead := hab.ahead_leave h.made hexit
  have hahead' := ahead_of_node h.made hab.node hab.reached hcode hab.shares.dispatcher
    hab.target.1 hab.target.2 hab.inside
  rw [drop_length, map_nil, append_nil] at hahead'
  have hstep := hahead.step_leave src s below
  have hstep' := hahead'.step_leave tgt t below'
  have hparts := parts_leave (ρ := ρ) p.nodeBlock end' hab.stack fun heq => absurd heq hret
  obtain ⟨block, hmem, hblock, hpiece⟩ := hab.piece h.made
  obtain ⟨hend, hlength⟩ := hpiece.of_leave hexit
  have hlocation : a.location = ⟨n.origin, block.instrs.length⟩ := by
    rw [location, hab.source.1, hab.source.2, hlength]
  generalize a.leave end' = x at hstep hparts
  generalize b.leave (end'.mapTargets p.nodeBlock) = y at hstep' hparts
  cases hparts with
  | jump k stack hk =>
    have hsucc : k ∈ p.graph.successors n.id := by
      simpa only [Graph.successors, hab.node, Node.successors, hexit] using hk
    have hreached := h.made.flow.successors n.id hab.reached k hsucc
    have hbound := (h.made.sound.blocks block hmem).targets k (hend ▸ hk)
    have hvisits : p.method.Visits ⟨k, 0⟩ a.locals := by
      refine hab.visits.flow ?_
      rw [hlocation]
      exact .jump hblock (hend ▸ hk)
    obtain ⟨n', hab'⟩ := abreast_jump h.made hab.shares hreached hbound
      (fun l hl => liveAt_of_next (mem_append_left _ hsucc) hl) stack hvisits
    exact Arrives.of_exec (.inl (.own hs hab')) hstep hstep'
  | ret v heq => exact absurd heq hret
  | throw e hraise =>
    have hcan : n.canThrow = true := by simp [Node.canThrow, hexit, hraise]
    have hvisits : ∀ k ∈ p.method.handlers n.origin, p.method.Visits ⟨k, 0⟩ a.locals := by
      intro k hk
      refine hab.visits.flow ?_
      rw [hlocation]
      exact .raise hblock (hend.trans hraise) hk
    have hhandler := h.made.handler?_node hab.reached hab.node hcan tgt (e.rename ρ)
    rw [← hab.target.1] at hhandler
    have harrives := raise_meets below below' h hab.shares hs
      (hab.mem_nodes h.made) hab.reached hcan
      hab.source.1 (fun k hk l hl => liveAt_of_next (mem_append_right _ hk) hl) e hhandler hvisits
    exact harrives.of_exec hstep hstep'
  | fault k hk =>
    exact Arrives.of_exec (.inr ⟨_, .refl .., hab.shares.faults hs hk⟩) hstep hstep'

/-- **The end of a block that returns**: the value goes to the outer future. -/
theorem proceeds_ret (h : p.Serves isMarker r names src tgt) (hs : Store.Renamed ρ base s t)
    (hab : p.Abreast r ρ outer state n n.instrs.length a b) (hexit : n.exit = .leave .ret) :
    p.Proceeds r src tgt ρ base outer state below below' ⟨s, .exec a, below⟩
      ⟨t, .exec b, below'⟩ := by
  have hcode : p.nodeCode n =
      (n.instrs.map (·.mapLocals p.slots.local) ++ p.fulfill, .ret) := by
    rw [nodeCode, hexit]
  have hahead := hab.ahead_leave h.made hexit
  have hahead' := ahead_of_node h.made hab.node hab.reached hcode hab.shares.dispatcher
    hab.target.1 hab.target.2 hab.inside
  rw [drop_length, map_nil, nil_append] at hahead'
  have hstep := hahead.step_leave src s below
  have hclear : ¬ Machine.Blocked src p.method below ⟨s, .exec a, below⟩ :=
    Machine.not_blocked_exec src p.method below s a below
  have hfulfill : ∀ v, (if p.method.ret.isVoid then v.rename ρ = .null
        else ∃ rest, b.stack = v.rename ρ :: rest) →
      (p.method.ret.isVoid = true → v = .null) → a.leave .ret = .ret v →
      p.Proceeds r src tgt ρ base outer state below below' ⟨s, .exec a, below⟩
        ⟨t, .exec b, below'⟩ := by
    intro v hv hnull hleave
    rw [hleave] at hstep
    obtain ⟨d, c, hinside, hdoes, hyields⟩ := inside_fulfill hab.shares.dispatcher hahead'
      hab.shares.outer hv tgt t below'
    exact .inr ⟨_, _, hstep.avoids hclear,
      hinside.steps.trans (Machine.Step.steps (hdoes.step tgt below')),
      .returns v hs hnull hyields⟩
  by_cases hvoid : p.method.ret.isVoid = true
  · refine hfulfill .null ?_ (fun _ => rfl) ?_
    · rw [if_pos hvoid]
      rfl
    · rw [leave, hab.shares.method, if_pos hvoid]
  · cases hstack : a.stack with
    | cons v rest =>
      refine hfulfill v ?_ (fun h => absurd h hvoid) ?_
      · rw [if_neg hvoid, hab.stack, hstack]
        exact ⟨_, rfl⟩
      · rw [leave, hab.shares.method, if_neg hvoid, hstack]
    | nil =>
      -- Nothing is on the stack: both sides come to the same fault.
      have hleave : a.leave .ret = .fault a.underflow := by
        rw [leave, hab.shares.method, if_neg hvoid, hstack]
      rw [hleave] at hstep
      have hstack' : b.stack = [] := by
        rw [hab.stack, hstack]
        rfl
      obtain ⟨k, hk⟩ := Option.ne_none_iff_exists'.1 fun hnone => hvoid (ret_eq_none_iff.1 hnone)
      simp only [fulfill, hk] at hahead'
      have hstep' := hahead'.step_instr tgt t below'
      simp only [exec, hstack'] at hstep'
      have hends : p.Ends src ρ base outer state below below' _ _ :=
        hab.shares.faults hs (k := .stackUnderflow) fun _ _ _ _ => rfl
      exact Arrives.of_exec (.inr ⟨_, .refl .., hends⟩) hstep hstep'

/-! ### Markers -/

/-- What is needed after a marker is what is live at the end of its node: the method goes on in the
next piece of the same block, which has the same handlers. -/
theorem mem_needed_iff (h : p.Made isMarker r) (hq : q ∈ p.points)
    (hn : p.graph.node? q.node = some n) :
    l ∈ (p.liveness r).needed p.graph q.resume ↔ p.LiveAt r n n.instrs.length l := by
  obtain ⟨-, hid⟩ := h.mem_nodes hn
  have hhandlers : p.graph.handlers q.resume = p.graph.handlers n.id :=
    hid ▸ h.handlers_resume hq hn
  have hsuccessors : p.graph.successors n.id = [q.resume] := by
    obtain ⟨n', c, hn', hexit, -⟩ := (h.isAt hq).node
    rw [hn] at hn'
    cases hn'
    simp only [Graph.successors, hid, hn, Node.successors, hexit]
  have hnext : ∀ k, k ∈ p.graph.next n.id ↔ k = q.resume ∨ k ∈ p.graph.handlers q.resume := by
    intro k
    rw [Graph.next, hsuccessors, hhandlers, mem_append, mem_singleton]
  rw [Liveness.mem_needed]
  constructor
  · rintro (hl | ⟨k, hk, hl⟩)
    · exact liveAt_of_next ((hnext _).2 (.inl rfl)) hl
    · exact liveAt_of_next ((hnext k).2 (.inr hk)) hl
  · intro hl
    rw [LiveAt, drop_length] at hl
    cases hl with
    | exit hk hl =>
      rcases (hnext _).1 hk with rfl | hk
      · exact .inl hl
      · exact .inr ⟨_, hk, hl⟩

theorem Made.declared (h : p.Made isMarker r) (hn : n ∈ p.graph.nodes) :
    ∀ i ∈ n.instrs, ∀ l, i.Mentions l → l ∈ p.method.localIds := by
  intro i hi
  rw [h.graph] at hn
  obtain ⟨block, hblock, hpiece⟩ := Graph.pieceOf h.sound hn
  obtain ⟨o, ho⟩ := mem_iff_getElem?.1 hi
  exact (h.sound.blocks block (mem_of_getElem? hblock)).declared i
    (mem_of_getElem? (hpiece.getElem? ho))

/-- A saved local is declared, and live at the end of the node of its marker. -/
theorem mem_live (h : p.Made isMarker r) (hq : q ∈ p.points) (hn : p.graph.node? q.node = some n)
    (hl : l ∈ q.live.map (·.1)) : l ∈ p.method.localIds ∧ p.LiveAt r n n.instrs.length l := by
  rw [(h.isAt hq).live, Liveness.mem_across] at hl
  have hdeclared : ∀ k, l ∈ (p.liveness r).liveIn k → l ∈ p.method.localIds := by
    intro k hk
    obtain ⟨⟨n', hn', hused⟩, -⟩ := Liveness.mem_liveIn.1 hk
    obtain ⟨i, hi, huse⟩ := mem_filterMap.1 hused
    exact h.declared hn' i hi l (.inl huse)
  refine ⟨?_, (mem_needed_iff h hq hn).1 hl.1⟩
  rcases Liveness.mem_needed.1 hl.1 with hl | ⟨k, -, hl⟩
  · exact hdeclared _ hl
  · exact hdeclared _ hl

/-- A marker call of the method, and the point that it is. -/
theorem Abreast.marker (h : p.Serves isMarker r names src tgt)
    (hab : p.Abreast r ρ outer state n n.instrs.length a b) {resume : Nat}
    (hexit : n.exit = .suspend c resume) :
    (∃ is end', a.Ahead (.invoke c :: is) end') ∧
      p.method.instrAt? a.location = some (.invoke c) ∧ c.argc = 1 ∧
      src.markers.contains c.name = true ∧
      ∃ q ∈ p.points, q.node = n.id ∧ q.resume = resume ∧ q.ty = c.ret ∧
        a.location = q.location := by
  obtain ⟨block, hmem, hblock, hpiece⟩ := hab.piece h.made
  obtain ⟨hc, hi, -⟩ := hpiece.of_suspend hexit
  have hlocation : a.location = ⟨n.origin, n.start + n.instrs.length⟩ := by
    rw [location, hab.source.1, hab.source.2]
  refine ⟨⟨block.instrs.drop (n.start + n.instrs.length + 1), block.terminator, block, ?_, ?_, rfl⟩,
    ?_, ?_, ?_, ?_⟩
  · rw [hab.shares.method, hab.source.1]
    exact hblock
  · rw [hab.source.2, drop_of_getElem? hi]
  · rw [hlocation, Method.instrAt?, hblock]
    exact hi
  · exact h.unary block hmem c (mem_of_getElem? hi) hc
  · rw [h.markers]
    exact hc
  · obtain ⟨q, hq, hnode⟩ := h.made.exists_point hab.reached hab.node
      (by simp [Node.isSuspend, hexit])
    obtain ⟨n', c', hn', hexit', hloc, hty⟩ := (h.made.isAt hq).node
    rw [hnode, hab.node] at hn'
    cases hn'
    rw [hexit] at hexit'
    cases hexit'
    exact ⟨q, hq, hnode, rfl, hty, hlocation.trans hloc.symm⟩

/-- A marker that is given something else than a future: both sides come to a fault. -/
theorem ends_mismatch (hmarker : src.markers.contains c.name = true) (hs : Store.Renamed ρ base s t)
    (hdispatcher : b.method = p.dispatcher) {v : Value} (hv : ∀ d, v ≠ .future d)
    {rest : List Value}
    (hstack : b.stack = v.rename ρ :: rest) (hb : b.Ahead [.dup, .futureIsDone] end')
    (keep : Bool) :
    p.Concludes src tgt ρ base outer state below below'
      ⟨s, .enter c.name [v] a.depth, .caller a keep :: below⟩ ⟨t, .exec b, below'⟩ := by
  have hjoin := step_marker hmarker s [v] a.depth (.caller a keep :: below)
  have hfault : Program.joinMarker s c.name [v] = .unwind (.fault (.arity c.name 1 1)) := by
    cases v <;> first | rfl | exact absurd rfl (hv _)
  rw [hfault] at hjoin
  have hentered : ¬ Machine.Blocked src p.method below
      ⟨s, .enter c.name [v] a.depth, .caller a keep :: below⟩ := by
    rintro ⟨a', d, -, ⟨c', keep', -, -, hcontrol, -⟩, -⟩
    simp only [Control.enter.injEq, cons.injEq] at hcontrol
    exact hv d hcontrol.2.1.1
  have hunwound : Machine.Step src
      ⟨s, .unwind (.fault (.arity c.name 1 1)), .caller a keep :: below⟩
      ⟨s, .unwind (.fault (.arity c.name 1 1)), below⟩ := rfl
  have hdup : b.through t [.dup] =
      some (t, b.put 1 b.locals (v.rename ρ :: v.rename ρ :: rest)) := by
    simp only [through, exec, advance, hstack]
    rfl
  rw [← singleton_append] at hb
  obtain ⟨hsteps, hahead⟩ := hb.inside hdup tgt below'
  have hdone := hahead.step_instr tgt t below'
  have hexec : (b.put 1 b.locals (v.rename ρ :: v.rename ρ :: rest)).exec t .futureIsDone =
      (t, .fault ((b.put 1 b.locals (v.rename ρ :: v.rename ρ :: rest)).mismatch
        (.expectedFuture (v.rename ρ).typeName))) := by
    cases v <;> first | rfl | exact absurd rfl (hv _)
  rw [hexec] at hdone
  have hplace : b.method.name = p.name := by rw [hdispatcher]; rfl
  refine ⟨_, _, (hjoin.avoids hentered).trans (hunwound.avoids ?_), hsteps.steps.trans hdone.steps,
    .faults (hplace ▸ .marker ..) hs⟩
  exact Machine.not_blocked_of_control fun _ _ _ heq => by cases heq

/-- After a marker whose future was fulfilled. -/
theorem Abreast.resume (h : p.Serves isMarker r names src tgt)
    (hab : p.Abreast r ρ outer state n n.instrs.length a b) (hq : q ∈ p.points)
    (hnode : q.node = n.id) (stack : List Value) :
    ∃ n', p.Abreast r ρ outer state n' 0 (a.advance stack)
      (b.jump (p.nodeBlock q.resume) (stack.map (Value.rename ρ))) := by
  obtain ⟨n', c, hn', hexit, -⟩ := (h.made.isAt hq).node
  rw [hnode, hab.node] at hn'
  cases hn'
  obtain ⟨block, -, hblock, hpiece⟩ := hab.piece h.made
  obtain ⟨-, hi, -⟩ := hpiece.of_suspend hexit
  obtain ⟨k, hk, horigin, hstart⟩ := h.made.exists_resume hq (hnode.symm ▸ hab.node)
  have hsucc : q.resume ∈ p.graph.successors n.id := by
    simp only [Graph.successors, hab.node, Node.successors, hexit, mem_singleton]
  have hreached := h.made.flow.successors n.id hab.reached _ hsucc
  have hshares : p.Shares ρ outer state (p.LiveAt r n n.instrs.length) (a.advance stack)
      (b.jump (p.nodeBlock q.resume) (stack.map (Value.rename ρ))) := { hab.shares with }
  have hvisits : p.method.Visits ⟨a.block, a.offset + 1⟩ a.locals := by
    refine hab.visits.flow (.next (hab.source.1.symm ▸ hblock) ?_)
    rw [hab.source.2]
    exact (List.getElem?_eq_some_iff.1 hi).1
  refine ⟨k, abreast_enter h.made hshares hreached hk
    (fun l hl => liveAt_of_next (mem_append_left _ hsucc) hl) ⟨?_, ?_⟩ ⟨rfl, rfl⟩ rfl hvisits⟩
  · exact hab.source.1.trans horigin.symm
  · show a.offset + 1 = k.start
    rw [hab.source.2, hstart]

/-- After a marker whose future was rejected: the exception is raised at the marker.  The dispatcher
`d` is in a block that is covered like the marker call. -/
theorem Abreast.raise_marker (below below' : List Task) (h : p.Serves isMarker r names src tgt)
    (hs : Store.Renamed ρ base s t) (hab : p.Abreast r ρ outer state n n.instrs.length a b)
    (hq : q ∈ p.points) (hnode : q.node = n.id) {d : Activation}
    (hshares : p.Shares ρ outer state (p.LiveAt r n n.instrs.length) a d) (e : Value)
    (hhandler : tgt.handler? p.dispatcher d.block (e.rename ρ) =
      some (((tgt.handler? p.method n.origin (e.rename ρ)).map p.nodeBlock).getD
        (p.block .fail))) :
    p.Arrives r src tgt ρ base outer state below below' ⟨s, src.raise a e, below⟩
      ⟨t, tgt.raise d (e.rename ρ), below'⟩ := by
  obtain ⟨n', c, hn', hexit, -⟩ := (h.made.isAt hq).node
  rw [hnode, hab.node] at hn'
  cases hn'
  obtain ⟨block, -, hblock, hpiece⟩ := hab.piece h.made
  have hvisits : ∀ k ∈ p.method.handlers n.origin, p.method.Visits ⟨k, 0⟩ a.locals := by
    intro k hk
    refine hab.visits.flow ?_
    rw [location, hab.source.1, hab.source.2]
    exact .throw hblock (hpiece.of_suspend hexit).2.1 rfl hk
  exact raise_meets below below' h hshares hs (hab.mem_nodes h.made) hab.reached
    (h.made.canThrow_point hq (hnode.symm ▸ hab.node)) hab.source.1
    (fun k hk l hl => liveAt_of_next (mem_append_right _ hk) hl) e hhandler hvisits

/-- A marker that waits for a future; `a` and `b` have taken it from their stacks. -/
theorem proceeds_future (h : p.Serves isMarker r names src tgt) (hs : Store.Renamed ρ base s t)
    (hab : p.Abreast r ρ outer state n n.instrs.length a b) {resume : Nat}
    (hexit : n.exit = .suspend c resume) (hq : q ∈ p.points) (hnode : q.node = n.id) {d : Nat}
    (hahead : { b with stack := .future (ρ.promise d) :: b.stack }.Ahead [.dup, .futureIsDone]
      (.branch (p.block (.fast q.index)) (p.block (.park q.index)))) :
    p.Proceeds r src tgt ρ base outer state below below'
      ⟨s, .enter c.name [.future d] a.depth, .caller a (!c.ret.isVoid) :: below⟩
      ⟨t, .exec { b with stack := .future (ρ.promise d) :: b.stack }, below'⟩ := by
  obtain ⟨-, hinstr, -, hmarker, q', hq', hnode', -, hty, hlocation⟩ := hab.marker h hexit
  have hqq : q' = q := by
    have hat := h.made.pointAt?_node hq
    have hat' := h.made.pointAt?_node hq'
    rw [hnode] at hat
    rw [hnode', hat] at hat'
    exact (Option.some.inj hat').symm
  subst hqq
  have hpoint := h.made.point?_index hq
  have hn : p.graph.node? q'.node = some n := hnode.symm ▸ hab.node
  have hjoin := step_marker hmarker s [.future d] a.depth (.caller a (!c.ret.isVoid) :: below)
  obtain ⟨_, hinside, hbranch⟩ := inside_test hahead rfl tgt t below'
  have htest := hinside.steps.runs_of_step hbranch
  have houtcome := hs.outcome? d
  cases ho : s.outcome? d with
  | none =>
    -- The future has not settled: the dispatcher parks.
    rw [ho] at houtcome
    have hsettled : t.isSettled (ρ.promise d) = false := by
      rw [Store.isSettled, houtcome]
      rfl
    rw [hsettled] at htest
    have hstands : p.Stands (.park q'.index)
        (b.jump (p.block (.park q'.index)) (.future (ρ.promise d) :: b.stack)) :=
      stands_jump hab.shares.dispatcher _ _
    obtain ⟨d', e, hinside', hdoes, hyields⟩ := inside_park hpoint (h.made.mem_roles_park hq)
      hstands rfl hab.shares.outer
      (fun l hl => (Slots.local_bounds (mem_live h.made hq hn hl).1).2) tgt t below'
    have hpark := hinside'.steps.trans (Machine.Step.steps (hdoes.step tgt below'))
    have hvalues : (q'.live.map fun l => b.locals.get (p.slots.local l.1)) =
        q'.live.map fun l => (a.locals.get l.1).rename ρ := by
      refine map_congr_left fun l hl => ?_
      obtain ⟨hl', hlive⟩ := mem_live h.made hq hn (mem_map_of_mem hl)
      exact hab.shares.locals l.1 hl' hlive
    have hblocked : Machine.BlockedAt src p.method below a d
        ⟨s, .enter c.name [.future d] a.depth, .caller a (!c.ret.isVoid) :: below⟩ :=
      ⟨hab.shares.method, ⟨c, _, hinstr, hmarker, rfl, rfl⟩, ho⟩
    refine .inr ⟨_, _, .refl, htest.steps.trans hpark, ?_⟩
    have hends : p.Ends src ρ base outer state below below' _ _ :=
      .parks hs hblocked hq hlocation (hlocation ▸ hab.visits) hyields
    rw [← hvalues] at hends
    exact hends
  | some o =>
    rw [ho] at houtcome
    have hclear : ¬ Machine.Blocked src p.method below
        ⟨s, .enter c.name [.future d] a.depth, .caller a (!c.ret.isVoid) :: below⟩ := by
      rintro ⟨a', d', -, ⟨c', keep', -, -, hcontrol, -⟩, hpending⟩
      simp only [Control.enter.injEq, cons.injEq, Value.future.injEq] at hcontrol
      rw [← hcontrol.2.1.1, ho] at hpending
      cases hpending
    have hsettled : t.isSettled (ρ.promise d) = true := by
      rw [Store.isSettled, houtcome]
      rfl
    rw [hsettled] at htest
    have hstands : p.Stands (.fast q'.index)
        (b.jump (p.block (.fast q'.index)) (.future (ρ.promise d) :: b.stack)) :=
      stands_jump hab.shares.dispatcher _ _
    cases o with
    | fulfilled w =>
      simp only [Program.joinMarker, ho] at hjoin
      have hanswer : Machine.Step src ⟨s, .answer w, .caller a (!c.ret.isVoid) :: below⟩
          ⟨s, .exec (a.advance (if !c.ret.isVoid then w :: a.stack else a.stack)), below⟩ := rfl
      have hfast :=
        (inside_fast hpoint (h.made.mem_roles_fast hq) hstands rfl houtcome tgt below').steps
      obtain ⟨n', hab'⟩ := hab.resume h hq hnode
        (if !c.ret.isVoid then w :: a.stack else a.stack)
      have hstacks : ((if !c.ret.isVoid then w :: a.stack else a.stack).map (Value.rename ρ)) =
          if q'.ty.isVoid then b.stack else w.rename ρ :: b.stack := by
        rw [hab.stack, hty]
        cases c.ret.isVoid <;> rfl
      rw [hstacks] at hab'
      refine .inl ⟨_, _, hjoin.runs_trans hanswer.steps,
        (hjoin.avoids hclear).trans (hanswer.avoids ?_), ?_, .own hs hab'⟩
      · exact Machine.not_blocked_of_control fun _ _ _ heq => by cases heq
      · exact htest.trans_steps hfast
    | rejected e =>
      simp only [Program.joinMarker, ho] at hjoin
      have hunwound : Machine.Step src
          ⟨s, .unwind (.throw e), .caller a (!c.ret.isVoid) :: below⟩
          ⟨s, src.raise a e, below⟩ := rfl
      have hfast := step_fast_rejected hpoint (h.made.mem_roles_fast hq) hstands rfl houtcome
        tgt below'
      have hshares : p.Shares ρ outer state (p.LiveAt r n n.instrs.length) a
          (b.jump (p.block (.fast q'.index)) (.future (ρ.promise d) :: b.stack)) :=
        { hab.shares with }
      have havoids := (hjoin.avoids hclear).trans
        (hunwound.avoids (Machine.not_blocked_of_control fun _ _ _ heq => by cases heq))
      have harrives := hab.raise_marker below below' h hs hq hnode hshares e
        (h.made.handler?_fast hq hn tgt (e.rename ρ))
      exact harrives.proceeds (hjoin.runs_trans hunwound.steps) havoids
        (htest.trans_steps hfast.steps)

/-- **A marker call.**  With a settled future both sides go on at once; otherwise the dispatcher
parks. -/
theorem proceeds_suspend (h : p.Serves isMarker r names src tgt) (hs : Store.Renamed ρ base s t)
    (hab : p.Abreast r ρ outer state n n.instrs.length a b) {resume : Nat}
    (hexit : n.exit = .suspend c resume) :
    p.Proceeds r src tgt ρ base outer state below below' ⟨s, .exec a, below⟩
      ⟨t, .exec b, below'⟩ := by
  obtain ⟨⟨is, end', hahead⟩, hinstr, hargc, hmarker, q, hq, hnode, hresume, hty, hlocation⟩ :=
    hab.marker h hexit
  have hpoint := h.made.point?_index hq
  have hcode : p.nodeCode n =
      (n.instrs.map (·.mapLocals p.slots.local) ++ [.dup, .futureIsDone],
        .branch (p.block (.fast q.index)) (p.block (.park q.index))) := by
    have hat := h.made.pointAt?_node hq
    rw [hnode] at hat
    simp only [nodeCode, hexit, hat]
  have hahead' := ahead_of_node h.made hab.node hab.reached hcode hab.shares.dispatcher
    hab.target.1 hab.target.2 hab.inside
  rw [drop_length, map_nil, nil_append] at hahead'
  have hstep := hahead.step_instr src s below
  have hclear : ¬ Machine.Blocked src p.method below ⟨s, .exec a, below⟩ :=
    Machine.not_blocked_exec src p.method below s a below
  cases hstack : a.stack with
  | nil =>
    have hstack' : b.stack = [] := by
      rw [hab.stack, hstack]
      rfl
    have hstep' := hahead'.step_instr tgt t below'
    simp only [exec, take?, hargc, hstack, hstack'] at hstep hstep'
    have hends : p.Ends src ρ base outer state below below' _ _ :=
      hab.shares.faults hs (k := .stackUnderflow) fun _ _ _ _ => rfl
    exact Arrives.of_exec (.inr ⟨_, .refl .., hends⟩) hstep hstep'
  | cons v rest =>
    have hstack' : b.stack = v.rename ρ :: rest.map (Value.rename ρ) := by
      rw [hab.stack, hstack]
      rfl
    have htake : a.take? c.argc = some ([v], rest) := by
      rw [take?, hargc, hstack]
      rfl
    simp only [exec, htake, Machine.act] at hstep
    have hwait : p.Abreast r ρ outer state n n.instrs.length { a with stack := rest }
        { b with stack := rest.map (Value.rename ρ) } :=
      { hab with stack := rfl, shares := { hab.shares with } }
    by_cases hv : ∃ d, v = .future d
    · obtain ⟨d, rfl⟩ := hv
      refine Proceeds.of_step ?_ hstep hclear
      have hb : { b with stack := .future (ρ.promise d) :: rest.map (Value.rename ρ) } = b := by
        rw [show Value.future (ρ.promise d) :: rest.map (Value.rename ρ) = b.stack from
          hstack'.symm]
      rw [← hb] at hahead' ⊢
      exact proceeds_future h hs hwait hexit hq hnode hahead'
    · have hend : p.Concludes src tgt ρ base outer state below below'
          ⟨s, .enter c.name [v] a.depth,
            .caller { a with stack := rest } (!c.ret.isVoid) :: below⟩ ⟨t, .exec b, below'⟩ :=
        ends_mismatch (a := { a with stack := rest }) hmarker hs hab.shares.dispatcher
          (fun d heq => hv ⟨d, heq⟩) hstack' hahead' _
      obtain ⟨m', t', havoids, hsteps, hends⟩ := hend
      exact .inr ⟨m', t', (hstep.avoids hclear).trans havoids, hsteps, hends⟩

/-! ### Calls -/

/-- The instruction of a call is no marker call of the method. -/
theorem not_blocked_call (below : List Task) (h : p.Serves isMarker r names src tgt)
    (hab : p.Abreast r ρ outer state n j a b) (hi : n.instrs[j]? = some i) (m : Machine)
    (keep : Bool) : ¬ Machine.Blocked src p.method below (m.atop (.caller a keep :: below)) := by
  rintro ⟨a', q, -, ⟨c, keep', hinstr, hmarker, -, htasks⟩, -⟩
  have hlength := congrArg List.length htasks
  simp only [Machine.atop, length_append, length_cons] at hlength
  have hnil : m.tasks = [] := eq_nil_of_length_eq_zero (by omega)
  simp only [Machine.atop, hnil, nil_append, cons.injEq, Task.caller.injEq] at htasks
  rw [← htasks.1.1, hab.instrAt? h.made hi] at hinstr
  cases hinstr
  have hplain := (hab.mem_instrs h.made hi).1
  rw [h.markers] at hmarker
  simp [Instr.callee?, hmarker] at hplain

theorem Abreast.after_call (h : p.Serves isMarker r names src tgt)
    (hab : p.Abreast r ρ outer state n j a b) (hi : n.instrs[j]? = some i)
    (hthrow : i.mayThrow = true) (stack : List Value) :
    p.Abreast r ρ outer state n (j + 1) (a.advance stack)
      (b.advance (stack.map (Value.rename ρ))) := by
  have hdef := Instr.defines?_of_mayThrow hthrow
  have hnext := hab.next h hi .null stack a.monitors
  simp only [Locals.write, Instr.defines?_mapLocals, hdef, Option.map_none] at hnext
  have hmonitors : b.advance (stack.map (Value.rename ρ)) =
      { b with
        stack := stack.map (Value.rename ρ), monitors := a.monitors, offset := b.offset + 1 } := by
    rw [advance, ← hab.shares.monitors]
  rw [hmonitors]
  exact hnext

/-- **A call that the method has made.** -/
theorem proceeds_call (h : p.Serves isMarker r names src tgt)
    (huniform : ∀ name f, src.native? name = some f → Native.Uniform ρ f) {t : Machine}
    (halike : m.Alike ρ base t) (hab : p.Abreast r ρ outer state n j a b)
    (hi : n.instrs[j]? = some i) (hthrow : i.mayThrow = true) (keep : Bool)
    (hname : ∀ name args d, m.control = .enter name args d → name ∉ names)
    (hdepth : ∀ t' k, t.step? tgt = some t' → t'.control ≠ .unwind (.fault (.depthLimit k))) :
    p.Proceeds r src tgt ρ base outer state below below' (m.atop (.caller a keep :: below))
      (t.atop (.caller b keep :: below')) := by
  have hclear := not_blocked_call below h hab hi m keep
  rcases halike.step h.agree huniform hname hdepth with ⟨hm, ht⟩ | ⟨m', t', hm, ht, halike'⟩
  · obtain ⟨s, c, ts⟩ := m
    obtain ⟨s', c', ts'⟩ := t
    obtain ⟨hs, hc, -⟩ := halike
    obtain ⟨hts, hfinished⟩ := Machine.control_of_finished hm
    obtain ⟨hts', -⟩ := Machine.control_of_finished ht
    simp only at hts hts' hs hc hfinished
    subst hts hts'
    rcases hfinished with ⟨v, rfl⟩ | ⟨u, rfl⟩
    · cases hc with
      | answer v =>
        have hstep : Machine.Step src ⟨s, .answer v, .caller a keep :: below⟩
            ⟨s, .exec (a.advance (if keep then v :: a.stack else a.stack)), below⟩ := rfl
        have hstep' : Machine.Step tgt ⟨s', .answer (v.rename ρ), .caller b keep :: below'⟩
            ⟨s', .exec (b.advance (if keep then v.rename ρ :: b.stack else b.stack)), below'⟩ :=
          rfl
        have hstacks : (if keep then v.rename ρ :: b.stack else b.stack) =
            (if keep then v :: a.stack else a.stack).map (Value.rename ρ) := by
          rw [hab.stack]
          cases keep <;> rfl
        rw [hstacks] at hstep'
        exact Arrives.proceeds (.inl (.own hs (hab.after_call h hi hthrow _))) hstep.runs
          (hstep.avoids hclear) hstep'.runs
    · cases hc with
      | unwind u =>
        cases u with
        | throw e =>
          have hstep : Machine.Step src ⟨s, .unwind (.throw e), .caller a keep :: below⟩
              ⟨s, src.raise a e, below⟩ := rfl
          have hstep' : Machine.Step tgt
              ⟨s', .unwind (.throw (e.rename ρ)), .caller b keep :: below'⟩
              ⟨s', tgt.raise b (e.rename ρ), below'⟩ := rfl
          exact (hab.raise below below' h hi hthrow hs e).proceeds hstep.runs
            (hstep.avoids hclear) hstep'.runs
        | fault f =>
          have hstep : Machine.Step src ⟨s, .unwind (.fault f), .caller a keep :: below⟩
              ⟨s, .unwind (.fault f), below⟩ := rfl
          have hstep' : Machine.Step tgt ⟨s', .unwind (.fault f), .caller b keep :: below'⟩
              ⟨s', .unwind (.fault f), below'⟩ := rfl
          exact .inr ⟨_, _, hstep.avoids hclear, hstep'.steps, .faults (.same f) hs⟩
  · have hstep := Machine.step?_atop (.caller a keep :: below) hm
    have hstep' := Machine.step?_atop (.caller b keep :: below') ht
    exact .inl ⟨_, _, Machine.Step.runs hstep, Machine.Step.avoids hstep hclear,
      Machine.Step.runs hstep', .call keep halike' hab hi hthrow⟩

/-- **Machines that meet meet again or end together**, unless the method calls one of the names or
the dispatcher's side gets to the limit on the depth of calls. -/
theorem Serves.step (h : p.Serves isMarker r names src tgt)
    (huniform : ∀ name f, src.native? name = some f → Native.Uniform ρ f) {t : Machine}
    (hmeets : p.Meets r ρ base outer state below below' m t)
    (hname : ∀ name args d, m.control = .enter name args d → name ∉ names)
    (hdepth : ∀ t' k, t.step? tgt = some t' → t'.control ≠ .unwind (.fault (.depthLimit k))) :
    p.Proceeds r src tgt ρ base outer state below below' m t := by
  cases hmeets with
  | @own s t n j a b hs hab =>
    cases hi : n.instrs[j]? with
    | some i => exact proceeds_instr h hs hab hi
    | none =>
      have hj : j = n.instrs.length :=
        Nat.le_antisymm hab.inside (List.getElem?_eq_none_iff.1 hi)
      subst hj
      cases hexit : n.exit with
      | suspend c resume => exact proceeds_suspend h hs hab hexit
      | leave end' =>
        by_cases hret : end' = .ret
        · exact proceeds_ret h hs hab (hret ▸ hexit)
        · exact proceeds_leave h hs hab hexit hret
  | call keep halike hab hi hthrow =>
    refine proceeds_call h huniform halike hab hi hthrow keep hname fun t' k ht => ?_
    have hnot := hdepth _ k (Machine.step?_atop _ ht)
    exact hnot

/-! ### Whole runs -/

theorem Meets.renamed {t : Machine} (h : p.Meets r ρ base outer state below below' m t) :
    Store.Renamed ρ base m.store t.store := by
  cases h with
  | own hs _ => exact hs
  | call keep halike _ _ _ => exact halike.store

/-- **The method and its dispatcher end together or run for ever**, side by side. -/
theorem Serves.run (h : p.Serves isMarker r names src tgt)
    (huniform : ∀ name f, src.native? name = some f → Native.Uniform ρ f) {t : Machine}
    (hmeets : p.Meets r ρ base outer state below below' m t)
    (hname : ∀ k, m.Steps src k → ∀ name args d, k.control = .enter name args d → name ∉ names)
    (hdepth : ∀ k, t.Steps tgt k → ∀ limit, k.control ≠ .unwind (.fault (.depthLimit limit))) :
    p.Concludes src tgt ρ base outer state below below' m t ∨
      Machine.Endless src tgt (p.Meets r ρ base outer state below below') m t := by
  have hstep : ∀ m' t',
      (p.Meets r ρ base outer state below below' m' t' ∧
        m.Avoids src (Machine.Blocked src p.method below) m' ∧ t.Steps tgt t') →
      (∃ m'' t'', m'.Runs src m'' ∧ t'.Runs tgt t'' ∧
        (p.Meets r ρ base outer state below below' m'' t'' ∧
          m.Avoids src (Machine.Blocked src p.method below) m'' ∧ t.Steps tgt t'')) ∨
      ∃ m'' t'', m'.Steps src m'' ∧ t'.Steps tgt t'' ∧
        (p.Ends src ρ base outer state below below' m'' t'' ∧
          m.Avoids src (Machine.Blocked src p.method below) m'' ∧ t.Steps tgt t'') := by
    rintro m' t' ⟨hmeets', hm', ht'⟩
    rcases h.step huniform hmeets' (hname m' hm'.steps)
      (fun t'' k hk => hdepth t'' (ht'.trans (Machine.Step.steps hk)) k)
      with ⟨m'', t'', hruns, havoids, hruns', hmeets''⟩ | ⟨m'', t'', havoids, hsteps, hends⟩
    · exact .inl ⟨m'', t'', hruns, hruns', hmeets'', hm'.trans havoids, ht'.trans hruns'.steps⟩
    · exact .inr ⟨m'', t'', havoids.steps, hsteps, hends, hm'.trans havoids, ht'.trans hsteps⟩
  rcases Machine.simulate hstep ⟨hmeets, .refl, .refl tgt t⟩ with
    ⟨m', t', -, -, hends, havoids, hsteps⟩ | hendless
  · exact .inl ⟨m', t', havoids, hsteps, hends⟩
  · refine .inr ⟨fun k hk => ?_, fun k hk => ?_⟩
    · obtain ⟨hne, m', t', hm', ht', hmeets', -⟩ := hendless.source k hk
      exact ⟨hne, m', t', hm', ht', hmeets'⟩
    · obtain ⟨hne, m', t', hm', ht', hmeets', -⟩ := hendless.target k hk
      exact ⟨hne, m', t', hm', ht', hmeets'⟩

end Machines

end Dispatcher.Plan

end Resumable
