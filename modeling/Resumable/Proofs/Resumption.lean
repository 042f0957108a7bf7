/-
**Resuming a converted method.**

When the promise of a marker settles, the dispatcher is called in the state of the marker, with the
outcome and with the frame in which the locals were saved.  From there on it does what the method
does after the marker: with the awaited value on its stack, or with the exception raised at the
marker.  The frame holds only those locals that are live and that some path to the marker assigns.
So the locals of the method may have any values, as long as those that no path assigns are null.

Both sides make the same native calls in the same order, until the outer future is settled, which
may set off other code.

* If the method returns, its value is given to the outer future, and the dispatcher returns that.
* If the method throws, the outer future is rejected, and the dispatcher returns it.
* If the method waits at a marker for a future that has not settled, the dispatcher is registered
  again, with a new frame.
* If the method comes to another fault, so does the dispatcher; if it runs for ever, so does the
  dispatcher.

Main results:

* `Conversion.resumptionAgrees_of_convert` — **a resumed dispatcher agrees with the method**.
-/

import Mathlib.Algebra.Group.Nat.Defs
import Resumable.Proofs.EntryRuns

set_option autoImplicit false

namespace Resumable

open Dispatcher Activation List

/-! ### Going on after a marker -/

/-- The method waits at the marker of the point, with the given locals and nothing else on its
stack. -/
def Suspension.waiting (q : Suspension) (n : Method) (ls : Locals) : Activation :=
  { method := n, locals := ls, stack := [], monitors := 0, block := q.location.block
    offset := q.location.offset, depth := 1 }

/-- **The method goes on after the marker**: it gets the awaited value, unless there is none, or the
exception. -/
def Suspension.continuation (q : Suspension) (n : Method) (ls : Locals) (s : Store) :
    Outcome Value → Machine
  | .fulfilled v => ⟨s, .answer v, [.caller (q.waiting n ls) (!q.ty.isVoid)]⟩
  | .rejected e => ⟨s, .unwind (.throw e), [.caller (q.waiting n ls) (!q.ty.isVoid)]⟩

theorem Suspension.step_fulfilled (q : Suspension) (n : Method) (ls : Locals) (s : Store)
    (p : Program) (v : Value) :
    (q.continuation n ls s (.fulfilled v)).Step p
      ⟨s, .exec ((q.waiting n ls).advance (if q.ty.isVoid then [] else [v])), []⟩ := by
  cases hvoid : q.ty.isVoid <;>
    simp only [Machine.Step, continuation, Machine.step?, Machine.answered, hvoid] <;> rfl

theorem Suspension.step_rejected (q : Suspension) (n : Method) (ls : Locals) (s : Store)
    (p : Program) (e : Value) :
    (q.continuation n ls s (.rejected e)).Step p ⟨s, p.raise (q.waiting n ls) e, []⟩ := rfl

/-! ### The state of a point -/

namespace Dispatcher.Plan

variable {p : Plan} {isMarker : String → Bool} {r : IdSet}

theorem lookup_map {α : Type} {k : α → Int64} {b : α → Nat} {xs : List α} {x : α} (hx : x ∈ xs)
    (h : ∀ y ∈ xs, k y = k x → b y = b x) :
    (xs.map fun y => (k y, b y)).lookup (k x) = some (b x) := by
  induction xs with
  | nil => cases hx
  | cons y ys ih =>
    rw [map_cons, lookup_cons]
    by_cases hy : k x = k y
    · rw [beq_iff_eq.2 hy]
      exact congrArg some (h y mem_cons_self hy.symm)
    · rw [beq_eq_false_iff_ne.2 hy]
      refine ih ((mem_cons.1 hx).resolve_left fun heq => hy (heq ▸ rfl)) fun z hz => ?_
      exact h z (mem_cons_of_mem y hz)

theorem ofNat_inj {a b : Nat} (ha : a < 2 ^ 64) (hb : b < 2 ^ 64)
    (h : Int64.ofNat a = Int64.ofNat b) : a = b := by
  have hbits := congrArg (fun n : Int64 => n.toBitVec.toNat) h
  simp only [Int64.toBitVec_ofNat', BitVec.toNat_ofNat] at hbits
  omega

theorem Made.state_ne_zero (h : p.Made isMarker r) (hlt : p.points.length < 2 ^ 64) {q : Suspension}
    (hq : q ∈ p.points) : Int64.ofNat q.index ≠ 0 := by
  obtain ⟨hlow, hhigh⟩ := h.one_le_index hq
  intro heq
  have hindex := ofNat_inj (b := 0) (Nat.lt_of_le_of_lt hhigh hlt) (by omega) heq
  omega

/-- **The state of a point leads to its resumption**, as long as the states are different
numbers. -/
theorem Made.lookup_cases (h : p.Made isMarker r) (hlt : p.points.length < 2 ^ 64) {q : Suspension}
    (hq : q ∈ p.points) :
    p.cases.lookup (Int64.ofNat q.index) = some (p.block (.resume q.index)) := by
  have hbound : ∀ q ∈ p.points, q.index < 2 ^ 64 :=
    fun q hq => Nat.lt_of_le_of_lt (h.one_le_index hq).2 hlt
  rw [cases, lookup_cons, beq_eq_false_iff_ne.2 (h.state_ne_zero hlt hq)]
  refine lookup_map (k := fun q : Suspension => Int64.ofNat q.index)
    (b := fun q => p.block (.resume q.index)) hq fun q' hq' heq => ?_
  rw [ofNat_inj (hbound q' hq') (hbound q hq) heq]

/-! ### Restored locals -/

variable {names : List String} {src tgt : Program} {outer depth : Nat} {q : Suspension} {n : Node}
  {ls : Locals} {c : Activation}

theorem Made.holds_location (h : p.Made isMarker r) (hq : q ∈ p.points)
    (hn : p.graph.node? q.node = some n) :
    q.location = ⟨n.origin, n.start + n.instrs.length⟩ := by
  obtain ⟨n', _, hn', -, hlocation, -⟩ := (h.isAt hq).node
  rw [hn] at hn'
  cases hn'
  exact hlocation

/-- **The locals that a resumed dispatcher has** are those of the method, as far as they are live:
what was not saved is assigned on no path to the marker, and null. -/
theorem Restored.shares (h : p.Made isMarker r) (hq : q ∈ p.points)
    (hn : p.graph.node? q.node = some n)
    (hunset : ∀ l, ¬ p.method.Assigned q.location l → ls.get l = .null) {state : Int64} {x : Value}
    (hc : p.Restored outer state x depth
      (Locals.setAll {} ((q.live.map (·.1)).zip (q.live.map fun l => ls.get l.1))) c)
    (hdepth : 1 ≤ depth) :
    p.Shares .id outer state (p.LiveAt r n n.instrs.length) (q.waiting p.method ls) c where
  method := rfl
  dispatcher := hc.method
  monitors := hc.monitors
  depth := hc.depth ▸ hdepth
  state := hc.state
  outer := hc.outer
  locals l hl hlive := by
    rw [hc.locals l hl, Value.rename_id, zip_map']
    by_cases hsaved : l ∈ q.live.map (·.1)
    · refine Locals.get_setAll_of_mem _ (fun d hd heq => ?_) ?_
      · obtain ⟨e, -, rfl⟩ := mem_map.1 hd
        exact congrArg ls.get heq
      · rw [List.map_map]
        exact hsaved
    · have hnull : ls.get l = .null := by
        refine hunset l fun hassigned => hsaved ?_
        rw [(h.isAt hq).live, Liveness.mem_across]
        refine ⟨(mem_needed_iff h hq hn).2 hlive, ?_⟩
        obtain ⟨hmem, hid⟩ := h.mem_nodes hn
        rw [h.holds_location hq hn] at hassigned
        have hflow := h.flow
        rw [h.graph] at hmem hflow
        have hdefined := Graph.mem_definedOut_of_assigned h.sound hflow hmem
          (k := ⟨n.origin, n.start + n.instrs.length⟩)
          ⟨rfl, Nat.le_add_right _ _, Nat.le_refl _⟩ hassigned
        rw [hid] at hdefined
        rw [liveness, h.graph]
        exact hdefined
      refine Eq.trans ?_ hnull.symm
      refine Locals.get_setAll_of_not_mem _ fun d hd heq => hsaved ?_
      obtain ⟨e, he, rfl⟩ := mem_map.1 hd
      exact heq ▸ mem_map_of_mem he

/-! ### The start of a resumption -/

/-- **A resumed dispatcher restores the locals** and comes to the outcome that it was given. -/
theorem steps_resume (h : p.Made isMarker r) (hlt : p.points.length < 2 ^ 64) (hq : q ∈ p.points)
    (hn : p.graph.node? q.node = some n) {s : Store} {f : Nat} {vs : List Value}
    (hframe : s.frames[f]? = some ⟨outer, vs⟩) (hvs : vs.length = q.live.length) (x : Value)
    (depth : Nat) (prog : Program) (ts : List Task) :
    ∃ c, Machine.Steps prog
        ⟨s, .exec (start p.dispatcher [.int (Int64.ofNat q.index), x, .frame f] depth), ts⟩
        ⟨s, .exec c, ts⟩ ∧
      c.Ahead ([Instr.load p.slots.resume, .outcomeUnwrap] ++ dropVoid q.ty)
        (.goto (p.nodeBlock q.resume)) ∧
      c.block = p.block (.resume q.index) ∧
      p.Restored outer (Int64.ofNat q.index) x depth
        (Locals.setAll {} ((q.live.map (·.1)).zip vs)) c := by
  obtain ⟨d, hhead, hopened⟩ := inside_head (p := p) hframe (Int64.ofNat q.index) x depth prog ts
  have hblock : d.block = p.block (.resume q.index) := by
    rw [hopened.block, h.lookup_cases hlt hq]
    rfl
  have hstands : p.Stands (.resume q.index) d := ⟨hopened.method, hblock, hopened.offset⟩
  have hcode : p.code (.resume q.index) =
      (p.restore (q.live.map (·.1)) ++
        ([Instr.load p.slots.resume, .outcomeUnwrap] ++ dropVoid q.ty),
        .goto (p.nodeBlock q.resume)) := by
    simp only [code, h.point?_index hq, append_assoc]
  have hahead := hstands.ahead (h.mem_roles_resume hq)
  rw [hcode] at hahead
  have hslots : s.slots f = vs := by
    rw [Store.slots, hframe]
    rfl
  obtain ⟨c, hrestore, hend, hblock', hrestored⟩ := hopened.inside_restore
    (fun l hl => (mem_live h hq hn hl).1) hslots (by rw [hvs, length_map]) hahead prog ts
  exact ⟨c, (hhead.trans hrestore).steps, hend, hblock'.trans hblock, hrestored⟩

section Start

variable {s : Store} {f : Nat} (h : p.Serves isMarker r names src tgt)
  (hlt : p.points.length < 2 ^ 64) (hq : q ∈ p.points)
  (hunset : ∀ l, ¬ p.method.Assigned q.location l → ls.get l = .null)
  (hframe : s.frames[f]? = some ⟨outer, q.live.map fun l => ls.get l.1⟩) (hdepth : 1 ≤ depth)
include h hlt hq hunset hframe hdepth

/-- The method at the marker, and the dispatcher after it has restored the locals.  The dispatcher
could as well be at the end of the node of the marker. -/
theorem exists_restored (x : Value) (ts : List Task) :
    ∃ n c, Machine.Steps tgt
        ⟨s, .exec (start p.dispatcher [.int (Int64.ofNat q.index), x, .frame f] depth), ts⟩
        ⟨s, .exec c, ts⟩ ∧
      c.Ahead ([Instr.load p.slots.resume, .outcomeUnwrap] ++ dropVoid q.ty)
        (.goto (p.nodeBlock q.resume)) ∧
      c.block = p.block (.resume q.index) ∧ c.locals.get p.slots.resume = x ∧ c.stack = [] ∧
      q.node = n.id ∧
      p.Abreast r .id outer (Int64.ofNat q.index) n n.instrs.length (q.waiting p.method ls)
        { c with block := p.nodeBlock n.id, offset := n.instrs.length } := by
  have hp := h.made
  obtain ⟨n, _, hn, -⟩ := (hp.isAt hq).node
  obtain ⟨c, hsteps, hahead, hblock, hrestored⟩ := steps_resume hp hlt hq hn hframe
    (length_map ..) x depth tgt ts
  obtain ⟨hmem, hid⟩ := hp.mem_nodes hn
  have hreached := (hp.isAt hq).reached
  have hlocation := hp.holds_location hq hn
  refine ⟨n, c, hsteps, hahead, hblock, hrestored.resume, hrestored.stack, hid.symm, ?_⟩
  exact {
    node := hid ▸ hn
    reached := hid ▸ hreached
    inside := Nat.le_refl _
    source := ⟨congrArg Location.block hlocation, congrArg Location.offset hlocation⟩
    target := ⟨rfl, rfl⟩
    stack := hrestored.stack
    visits := by
      refine ⟨?_, hunset⟩
      have hflow := hp.flow
      rw [hp.graph] at hmem hflow
      have hreaches := Graph.reaches_of_mem hp.sound hflow hmem (hid ▸ hreached)
        (Nat.le_refl n.instrs.length)
      rw [← hlocation] at hreaches
      exact hreaches
    shares := { Restored.shares hp hq hn hunset hrestored hdepth with } }

/-- **A resumed dispatcher meets the method** after the marker, or both are left at once by an
exception. -/
theorem exists_resumed (o : Outcome Value) (base : Store) :
    ∃ m t, (q.continuation p.method ls s o).Step src m ∧
      Machine.Steps tgt
        ⟨s, .exec (start p.dispatcher [.int (Int64.ofNat q.index), .outcome o, .frame f] depth),
          []⟩ t ∧
      (p.Meets r .id base outer (Int64.ofNat q.index) [] [] m t ∨
        p.Ends src .id base outer (Int64.ofNat q.index) [] [] m t) := by
  obtain ⟨n, c, hsteps, hahead, hblock, hresume, hstack, hnode, hab⟩ :=
    exists_restored h hlt hq hunset hframe hdepth (.outcome o) []
  have hs := Store.Renamed.refl base s
  cases o with
  | fulfilled v =>
    have hthrough : c.through s [.load p.slots.resume, .outcomeUnwrap] =
        some (s, c.put 2 c.locals [v]) := by
      simp only [through, exec, advance, hresume, hstack, unwrapped]
      rfl
    obtain ⟨hunwrap, hend⟩ := hahead.inside hthrough tgt []
    have hgoto := inside_dropVoid hend rfl tgt s []
    obtain ⟨n', hab'⟩ := hab.resume h hq hnode (if q.ty.isVoid then [] else [v])
    rw [Value.map_rename_id] at hab'
    exact ⟨_, _, q.step_fulfilled p.method ls s src v, hsteps.trans (hunwrap.trans hgoto).steps,
      .inl (.own hs hab')⟩
  | rejected e =>
    have hload : c.through s [.load p.slots.resume] =
        some (s, c.put 1 c.locals [.outcome (.rejected e)]) := by
      simp only [through, exec, advance, hresume, hstack]
      rfl
    have hahead' : c.Ahead ([Instr.load p.slots.resume] ++ (.outcomeUnwrap :: dropVoid q.ty))
      (.goto (p.nodeBlock q.resume)) := hahead
    obtain ⟨hloaded, hend⟩ := hahead'.inside hload tgt []
    have hunwrap := hend.step_instr tgt s []
    have hexec : (c.put 1 c.locals [.outcome (.rejected e)]).exec s .outcomeUnwrap =
        (s, .throw e) := rfl
    rw [hexec] at hunwrap
    have hraised := hsteps.trans (hloaded.steps.trans (Machine.Step.steps hunwrap))
    have hn : p.graph.node? q.node = some n := hnode ▸ hab.node
    have hhandler := h.made.handler?_resume hq hn tgt e
    rw [← hblock] at hhandler
    have hraise := hab.raise_marker [] [] h hs hq hnode
      (d := c.put 1 c.locals [.outcome (.rejected e)]) { hab.shares with } e
      (by rw [Value.rename_id]; exact hhandler)
    rw [Value.rename_id] at hraise
    rcases hraise with hmeets | ⟨t', hsteps', hends⟩
    · exact ⟨_, _, q.step_rejected p.method ls s src e, hraised, .inl hmeets⟩
    · exact ⟨_, t', q.step_rejected p.method ls s src e, hraised.trans hsteps', .inr hends⟩

end Start

end Dispatcher.Plan

/-! ### The comparison -/

/-- **A machine that settles a promise and returns it**: it comes to the settlement `c`, and it ends
if and only if the settlement ends. -/
structure Machine.Settles (p : Program) (m : Machine) (c : Store × Control) (outer : Nat) :
    Prop where
  applied : ∃ rest, m.Steps p (.of c rest)
  returned : ∀ t x, m.Finishes p t x ↔
    x = .ok (.future outer) ∧ ∃ y, (Machine.of c []).Finishes p t y

/-- The machine has settled the promise on its way to the state `k`. -/
def Machine.HasSettled (p : Program) (m : Machine) (outer : Nat) (k : Machine) : Prop :=
  ∃ (s : Store) (c : Store × Control) (rest : List Task),
    ((∃ v, c = s.fulfill outer v) ∨ ∃ e, c = s.reject outer e) ∧
      m.Steps p (.of c rest) ∧ Machine.Steps p (.of c rest) k

/-- **How a resumed dispatcher `t` ends**, given how the method `m` ends that goes on after the
marker. -/
inductive Conversion.ResumptionEnds (n : Method) (pair : Conversion.Pair) (src tgt : Program)
    (outer : Nat) (m t : Machine) : Store → Except Unwind Value → Prop where
  /-- The method returns: the outer future is fulfilled with the value, and returned. -/
  | returned {s : Store} (v : Value) : (n.ret.isVoid = true → v = .null) →
      t.Settles tgt (s.fulfill outer v) outer →
      ResumptionEnds n pair src tgt outer m t s (.ok v)
  /-- The method throws: the outer future is rejected with the exception, and returned. -/
  | threw {s : Store} (e : Value) : t.Settles tgt (s.reject outer e) outer →
      ResumptionEnds n pair src tgt outer m t s (.error (.throw e))
  /-- The method waits at a marker for a promise that has not settled: the dispatcher is registered
  with that promise, and the outer future is returned. -/
  | waited {k : Machine} {a : Activation} {q : Nat} {point : Suspension} (marker : String) :
      m.Steps src k → Machine.BlockedAt src n [] a q k → point ∈ pair.points →
      a.location = point.location → n.Visits point.location a.locals →
      t.Finishes tgt
        ((k.store.addFrame ⟨outer, point.live.map fun l => a.locals.get l.1⟩).subscribe q
          (.resume pair.dispatcher.name point.index k.store.frames.size k.store.ambient)).1
        (.ok (.future outer)) →
      ResumptionEnds n pair src tgt outer m t k.store (.error (.fault (.wouldBlock marker)))
  /-- The method comes to another fault, and the dispatcher to the fault that answers it. -/
  | faulted {s : Store} (f f' : Fault) : Fault.Answers n.name pair.dispatcher.name f f' →
      (∀ k, m.Steps src k → ¬ Machine.Blocked src n [] k) →
      t.Finishes tgt s (.error (.fault f')) →
      ResumptionEnds n pair src tgt outer m t s (.error (.fault f))

/-- **A resumed dispatcher `t` agrees with the method `m`** that goes on after the marker: it makes
the same native calls in the same order until it settles the outer future, ends as described when
the method ends, and does not end when the method does not. -/
structure Conversion.ResumptionAgrees (n : Method) (pair : Conversion.Pair) (src tgt : Program)
    (outer : Nat) (m t : Machine) : Prop where
  calls : ∀ k, m.Steps src k → ∃ j, t.Steps tgt j ∧ j.store.calls = k.store.calls
  noOthers : ∀ j, t.Steps tgt j →
    t.HasSettled tgt outer j ∨ ∃ k, m.Steps src k ∧ j.store.calls = k.store.calls
  ends : ∀ s x, m.Finishes src s x → Conversion.ResumptionEnds n pair src tgt outer m t s x
  endless : (∀ s x, ¬ m.Finishes src s x) → ∀ s x, ¬ t.Finishes tgt s x

section Comparison

variable {p : Plan} {isMarker : String → Bool} {r : IdSet} {names : List String} {src tgt : Program}
  {outer : Nat} {pair : Conversion.Pair} {m t : Machine}

/-- A dispatcher that waits for a settlement returns the outer future when it ends. -/
theorem Machine.Settles.of_steps {c : Store × Control} {b : Activation}
    (ht : t.Steps tgt (.of c [.caller b false])) (hc : (Machine.of c []).Shielded)
    (hyields : p.Yields outer b) : t.Settles tgt c outer where
  applied := ⟨_, ht⟩
  returned := by
    have hreturns : ∀ {s y}, (Machine.of c []).Finishes tgt s y →
        t.Finishes tgt s (.ok (.future outer)) := by
      intro s y hfinal
      obtain ⟨v, rfl⟩ := hc.finishes_ok hfinal
      exact (Machine.finishes_answer tgt s _).of_steps
        (ht.trans ((hfinal.steps_atop [.caller b false]).trans (hyields.steps tgt s v [])))
    intro s x
    constructor
    · intro hfinal
      have hatop : ((Machine.of c []).atop [.caller b false]).Finishes tgt s x := hfinal.after ht
      obtain ⟨s', y, hfinal'⟩ := hatop.of_atop
      obtain ⟨rfl, rfl⟩ := hfinal.unique (hreturns hfinal')
      exact ⟨rfl, y, hfinal'⟩
    · rintro ⟨rfl, y, hfinal⟩
      exact hreturns hfinal

/-- **The end of both runs**, from the end of the method and of the dispatcher.  After the state `k`
of the dispatcher there are no native calls but those of the settlement. -/
theorem exists_resumptionEnds {m' t' : Machine} {base : Store} {state : Int64}
    (hname : pair.dispatcher.name = p.name) (hpoints : pair.points = p.points) (hstate : state ≠ 0)
    (hm : m.Avoids src (Machine.Blocked src p.method []) m') (ht : t.Steps tgt t')
    (hends : p.Ends src .id base outer state [] [] m' t') :
    ∃ s x k, m.Finishes src s x ∧ t.Steps tgt k ∧ k.store.calls = s.calls ∧
      (∀ j, k.Steps tgt j → t.HasSettled tgt outer j ∨ j = k) ∧
      Conversion.ResumptionEnds p.method pair src tgt outer m t s x := by
  cases hends with
  | @returns s t' v b hs hvoid hyields =>
    obtain rfl := hs.eq_of_id
    rw [Value.rename_id] at ht
    refine ⟨t', _, _, (Machine.finishes_answer src t' v).of_steps hm.steps, ht,
      Store.calls_fulfill .., fun j hj => .inl ⟨t', _, _, .inl ⟨v, rfl⟩, ht, hj⟩,
      .returned v hvoid ?_⟩
    exact .of_steps ht (Machine.shielded_fulfill t' outer v) hyields
  | throws e hs hzero => exact absurd hzero hstate
  | @rejects s t' e b hs _ hyields =>
    obtain rfl := hs.eq_of_id
    rw [Value.rename_id] at ht
    refine ⟨t', _, _, (Machine.finishes_unwind src t' (.throw e)).of_steps hm.steps, ht,
      Store.calls_settle .., fun j hj => .inl ⟨t', _, _, .inr ⟨e, rfl⟩, ht, hj⟩, .threw e ?_⟩
    exact .of_steps ht (Machine.shielded_reject t' outer e) hyields
  | @parks _ s q c a b hs hblocked hq hlocation hvisits hyields =>
    obtain rfl := hs.eq_of_id
    simp only [Value.rename_id, Renaming.id_promise] at ht
    obtain ⟨marker, hsource⟩ := hblocked.finishes
    rw [register_of_pending (t := m'.store.addFrame _) hblocked.pending] at ht
    have hreturn := ht.trans (hyields.steps tgt _ _ [])
    refine ⟨m'.store, _, _, hsource.of_steps hm.steps, hreturn, Store.calls_subscribe ..,
      fun j hj => .inr (hj.eq_of_finished rfl), ?_⟩
    rw [← hname] at hreturn
    exact .waited marker hm.steps hblocked (hpoints ▸ hq) hlocation hvisits
      ((Machine.finishes_answer tgt _ _).of_steps hreturn)
  | @faults s t' f f' hanswers hs =>
    obtain rfl := hs.eq_of_id
    have htarget := (Machine.finishes_unwind tgt t' _).of_steps ht
    exact ⟨t', _, _, (Machine.finishes_unwind src t' (.fault f)).of_steps hm.steps, ht, rfl,
      fun j hj => .inr (hj.eq_of_finished rfl),
      .faulted f f' (hname ▸ hanswers) hm.not_blocked htarget⟩

theorem Conversion.ResumptionAgrees.of_finishes {n : Method} (hstore : t.store = m.store)
    {s : Store}
    {x : Except Unwind Value} {k : Machine} (hsource : m.Finishes src s x) (hk : t.Steps tgt k)
    (hcalls : k.store.calls = s.calls)
    (hafter : ∀ j, k.Steps tgt j → t.HasSettled tgt outer j ∨ j = k)
    (h : Conversion.ResumptionEnds n pair src tgt outer m t s x) :
    Conversion.ResumptionAgrees n pair src tgt outer m t := by
  obtain ⟨m', hm', hlast, hs, -⟩ := Machine.finishes_iff.1 hsource
  obtain ⟨hforward, hback⟩ := Machine.calls_upTo (κ := NativeCall.rename .id) hm' hlast hk
    (by rw [NativeCall.map_rename_id, hstore]) (by rw [NativeCall.map_rename_id, hs, hcalls])
  simp only [NativeCall.map_rename_id] at hforward hback
  refine ⟨hforward, fun j hj => ?_, fun s' x' h' => ?_, fun h' => absurd hsource (h' s x)⟩
  · rcases hback j hj with hkj | hk'
    · refine (hafter j hkj).imp_right fun hjk => ⟨m', hm', ?_⟩
      rw [hjk, hcalls, hs]
    · exact .inr hk'
  · obtain ⟨rfl, rfl⟩ := hsource.unique h'
    exact h

end Comparison

/-- **A resumed dispatcher agrees with the method.**  The method `n`, without cleanup regions, goes
on after the marker of the point `q` with the locals `ls`, of which those that no path to the marker
assigns are null.  The dispatcher is called in the state of the point with a frame that holds the
saved ones among them.  No method of the given names is called while the method runs, and the calls
do not get too deep.  The states are different numbers, since no method has `2 ^ 64` points. -/
theorem Conversion.resumptionAgrees_of_convert {m n : Method} {cls : String} {o : Options}
    {pair : Conversion.Pair} {names : List String} {src tgt : Program} {s : Store} {q : Suspension}
    {ls : Locals} {f outer : Nat} {x : Outcome Value}
    (hconvert : m.convert cls o = .ok (.converted pair)) (hn : m.withoutCleanup = .ok n)
    (hplain : m.Plain) (hreplaces : pair.Replaces o names src tgt)
    (hstates : pair.points.length < 2 ^ 64) (hq : q ∈ pair.points)
    (hunset : ∀ l, ¬ n.Assigned q.location l → ls.get l = .null)
    (hframe : s.frames[f]? = some ⟨outer, q.live.map fun l => ls.get l.1⟩)
    (hnames : ∀ k, (q.continuation n ls s x).Steps src k →
      ∀ f xs depth, k.control = .enter f xs depth → f ∉ names)
    (hdepth : ∀ k, (Machine.invoke s pair.dispatcher.name
        [.int (Int64.ofNat q.index), .outcome x, .frame f]).Steps tgt k →
      ∀ limit, k.control ≠ .unwind (.fault (.depthLimit limit))) :
    Conversion.ResumptionAgrees n pair src tgt outer (q.continuation n ls s x)
      (.invoke s pair.dispatcher.name [.int (Int64.ofNat q.index), .outcome x, .frame f]) := by
  obtain ⟨hcheck, hgrows, p, r, hmade, rfl, -, hdispatcher, hpoints⟩ := m.exists_plan hconvert hn
  rw [hpoints] at hstates hq
  have hserves := hreplaces.serves hcheck hplain hmade hgrows
  have hresolves := hreplaces.dispatcher
  rw [hdispatcher] at hresolves hdepth ⊢
  -- The dispatcher starts.
  have hcall := hresolves.step s [.int (Int64.ofNat q.index), .outcome x, .frame f] 0 []
  have hthree : [Value.int (Int64.ofNat q.index), .outcome x, .frame f].length =
      p.dispatcher.params.length := rfl
  have hpositive : 0 < tgt.maxDepth :=
    Program.lt_maxDepth p.dispatcher.name hthree (hdepth _ (Machine.Step.steps hcall))
  rw [Program.enterMethod_eq_exec _ hthree hpositive] at hcall
  obtain ⟨m', t, hstart, hresumed, hboth⟩ :=
    Plan.exists_resumed hserves hstates hq hunset hframe (Nat.le_refl 1) x s
  have hreaches := (Machine.Step.steps hcall).trans hresumed
  have hclear : ¬ Machine.Blocked src p.method [] (q.continuation p.method ls s x) := by
    cases x <;> exact Machine.not_blocked_of_control fun _ _ _ heq => by cases heq
  have hstore : (q.continuation p.method ls s x).store = s := by cases x <;> rfl
  have hzero : Int64.ofNat q.index ≠ 0 := hmade.state_ne_zero hstates hq
  -- They end together, now or later, or go on for ever.
  have hrun : p.Concludes src tgt .id s outer (Int64.ofNat q.index) [] [] m' t ∨
      Machine.Endless src tgt (p.Meets r .id s outer (Int64.ofNat q.index) [] []) m' t := by
    rcases hboth with hmeets | hends
    · exact hserves.run (fun _ g _ => g.uniform_id) hmeets
        (fun k hk => hnames k ((Machine.Step.steps hstart).trans hk))
        (fun k hk => hdepth k (hreaches.trans hk))
    · exact .inl ⟨m', t, .refl, .refl tgt t, hends⟩
  rcases hrun with ⟨m₁, t₁, hm₁, ht₁, hends⟩ | hendless
  · obtain ⟨s', y, k, hfinal, hk, hcalls, hafter, hresumptionEnds⟩ := exists_resumptionEnds
      (congrArg (·.name) hdispatcher) hpoints hzero ((hstart.avoids hclear).trans hm₁)
      (hreaches.trans ht₁) hends
    exact .of_finishes hstore.symm hfinal hk hcalls hafter hresumptionEnds
  · have hendless' := hendless.of_steps (Machine.Step.steps hstart) hreaches
    have hsame := Machine.SameCalls.of_endless hendless' (fun _ _ h => h.renamed.calls)
      (by rw [NativeCall.map_rename_id, hstore])
    refine ⟨fun k hk => ?_, fun j hj => .inr ?_, fun s' y h =>
      absurd h (hendless'.not_finishes_source s' y), fun _ => hendless'.not_finishes_target⟩
    · obtain ⟨j, hj, hcalls⟩ := hsame.source k hk
      exact ⟨j, hj, hcalls.trans (NativeCall.map_rename_id _)⟩
    · obtain ⟨k, hk, hcalls⟩ := hsame.target j hj
      exact ⟨k, hk, hcalls.trans (NativeCall.map_rename_id _)⟩

namespace awaitAndAdd

/-- The only point of the method. -/
def point : Suspension := pair.points.headD default

/-- A store with the outer future of a call that waits, and its frame. -/
def parked : Store := { promises := #[.pending []], frames := #[⟨0, [.int 7]⟩] }

theorem mem_points : point ∈ pair.points := by decide +kernel

/-- The locals of the method when it was called with a future and a number. -/
def locals : Locals := Locals.ofArgs awaitAndAdd.params [.future 0, .int 7]

theorem visits_point : awaitAndAdd.Visits point.location locals := by
  have hflow : awaitAndAdd.Flow ⟨0, 0⟩ ⟨0, 1⟩ :=
    .next (b := ⟨0, [.load 0, .invoke ⟨"Await.await", 1, .int⟩, .load 1, .binary .add], .ret⟩)
      (by decide) (by decide)
  have hlocation : point.location = ⟨0, 1⟩ := by decide +kernel
  rw [hlocation]
  exact (visits_start awaitAndAdd [.future 0, .int 7]).flow hflow

end awaitAndAdd

open awaitAndAdd in
/-- The awaited future failed: the handler of the method takes the exception, and the outer future
is fulfilled. -/
theorem resumptionAgrees_awaitAndAdd :
    point ∈ pair.points ∧
      Conversion.ResumptionAgrees awaitAndAdd pair source target 0
        (point.continuation awaitAndAdd locals parked (.rejected (.str "late")))
        (.invoke parked "m$dispatch" [.int 1, .outcome (.rejected (.str "late")), .frame 0]) := by
  have hname : pair.dispatcher.name = "m$dispatch" := by decide +kernel
  have hindex : point.index = 1 := by decide +kernel
  have hlive : point.live.map (·.1) = [1] := by decide +kernel
  have hframe : parked.frames[0]? = some ⟨0, point.live.map fun l => locals.get l.1⟩ := by
    have hslots := List.map_map (f := Prod.fst) (g := locals.get) (l := point.live)
    rw [hlive] at hslots
    exact congrArg (fun vs => some (Frame.mk 0 vs)) hslots
  have hagrees := Conversion.resumptionAgrees_of_convert (x := .rejected (.str "late")) convert_eq
    rfl (by decide) replaces (by decide +kernel) mem_points visits_point.unset hframe ?_ ?_
  · rw [hname, hindex] at hagrees
    exact ⟨mem_points, hagrees⟩
  · intro k hk f xs depth hc
    exact Machine.not_mem_of_holdsAlong 20 (by decide +kernel) hk hc
  · intro k hk
    exact Machine.ne_depthLimit_of_holdsAlong 100 (by decide +kernel) hk

end Resumable
