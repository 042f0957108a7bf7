/-
**Locals that are needed.**

An activation looks at a local only where an instruction reads it.  So a set of locals for each
position of a method says enough about a run of it if the set has what the instruction there reads
and everything that is needed where control goes on, unless it is stored on the way.  Two machines
that differ only in locals of one activation that are not needed then go on in step: they have the
same stores all the time, so they make the same native calls in the same order, and they end in the
same way.

Main results:

* `Method.Demand.Agree.execute` — one step of an activation;
* `Method.Demand.InStep.step`, `Method.Demand.InStep.steps` — **machines stay in step**;
* `Method.Demand.InStep.looksLike` — machines in step look the same.
-/

import Resumable.Proofs.InstructionFacts
import Resumable.Proofs.Paths

set_option autoImplicit false

namespace Resumable

/-! ### Runs that look the same -/

/-- **Two machines that look the same** to everyone else: each gets to every store that the other
gets to, so with the same native calls in the same order, and both end with the same result. -/
structure Machine.LooksLike (p : Program) (m t : Machine) : Prop where
  source : ∀ k, m.Steps p k → ∃ j, t.Steps p j ∧ j.store = k.store
  target : ∀ j, t.Steps p j → ∃ k, m.Steps p k ∧ j.store = k.store
  finishes : ∀ s x, m.Finishes p s x ↔ t.Finishes p s x

/-! ### Locals that are needed -/

/-- **What a method needs of its locals** at the positions in some part of it that control does not
leave: what an instruction reads, and what is needed where control goes on and not stored on the
way. -/
structure Method.Demand (n : Method) where
  within : Location → Prop
  needs : Location → Nat → Prop
  bound : ∀ {k : Location} {b : Block}, within k → n.block? k.block = some b →
    k.offset ≤ b.instrs.length
  stays : ∀ {k q : Location}, within k → n.Flow k q → within q
  reads : ∀ {k : Location} {i : Instr} {l : Nat}, within k → n.instrAt? k = some i →
    i.uses? = some l → needs k l
  keeps : ∀ {k q : Location} {l : Nat}, within k → n.Flow k q → needs q l →
    (∀ i, n.instrAt? k = some i → i.defines? ≠ some l) → needs k l

namespace Method.Demand

variable {n : Method} {D : n.Demand} {p : Program} {s : Store} {a : Activation} {ls : Locals}
  {ts : List Task} {i : Instr} {q : Location} {m t m' : Machine}

/-- An activation of the method, and other locals in which those that are needed have the same
values. -/
structure Agree (D : n.Demand) (a : Activation) (ls : Locals) : Prop where
  method : a.method = n
  within : D.within a.location
  locals : ∀ l, D.needs a.location l → ls.get l = a.locals.get l

/-- The activation waits at an instruction that may throw. -/
structure Waits (D : n.Demand) (a : Activation) (ls : Locals) : Prop extends D.Agree a ls where
  mayThrow : ∃ i, n.instrAt? a.location = some i ∧ i.mayThrow = true

/-- **Machines in step**: an activation of one runs or waits with other locals in the other, in
which those that are needed have the same values. -/
inductive InStep (D : n.Demand) : Machine → Machine → Prop where
  | same (m : Machine) : D.InStep m m
  | runs {s : Store} {a : Activation} {ls : Locals} {ts : List Task} : D.Agree a ls →
      D.InStep ⟨s, .exec a, ts⟩ ⟨s, .exec { a with locals := ls }, ts⟩
  | waits {m : Machine} {a : Activation} {ls : Locals} {keep : Bool} {ts : List Task} :
      D.Waits a ls → D.InStep (m.atop (.caller a keep :: ts))
        (m.atop (.caller { a with locals := ls } keep :: ts))

theorem Waits.withStack (h : D.Waits a ls) (stack : List Value) :
    D.Waits { a with stack := stack } ls :=
  ⟨⟨h.method, h.within, h.locals⟩, h.mayThrow⟩

theorem Agree.symm (h : D.Agree a ls) : D.Agree { a with locals := ls } a.locals :=
  ⟨h.method, h.within, fun l hl => (h.locals l hl).symm⟩

theorem InStep.symm (h : D.InStep m t) : D.InStep t m := by
  cases h with
  | same m => exact .same m
  | runs h => exact .runs h.symm
  | waits h => exact .waits ⟨h.symm, h.mayThrow⟩

theorem InStep.store (h : D.InStep m t) : t.store = m.store := by
  cases h <;> rfl

theorem InStep.result (h : D.InStep m t) : t.result = m.result := by
  cases h <;> rfl

/-! ### One step -/

theorem Agree.flow (h : D.Agree a ls) (hflow : n.Flow a.location q)
    (hi : ∀ i, n.instrAt? a.location = some i → i.defines? = none) (stack : List Value) :
    D.Agree { a with stack := stack, block := q.block, offset := q.offset } ls := by
  refine ⟨h.method, D.stays h.within hflow, fun l hl => h.locals l ?_⟩
  refine D.keeps h.within hflow hl fun i hat => ?_
  rw [hi i hat]
  exact nofun

/-- An instruction completes: what it writes is the same in both. -/
theorem Agree.write (h : D.Agree a ls) (hi : n.instrAt? a.location = some i) (v : Value)
    (stack : List Value) (monitors : Nat) :
    D.Agree { a with
      locals := a.locals.write i v, stack := stack, monitors := monitors
      offset := a.offset + 1 } (ls.write i v) := by
  obtain ⟨block, hblock, hget⟩ := Option.bind_eq_some_iff.1 hi
  have hflow : n.Flow a.location ⟨a.block, a.offset + 1⟩ :=
    .next hblock (List.getElem?_eq_some_iff.1 hget).1
  refine ⟨h.method, D.stays h.within hflow, fun l hl => ?_⟩
  rw [Locals.get_write, Locals.get_write]
  split
  · rfl
  · rename_i hne
    refine h.locals l (D.keeps h.within hflow hl fun j hj => ?_)
    rw [hi] at hj
    cases hj
    exact hne

/-- An exception that may be raised where the activation is. -/
theorem Agree.raise (h : D.Agree a ls)
    (hi : ∀ i, n.instrAt? a.location = some i → i.defines? = none)
    (hflow : ∀ handler ∈ n.handlers a.block, n.Flow a.location ⟨handler, 0⟩) (p : Program)
    (s : Store) (e : Value) (ts : List Task) :
    D.InStep ⟨s, p.raise a e, ts⟩ ⟨s, p.raise { a with locals := ls } e, ts⟩ := by
  simp only [Program.raise]
  cases hhandler : p.handler? a.method a.block e with
  | none => exact .same _
  | some handler =>
    have hmem : handler ∈ n.handlers a.block := h.method ▸ Program.mem_handlers_of_handler? hhandler
    exact .runs (h.flow (hflow handler hmem) hi [e])

theorem Waits.defines? (h : D.Waits a ls) (hi : n.instrAt? a.location = some i) :
    i.defines? = none := by
  obtain ⟨j, hj, hthrow⟩ := h.mayThrow
  cases hj.symm.trans hi
  exact Instr.defines?_of_mayThrow hthrow

theorem Waits.raise (h : D.Waits a ls) (p : Program) (s : Store) (e : Value) (ts : List Task) :
    D.InStep ⟨s, p.raise a e, ts⟩ ⟨s, p.raise { a with locals := ls } e, ts⟩ := by
  obtain ⟨i, hi, hthrow⟩ := h.mayThrow
  obtain ⟨block, hblock, hget⟩ := Option.bind_eq_some_iff.1 hi
  exact h.toAgree.raise (fun _ => h.defines?) (fun _ => .throw hblock hget hthrow) p s e ts

/-- A result at an instruction that may throw. -/
theorem Waits.advance (h : D.Waits a ls) (s : Store) (stack : List Value) (ts : List Task) :
    D.InStep ⟨s, .exec (a.advance stack), ts⟩
      ⟨s, .exec (Activation.advance { a with locals := ls } stack), ts⟩ := by
  obtain ⟨i, hi, -⟩ := h.mayThrow
  obtain ⟨block, hblock, hget⟩ := Option.bind_eq_some_iff.1 hi
  have hflow : n.Flow a.location ⟨a.block, a.offset + 1⟩ :=
    .next hblock (List.getElem?_eq_some_iff.1 hget).1
  exact .runs (h.toAgree.flow hflow (fun _ => h.defines?) stack)

theorem Agree.waits (h : D.Agree a ls) (hi : n.instrAt? a.location = some i) {t : Store}
    {action : Action} {e : Errand} (hexec : a.exec s i = (t, action)) (he : action.errand? = some e)
    (stack : List Value) : D.Waits { a with stack := stack } ls :=
  Waits.withStack ⟨h, i, hi, (Activation.sends_of_exec hexec he).2.mayThrow⟩ stack

theorem Agree.act (h : D.Agree a ls) (hi : n.instrAt? a.location = some i) (p : Program) (s : Store)
    (ts : List Task) :
    D.InStep (Machine.act p a ts (a.exec s i))
      (Machine.act p { a with locals := ls } ts (Activation.exec { a with locals := ls } s i)) := by
  obtain ⟨t, x, y, hx, hy, htracks⟩ := Activation.tracks_exec a { a with locals := ls }
    (Instr.mapLocals_id i).symm s rfl rfl rfl fun l hl => h.locals l (D.reads h.within hi hl)
  rw [hx, hy]
  cases htracks with
  | next v stack monitors => exact .runs (h.write hi v stack monitors)
  | throw e hthrow => exact Waits.raise ⟨h, i, hi, hthrow⟩ p t e ts
  | fault k _ => exact .same _
  | errand he he' =>
    rw [Machine.act_of_errand he, Machine.act_of_errand he']
    exact .waits (h.waits hi hx he _)

/-- **The end of a block**: a terminator looks at no local. -/
theorem Agree.leave (h : D.Agree a ls) {block : Block} (hblock : n.block? a.block = some block)
    (hget : block.instrs[a.offset]? = none) (p : Program) (s : Store) (ts : List Task) :
    D.InStep (Machine.execute p s a ts) (Machine.execute p s { a with locals := ls } ts) := by
  have hend : a.location = ⟨a.block, block.instrs.length⟩ := by
    have hle := D.bound h.within hblock
    have hge := List.getElem?_eq_none_iff.1 hget
    exact congrArg (Location.mk a.block) (Nat.le_antisymm hle hge)
  have hnone : ∀ i, n.instrAt? a.location = some i → i.defines? = none := by
    intro i hi
    obtain ⟨block', hblock', hi⟩ := Option.bind_eq_some_iff.1 hi
    cases hblock.symm.trans hblock'
    cases hget.symm.trans hi
  have hleave : Activation.leave { a with locals := ls } block.terminator =
      a.leave block.terminator := by
    cases block.terminator <;> rfl
  have hcurrent : a.method.block? a.block = some block := h.method ▸ hblock
  simp only [Machine.execute, hcurrent, hget, hleave]
  cases hdeparture : a.leave block.terminator with
  | ret v => exact .same _
  | fault f => exact .same _
  | jump target stack =>
    have hmem := ((block.terminator.accurate a).jump hdeparture).1
    have hflow : n.Flow a.location ⟨target, 0⟩ := hend ▸ .jump hblock hmem
    exact .runs (h.flow hflow hnone stack)
  | throw e =>
    have hraise := ((block.terminator.accurate a).throw hdeparture).1
    refine h.raise hnone (fun handler hmem => ?_) p s e ts
    exact hend ▸ .raise hblock hraise hmem

theorem Agree.execute (h : D.Agree a ls) (p : Program) (s : Store) (ts : List Task) :
    D.InStep (Machine.execute p s a ts) (Machine.execute p s { a with locals := ls } ts) := by
  cases hblock : a.method.block? a.block with
  | none =>
    simp only [Machine.execute, hblock]
    exact .same _
  | some block =>
    have hown : n.block? a.block = some block := h.method ▸ hblock
    cases hget : block.instrs[a.offset]? with
    | none => exact h.leave hown hget p s ts
    | some i =>
      simp only [Machine.execute, hblock, hget]
      exact h.act (Option.bind_eq_some_iff.2 ⟨block, hown, hget⟩) p s ts

theorem Waits.step (h : D.Waits a ls) {keep : Bool} (hend : m.step? p = none)
    (hm : (m.atop (.caller a keep :: ts)).Step p m') :
    ∃ t', (m.atop (.caller { a with locals := ls } keep :: ts)).Step p t' ∧ D.InStep m' t' := by
  obtain ⟨s, c, tasks⟩ := m
  obtain ⟨htasks, ⟨v, hc⟩ | ⟨u, hc⟩⟩ := Machine.control_of_finished hend <;>
    simp only at htasks hc <;> subst htasks hc <;> cases hm
  · exact ⟨_, rfl, h.advance s _ ts⟩
  · refine ⟨_, rfl, ?_⟩
    cases u with
    | throw e => exact h.raise p s e ts
    | fault f => exact .same _

theorem InStep.step (h : D.InStep m t) (hm : m.Step p m') : ∃ t', t.Step p t' ∧ D.InStep m' t' := by
  cases h with
  | same m => exact ⟨m', hm, .same m'⟩
  | @runs s a ls ts h =>
    cases hm
    exact ⟨_, rfl, h.execute p s ts⟩
  | @waits m a ls keep ts h =>
    cases hend : m.step? p with
    | none => exact h.step hend hm
    | some k =>
      have hleft := Machine.step?_atop (.caller a keep :: ts) hend
      rw [Machine.Step, hleft] at hm
      cases hm
      exact ⟨_, Machine.step?_atop _ hend, .waits h⟩

theorem InStep.steps (h : D.InStep m t) (hm : m.Steps p m') :
    ∃ t', t.Steps p t' ∧ D.InStep m' t' := by
  induction hm with
  | refl => exact ⟨t, .refl p t, h⟩
  | tail _ hstep ih =>
    obtain ⟨k, hk, hin⟩ := ih
    obtain ⟨t', ht', hin'⟩ := hin.step hstep
    exact ⟨t', hk.trans ht'.steps, hin'⟩

theorem InStep.finishes (h : D.InStep m t) {x : Except Unwind Value} (hm : m.Finishes p s x) :
    t.Finishes p s x := by
  obtain ⟨k, hk, hlast, rfl, rfl⟩ := Machine.finishes_iff.1 hm
  obtain ⟨j, hj, hin⟩ := h.steps hk
  refine Machine.finishes_iff.2 ⟨j, hj, ?_, hin.store, hin.result⟩
  cases hnext : j.step? p with
  | none => rfl
  | some j' =>
    obtain ⟨k', hk', -⟩ := hin.symm.step hnext
    cases hlast.symm.trans hk'

/-- **Machines in step look the same.** -/
theorem InStep.looksLike (h : D.InStep m t) (p : Program) : m.LooksLike p t where
  source k hk := by
    obtain ⟨j, hj, hin⟩ := h.steps hk
    exact ⟨j, hj, hin.store⟩
  target j hj := by
    obtain ⟨k, hk, hin⟩ := h.symm.steps hj
    exact ⟨k, hk, hin.store.symm⟩
  finishes s x := ⟨h.finishes, h.symm.finishes⟩

end Method.Demand

end Resumable
