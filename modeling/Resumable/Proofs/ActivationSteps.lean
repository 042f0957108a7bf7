/-
**The steps of an activation.**

An activation goes its own way through its method: an instruction completes, an exception is caught,
control jumps at the end of a block.  What other code does in between decides only which results and
which exceptions there are.  So a property of activations that holds at the start of a method and
is kept by each of these steps holds of every activation that runs in a machine.

Main results:

* `Machine.Keeps.step`, `Machine.Keeps.steps` — **a machine keeps what activations keep**.
-/

import Resumable.Proofs.InstructionFacts

set_option autoImplicit false

namespace Resumable

open Relation List

/-! ### One step -/

namespace Activation

/-- The current instruction. -/
def At (a : Activation) (i : Instr) : Prop :=
  ∃ block, a.method.block? a.block = some block ∧ block.instrs[a.offset]? = some i

/-- The instructions of the block are done, and its terminator is next. -/
def Ends (a : Activation) (t : Terminator) : Prop :=
  ∃ block, a.method.block? a.block = some block ∧ block.instrs[a.offset]? = none ∧
    block.terminator = t

/-- **One step of an activation**, whatever other code does for it. -/
inductive Walks (p : Program) (a : Activation) : Activation → Prop where
  | next {i : Instr} {b : Activation} : a.At i → i.pops ≤ a.stack.length → a.Completes i b →
      Walks p a b
  | caught {i : Instr} {e : Value} {h : Nat} : a.At i → i.pops ≤ a.stack.length →
      i.mayThrow = true → p.handler? a.method a.block e = some h → Walks p a (a.handle h e)
  | jump {t : Terminator} {b : Nat} {rest : List Value} : a.Ends t → a.leave t = .jump b rest →
      Walks p a (a.jump b rest)
  | raised {t : Terminator} {e : Value} {h : Nat} : a.Ends t → a.leave t = .throw e →
      p.handler? a.method a.block e = some h → Walks p a (a.handle h e)

/-- A step of an activation stays in its method. -/
theorem Walks.method {p : Program} {a b : Activation} (h : a.Walks p b) : b.method = a.method := by
  cases h with
  | next _ _ hb => exact hb.method
  | caught _ _ _ _ => rfl
  | jump _ _ => rfl
  | raised _ _ _ => rfl

/-- The activation waits at an instruction for an errand. -/
structure Waits (a b : Activation) (keep : Bool) (i : Instr) : Prop where
  current : a.At i
  enough : i.pops ≤ a.stack.length
  sends : ∃ e, a.Sends i e ∧ e.waiting = b ∧ e.keep = keep

end Activation

/-- Control as an errand begins: a function is called, callbacks run, or there is an answer. -/
def Control.isErrand : Control → Bool
  | .enter _ _ _ | .deliver _ _ | .answer _ => true
  | .exec _ | .unwind _ => false

namespace Machine

/-- **A property of activations** holds of the one that runs, and of those that wait before they
took their operands. -/
structure Keeps (P : Activation → Prop) (m : Machine) : Prop where
  running : ∀ a, m.control = .exec a → P a
  waiting : ∀ b keep, .caller b keep ∈ m.tasks → ∃ a i, P a ∧ a.Waits b keep i

/-- A property that holds at the start of every method and is kept by the steps of activations. -/
structure Kept (p : Program) (P : Activation → Prop) : Prop where
  start : ∀ (m : Method) (args : List Value) (depth : Nat), P (Activation.start m args depth)
  walks : ∀ {a b : Activation}, P a → a.Walks p b → P b

variable {p : Program} {P : Activation → Prop} {m m' : Machine} {s : Store} {a : Activation}
  {ts : List Task}

/-- Control is not with an activation. -/
def Idle (c : Control) : Prop := ∀ a, c ≠ .exec a

/-- The property holds of the activations that wait among the tasks. -/
def KeepsBelow (P : Activation → Prop) (ts : List Task) : Prop :=
  ∀ b keep, .caller b keep ∈ ts → ∃ a i, P a ∧ a.Waits b keep i

theorem KeepsBelow.tail {t : Task} (h : KeepsBelow P (t :: ts)) : KeepsBelow P ts :=
  fun b keep hmem => h b keep (mem_cons_of_mem t hmem)

/-- A task that no activation waits with makes no difference. -/
theorem KeepsBelow.cons (h : KeepsBelow P ts) {t : Task} (ht : ∀ b keep, t ≠ .caller b keep) :
    KeepsBelow P (t :: ts) := by
  intro b keep hmem
  rcases mem_cons.1 hmem with hmem | hmem
  · exact absurd hmem.symm (ht b keep)
  · exact h b keep hmem

/-- Where no activation runs, only those that wait matter. -/
theorem Keeps.of_idle {c : Store × Control} (hc : Idle c.2) (hts : KeepsBelow P ts) :
    (of c ts).Keeps P :=
  ⟨fun a h => absurd h (hc a), hts⟩

theorem Idle.of_isErrand {c : Control} (h : c.isErrand = true) : Idle c := by
  rintro a rfl
  cases h

theorem Keeps.of_errand (hc : m.control.isErrand = true) (hts : KeepsBelow P m.tasks) :
    m.Keeps P :=
  ⟨fun a h => absurd h (Idle.of_isErrand hc a), hts⟩

theorem Keeps.of_unwind {u : Unwind} (hc : m.control = .unwind u) (hts : KeepsBelow P m.tasks) :
    m.Keeps P := by
  refine ⟨fun a h => ?_, hts⟩
  cases hc.symm.trans h

theorem isErrand_settle (s : Store) (q : Nat) (o : Outcome Value) :
    (s.settle q o).2.isErrand = true := by
  unfold Store.settle
  split <;> rfl

theorem isErrand_register (s : Store) (q : Nat) (c : Callback) :
    (s.register q c).2.isErrand = true := by
  unfold Store.register
  split <;> rfl

/-- Fulfilling a promise settles it, or registers the adoption of another. -/
theorem isErrand_fulfill (s : Store) (q : Nat) (v : Value) :
    (s.fulfill q v).2.isErrand = true := by
  unfold Store.fulfill
  split
  · split
    · rfl
    · exact isErrand_register s _ _
  · exact isErrand_settle s q _

theorem idle_perform (s : Store) (r : Request) : Idle (s.perform r).2 := by
  cases r <;> intro a h <;> cases h

/-- The errand of an instruction begins with a call, with callbacks or with an answer. -/
theorem isErrand_work {action : Action} {e : Errand} (h : action.errand? = some e) (s : Store) :
    (e.work s).tasks = [] ∧ (e.work s).control.isErrand = true := by
  cases action with
  | call b name args keep =>
    cases h
    exact ⟨rfl, rfl⟩
  | fulfill b q v =>
    cases h
    exact ⟨rfl, isErrand_fulfill s q v⟩
  | reject b q x =>
    cases h
    exact ⟨rfl, isErrand_settle s q _⟩
  | subscribe b q c =>
    cases h
    exact ⟨rfl, isErrand_register s q c⟩
  | next b => cases h
  | throw x => cases h
  | fault f => cases h

/-- A raised exception keeps a property that holds in the handlers it gets to. -/
theorem keeps_raise (hts : KeepsBelow P ts) {e : Value}
    (hcaught : ∀ h, p.handler? a.method a.block e = some h → P (a.handle h e)) :
    Keeps P ⟨s, p.raise a e, ts⟩ := by
  unfold Program.raise
  split
  · rename_i h hh
    refine ⟨fun b hb => ?_, hts⟩
    cases hb
    exact hcaught h hh
  · exact .of_unwind rfl hts

/-- **The step of an activation** keeps the property, also of the activation that waits after it. -/
theorem keeps_execute (hP : Kept p P) (ha : P a) (hts : KeepsBelow P ts) :
    (execute p s a ts).Keeps P := by
  unfold execute
  split
  · exact .of_unwind rfl hts
  · rename_i block hblock
    split
    · rename_i i hi
      have hat : a.At i := ⟨block, hblock, hi⟩
      obtain ⟨t, action, hexec⟩ : ∃ t action, a.exec s i = (t, action) := ⟨_, _, rfl⟩
      rw [hexec]
      rcases Activation.short_or_obeys hexec with ⟨-, -, rfl⟩ | ⟨hle, hobeys⟩
      · exact .of_unwind rfl hts
      · cases hobeys with
        | next hb =>
          refine ⟨fun b h => ?_, hts⟩
          cases h
          exact hP.walks ha (.next hat hle hb)
        | throw e hthrow =>
          exact keeps_raise hts fun h hh => hP.walks ha (.caught hat hle hthrow hh)
        | fault f _ => exact .of_unwind rfl hts
        | unheld _ _ => exact .of_unwind rfl hts
        | @errand action e he hsends =>
          obtain ⟨hnil, herrand⟩ := isErrand_work he t
          rw [act_of_errand he]
          refine .of_errand herrand fun b keep hmem => ?_
          simp only [atop, hnil, nil_append, mem_cons] at hmem
          rcases hmem with hmem | hmem
          · cases hmem
            exact ⟨a, i, ha, hat, hle, e, hsends, rfl, rfl⟩
          · exact hts b keep hmem
    · rename_i hnone
      have hends : a.Ends block.terminator := ⟨block, hblock, hnone, rfl⟩
      split
      · rename_i b stack hjump
        refine ⟨fun c h => ?_, hts⟩
        cases h
        exact hP.walks ha (.jump hends hjump)
      · exact .of_errand rfl hts
      · rename_i e hthrow
        exact keeps_raise hts fun h hh => hP.walks ha (.raised hends hthrow hh)
      · exact .of_unwind rfl hts

/-- A function that is called starts with the property. -/
theorem keeps_enter (hP : Kept p P) (hts : KeepsBelow P ts) (name : String) (args : List Value)
    (depth : Nat) : (of (p.enter s name args depth) ts).Keeps P := by
  unfold Program.enter
  split
  · refine .of_idle ?_ hts
    unfold Program.joinMarker
    split
    · split <;> intro a h <;> cases h
    · intro a h
      cases h
  · split
    · exact .of_idle (idle_perform _ _) hts
    · split
      · rename_i m _
        refine ⟨fun a ha => ?_, hts⟩
        simp only [of, Program.enterMethod] at ha
        split at ha
        · cases ha
        · split at ha
          · cases ha
          · cases ha
            exact hP.start m args (depth + 1)
      · exact .of_unwind rfl hts

theorem keeps_call (o : Outcome Value) (hts : KeepsBelow P ts) (c : Callback) :
    (call s o ts c).Keeps P := by
  cases c with
  | adopt q => exact .of_errand (isErrand_settle s q o) hts
  | resume d k f ambient => exact .of_errand rfl (hts.cons nofun)
  | note tag => exact .of_errand rfl hts

/-- **A machine keeps what activations keep.** -/
theorem Keeps.step (hP : Kept p P) (h : m.Keeps P) (hm : m.Step p m') : m'.Keeps P := by
  obtain ⟨s, c, ts⟩ := m
  have hts : KeepsBelow P ts := h.waiting
  cases c with
  | exec a =>
    cases hm
    exact keeps_execute hP (h.running a rfl) hts
  | enter name args depth =>
    cases hm
    exact keeps_enter hP hts name args depth
  | deliver o cs =>
    cases cs with
    | nil =>
      cases hm
      exact .of_errand rfl hts
    | cons c cs =>
      cases hm
      exact keeps_call o (hts.cons (t := .deliver o cs) nofun) c
  | answer v =>
    cases ts with
    | nil => cases hm
    | cons t ts =>
      cases hm
      cases t with
      | caller b keep =>
        obtain ⟨a, i, ha, hat, hle, e, hsends, rfl, rfl⟩ := hts b keep mem_cons_self
        refine ⟨fun c hc => ?_, hts.tail⟩
        cases hc
        exact hP.walks ha (.next hat hle (hsends.completes v))
      | deliver o cs => exact .of_errand rfl hts.tail
      | resumed outer saved => exact .of_errand rfl hts.tail
      | restore saved => exact .of_errand rfl hts.tail
  | unwind u =>
    cases ts with
    | nil => cases hm
    | cons t ts =>
      cases hm
      cases t with
      | caller b keep =>
        obtain ⟨a, i, ha, hat, hle, e, hsends, rfl, rfl⟩ := hts b keep mem_cons_self
        cases u with
        | throw x =>
          simp only [unwound, hsends.raise]
          exact keeps_raise hts.tail fun h hh =>
            hP.walks ha (.caught hat hle hsends.mayThrow hh)
        | fault f => exact .of_unwind rfl hts.tail
      | deliver o cs => exact .of_errand rfl hts.tail
      | resumed outer saved =>
        cases outer with
        | some q => exact .of_errand (isErrand_settle _ q _) (hts.tail.cons nofun)
        | none => exact .of_errand rfl hts.tail
      | restore saved => exact .of_unwind rfl hts.tail

/-- **A run keeps the property.** -/
theorem Keeps.steps (hP : Kept p P) (h : m.Keeps P) (hm : m.Steps p m') : m'.Keeps P := by
  induction hm with
  | refl => exact h
  | tail _ hstep ih => exact ih.step hP hstep

/-- A machine that the host starts. -/
inductive Started : Machine → Prop where
  | invoke (s : Store) (name : String) (args : List Value) : Started (.invoke s name args)
  | fulfill (s : Store) (q : Nat) (v : Value) : Started (.fulfill s q v)
  | reject (s : Store) (q : Nat) (e : Value) : Started (.reject s q e)
  | settle (s : Store) (q : Nat) (o : Outcome Value) : Started (.settle s q o)
  | subscribe (s : Store) (q : Nat) (c : Callback) : Started (.subscribe s q c)

theorem Started.keeps (h : m.Started) (P : Activation → Prop) : m.Keeps P := by
  have hnone : KeepsBelow P [] := fun _ _ hmem => absurd hmem not_mem_nil
  cases h with
  | invoke s name args => exact .of_errand rfl hnone
  | fulfill s q v => exact .of_errand (isErrand_fulfill s q v) hnone
  | reject s q e => exact .of_errand (isErrand_settle s q _) hnone
  | settle s q o => exact .of_errand (isErrand_settle s q o) hnone
  | subscribe s q c => exact .of_errand (isErrand_register s q c) hnone

end Machine

end Resumable
