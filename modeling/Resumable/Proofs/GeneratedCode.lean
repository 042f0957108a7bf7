/-
**Running generated code.**

The code that a conversion adds runs in straight lines: it restores locals from a frame, saves them
in a new one, and settles or returns the outer future.  Running a list of instructions is a
function, `Activation.through`, and a run of the machine follows it.

Main results:

* `Activation.Ahead.steps` — **the machine runs straight-line code**;
* `Dispatcher.Plan.through_restore`, `Dispatcher.Plan.through_save` — copying from and to a frame.
-/

import Resumable.Dispatcher.Entry
import Resumable.Proofs.Roles
import Resumable.Proofs.Runs

set_option autoImplicit false

namespace Resumable

open List

/-! ### Straight-line code -/

namespace Activation

variable {p : Program} {s s' : Store} {a b : Activation} {is js : List Instr} {t : Terminator}
  {ts : List Task}

/-- The instructions from the current one on, and the terminator after them. -/
def Ahead (a : Activation) (is : List Instr) (t : Terminator) : Prop :=
  ∃ block, a.method.block? a.block = some block ∧ block.instrs.drop a.offset = is ∧
    block.terminator = t

/-- Runs instructions that just lead to the next; `none` if one of them does something else. -/
def through (a : Activation) (s : Store) : List Instr → Option (Store × Activation)
  | [] => some (s, a)
  | i :: is =>
    match a.exec s i with
    | (s, .next b) => b.through s is
    | _ => none

/-- Another instruction of the same activation. -/
structure Moves (k : Nat) (a b : Activation) : Prop where
  method : b.method = a.method
  block : b.block = a.block
  offset : b.offset = a.offset + k
  depth : b.depth = a.depth

variable {i : Instr}

theorem moves_of_exec (h : a.exec s i = (s', .next b)) : Moves 1 a b := by
  cases i <;>
    simp only [exec, computed, unwrapped, withFuture, withFrame] at h <;>
    repeat' split at h
  all_goals first
    | cases h
      exact ⟨rfl, rfl, rfl, rfl⟩
    | cases h

theorem through_append (a : Activation) (s : Store) (is js : List Instr) :
    a.through s (is ++ js) = (a.through s is).bind fun c => c.2.through c.1 js := by
  induction is generalizing a s with
  | nil => rfl
  | cons i is ih =>
    simp only [cons_append, through]
    split
    · exact ih _ _
    · rfl

theorem through_of_append {s'' : Store} {c : Activation} (h : a.through s is = some (s', b))
    (h' : b.through s' js = some (s'', c)) : a.through s (is ++ js) = some (s'', c) := by
  rw [through_append, h]
  exact h'

theorem Ahead.step_instr (h : a.Ahead (i :: is) t) (p : Program) (s : Store) (ts : List Task) :
    Machine.Step p ⟨s, .exec a, ts⟩ (Machine.act p a ts (a.exec s i)) := by
  obtain ⟨block, hblock, hdrop, -⟩ := h
  have hi : block.instrs[a.offset]? = some i := by
    rw [← head?_drop, hdrop]
    rfl
  simp only [Machine.Step, Machine.step?, Machine.execute, hblock, hi]

theorem Ahead.moves (h : a.Ahead (i :: is) t) (hb : Moves 1 a b) : b.Ahead is t := by
  obtain ⟨block, hblock, hdrop, ht⟩ := h
  refine ⟨block, ?_, ?_, ht⟩
  · rw [hb.method, hb.block]
    exact hblock
  · rw [hb.offset, ← drop_drop, hdrop]
    rfl

/-- **The machine runs straight-line code.** -/
theorem Ahead.inside (h : a.Ahead (is ++ js) t) (hthrough : a.through s is = some (s', b))
    (p : Program) (ts : List Task) :
    Machine.Inside p ⟨s, .exec a, ts⟩ ⟨s', .exec b, ts⟩ ∧ b.Ahead js t := by
  induction is generalizing a s with
  | nil =>
    cases hthrough
    exact ⟨.refl p _, h⟩
  | cons i is ih =>
    rw [through] at hthrough
    split at hthrough
    · rename_i s₁ a₁ hexec
      have hstep := h.step_instr p s ts
      rw [hexec] at hstep
      obtain ⟨hsteps, hahead⟩ := ih (h.moves (moves_of_exec hexec)) hthrough
      exact ⟨(Machine.Step.inside hstep rfl).trans hsteps, hahead⟩
    · cases hthrough

/-- What the current instruction does, and to the store. -/
def Does (a : Activation) (s : Store) (c : Store × Action) : Prop :=
  ∃ i is t, a.Ahead (i :: is) t ∧ a.exec s i = c

theorem Does.step {c : Store × Action} (h : a.Does s c) (p : Program) (ts : List Task) :
    Machine.Step p ⟨s, .exec a, ts⟩ (Machine.act p a ts c) := by
  obtain ⟨i, is, t, hahead, rfl⟩ := h
  exact hahead.step_instr p s ts

theorem Ahead.step_leave (h : a.Ahead [] t) (p : Program) (s : Store) (ts : List Task) :
    Machine.Step p ⟨s, .exec a, ts⟩
      (match a.leave t with
        | .jump b stack => ⟨s, .exec (a.jump b stack), ts⟩
        | .ret v => ⟨s, .answer v, ts⟩
        | .throw e => ⟨s, p.raise a e, ts⟩
        | .fault f => ⟨s, .unwind (.fault f), ts⟩) := by
  obtain ⟨block, hblock, hdrop, ht⟩ := h
  have hi : block.instrs[a.offset]? = none :=
    getElem?_eq_none (drop_eq_nil_iff.1 hdrop)
  cases hleave : a.leave t <;>
    simp only [Machine.Step, Machine.step?, Machine.execute, hblock, hi, ht, hleave]

/-- The activation some instructions later, with the given locals and stack. -/
def put (a : Activation) (k : Nat) (ls : Locals) (stack : List Value) : Activation :=
  { a with locals := ls, stack := stack, offset := a.offset + k }

theorem put_put (a : Activation) (k k' : Nat) (ls ls' : Locals) (st st' : List Value) :
    (a.put k ls st).put k' ls' st' = a.put (k + k') ls' st' := by
  simp only [put, Nat.add_assoc]

end Activation

/-! ### Copying locals -/

/-- Several locals stored one after the other. -/
def Locals.setAll (ls : Locals) (cs : List (Nat × Value)) : Locals :=
  cs.foldl (fun ls c => ls.set c.1 c.2) ls

variable {cs : List (Nat × Value)}

theorem Locals.get_setAll_of_not_mem (ls : Locals) {k : Nat} (h : ∀ c ∈ cs, c.1 ≠ k) :
    (ls.setAll cs).get k = ls.get k := by
  induction cs generalizing ls with
  | nil => rfl
  | cons c cs ih =>
    have hrest := ih (ls.set c.1 c.2) fun d hd => h d (mem_cons_of_mem c hd)
    refine hrest.trans ?_
    rw [Locals.get_set, if_neg fun heq => h c mem_cons_self heq.symm]

theorem Locals.get_setAll_of_mem (ls : Locals) {k : Nat} {v : Value}
    (h : ∀ c ∈ cs, c.1 = k → c.2 = v) (hk : k ∈ cs.map (·.1)) : (ls.setAll cs).get k = v := by
  induction cs generalizing ls with
  | nil => cases hk
  | cons c cs ih =>
    by_cases hrest : k ∈ cs.map (·.1)
    · exact ih (ls.set c.1 c.2) (fun d hd => h d (mem_cons_of_mem c hd)) hrest
    · have hc : k = c.1 := by
        rcases mem_cons.1 hk with heq | hmem
        · exact heq
        · exact absurd hmem hrest
      have hlater : ((ls.set c.1 c.2).setAll cs).get k = (ls.set c.1 c.2).get k :=
        get_setAll_of_not_mem _ fun d hd heq => hrest (heq ▸ mem_map_of_mem hd)
      refine hlater.trans ?_
      rw [Locals.get_set, if_pos hc]
      exact h c mem_cons_self hc.symm

theorem Locals.ofArgs_eq_setAll (params : List Local) (args : List Value) :
    Locals.ofArgs params args = Locals.setAll {} ((params.map (·.id)).zip args) := by
  rw [Locals.ofArgs, Locals.setAll, zip_map_left, foldl_map]
  rfl

/-- Storing values in locals that are numbered differently: what is stored in a local of the first
is stored in its counterpart. -/
theorem Locals.get_setAll_map {f : Nat → Nat} {g : Value → Value} {declared : List Nat}
    (hf : ∀ l ∈ declared, ∀ k ∈ declared, f l = f k → l = k) (hcs : ∀ c ∈ cs, c.1 ∈ declared)
    {l : Nat} (hl : l ∈ declared) {ls ls' : Locals} (h : ls'.get (f l) = g (ls.get l)) :
    (ls'.setAll (cs.map fun c => (f c.1, g c.2))).get (f l) = g ((ls.setAll cs).get l) := by
  induction cs generalizing ls ls' with
  | nil => exact h
  | cons c cs ih =>
    refine ih (fun d hd => hcs d (mem_cons_of_mem c hd)) ?_
    have hc := hcs c mem_cons_self
    rw [Locals.get_set, Locals.get_set]
    by_cases hlc : l = c.1
    · rw [if_pos hlc, if_pos (congrArg f hlc)]
    · rw [if_neg hlc, if_neg fun heq => hlc (hf l hl c.1 hc heq)]
      exact h

namespace Store

/-- The store with one more frame. -/
def addFrame (s : Store) (f : Frame) : Store := { s with frames := s.frames.push f }

theorem newFrame_eq (s : Store) (outer slots : Nat) :
    s.newFrame outer slots = (s.addFrame ⟨outer, replicate slots .null⟩, s.frames.size) := rfl

theorem frames_addFrame (s : Store) (f : Frame) :
    (s.addFrame f).frames[s.frames.size]? = some f := Array.getElem?_push_size

/-- A slot of the frame that was made last. -/
theorem storeSlot?_addFrame (s : Store) (outer : Nat) (before after : List Value) (v w : Value) :
    (s.addFrame ⟨outer, before ++ v :: after⟩).storeSlot? s.frames.size before.length w =
      some (s.addFrame ⟨outer, before ++ w :: after⟩) := by
  have hlt : before.length < (before ++ v :: after).length := by
    rw [length_append, length_cons]
    omega
  have hset : (s.frames.push ⟨outer, before ++ v :: after⟩).setIfInBounds s.frames.size
      ⟨outer, before ++ w :: after⟩ = s.frames.push ⟨outer, before ++ w :: after⟩ := by
    simp [Array.setIfInBounds, Array.set_push]
  simp only [storeSlot?, frames_addFrame, if_pos hlt, set_append_right _ _ (Nat.le_refl _),
    Nat.sub_self, set_cons_zero]
  exact congrArg (fun fs => some { s with frames := fs }) hset

end Store

namespace Activation

variable {s : Store} {a : Activation}

/-- **Copying from a frame**: slots `k, k + 1, …` go to the given locals. -/
theorem through_copyFrom {f frame : Nat} {place : Nat → Nat} (ls : List Nat)
    (hplace : ∀ l ∈ ls, place l ≠ frame) (hf : a.locals.get frame = .frame f) {k : Nat}
    (before after : List Value) (hk : before.length = k)
    (hslots : s.slots f = before ++ after) (hlen : after.length = ls.length) :
    a.through s (ls.mapIdx fun i l => [Instr.frameLoad frame (k + i), .store (place l)]).flatten =
      some (s, a.put (2 * ls.length)
        (a.locals.setAll ((ls.map place).zip after)) a.stack) := by
  induction ls generalizing a k before after with
  | nil => rfl
  | cons l ls ih =>
    obtain ⟨v, after, rfl⟩ := exists_cons_of_length_eq_add_one hlen
    have hload : s.loadSlot? f k = some v := by
      rw [Store.loadSlot?, hslots, ← hk, getElem?_append_right (Nat.le_refl _),
        Nat.sub_self]
      rfl
    have hfirst : a.through s [.frameLoad frame (k + 0), .store (place l)] =
        some (s, a.put 2 (a.locals.set (place l) v) a.stack) := by
      simp only [through, exec, withFrame, hf, Nat.add_zero, hload]
      rfl
    have hf' : (a.put 2 (a.locals.set (place l) v) a.stack).locals.get frame = .frame f := by
      rw [put, Locals.get_set, if_neg (Ne.symm (hplace l mem_cons_self))]
      exact hf
    have hrest := ih (fun l hl => hplace l (mem_cons_of_mem _ hl)) hf' (k := k + 1)
      (before ++ [v]) after (by simp [hk]) (by simp [hslots])
      (by simpa using hlen)
    rw [put_put] at hrest
    rw [mapIdx_cons, flatten_cons]
    refine through_of_append hfirst ?_
    simp only [Nat.add_assoc, Nat.add_comm 1] at hrest ⊢
    rw [length_cons, Nat.mul_add, Nat.add_comm (2 * ls.length)]
    exact hrest

/-- **Copying to a new frame**: the given locals go to slots `k, k + 1, …`. -/
theorem through_copyTo (outer : Nat) {frame : Nat} (place : Nat → Nat) (ls : List Nat)
    (hf : a.locals.get frame = .frame s.frames.size) {k : Nat} (before after : List Value)
    (hk : before.length = k) (hlen : after.length = ls.length) :
    a.through (s.addFrame ⟨outer, before ++ after⟩)
        (ls.mapIdx fun i l => [Instr.load (place l), .frameStore frame (k + i)]).flatten =
      some (s.addFrame ⟨outer, before ++ ls.map fun l => a.locals.get (place l)⟩,
        a.put (2 * ls.length) a.locals a.stack) := by
  induction ls generalizing a k before after with
  | nil =>
    rw [length_eq_zero_iff.1 hlen]
    rfl
  | cons l ls ih =>
    obtain ⟨v, after, rfl⟩ := exists_cons_of_length_eq_add_one hlen
    have hstore := s.storeSlot?_addFrame outer before after v (a.locals.get (place l))
    rw [hk] at hstore
    have hfirst : a.through (s.addFrame ⟨outer, before ++ v :: after⟩)
        [.load (place l), .frameStore frame (k + 0)] =
        some (s.addFrame ⟨outer, before ++ a.locals.get (place l) :: after⟩,
          a.put 2 a.locals a.stack) := by
      simp only [through, exec, advance, withFrame, hf, Nat.add_zero, hstore]
      rfl
    have hrest := ih (a := a.put 2 a.locals a.stack) hf (k := k + 1)
      (before ++ [a.locals.get (place l)]) after (by simp [hk])
      (by simpa using hlen)
    rw [put_put] at hrest
    rw [mapIdx_cons, flatten_cons]
    refine through_of_append hfirst ?_
    simp only [append_assoc, singleton_append, Nat.add_assoc, Nat.add_comm 1]
      at hrest ⊢
    rw [length_cons, Nat.mul_add, Nat.add_comm (2 * ls.length)]
    exact hrest

end Activation

/-! ### Blocks of a dispatcher -/

namespace Dispatcher.Plan

open Activation

variable {p : Plan} {prog : Program} {s : Store} {b : Activation} {ts : List Task} {outer : Nat}

/-- The activation is at the start of the block with the given role. -/
structure Stands (p : Plan) (σ : Role) (b : Activation) : Prop where
  method : b.method = p.dispatcher
  block : b.block = p.block σ
  offset : b.offset = 0

variable {σ : Role} {e : Value} {n : Int64} {rest : List Value} {c : Nat} {q : Suspension}

theorem Stands.ahead (h : p.Stands σ b) (hσ : σ ∈ p.roles) : b.Ahead (p.code σ).1 (p.code σ).2 := by
  refine ⟨⟨p.block σ, (p.code σ).1, (p.code σ).2⟩, ?_, ?_, rfl⟩
  · rw [h.method, h.block]
    exact block?_dispatcher hσ
  · rw [h.offset]
    rfl

theorem stands_jump (h : b.method = p.dispatcher) (σ : Role) (stack : List Value) :
    p.Stands σ (b.jump (p.block σ) stack) :=
  ⟨h, rfl, rfl⟩

/-- The activation waits at the last but one instruction before it returns the outer future. -/
structure Yields (p : Plan) (outer : Nat) (b : Activation) : Prop where
  method : b.method = p.dispatcher
  ahead : ∃ i, b.Ahead [i, .load p.slots.outer] .ret
  outer : b.locals.get p.slots.outer = .future outer

theorem isVoid_dispatcher : p.dispatcher.ret.isVoid = false := rfl

/-- Whatever the answer is, the outer future is about to be returned. -/
theorem Yields.inside (h : p.Yields outer b) (prog : Program) (s : Store) (ts : List Task) :
    ∃ c, Machine.Inside prog ⟨s, .exec (b.advance b.stack), ts⟩ ⟨s, .exec c, ts⟩ ∧
      c.method = p.dispatcher ∧ c.Ahead [] .ret ∧ c.leave .ret = .ret (.future outer) := by
  obtain ⟨i, hi⟩ := h.ahead
  have hahead : (b.advance b.stack).Ahead ([Instr.load p.slots.outer] ++ []) .ret :=
    hi.moves ⟨rfl, rfl, rfl, rfl⟩
  have hload : (b.advance b.stack).through s [.load p.slots.outer] =
      some (s, b.put 2 b.locals (.future outer :: b.stack)) := by
    simp only [through, exec, advance, h.outer]
    rfl
  obtain ⟨hinside, hend⟩ := hahead.inside hload prog ts
  have hmethod : (b.put 2 b.locals (.future outer :: b.stack)).method = p.dispatcher := h.method
  refine ⟨_, hinside, hmethod, hend, ?_⟩
  simp only [leave, hmethod, isVoid_dispatcher]
  rfl

theorem Yields.steps (h : p.Yields outer b) (prog : Program) (s : Store) (x : Value)
    (ts : List Task) :
    Machine.Steps prog ⟨s, .answer x, .caller b false :: ts⟩ ⟨s, .answer (.future outer), ts⟩ := by
  obtain ⟨c, hinside, -, hend, hleave⟩ := h.inside prog s ts
  have hstep : Machine.Step prog ⟨s, .answer x, .caller b false :: ts⟩
      ⟨s, .exec (b.advance b.stack), ts⟩ := rfl
  have hret := hend.step_leave prog s ts
  rw [hleave] at hret
  exact (Machine.Step.steps hstep).trans (hinside.steps.trans (Machine.Step.steps hret))

theorem ret_eq_none_iff : p.slots.ret = none ↔ p.method.ret.isVoid = true := by
  simp only [slots, Slots.ofMethod]
  cases p.method.ret.isVoid <;> simp

theorem outer_ne_own :
    p.slots.outer ≠ p.slots.pending ∧ p.slots.outer ≠ p.slots.next ∧
      p.slots.outer ≠ p.slots.exc ∧ ∀ r, p.slots.ret = some r → p.slots.outer ≠ r := by
  simp only [slots, Slots.ofMethod]
  cases p.method.ret.isVoid <;>
    refine ⟨by omega, by omega, by simp, fun r hr => ?_⟩ <;>
    simp only [Bool.not_true, Bool.not_false, if_true, Bool.false_eq_true, if_false, reduceCtorEq,
      Option.some.injEq] at hr
  omega

/-! ### Returning -/

/-- **Giving the returned value to the outer future.** -/
theorem inside_fulfill (hm : b.method = p.dispatcher) (hb : b.Ahead p.fulfill .ret)
    (houter : b.locals.get p.slots.outer = .future outer) {v : Value}
    (hv : if p.method.ret.isVoid then v = .null else ∃ rest, b.stack = v :: rest)
    (prog : Program) (s : Store) (ts : List Task) :
    ∃ d c, Machine.Inside prog ⟨s, .exec b, ts⟩ ⟨s, .exec d, ts⟩ ∧
      d.Does s (s, .fulfill c outer v) ∧ p.Yields outer c := by
  -- In both cases the outer future and the value are on top of the stack.
  have hpre : ∃ pre k ls rest, p.fulfill = pre ++ [Instr.futureFulfill, .load p.slots.outer] ∧
      b.through s pre = some (s, b.put k ls (v :: .future outer :: rest)) ∧
      ls.get p.slots.outer = .future outer := by
    unfold fulfill
    cases hret : p.slots.ret with
    | none =>
      rw [if_pos (ret_eq_none_iff.1 hret)] at hv
      refine ⟨_, 2, b.locals, b.stack, rfl, ?_, houter⟩
      simp only [through, exec, advance, houter, hv]
      rfl
    | some r =>
      have hvoid : ¬ p.method.ret.isVoid = true := by
        rw [← ret_eq_none_iff, hret]
        exact Option.some_ne_none r
      rw [if_neg hvoid] at hv
      obtain ⟨rest, hstack⟩ := hv
      have hne : p.slots.outer ≠ r := outer_ne_own.2.2.2 r hret
      have houter' : (b.locals.set r v).get p.slots.outer = .future outer := by
        rw [Locals.get_set, if_neg hne]
        exact houter
      have hr : (b.locals.set r v).get r = v := by
        rw [Locals.get_set, if_pos rfl]
      refine ⟨_, 3, b.locals.set r v, rest, rfl, ?_, houter'⟩
      simp only [through, exec, advance, hstack, houter', hr]
      rfl
  obtain ⟨pre, k, ls, rest, hcode, hthrough, houter'⟩ := hpre
  rw [hcode] at hb
  obtain ⟨hinside, hahead⟩ := hb.inside hthrough prog ts
  refine ⟨_, { b with locals := ls, stack := rest, offset := b.offset + k }, hinside,
    ⟨_, _, _, hahead, rfl⟩, ⟨hm, ⟨.futureFulfill, hahead⟩, houter'⟩⟩

/-! ### Failing -/

theorem steps_goto (hb : b.Ahead [] (.goto (p.block σ))) (prog : Program) (s : Store)
    (ts : List Task) :
    Machine.Step prog ⟨s, .exec b, ts⟩ ⟨s, .exec (b.jump (p.block σ) b.stack), ts⟩ :=
  hb.step_leave prog s ts

/-- The start of `fail`: the exception is kept, and the state decides what becomes of it. -/
theorem inside_fail (hb : p.Stands .fail b) (hstack : b.stack = [e])
    (hstate : b.locals.get p.slots.state = .int n) (prog : Program) (s : Store) (ts : List Task) :
    ∃ c, Machine.Inside prog ⟨s, .exec b, ts⟩ ⟨s, .exec c, ts⟩ ∧
      p.Stands (if n = 0 then .rethrow else .reject) c ∧ c.stack = [] ∧
      c.locals = b.locals.set p.slots.exc e := by
  have hne : p.slots.state ≠ p.slots.exc := by
    simp only [slots, Slots.ofMethod]
    split <;> omega
  have hthrough : b.through s (p.code .fail).1 =
      some (s, b.put 4 (b.locals.set p.slots.exc e) [.bool (n == 0)]) := by
    have hget : (b.locals.set p.slots.exc e).get p.slots.state = .int n := by
      rw [Locals.get_set, if_neg hne]
      exact hstate
    simp only [code, through, exec, advance, hstack, hget]
    rfl
  have hahead := hb.ahead (mem_roles_fixed (by simp))
  rw [← append_nil (p.code .fail).1] at hahead
  obtain ⟨hsteps, hend⟩ := hahead.inside hthrough prog ts
  have hleave := hend.step_leave prog s ts
  by_cases hn : n = 0
  · subst hn
    exact ⟨_, hsteps.trans (Machine.Step.inside hleave rfl), ⟨hb.method, rfl, rfl⟩, rfl, rfl⟩
  · rw [if_neg hn]
    have hbeq : (n == 0) = false := beq_false_of_ne hn
    rw [hbeq] at hleave hsteps
    exact ⟨_, hsteps.trans (Machine.Step.inside hleave rfl), ⟨hb.method, rfl, rfl⟩, rfl, rfl⟩

/-- **An exception that leaves the method in state 0** leaves the dispatcher. -/
theorem inside_rethrow (hb : p.Stands .fail b) (hstack : b.stack = [e])
    (hstate : b.locals.get p.slots.state = .int 0) (prog : Program) (s : Store) (ts : List Task) :
    Machine.Inside prog ⟨s, .exec b, ts⟩ ⟨s, .unwind (.throw e), ts⟩ := by
  obtain ⟨c, hfail, hc, hstack, hlocals⟩ := inside_fail hb hstack hstate prog s ts
  rw [if_pos rfl] at hc
  have hexc : c.locals.get p.slots.exc = e := by
    rw [hlocals]
    exact (Locals.get_set ..).trans (if_pos rfl)
  have hahead : c.Ahead ([Instr.load p.slots.exc] ++ []) .raise :=
    hc.ahead (mem_roles_fixed (by simp))
  have hthrough : c.through s [.load p.slots.exc] = some (s, c.put 1 c.locals [e]) := by
    simp only [through, exec, advance, hexc, hstack]
    rfl
  obtain ⟨hsteps, hend⟩ := hahead.inside hthrough prog ts
  have hleave := hend.step_leave prog s ts
  have hhandler : prog.handler? (c.put 1 c.locals [e]).method (c.put 1 c.locals [e]).block e =
      none := by
    have h := handler?_uncovered (p := p) (σ := .rethrow) (mem_roles_fixed (by simp))
      (fun R s hs => not_mem_regionRoles (by simp)) prog e
    rw [← hc.method, ← hc.block] at h
    exact h
  simp only [leave, put, Program.raise] at hleave hhandler
  rw [hhandler] at hleave
  exact hfail.trans (hsteps.trans (Machine.Step.inside hleave rfl))

/-- **An exception that leaves the method in another state** goes to the outer future. -/
theorem inside_reject (hb : p.Stands .fail b) (hstack : b.stack = [e])
    (hstate : b.locals.get p.slots.state = .int n) (hn : n ≠ 0)
    (houter : b.locals.get p.slots.outer = .future outer) (prog : Program) (s : Store)
    (ts : List Task) :
    ∃ d c, Machine.Inside prog ⟨s, .exec b, ts⟩ ⟨s, .exec d, ts⟩ ∧
      d.Does s (s, .reject c outer e) ∧ p.Yields outer c := by
  obtain ⟨c, hfail, hc, hstack, hlocals⟩ := inside_fail hb hstack hstate prog s ts
  rw [if_neg hn] at hc
  have hexc : c.locals.get p.slots.exc = e := by
    rw [hlocals]
    exact (Locals.get_set ..).trans (if_pos rfl)
  have houter : c.locals.get p.slots.outer = .future outer := by
    rw [hlocals]
    exact (Locals.get_set ..).trans ((if_neg outer_ne_own.2.2.1).trans houter)
  have hahead : c.Ahead ([Instr.load p.slots.outer, .load p.slots.exc] ++
      [Instr.futureReject, .load p.slots.outer]) .ret := hc.ahead (mem_roles_fixed (by simp))
  have hthrough : c.through s [.load p.slots.outer, .load p.slots.exc] =
      some (s, c.put 2 c.locals [e, .future outer]) := by
    simp only [through, exec, advance, hexc, houter, hstack]
    rfl
  obtain ⟨hsteps, hend⟩ := hahead.inside hthrough prog ts
  exact ⟨_, _, hfail.trans hsteps, ⟨_, _, _, hend, rfl⟩, hc.method, ⟨_, hend⟩, houter⟩

/-! ### Going on with a value -/

/-- What follows a value that a future has given: it is dropped if there is none to keep. -/
theorem inside_dropVoid {ty : Ty} (hb : b.Ahead (dropVoid ty) (.goto (p.block σ))) {w : Value}
    (hstack : b.stack = w :: rest) (prog : Program) (s : Store) (ts : List Task) :
    Machine.Inside prog ⟨s, .exec b, ts⟩
      ⟨s, .exec (b.jump (p.block σ) (if ty.isVoid then rest else w :: rest)), ts⟩ := by
  unfold dropVoid at hb
  split at hb
  · rename_i hvoid
    rw [if_pos hvoid]
    have hpop : b.through s [.pop] = some (s, b.put 1 b.locals rest) := by
      simp only [through, exec, advance, hstack]
      rfl
    rw [← append_nil [Instr.pop]] at hb
    obtain ⟨hsteps, hend⟩ := hb.inside hpop prog ts
    exact hsteps.trans (Machine.Step.inside (steps_goto hend prog s ts) rfl)
  · rename_i hvoid
    have hgoto := steps_goto hb prog s ts
    rw [hstack] at hgoto
    rw [if_neg hvoid]
    exact Machine.Step.inside hgoto rfl

/-- **The test of a future**: control goes on at once if it has settled, and parks otherwise. -/
theorem inside_test {τ : Role}
    (hb : b.Ahead [.dup, .futureIsDone] (.branch (p.block σ) (p.block τ)))
    (hstack : b.stack = .future c :: rest) (prog : Program) (s : Store) (ts : List Task) :
    ∃ d, Machine.Inside prog ⟨s, .exec b, ts⟩ ⟨s, .exec d, ts⟩ ∧
      Machine.Step prog ⟨s, .exec d, ts⟩
        ⟨s, .exec (b.jump (p.block (if s.isSettled c then σ else τ)) (.future c :: rest)), ts⟩ := by
  have htest : b.through s [.dup, .futureIsDone] =
      some (s, b.put 2 b.locals (.bool (s.isSettled c) :: .future c :: rest)) := by
    simp only [through, exec, advance, withFuture, hstack]
    rfl
  rw [← append_nil [Instr.dup, .futureIsDone]] at hb
  obtain ⟨hsteps, hend⟩ := hb.inside htest prog ts
  have hleave := hend.step_leave prog s ts
  refine ⟨_, hsteps, ?_⟩
  cases hsettled : s.isSettled c with
  | true =>
    rw [hsettled] at hleave
    exact hleave
  | false =>
    rw [hsettled] at hleave
    exact hleave

theorem inside_fast (hq : p.point? q.index = some q) (hrole : .fast q.index ∈ p.roles)
    (hb : p.Stands (.fast q.index) b) (hstack : b.stack = .future c :: rest) {w : Value}
    (hw : s.outcome? c = some (.fulfilled w)) (prog : Program) (ts : List Task) :
    Machine.Inside prog ⟨s, .exec b, ts⟩
      ⟨s, .exec (b.jump (p.nodeBlock q.resume) (if q.ty.isVoid then rest else w :: rest)), ts⟩ := by
  have hcode : p.code (.fast q.index) =
      ([.futureJoin] ++ dropVoid q.ty, .goto (p.nodeBlock q.resume)) := by
    simp only [code, hq]
    rfl
  have hahead := hb.ahead hrole
  rw [hcode] at hahead
  have hjoin : b.through s [.futureJoin] = some (s, b.put 1 b.locals (w :: rest)) := by
    simp only [through, exec, withFuture, hstack, hw, unwrapped, advance]
    rfl
  obtain ⟨hsteps, hend⟩ := hahead.inside hjoin prog ts
  exact hsteps.trans (inside_dropVoid hend rfl prog s ts)

/-- The exception of a settled future. -/
theorem step_fast_rejected (hq : p.point? q.index = some q) (hrole : .fast q.index ∈ p.roles)
    (hb : p.Stands (.fast q.index) b) (hstack : b.stack = .future c :: rest)
    (he : s.outcome? c = some (.rejected e)) (prog : Program) (ts : List Task) :
    Machine.Step prog ⟨s, .exec b, ts⟩ ⟨s, prog.raise b e, ts⟩ := by
  have hcode : p.code (.fast q.index) =
      (.futureJoin :: dropVoid q.ty, .goto (p.nodeBlock q.resume)) := by
    simp only [code, hq]
  have hahead := hb.ahead hrole
  rw [hcode] at hahead
  have hstep := hahead.step_instr prog s ts
  simp only [exec, withFuture, hstack, he, unwrapped] at hstep
  exact hstep

/-! ### Parking -/

/-- **Parking**: the locals go to a new frame, and the dispatcher is to be called when the future
settles. -/
theorem inside_park (hq : p.point? q.index = some q) (hrole : .park q.index ∈ p.roles)
    (hb : p.Stands (.park q.index) b) (hstack : b.stack = .future c :: rest)
    (houter : b.locals.get p.slots.outer = .future outer)
    (hplace : ∀ l ∈ q.live.map (·.1), p.slots.local l < p.slots.outer) (prog : Program) (s : Store)
    (ts : List Task) :
    ∃ e d, Machine.Inside prog ⟨s, .exec b, ts⟩
        ⟨s.addFrame ⟨outer, q.live.map fun l => b.locals.get (p.slots.local l.1)⟩, .exec e, ts⟩ ∧
      e.Does (s.addFrame ⟨outer, q.live.map fun l => b.locals.get (p.slots.local l.1)⟩)
        (s.addFrame ⟨outer, q.live.map fun l => b.locals.get (p.slots.local l.1)⟩,
          .subscribe d c (.resume p.name q.index s.frames.size s.ambient)) ∧
      p.Yields outer d := by
  have hcode : p.code (.park q.index) = (p.parkCode q, .ret) := by
    simp only [code, hq]
  have hahead := hb.ahead hrole
  rw [hcode] at hahead
  simp only [parkCode, append_assoc] at hahead
  -- The future and the new frame are kept in two locals of their own.
  generalize hls : ((b.locals.set p.slots.pending (.future c)).set p.slots.next
    (.frame s.frames.size)) = ls
  have hget : ∀ l, l ≠ p.slots.pending → l ≠ p.slots.next → ls.get l = b.locals.get l := by
    intro l hp hn
    rw [← hls, Locals.get_set, if_neg hn, Locals.get_set, if_neg hp]
  have houter' : ls.get p.slots.outer = .future outer :=
    (hget _ outer_ne_own.1 outer_ne_own.2.1).trans houter
  have hpending : ls.get p.slots.pending = .future c := by
    have hne : p.slots.pending ≠ p.slots.next := by
      simp only [slots, Slots.ofMethod]
      omega
    rw [← hls, Locals.get_set, if_neg hne, Locals.get_set, if_pos rfl]
  have hnext : ls.get p.slots.next = .frame s.frames.size := by
    rw [← hls, Locals.get_set, if_pos rfl]
  have hstart : b.through s [.store p.slots.pending, .load p.slots.outer,
      .frameNew q.live.length, .store p.slots.next] =
      some (s.addFrame ⟨outer, [] ++ replicate q.live.length .null⟩, b.put 4 ls rest) := by
    have ho : (b.locals.set p.slots.pending (.future c)).get p.slots.outer = .future outer := by
      rw [Locals.get_set, if_neg outer_ne_own.1]
      exact houter
    simp only [through, exec, advance, hstack, withFuture, ho, Store.newFrame_eq, hls]
    rfl
  have hsave := through_copyTo (s := s) (a := b.put 4 ls rest) outer p.slots.local
    (q.live.map (·.1)) hnext (k := 0) [] (replicate q.live.length .null) rfl (by simp)
  simp only [Nat.zero_add] at hsave
  rw [put_put] at hsave
  have hsaved := through_of_append hstart hsave
  rw [← append_assoc] at hahead
  obtain ⟨hsteps, hahead⟩ := hahead.inside hsaved prog ts
  have hvalues : ((q.live.map (·.1)).map fun l => (b.put 4 ls rest).locals.get (p.slots.local l)) =
      q.live.map fun l => b.locals.get (p.slots.local l.1) := by
    rw [List.map_map]
    refine map_congr_left fun l hl => hget _ ?_ ?_
    all_goals
      have hlt := hplace l.1 (mem_map_of_mem hl)
      simp only [slots, Slots.ofMethod] at hlt ⊢
      omega
  rw [hvalues, nil_append] at hsteps
  generalize hd : b.put (4 + 2 * (q.live.map (·.1)).length) (b.put 4 ls rest).locals
    (b.put 4 ls rest).stack = d at hsteps hahead
  have hload := hahead.step_instr prog
    (s.addFrame ⟨outer, q.live.map fun l => b.locals.get (p.slots.local l.1)⟩) ts
  have hahead' := hahead.moves (b := d.advance (.future c :: rest)) ⟨rfl, rfl, rfl, rfl⟩
  have hlocals : d.locals = ls := by rw [← hd]; rfl
  have hrest : d.stack = rest := by rw [← hd]; rfl
  simp only [exec, hlocals, hrest, hpending, Machine.act] at hload
  refine ⟨_, { d with stack := rest, offset := d.offset + 1 },
    hsteps.trans (Machine.Step.inside hload rfl), ⟨_, _, _, hahead', ?_⟩, ?_⟩
  · simp only [exec, advance, hlocals, hnext, withFuture, withFrame]
    rfl
  · refine ⟨?_, ⟨_, hahead'⟩, ?_⟩
    · rw [← hb.method, ← hd]
      rfl
    · rw [← houter', ← hlocals]

/-! ### Starting -/

/-- A dispatcher that has read its outer future and goes on as its state says. -/
structure Opened (p : Plan) (outer : Nat) (n : Int64) (x : Value) (f depth : Nat)
    (d : Activation) : Prop where
  method : d.method = p.dispatcher
  block : d.block = (p.cases.lookup n).getD (p.block .badState)
  offset : d.offset = 0
  stack : d.stack = []
  monitors : d.monitors = 0
  depth : d.depth = depth
  state : d.locals.get p.slots.state = .int n
  resume : d.locals.get p.slots.resume = x
  frame : d.locals.get p.slots.frame = .frame f
  outer : d.locals.get p.slots.outer = .future outer
  others : ∀ l, 3 ≤ l → l ≠ p.slots.outer → d.locals.get l = .null

theorem block_head : p.block .head = 0 := by
  rw [block, blockOf, if_pos (mem_roles_fixed (by simp))]
  rfl

theorem locals_start (p : Plan) (x y z : Value) (depth : Nat) :
    (start p.dispatcher [x, y, z] depth).locals =
      ((({} : Locals).set 0 x).set 1 y).set 2 z := by
  simp only [start, dispatcher, Locals.ofArgs, params, zip_cons_cons,
    zip_nil_left, foldl_cons, foldl_nil]

/-- **The head of a dispatcher** reads the outer future from the frame and looks at the state. -/
theorem inside_head {f : Nat} {frame : Frame} (hf : s.frames[f]? = some frame) (n : Int64)
    (x : Value) (depth : Nat) (prog : Program) (ts : List Task) :
    ∃ d, Machine.Inside prog
        ⟨s, .exec (start p.dispatcher [.int n, x, .frame f] depth), ts⟩ ⟨s, .exec d, ts⟩ ∧
      p.Opened frame.outer n x f depth d := by
  generalize hb : start p.dispatcher [.int n, x, .frame f] depth = b
  have hlocals : b.locals = (((({} : Locals).set 0 (.int n)).set 1 x).set 2 (.frame f)) := by
    rw [← hb, locals_start]
  have hstack : b.stack = [] := by rw [← hb]; rfl
  have hstands : p.Stands .head b := by
    rw [← hb]
    exact ⟨rfl, block_head.symm, rfl⟩
  have hget : ∀ l, b.locals.get l =
      if l = 2 then .frame f else if l = 1 then x else if l = 0 then .int n else .null := by
    intro l
    rw [hlocals, Locals.get_set, Locals.get_set, Locals.get_set]
    rfl
  have houter : s.outer? f = some frame.outer := by
    rw [Store.outer?, hf]
    rfl
  have hown : 3 ≤ p.slots.outer := Nat.le_add_right 3 _
  generalize hls : b.locals.set p.slots.outer (.future frame.outer) = ls
  have hget' : ∀ l, ls.get l = if l = p.slots.outer then .future frame.outer else b.locals.get l :=
    fun l => hls ▸ Locals.get_set ..
  have hstate : ls.get p.slots.state = .int n := by
    rw [hget', if_neg (by simp only [slots, Slots.ofMethod] at hown ⊢; omega), hget]
    rfl
  have hthrough : b.through s (p.code .head).1 = some (s, b.put 3 ls [.int n]) := by
    have hframe : b.locals.get p.slots.frame = .frame f := hget 2
    simp only [code, through, exec, withFrame, hframe, houter, advance, hstack, hls, hstate]
    rfl
  have hahead := hstands.ahead (mem_roles_fixed (by simp))
  rw [← append_nil (p.code .head).1] at hahead
  obtain ⟨hsteps, hend⟩ := hahead.inside hthrough prog ts
  have hleave := hend.step_leave prog s ts
  refine ⟨_, hsteps.trans (Machine.Step.inside hleave rfl), ?_⟩
  exact {
    method := hstands.method
    block := rfl
    offset := rfl
    stack := rfl
    monitors := by rw [← hb]; rfl
    depth := by rw [← hb]; rfl
    state := hstate
    resume := (hget' 1).trans ((if_neg (by omega)).trans (hget 1))
    frame := (hget' 2).trans ((if_neg (by omega)).trans (hget 2))
    outer := (hget' _).trans (if_pos rfl)
    others := fun l hl hne => by
      refine (hget' l).trans ((if_neg hne).trans ((hget l).trans ?_))
      rw [if_neg (by omega), if_neg (by omega), if_neg (by omega)] }

/-- A dispatcher that has the locals of the method in their places. -/
structure Restored (p : Plan) (outer : Nat) (n : Int64) (x : Value) (depth : Nat) (ls : Locals)
    (c : Activation) : Prop where
  method : c.method = p.dispatcher
  stack : c.stack = []
  monitors : c.monitors = 0
  depth : c.depth = depth
  state : c.locals.get p.slots.state = .int n
  resume : c.locals.get p.slots.resume = x
  outer : c.locals.get p.slots.outer = .future outer
  locals : ∀ l ∈ p.method.localIds, c.locals.get (p.slots.local l) = ls.get l

/-- **Restoring locals**: those that are in the frame get their values, the others are null. -/
theorem Opened.inside_restore {x : Value} {f depth : Nat} {d : Activation}
    (h : p.Opened outer n x f depth d) {ls : List Nat} (hls : ∀ l ∈ ls, l ∈ p.method.localIds)
    {vs : List Value} (hslots : s.slots f = vs) (hlen : vs.length = ls.length) {js : List Instr}
    {t : Terminator} (hahead : d.Ahead (p.restore ls ++ js) t) (prog : Program) (ts : List Task) :
    ∃ c, Machine.Inside prog ⟨s, .exec d, ts⟩ ⟨s, .exec c, ts⟩ ∧ c.Ahead js t ∧
      c.block = d.block ∧ p.Restored outer n x depth (Locals.setAll {} (ls.zip vs)) c := by
  have hbound : ∀ l ∈ ls, 3 ≤ p.slots.local l ∧ p.slots.local l < p.slots.outer :=
    fun l hl => Slots.local_bounds (hls l hl)
  have hframe : ∀ l ∈ ls, p.slots.local l ≠ p.slots.frame := by
    intro l hl heq
    have := (hbound l hl).1
    rw [heq] at this
    simp only [slots, Slots.ofMethod] at this
    omega
  have hthrough := through_copyFrom (s := s) ls hframe h.frame (k := 0) [] vs rfl hslots hlen
  simp only [Nat.zero_add] at hthrough
  obtain ⟨hsteps, hend⟩ := hahead.inside hthrough prog ts
  -- What is not a place of a local of the method keeps its value.
  have hkeep : ∀ k, (k < 3 ∨ k = p.slots.outer) →
      (d.locals.setAll ((ls.map p.slots.local).zip vs)).get k = d.locals.get k := by
    intro k hk
    refine Locals.get_setAll_of_not_mem _ fun c hc heq => ?_
    obtain ⟨l, hl, hlc⟩ := mem_map.1 (of_mem_zip hc).1
    have := hbound l hl
    omega
  refine ⟨_, hsteps, hend, rfl, ?_⟩
  exact {
    method := h.method
    stack := h.stack
    monitors := h.monitors
    depth := h.depth
    state := (hkeep 0 (.inl (by omega))).trans h.state
    resume := (hkeep 1 (.inl (by omega))).trans h.resume
    outer := (hkeep _ (.inr rfl)).trans h.outer
    locals := fun l hl => by
      have hnull : d.locals.get (p.slots.local l) = ({} : Locals).get l := by
        obtain ⟨hlow, hhigh⟩ := Slots.local_bounds hl
        exact h.others _ hlow (Nat.ne_of_lt hhigh)
      have hcs : ∀ c ∈ ls.zip vs, c.1 ∈ p.method.localIds :=
        fun c hc => hls _ (of_mem_zip hc).1
      have hcopy := Locals.get_setAll_map (g := fun v => v)
        (fun l hl k hk => Slots.local_inj hl hk) hcs hl hnull
      rw [← hcopy, zip_map_left]
      rfl }

end Dispatcher.Plan

/-! ### The entry -/

namespace Dispatcher

open Activation

variable {s : Store} {m : Method} {args : List Value}

/-- The arguments of the entry are in its first locals. -/
theorem map_get_ofArgs_entryParams (hargs : args.length = m.params.length) :
    ((range m.params.length).map fun i => (Locals.ofArgs (entryParams m) args).get i) =
      args := by
  have hids : (entryParams m).map (·.id) = range m.params.length := by
    refine ext_getElem (by simp [entryParams]) fun k hk hk' => ?_
    simp [entryParams]
  refine ext_getElem (by simp [hargs]) fun i hi hi' => ?_
  rw [getElem_map, getElem_range, Locals.ofArgs_eq_setAll, hids]
  refine Locals.get_setAll_of_mem _ (fun c hc heq => ?_) ?_
  · obtain ⟨k, hk⟩ := mem_iff_getElem?.1 hc
    obtain ⟨hrange, harg⟩ := getElem?_zip_eq_some.1 hk
    obtain ⟨hlt, hk⟩ := List.getElem?_eq_some_iff.1 hrange
    rw [getElem_range, heq] at hk
    subst hk
    exact (List.getElem_of_getElem? harg).2.symm
  · rw [map_fst_zip (by simp [hargs])]
    exact mem_range.2 (hargs ▸ hi')

/-- The store after the entry has made the outer future and its frame. -/
def opened (s : Store) (args : List Value) : Store :=
  s.newPromise.1.addFrame ⟨s.promises.size, args⟩

/-- The entry waits for its dispatcher, and returns what the dispatcher returns. -/
structure Awaits (m : Method) (name : String) (e : Activation) : Prop where
  method : e.method = entry m name
  ahead : ∃ i, e.Ahead [i] .ret
  stack : e.stack = []

section Awaits

variable {name : String} {e : Activation} (h : Awaits m name e)
include h

theorem Awaits.ahead_answer (v : Value) :
    (e.advance [v]).Ahead [] .ret ∧ (e.advance [v]).leave .ret = .ret v := by
  obtain ⟨i, hi⟩ := h.ahead
  refine ⟨hi.moves ⟨rfl, rfl, rfl, rfl⟩, ?_⟩
  have hvoid : (e.advance [v]).method.ret.isVoid = false := congrArg (·.ret.isVoid) h.method
  simp only [leave, hvoid]
  rfl

theorem Awaits.step_answer (prog : Program) (s : Store) (v : Value) (ts : List Task) :
    Machine.Step prog ⟨s, .answer v, .caller e true :: ts⟩ ⟨s, .exec (e.advance [v]), ts⟩ := by
  simp only [Machine.Step, Machine.step?, Machine.answered, if_true, h.stack]

theorem Awaits.step_return (prog : Program) (s : Store) (v : Value) (ts : List Task) :
    Machine.Step prog ⟨s, .exec (e.advance [v]), ts⟩ ⟨s, .answer v, ts⟩ := by
  obtain ⟨hahead, hleave⟩ := h.ahead_answer v
  have hret := hahead.step_leave prog s ts
  rw [hleave] at hret
  exact hret

theorem Awaits.step_unwind (prog : Program) (s : Store) (u : Unwind) (ts : List Task) :
    Machine.Step prog ⟨s, .unwind u, .caller e true :: ts⟩ ⟨s, .unwind u, ts⟩ := by
  have hhandler : ∀ x, prog.handler? e.method e.block x = none := by
    intro x
    rw [h.method]
    rfl
  cases u with
  | throw x => simp only [Machine.Step, Machine.step?, Machine.unwound, Program.raise, hhandler]
  | fault f => rfl

end Awaits

/-- **The entry** makes the outer future, puts its arguments into a frame and calls the dispatcher
in state 0. -/
theorem inside_entry (name : String) (hargs : args.length = m.params.length) (depth : Nat)
    (prog : Program) (ts : List Task) :
    ∃ e, Machine.Inside prog ⟨s, .exec (start (entry m name) args depth), ts⟩
        ⟨opened s args, .enter name [.int 0, .null, .frame s.frames.size] depth,
          .caller e true :: ts⟩ ∧ Awaits m name e := by
  generalize hb : start (entry m name) args depth = b
  generalize hn : m.params.length = n
  have hahead : b.Ahead (entryCode m name n) .ret := by
    rw [← hb, ← hn]
    exact ⟨_, rfl, rfl, rfl⟩
  have hstack : b.stack = [] := by rw [← hb]; rfl
  generalize hls : b.locals.set n (.frame s.frames.size) = ls
  have hframe : ls.get n = .frame s.frames.size := by
    rw [← hls, Locals.get_set, if_pos rfl]
  have hstart : b.through s [.futureNew, .frameNew n, .store n] =
      some (s.newPromise.1.addFrame ⟨s.promises.size, [] ++ replicate n .null⟩,
        b.put 3 ls []) := by
    simp only [through, exec, advance, withFuture, hstack]
    exact congrArg (fun ls => some (_, b.put 3 ls [])) hls
  have hsave := through_copyTo (s := s.newPromise.1) (a := b.put 3 ls []) s.promises.size
    (fun i => i) (range n) hframe (k := 0) [] (replicate n .null) rfl (by simp)
  have hcode : (m.params.mapIdx fun i _ => [Instr.load i, .frameStore n i]) =
      (range n).mapIdx fun i l => [Instr.load l, .frameStore n (0 + i)] := by
    refine ext_getElem (by simp [hn]) fun i hi hi' => ?_
    simp
  have hvalues : ((range n).map fun l => (b.put 3 ls []).locals.get l) = args := by
    rw [← map_get_ofArgs_entryParams hargs, hn]
    refine map_congr_left fun l hl => ?_
    have hne : l ≠ n := Nat.ne_of_lt (mem_range.1 hl)
    refine Eq.trans ?_ (congrArg (·.locals.get l) hb.symm)
    exact (congrArg (·.get l) hls.symm).trans ((Locals.get_set ..).trans (if_neg hne))
  rw [hvalues, ← hcode, put_put] at hsave
  have hsaved := through_of_append hstart hsave
  generalize hd : b.put (3 + 2 * (range n).length) (b.put 3 ls []).locals
    (b.put 3 ls []).stack = d at hsaved
  have hlocals : d.locals = ls := by rw [← hd]; rfl
  have hstack' : d.stack = [] := by rw [← hd]; rfl
  have hcall : d.through (opened s args) [.push (.int 0), .push .null, .load n] =
      some (opened s args, d.put 3 ls [.frame s.frames.size, .null, .int 0]) := by
    simp only [through, exec, advance, hlocals, hstack', hframe]
    rfl
  have hthrough := through_of_append hsaved hcall
  simp only [entryCode, hn] at hahead
  have hahead' : b.Ahead
      ([Instr.futureNew, .frameNew n, .store n] ++
          (m.params.mapIdx fun i _ => [Instr.load i, .frameStore n i]).flatten ++
          [Instr.push (.int 0), .push .null, .load n] ++ [Instr.invoke (callee name)]) .ret := by
    rw [append_assoc _ [_, _, _] [_]]
    exact hahead
  obtain ⟨hsteps, hend⟩ := hahead'.inside hthrough prog ts
  have hdepth : d.depth = depth := by rw [← hd, ← hb]; rfl
  have hmethod : d.method = entry m name := by rw [← hd, ← hb]; rfl
  have hinvoke := hend.step_instr prog (opened s args) ts
  have hexec : (d.put 3 ls [.frame s.frames.size, .null, .int 0]).exec (opened s args)
      (.invoke (callee name)) =
      (opened s args,
        .call (d.put 3 ls []) name [.int 0, .null, .frame s.frames.size] true) := rfl
  rw [hexec] at hinvoke
  rw [← hdepth]
  exact ⟨d.put 3 ls [], hsteps.trans (Machine.Step.inside hinvoke rfl), hmethod,
    ⟨_, hend⟩, rfl⟩

end Dispatcher

end Resumable
