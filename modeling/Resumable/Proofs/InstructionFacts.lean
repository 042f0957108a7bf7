/-
**What instructions take, leave and touch.**

The analyses know an instruction by a few facts: how many operands it takes and how many results it
leaves, whether it can throw, which local it reads and which one it writes.  A terminator they know
by its operands and its successors.  The machine looks at none of these facts, it runs the code;
here they are compared with what it does.

A part of an instruction may be an *errand*: a call, or the settling of a promise with the callbacks
that this sets off.  The activation waits meanwhile, so executing an instruction is the whole way
from its operands to the place where the activation goes on, `Activation.Executes`.

One lemma says what an instruction leads to once its operands are there, `Activation.obeys_exec`.

Main results:

* `Activation.obeys_exec`, `Activation.exec_of_short` — **one instruction**;
* `Activation.tracks_exec` — two activations that agree on what an instruction reads do the same;
* `Activation.Executes.runs` — the machine executes instructions;
* `accurate_facts` — **the facts are right**, a successor that no value selects apart.
-/

import Resumable.Proofs.Alike
import Resumable.Proofs.Runs

set_option autoImplicit false

namespace Resumable

open List

/-! ### Errands -/

/-- What other code has to do for an instruction, and the activation that waits for it. -/
structure Errand where
  waiting : Activation
  /-- Whether the result is kept. -/
  keep : Bool
  work : Store → Machine

/-- The errand that an instruction leads to, if it does not complete on its own. -/
def Action.errand? : Action → Option Errand
  | .call b name args keep => some ⟨b, keep, fun s => ⟨s, .enter name args b.depth, []⟩⟩
  | .fulfill b q v => some ⟨b, false, fun s => .fulfill s q v⟩
  | .reject b q e => some ⟨b, false, fun s => .reject s q e⟩
  | .subscribe b q c => some ⟨b, false, fun s => .subscribe s q c⟩
  | .next _ | .throw _ | .fault _ => none

/-- The machine goes on with the errand, and the activation waits below. -/
theorem Machine.act_of_errand {action : Action} {e : Errand} (h : action.errand? = some e)
    (p : Program) (a : Activation) (ts : List Task) (s : Store) :
    act p a ts (s, action) = (e.work s).atop (.caller e.waiting e.keep :: ts) := by
  cases action with
  | call b name args keep =>
    cases h
    rfl
  | fulfill b q v =>
    cases h
    rfl
  | reject b q e =>
    cases h
    rfl
  | subscribe b q c =>
    cases h
    rfl
  | next b => cases h
  | throw e => cases h
  | fault f => cases h

/-! ### One instruction in two activations -/

namespace Activation

/-- **What two instructions lead to in two activations**, from one store.  The instructions differ
at most in the local that they name. -/
inductive Tracks (i j : Instr) (a b : Activation) : Action → Action → Prop where
  | next (v : Value) (stack : List Value) (monitors : Nat) :
      Tracks i j a b
        (.next { a with
          locals := a.locals.write i v, stack := stack, monitors := monitors
          offset := a.offset + 1 })
        (.next { b with
          locals := b.locals.write j v, stack := stack, monitors := monitors
          offset := b.offset + 1 })
  | throw (e : Value) : i.mayThrow = true → Tracks i j a b (.throw e) (.throw e)
  | fault (k : String → Location → Fault) : Fault.AnyPlace k →
      Tracks i j a b (.fault (k a.method.name a.location)) (.fault (k b.method.name b.location))
  | errand {x y : Action} {stack : List Value} {keep : Bool} {work : Store → Machine} :
      x.errand? = some ⟨{ a with stack := stack }, keep, work⟩ →
      y.errand? = some ⟨{ b with stack := stack }, keep, work⟩ → Tracks i j a b x y

/-- **Two activations that see the same** go the same way: their operands are the same, and so is
the local that the instruction reads. -/
theorem tracks_exec (a b : Activation) {f : Nat → Nat} {i j : Instr} (hj : j = i.mapLocals f)
    (s : Store) (hstack : b.stack = a.stack) (hmonitors : b.monitors = a.monitors)
    (hdepth : b.depth = a.depth)
    (huses : ∀ l, i.uses? = some l → b.locals.get (f l) = a.locals.get l) :
    ∃ t x y, a.exec s i = (t, x) ∧ b.exec s j = (t, y) ∧ Tracks i j a b x y := by
  subst hj
  obtain ⟨hstore, hfollows⟩ := follows_exec i (Store.Renamed.refl s s)
    (by rw [Value.map_rename_id, hstack]) hmonitors fun l hl => by
      rw [Value.rename_id]
      exact huses l hl
  refine ⟨(a.exec s i).1, (a.exec s i).2, (b.exec s (i.mapLocals f)).2, rfl,
    Prod.ext hstore.eq_of_id rfl, ?_⟩
  generalize (a.exec s i).2 = x, (b.exec s (i.mapLocals f)).2 = y at hfollows ⊢
  cases hfollows with
  | next v stack monitors =>
    rw [Value.rename_id, Value.map_rename_id]
    exact .next v stack monitors
  | throw e hthrow =>
    rw [Value.rename_id]
    exact .throw e hthrow
  | fault k hk => exact .fault k hk
  | call stack name args keep _ =>
    rw [Value.map_rename_id, Value.map_rename_id]
    exact .errand rfl (by simp only [Action.errand?, hdepth])
  | fulfill stack q v _ | reject stack q e _ =>
    rw [Value.map_rename_id, Value.rename_id]
    exact .errand rfl rfl
  | subscribe stack q c _ =>
    rw [Value.map_rename_id, Callback.rename_id]
    exact .errand rfl rfl

end Activation

/-! ### One instruction on its own -/

/-- The number of monitors held once the instruction has completed. -/
def Instr.monitorsAfter : Instr → Nat → Nat
  | .monitorEnter, n => n + 1
  | .monitorExit, n => n - 1
  | _, n => n

/-- The faults of code that takes what is not there: operands, monitors, blocks or the end of a
cleanup body. -/
def Fault.isImbalance : Fault → Bool
  | .stackUnderflow _ _ | .monitorUnderflow _ _ | .unknownBlock _ _ | .rawCleanup _ => true
  | _ => false

theorem Ty.toNat_not_isVoid (t : Ty) : (!t.isVoid).toNat = t.slots := by
  cases t <;> rfl

theorem Ty.slots_le_one (t : Ty) : t.slots ≤ 1 := by
  cases t <;> simp [Ty.slots]

namespace Activation

variable {p : Program} {s t : Store} {a b : Activation} {i : Instr} {rest : List Value}

/-- The activation after an instruction that has completed. -/
structure Completes (a : Activation) (i : Instr) (b : Activation) : Prop where
  method : b.method = a.method
  block : b.block = a.block
  offset : b.offset = a.offset + 1
  stack : ∃ results, results.length = i.pushes ∧ b.stack = results ++ a.stack.drop i.pops
  locals : ∀ l, i.defines? ≠ some l → b.locals.get l = a.locals.get l
  monitors : b.monitors = i.monitorsAfter a.monitors
  held : i = .monitorExit → a.monitors ≠ 0

/-- The errand of an instruction, which has taken its operands. -/
structure Sends (a : Activation) (i : Instr) (e : Errand) : Prop where
  waiting : e.waiting = { a with stack := a.stack.drop i.pops }
  keep : e.keep.toNat = i.pushes
  mayThrow : i.mayThrow = true
  defines : i.defines? = none
  monitors : ∀ n, i.monitorsAfter n = n

/-- What an instruction can lead to in an activation that has its operands. -/
inductive Obeys (a : Activation) (i : Instr) : Action → Prop where
  | next {b : Activation} : a.Completes i b → a.Obeys i (.next b)
  | throw (e : Value) : i.mayThrow = true → a.Obeys i (.throw e)
  | fault (f : Fault) : f.isImbalance = false → a.Obeys i (.fault f)
  | unheld : i = .monitorExit → a.monitors = 0 →
      a.Obeys i (.fault (.monitorUnderflow a.method.name a.location))
  | errand {action : Action} {e : Errand} : action.errand? = some e → a.Sends i e →
      a.Obeys i action

theorem ne_monitorExit (h : ∀ n, i.monitorsAfter n = n) : i ≠ .monitorExit := by
  rintro rfl
  exact absurd (h 1) (by decide)

theorem completes_advance (hmonitors : ∀ n, i.monitorsAfter n = n)
    (hrest : a.stack.drop i.pops = rest) (results : List Value)
    (hresults : results.length = i.pushes) : a.Completes i (a.advance (results ++ rest)) where
  method := rfl
  block := rfl
  offset := rfl
  stack := ⟨results, hresults, by rw [hrest]; rfl⟩
  locals _ _ := rfl
  monitors := (hmonitors _).symm
  held h := absurd h (ne_monitorExit hmonitors)

theorem Obeys.advance (hmonitors : ∀ n, i.monitorsAfter n = n)
    (hrest : a.stack.drop i.pops = rest) (results : List Value)
    (hresults : results.length = i.pushes) : a.Obeys i (.next (a.advance (results ++ rest))) :=
  .next (completes_advance hmonitors hrest results hresults)

theorem Sends.completes {e : Errand} (h : a.Sends i e) (v : Value) :
    a.Completes i
      (e.waiting.advance (if e.keep then v :: e.waiting.stack else e.waiting.stack)) := by
  have hresults : (if e.keep then [v] else []).length = i.pushes := by
    rw [← h.keep]
    cases e.keep <;> rfl
  have hnext := completes_advance (a := a) h.monitors rfl _ hresults
  rw [h.waiting]
  cases hkeep : e.keep <;> simp only [hkeep] at hnext <;> exact hnext

theorem obeys_computed (hmonitors : ∀ n, i.monitorsAfter n = n)
    (hthrow : i.mayThrow = true) (hrest : a.stack.drop i.pops = rest) (hpushes : 1 = i.pushes)
    (s : Store) (c : Computed) : a.Obeys i (a.computed s rest c).2 := by
  cases c with
  | value v => exact .advance hmonitors hrest [v] hpushes
  | mismatch m => exact .fault _ rfl
  | divisionByZero => exact .throw _ hthrow

theorem obeys_unwrapped (hmonitors : ∀ n, i.monitorsAfter n = n)
    (hthrow : i.mayThrow = true) (hrest : a.stack.drop i.pops = rest) (hpushes : 1 = i.pushes)
    (s : Store) (o : Outcome Value) : a.Obeys i (a.unwrapped s rest o).2 := by
  cases o with
  | fulfilled v => exact .advance hmonitors hrest [v] hpushes
  | rejected e => exact .throw _ hthrow

/-- The future is the top of a stack, from which operands may have been taken before. -/
theorem obeys_withFuture {k : Nat → List Value → Store × Action} (hne : b.stack ≠ [])
    (hk : ∀ q rest, b.stack = .future q :: rest → a.Obeys i (k q rest).2) (s : Store) :
    a.Obeys i (b.withFuture s k).2 := by
  unfold withFuture
  split
  · rename_i q rest hstack
    exact hk q rest hstack
  · exact .fault _ rfl
  · rename_i hnil
    exact absurd hnil hne

theorem obeys_withFrame {k : Nat → Store × Action} (hk : ∀ f, a.Obeys i (k f).2) (s : Store)
    (l : Nat) : a.Obeys i (a.withFrame s l k).2 := by
  unfold withFrame
  split
  · exact hk _
  · exact .fault _ rfl

theorem take?_of_le {n : Nat} (h : n ≤ a.stack.length) :
    a.take? n = some ((a.stack.take n).reverse, a.stack.drop n) := if_pos h

theorem take?_of_lt {n : Nat} (h : a.stack.length < n) : a.take? n = none :=
  if_neg (Nat.not_le.2 h)

theorem exists_two (h : 2 ≤ a.stack.length) : ∃ v w below, a.stack = v :: w :: below := by
  rcases hstack : a.stack with _ | ⟨v, _ | ⟨w, below⟩⟩
  · simp [hstack] at h
  · simp [hstack] at h
  · exact ⟨v, w, below, rfl⟩

/-- **An instruction without its operands** is an underflow of the activation itself. -/
theorem exec_of_short (h : a.stack.length < i.pops) (s : Store) :
    a.exec s i = (s, .fault a.underflow) := by
  have hnil : i.pops = 1 → a.stack = [] := by
    intro hpops
    exact eq_nil_of_length_eq_zero (by omega)
  cases i with
  | push c | load l | futureNew | frameLoad f l | frameOuter f => exact absurd h (Nat.not_lt_zero _)
  | store l | pop | dup | unary op | monitorEnter | monitorExit | futureIsDone | futureJoin
  | outcomeUnwrap | frameNew n | frameStore f l | resume d k f =>
    simp only [exec, withFuture, hnil rfl]
  | swap | binary op =>
    rcases hstack : a.stack with _ | ⟨v, _ | ⟨w, below⟩⟩
    · simp only [exec, hstack]
    · simp only [exec, hstack]
    · rw [hstack] at h
      exact absurd h (Nat.not_lt.2 (Nat.le_add_left 2 _))
  | futureFulfill | futureReject =>
    rcases hstack : a.stack with _ | ⟨v, _ | ⟨w, below⟩⟩
    · simp only [exec, hstack]
    · simp only [exec, withFuture, hstack]
      rfl
    · rw [hstack] at h
      exact absurd h (Nat.not_lt.2 (Nat.le_add_left 2 _))
  | invoke c => simp only [exec, take?_of_lt (n := c.argc) h]
  | construct cls n => simp only [exec, take?_of_lt (n := n) h]
  | closure m n => simp only [exec, take?_of_lt (n := n) h]
  | callClosure n ret =>
    rcases Nat.lt_succ_iff_lt_or_eq.1 h with hlt | heq
    · simp only [exec, take?_of_lt hlt]
    · have hdrop : a.stack.drop n = [] := drop_eq_nil_of_le (Nat.le_of_eq heq)
      simp only [exec, take?_of_le (Nat.le_of_eq heq.symm), hdrop]

/-- **One instruction** in an activation that has its operands. -/
theorem obeys_exec (h : i.pops ≤ a.stack.length) (s : Store) : a.Obeys i (a.exec s i).2 := by
  obtain ⟨method, locals, stack, monitors, block, offset, depth⟩ := a
  cases i with
  | push c => exact .advance (fun _ => rfl) rfl [_] rfl
  | load l => exact .advance (fun _ => rfl) rfl [_] rfl
  | futureNew => exact .advance (fun _ => rfl) rfl [_] rfl
  | store l =>
    obtain ⟨v, below, rfl⟩ := exists_cons_of_length_pos h
    refine .next ⟨rfl, rfl, rfl, ⟨[], rfl, rfl⟩, fun k hk => ?_, rfl, fun h => by cases h⟩
    have hne : k ≠ l := fun h => hk (congrArg some h.symm)
    exact (Locals.get_set locals l k v).trans (if_neg hne)
  | dup =>
    obtain ⟨v, below, rfl⟩ := exists_cons_of_length_pos h
    exact .advance (fun _ => rfl) rfl [v, v] rfl
  | pop =>
    obtain ⟨v, below, rfl⟩ := exists_cons_of_length_pos h
    exact .advance (fun _ => rfl) rfl [] rfl
  | swap =>
    obtain ⟨v, w, below, rfl⟩ := exists_two h
    exact .advance (fun _ => rfl) rfl [w, v] rfl
  | binary op =>
    obtain ⟨right, left, below, rfl⟩ := exists_two h
    exact obeys_computed (fun _ => rfl) rfl rfl rfl s _
  | unary op =>
    obtain ⟨v, below, rfl⟩ := exists_cons_of_length_pos h
    exact obeys_computed (fun _ => rfl) rfl rfl rfl s _
  | invoke c =>
    simp only [exec, take?_of_le (n := c.argc) h]
    exact .errand rfl ⟨rfl, c.ret.toNat_not_isVoid, rfl, rfl, fun _ => rfl⟩
  | construct cls n | closure m n =>
    simp only [exec, take?_of_le (n := n) h]
    exact .advance (fun _ => rfl) rfl [_] rfl
  | monitorEnter =>
    obtain ⟨v, below, rfl⟩ := exists_cons_of_length_pos h
    exact .next ⟨rfl, rfl, rfl, ⟨[], rfl, rfl⟩, fun _ _ => rfl, rfl, fun h => by cases h⟩
  | monitorExit =>
    obtain ⟨v, below, rfl⟩ := exists_cons_of_length_pos h
    simp only [exec]
    split
    · rename_i hnone
      exact .unheld rfl hnone
    · rename_i hsome
      exact .next
        ⟨rfl, rfl, rfl, ⟨[], rfl, rfl⟩, fun _ _ => rfl, rfl, fun _ => hsome⟩
  | callClosure n ret =>
    have hle : n ≤ stack.length := Nat.le_of_succ_le h
    have hne : 0 < (stack.drop n).length := by
      rw [length_drop]
      exact Nat.sub_pos_of_lt h
    obtain ⟨v, below, hdrop⟩ := exists_cons_of_length_pos hne
    have hbelow : stack.drop (n + 1) = below := by
      rw [← drop_drop, hdrop]
      rfl
    simp only [exec, take?, if_pos hle, hdrop]
    cases v with
    | closure id method captures =>
      exact .errand rfl ⟨by rw [← hbelow]; rfl, ret.toNat_not_isVoid, rfl, rfl, fun _ => rfl⟩
    | _ => exact .fault _ rfl
  | futureIsDone | frameNew n =>
    refine obeys_withFuture (ne_nil_of_length_pos h) (fun q below hstack => ?_) s
    cases hstack
    exact .advance (fun _ => rfl) rfl [_] rfl
  | futureJoin =>
    refine obeys_withFuture (ne_nil_of_length_pos h) (fun q below hstack => ?_) s
    cases hstack
    split
    · exact obeys_unwrapped (fun _ => rfl) rfl rfl rfl s _
    · exact .fault _ rfl
  | futureFulfill | futureReject =>
    obtain ⟨v, w, below, rfl⟩ := exists_two h
    refine obeys_withFuture (cons_ne_nil w below) (fun q rest hrest => ?_) s
    cases hrest
    exact .errand rfl ⟨rfl, rfl, rfl, rfl, fun _ => rfl⟩
  | frameLoad f slot | frameOuter f =>
    refine obeys_withFrame (fun f => ?_) s f
    split
    · exact .advance (fun _ => rfl) rfl [_] rfl
    · exact .fault _ rfl
  | frameStore f slot =>
    obtain ⟨v, below, rfl⟩ := exists_cons_of_length_pos h
    refine obeys_withFrame (fun f => ?_) s f
    split
    · exact .advance (fun _ => rfl) rfl [] rfl
    · exact .fault _ rfl
  | outcomeUnwrap =>
    obtain ⟨v, below, rfl⟩ := exists_cons_of_length_pos h
    cases v with
    | outcome o => exact obeys_unwrapped (fun _ => rfl) rfl rfl rfl s o
    | null => exact .advance (fun _ => rfl) rfl [_] rfl
    | _ => exact .fault _ rfl
  | resume d k f =>
    refine obeys_withFuture (ne_nil_of_length_pos h) (fun q below hstack => ?_) s
    cases hstack
    refine obeys_withFrame (fun f => ?_) s f
    exact .errand rfl ⟨rfl, rfl, rfl, rfl, fun _ => rfl⟩

end Activation

/-! ### Execution -/

/-- How the execution of an instruction ends.  A fault is told apart by whose it is. -/
inductive Ending where
  | next (b : Activation)
  | throw (e : Value)
  /-- A fault of the activation itself. -/
  | fault (f : Fault)
  /-- A fault of the code that ran for the activation. -/
  | abandoned (f : Fault)

/-- The ending of an instruction that completes on its own. -/
def Action.ending? : Action → Option Ending
  | .next b => some (.next b)
  | .throw e => some (.throw e)
  | .fault f => some (.fault f)
  | .call _ _ _ _ | .fulfill _ _ _ | .reject _ _ _ | .subscribe _ _ _ => none

theorem Action.ending?_of_errand? {action : Action} {e : Errand} (h : action.errand? = some e) :
    action.ending? = none := by
  cases action <;> first | rfl | cases h

/-- The ending of an instruction whose errand has the given result. -/
def Errand.ending (e : Errand) : Except Unwind Value → Ending
  | .ok v =>
    .next (e.waiting.advance (if e.keep then v :: e.waiting.stack else e.waiting.stack))
  | .error (.throw x) => .throw x
  | .error (.fault f) => .abandoned f

/-- An ending that agrees with what is known of the instruction, which had its operands. -/
def Ending.Fits (i : Instr) (a : Activation) : Ending → Prop
  | .next b => a.Completes i b
  | .throw _ => i.mayThrow = true
  | .fault f =>
    f.isImbalance = false ∨
      (i = .monitorExit ∧ a.monitors = 0 ∧ f = .monitorUnderflow a.method.name a.location)
  | .abandoned _ => True

/-- The same ending, up to locals that the instruction does not write: they are those of `ls`. -/
inductive Ending.Same (i : Instr) (ls : Locals) : Ending → Ending → Prop where
  | next {b : Activation} {ls' : Locals} :
      (∀ l, ls'.get l = if i.defines? = some l then b.locals.get l else ls.get l) →
      Ending.Same i ls (.next b) (.next { b with locals := ls' })
  | throw (e : Value) : Ending.Same i ls (.throw e) (.throw e)
  | fault (f : Fault) : Ending.Same i ls (.fault f) (.fault f)
  | abandoned (f : Fault) : Ending.Same i ls (.abandoned f) (.abandoned f)

/-- The machine after an ending. -/
def Ending.machine (p : Program) (a : Activation) (s : Store) (ts : List Task) : Ending → Machine
  | .next b => ⟨s, .exec b, ts⟩
  | .throw e => ⟨s, p.raise a e, ts⟩
  | .fault f | .abandoned f => ⟨s, .unwind (.fault f), ts⟩

namespace Activation

variable {p : Program} {s t : Store} {a b : Activation} {i : Instr}

/-- **The execution of an instruction**, from a store to another. -/
inductive Executes (p : Program) (s : Store) (a : Activation) (i : Instr) :
    Store → Ending → Prop where
  | alone {t : Store} {action : Action} {r : Ending} :
      a.exec s i = (t, action) → action.ending? = some r → Executes p s a i t r
  | errand {u t : Store} {action : Action} {e : Errand} {x : Except Unwind Value} :
      a.exec s i = (u, action) → action.errand? = some e → (e.work u).Finishes p t x →
      Executes p s a i t (e.ending x)

theorem short_or_obeys {action : Action} (h : a.exec s i = (t, action)) :
    (a.stack.length < i.pops ∧ t = s ∧ action = .fault a.underflow) ∨
      (i.pops ≤ a.stack.length ∧ a.Obeys i action) := by
  rcases Nat.lt_or_ge a.stack.length i.pops with hlt | hge
  · rw [exec_of_short hlt] at h
    cases h
    exact .inl ⟨hlt, rfl, rfl⟩
  · have hobeys := obeys_exec hge s
    rw [h] at hobeys
    exact .inr ⟨hge, hobeys⟩

/-- The errand of an instruction is one for which it has its operands. -/
theorem sends_of_exec {action : Action} {e : Errand} (h : a.exec s i = (t, action))
    (he : action.errand? = some e) : i.pops ≤ a.stack.length ∧ a.Sends i e := by
  rcases short_or_obeys h with ⟨-, -, rfl⟩ | ⟨hle, hobeys⟩
  · cases he
  · cases hobeys with
    | errand he' hsends =>
      rw [he] at he'
      cases he'
      exact ⟨hle, hsends⟩
    | next _ => cases he
    | throw _ _ => cases he
    | fault _ _ => cases he
    | unheld _ _ => cases he

/-- An exception reaches the same handler whether or not the operands have been taken. -/
theorem Sends.raise {e : Errand} (h : a.Sends i e) (p : Program) (x : Value) :
    p.raise e.waiting x = p.raise a x := by
  rw [h.waiting]
  rfl

namespace Executes

variable {r : Ending} {x : Except Unwind Value}

/-- **The machine executes instructions**, whatever waits below. -/
theorem runs {block : Block} (h : a.Executes p s i t r)
    (hblock : a.method.block? a.block = some block)
    (hi : block.instrs[a.offset]? = some i) (ts : List Task) :
    Machine.Runs p ⟨s, .exec a, ts⟩ (r.machine p a t ts) := by
  have hstep : Machine.Step p ⟨s, .exec a, ts⟩ (Machine.act p a ts (a.exec s i)) := by
    simp only [Machine.Step, Machine.step?, Machine.execute, hblock, hi]
  cases h with
  | @alone t action r hexec hr =>
    rw [hexec] at hstep
    cases action with
    | next b =>
      cases hr
      exact hstep.runs
    | throw e =>
      cases hr
      exact hstep.runs
    | fault f =>
      cases hr
      exact hstep.runs
    | _ => cases hr
  | @errand u t action e x hexec he hwork =>
    rw [hexec, Machine.act_of_errand he] at hstep
    obtain ⟨-, hsends⟩ := sends_of_exec hexec he
    cases x with
    | ok v =>
      have hback := hwork.steps_atop (.caller e.waiting e.keep :: ts)
      exact (hstep.runs_trans hback).trans_steps (Machine.Step.steps rfl)
    | error u =>
      have hback := hwork.steps_atop (.caller e.waiting e.keep :: ts)
      cases u with
      | throw x =>
        refine (hstep.runs_trans hback).trans_steps (Machine.Step.steps ?_)
        rw [Errand.ending, Ending.machine, ← hsends.raise p x]
        rfl
      | fault f => exact (hstep.runs_trans hback).trans_steps (Machine.Step.steps rfl)

/-- A machine that comes to its end has executed its first instruction. -/
theorem exists_of_finishes {block : Block} {ts : List Task}
    (h : Machine.Finishes p ⟨s, .exec a, ts⟩ t x) (hblock : a.method.block? a.block = some block)
    (hi : block.instrs[a.offset]? = some i) : ∃ u r, a.Executes p s i u r := by
  have hstep : Machine.Step p ⟨s, .exec a, ts⟩ (Machine.act p a ts (a.exec s i)) := by
    simp only [Machine.Step, Machine.step?, Machine.execute, hblock, hi]
  obtain ⟨u, action, hexec⟩ : ∃ u action, a.exec s i = (u, action) := ⟨_, _, rfl⟩
  cases he : action.errand? with
  | some e =>
    rw [hexec, Machine.act_of_errand he] at hstep
    obtain ⟨t', x', hwork⟩ := (h.after hstep.steps).of_atop
    exact ⟨t', _, .errand hexec he hwork⟩
  | none =>
    cases action with
    | next b => exact ⟨u, _, .alone hexec rfl⟩
    | throw e => exact ⟨u, _, .alone hexec rfl⟩
    | fault f => exact ⟨u, _, .alone hexec rfl⟩
    | _ => cases he

/-- An instruction is executed in one way only. -/
theorem unique {t' : Store} {r' : Ending} (h : a.Executes p s i t r) (h' : a.Executes p s i t' r') :
    t = t' ∧ r = r' := by
  cases h with
  | alone hexec hr =>
    cases h' with
    | alone hexec' hr' =>
      rw [hexec] at hexec'
      cases hexec'
      rw [hr] at hr'
      cases hr'
      exact ⟨rfl, rfl⟩
    | errand hexec' he' _ =>
      rw [hexec] at hexec'
      cases hexec'
      rw [Action.ending?_of_errand? he'] at hr
      cases hr
  | errand hexec he hwork =>
    cases h' with
    | alone hexec' hr' =>
      rw [hexec] at hexec'
      cases hexec'
      rw [Action.ending?_of_errand? he] at hr'
      cases hr'
    | errand hexec' he' hwork' =>
      rw [hexec] at hexec'
      cases hexec'
      rw [he] at he'
      cases he'
      obtain ⟨rfl, rfl⟩ := hwork.unique hwork'
      exact ⟨rfl, rfl⟩

/-- **What an execution does**: without its operands it is an underflow, and with them it ends as
the facts about the instruction say. -/
theorem short_or_fits (h : a.Executes p s i t r) :
    (a.stack.length < i.pops ∧ r = .fault a.underflow) ∨
      (i.pops ≤ a.stack.length ∧ r.Fits i a) := by
  cases h with
  | @alone t action r hexec hr =>
    rcases short_or_obeys hexec with ⟨hlt, -, rfl⟩ | ⟨hle, hobeys⟩
    · cases hr
      exact .inl ⟨hlt, rfl⟩
    · refine .inr ⟨hle, ?_⟩
      cases hobeys with
      | next hb =>
        cases hr
        exact hb
      | throw e hthrow =>
        cases hr
        exact hthrow
      | fault f hf =>
        cases hr
        exact .inl hf
      | unheld hi hnone =>
        cases hr
        exact .inr ⟨hi, hnone, rfl⟩
      | errand he _ =>
        rw [Action.ending?_of_errand? he] at hr
        cases hr
  | @errand u t action e x hexec he hwork =>
    obtain ⟨hle, hsends⟩ := sends_of_exec hexec he
    refine .inr ⟨hle, ?_⟩
    rcases x with (f | f) | v
    · exact hsends.mayThrow
    · trivial
    · exact hsends.completes v

theorem completes (h : a.Executes p s i t (.next b)) :
    i.pops ≤ a.stack.length ∧ a.Completes i b := by
  rcases h.short_or_fits with ⟨-, hr⟩ | hfits
  · cases hr
  · exact hfits

/-- **Only the local that an instruction reads matters.** -/
theorem of_locals {ls : Locals} (h : a.Executes p s i t r)
    (hls : ∀ l, i.uses? = some l → ls.get l = a.locals.get l) :
    ∃ r', { a with locals := ls }.Executes p s i t r' ∧ r.Same i ls r' := by
  obtain ⟨u, x, y, hx, hy, htracks⟩ := tracks_exec a { a with locals := ls }
    (Instr.mapLocals_id i).symm s rfl rfl rfl hls
  cases h with
  | alone hexec hr =>
    cases hx.symm.trans hexec
    cases htracks with
    | next v stack monitors =>
      cases hr
      refine ⟨_, .alone hy rfl, .next fun l => ?_⟩
      simp only [Locals.get_write]
      split <;> rfl
    | throw e _ =>
      cases hr
      exact ⟨_, .alone hy rfl, .throw e⟩
    | fault k _ =>
      cases hr
      exact ⟨_, .alone hy rfl, .fault _⟩
    | errand he _ =>
      rw [Action.ending?_of_errand? he] at hr
      cases hr
  | @errand u t action e x hexec he hwork =>
    cases hx.symm.trans hexec
    obtain ⟨-, hsends⟩ := sends_of_exec hexec he
    cases htracks with
    | errand he₁ he₂ =>
      -- The errand is the same, but for the locals of the activation that waits.
      cases he₁.symm.trans he
      refine ⟨_, .errand hy he₂ hwork, ?_⟩
      rcases x with (f | f) | v
      · exact .throw _
      · exact .abandoned _
      · exact .next fun l => by rw [hsends.defines, if_neg nofun]
    | _ => cases he

end Executes

end Activation

/-! ### Terminators -/

/-- The blocks to which a terminator can lead.  Of the cases of a switch with one value only the
first counts, and the default only if some value has no case. -/
def Terminator.Takes (t : Terminator) (b : Nat) : Prop :=
  match t with
  | .switch cases default =>
    (∃ n, cases.lookup n = some b) ∨ (b = default ∧ ∃ n, cases.lookup n = none)
  | t => b ∈ t.successors

/-- No two cases of a switch have the same value, and some value has no case. -/
def Terminator.Separates : Terminator → Prop
  | .switch cases _ => (cases.map (·.1)).Nodup ∧ ∃ n, n ∉ cases.map (·.1)
  | _ => True

/-- A departure that agrees with what is known of the terminator, which had its operands. -/
def Departure.Fits (t : Terminator) (a : Activation) : Departure → Prop
  | .jump b rest => t.Takes b ∧ rest = a.stack.drop (t.pops a.method.ret)
  | .ret v => t = .ret ∧ v = (a.stack.take (t.pops a.method.ret)).headD .null
  | .throw e => t = .raise ∧ [e] = a.stack.take (t.pops a.method.ret)
  | .fault f => f.isImbalance = false ∨ (t = .endCleanup ∧ f = .rawCleanup a.method.name)

namespace Activation

variable {a : Activation} {t : Terminator}

/-- A terminator without its operands is an underflow. -/
theorem leave_of_short (h : a.stack.length < t.pops a.method.ret) :
    a.leave t = .fault a.underflow := by
  cases t with
  | goto target | endCleanup | unreachable => exact absurd h (Nat.not_lt_zero _)
  | branch _ _ | switch _ _ | raise =>
    have hnil : a.stack = [] := eq_nil_of_length_eq_zero (Nat.lt_one_iff.1 h)
    simp only [leave, hnil]
  | ret =>
    have hslots : a.method.ret.isVoid = false := by
      rw [Ty.isVoid, beq_eq_false_iff_ne]
      exact Nat.ne_of_gt (Nat.zero_lt_of_lt h)
    have hnil : a.stack = [] :=
      eq_nil_of_length_eq_zero (Nat.lt_one_iff.1 (Nat.lt_of_lt_of_le h (Ty.slots_le_one _)))
    simp only [leave, hslots, hnil, Bool.false_eq_true, if_false]

/-- **One terminator** in an activation that has its operands. -/
theorem fits_leave (h : t.pops a.method.ret ≤ a.stack.length) : (a.leave t).Fits t a := by
  cases t with
  | goto target => exact ⟨mem_singleton.2 rfl, rfl⟩
  | branch yes no =>
    obtain ⟨v, below, hstack⟩ := exists_cons_of_length_pos h
    have hdrop : a.stack.drop 1 = below := by rw [hstack]; rfl
    simp only [leave, hstack]
    cases v with
    | bool c =>
      cases c with
      | true | false => exact ⟨by simp [Terminator.Takes, Terminator.successors], hdrop.symm⟩
    | _ => exact .inl rfl
  | switch cases default =>
    obtain ⟨v, below, hstack⟩ := exists_cons_of_length_pos h
    have hdrop : a.stack.drop 1 = below := by rw [hstack]; rfl
    simp only [leave, hstack]
    cases v with
    | int n =>
      refine ⟨?_, hdrop.symm⟩
      cases hlookup : cases.lookup n with
      | some b => exact .inl ⟨n, hlookup⟩
      | none => exact .inr ⟨rfl, n, hlookup⟩
    | _ => exact .inl rfl
  | ret =>
    by_cases hvoid : a.method.ret.slots = 0
    · simp only [leave, Ty.isVoid, hvoid, BEq.rfl, if_true]
      exact ⟨rfl, by rw [Terminator.pops, hvoid]; rfl⟩
    · have hslots : a.method.ret.slots = 1 := by
        have hle := Ty.slots_le_one a.method.ret
        omega
      rw [Terminator.pops, hslots] at h
      obtain ⟨v, below, hstack⟩ := exists_cons_of_length_pos h
      simp only [leave, Ty.isVoid, hslots, hstack]
      exact ⟨rfl, by rw [Terminator.pops, hslots, hstack]; rfl⟩
  | raise =>
    obtain ⟨v, below, hstack⟩ := exists_cons_of_length_pos h
    simp only [leave, hstack]
    exact ⟨rfl, by rw [hstack]; rfl⟩
  | endCleanup => exact .inr ⟨rfl, rfl⟩
  | unreachable => exact .inl rfl

theorem leave_short_or_fits (a : Activation) (t : Terminator) :
    (a.stack.length < t.pops a.method.ret ∧ a.leave t = .fault a.underflow) ∨
      (t.pops a.method.ret ≤ a.stack.length ∧ (a.leave t).Fits t a) := by
  rcases Nat.lt_or_ge a.stack.length (t.pops a.method.ret) with hlt | hge
  · exact .inl ⟨hlt, leave_of_short hlt⟩
  · exact .inr ⟨hge, fits_leave hge⟩

/-- **The blocks to which a terminator can lead.** -/
theorem exists_jump_iff (a : Activation) (t : Terminator) (b : Nat) :
    (∃ stack rest, { a with stack := stack }.leave t = .jump b rest) ↔ t.Takes b := by
  constructor
  · rintro ⟨stack, rest, hjump⟩
    rcases leave_short_or_fits { a with stack := stack } t with ⟨-, hfault⟩ | ⟨-, hfits⟩
    · rw [hfault] at hjump
      cases hjump
    · rw [hjump] at hfits
      exact hfits.1
  · intro h
    cases t with
    | goto target =>
      rw [mem_singleton.1 h]
      exact ⟨[], [], rfl⟩
    | branch yes no =>
      rcases mem_pair.1 h with rfl | rfl
      · exact ⟨[.bool true], [], rfl⟩
      · exact ⟨[.bool false], [], rfl⟩
    | switch cases default =>
      rcases h with ⟨n, hn⟩ | ⟨rfl, n, hn⟩
      · exact ⟨[.int n], [], by simp only [leave, hn]; rfl⟩
      · exact ⟨[.int n], [], by simp only [leave, hn]; rfl⟩
    | _ => cases h

end Activation

namespace Terminator

variable {t : Terminator} {b : Nat}

theorem Takes.mem_successors (h : t.Takes b) : b ∈ t.successors := by
  cases t with
  | switch cases default =>
    rcases h with ⟨n, hn⟩ | ⟨rfl, -⟩
    · have hmem := Activation.getD_lookup_mem cases default n
      rw [hn] at hmem
      exact hmem
    · simp [successors]
  | _ => exact h

/-- If the cases separate the values, every successor is taken. -/
theorem Separates.takes (h : t.Separates) (hb : b ∈ t.successors) : t.Takes b := by
  cases t with
  | switch cases default =>
    obtain ⟨hnodup, n, hn⟩ := h
    rcases mem_append.1 hb with hb | hb
    · obtain ⟨⟨k, b⟩, hmem, rfl⟩ := mem_map.1 hb
      obtain ⟨before, after, rfl⟩ := append_of_mem hmem
      rw [map_append, map_cons, nodup_append] at hnodup
      refine .inl ⟨k, lookup_eq_some_iff.2 ⟨before, after, rfl, fun c hc => ?_⟩⟩
      have hne := hnodup.2.2 c.1 (mem_map.2 ⟨c, hc, rfl⟩) k mem_cons_self
      exact bne_iff_ne.2 (Ne.symm hne)
    · refine .inr ⟨mem_singleton.1 hb, n, lookup_eq_none_iff.2 fun c hc => ?_⟩
      exact bne_iff_ne.2 fun h => hn (mem_map.2 ⟨c, hc, h.symm⟩)
  | _ => exact hb

end Terminator

/-! ### The facts -/

/-- **The facts about an instruction agree with its execution.** -/
structure Instr.Accurate (p : Program) (s : Store) (a : Activation) (i : Instr) : Prop where
  /-- Executing it is what the machine does next. -/
  runs : ∀ {block : Block} {t : Store} {r : Ending}, a.method.block? a.block = some block →
    block.instrs[a.offset]? = some i → a.Executes p s i t r →
    ∀ ts, Machine.Runs p ⟨s, .exec a, ts⟩ (r.machine p a t ts)
  /-- A machine that comes to its end has executed it. -/
  executes : ∀ {block : Block} {ts : List Task} {t : Store} {x : Except Unwind Value},
    a.method.block? a.block = some block → block.instrs[a.offset]? = some i →
    Machine.Finishes p ⟨s, .exec a, ts⟩ t x → ∃ u r, a.Executes p s i u r
  unique : ∀ {t t' : Store} {r r' : Ending}, a.Executes p s i t r → a.Executes p s i t' r' →
    t = t' ∧ r = r'
  underflow : (∃ t name place, a.Executes p s i t (.fault (.stackUnderflow name place))) ↔
    a.stack.length < i.pops
  stack : ∀ {t : Store} {b : Activation}, a.Executes p s i t (.next b) →
    i.pops ≤ a.stack.length ∧
      ∃ results, results.length = i.pushes ∧ b.stack = results ++ a.stack.drop i.pops
  throws : ∀ {t : Store} {e : Value}, a.Executes p s i t (.throw e) → i.mayThrow = true
  defines : ∀ {t : Store} {b : Activation}, a.Executes p s i t (.next b) →
    ∀ l, i.defines? ≠ some l → b.locals.get l = a.locals.get l
  uses : ∀ {ls : Locals} {t : Store} {r : Ending},
    (∀ l, i.uses? = some l → ls.get l = a.locals.get l) → a.Executes p s i t r →
    ∃ r', { a with locals := ls }.Executes p s i t r' ∧ r.Same i ls r'
  monitors : ∀ {t : Store} {b : Activation}, a.Executes p s i t (.next b) →
    (i = .monitorEnter → b.monitors = a.monitors + 1) ∧
    (i = .monitorExit → a.monitors = b.monitors + 1) ∧
    (i ≠ .monitorEnter → i ≠ .monitorExit → b.monitors = a.monitors)

/-- **The facts about a terminator agree with what it does.** -/
structure Terminator.Accurate (a : Activation) (t : Terminator) : Prop where
  underflow : (∃ name place, a.leave t = .fault (.stackUnderflow name place)) ↔
    a.stack.length < t.pops a.method.ret
  jump : ∀ {b : Nat} {rest : List Value}, a.leave t = .jump b rest →
    b ∈ t.successors ∧ t.pops a.method.ret ≤ a.stack.length ∧
      rest = a.stack.drop (t.pops a.method.ret)
  ret : ∀ {v : Value}, a.leave t = .ret v →
    t = .ret ∧ v = (a.stack.take (t.pops a.method.ret)).headD .null
  throw : ∀ {e : Value}, a.leave t = .throw e →
    t = .raise ∧ [e] = a.stack.take (t.pops a.method.ret)
  /-- The blocks to which it can lead. -/
  leads : ∀ b, (∃ stack rest, { a with stack := stack }.leave t = .jump b rest) ↔ t.Takes b
  /-- They are the successors, but for those of cases that no value selects. -/
  successors : t.Separates → ∀ b, t.Takes b ↔ b ∈ t.successors

theorem Instr.accurate (p : Program) (s : Store) (a : Activation) (i : Instr) :
    i.Accurate p s a where
  runs hblock hi h ts := h.runs hblock hi ts
  executes hblock hi h := Activation.Executes.exists_of_finishes h hblock hi
  unique h h' := h.unique h'
  underflow := by
    constructor
    · rintro ⟨t, name, place, h⟩
      rcases h.short_or_fits with ⟨hlt, -⟩ | ⟨-, hfits⟩
      · exact hlt
      · rcases hfits with hfits | ⟨-, -, hfits⟩
        · cases hfits
        · cases hfits
    · intro hlt
      exact ⟨s, _, _, .alone (Activation.exec_of_short hlt s) rfl⟩
  stack h := ⟨h.completes.1, h.completes.2.stack⟩
  throws h := by
    rcases h.short_or_fits with ⟨-, hr⟩ | ⟨-, hfits⟩
    · cases hr
    · exact hfits
  defines h := h.completes.2.locals
  uses hls h := h.of_locals hls
  monitors h := by
    obtain ⟨-, hb⟩ := h.completes
    have hmonitors := hb.monitors
    refine ⟨?_, ?_, ?_⟩
    · rintro rfl
      exact hmonitors
    · rintro rfl
      have hheld := hb.held rfl
      simp only [Instr.monitorsAfter] at hmonitors
      omega
    · intro henter hexit
      rw [hmonitors]
      unfold Instr.monitorsAfter
      split
      · exact absurd rfl henter
      · exact absurd rfl hexit
      · rfl

theorem Terminator.accurate (a : Activation) (t : Terminator) : t.Accurate a where
  underflow := by
    constructor
    · rintro ⟨name, place, h⟩
      rcases a.leave_short_or_fits t with ⟨hlt, -⟩ | ⟨-, hfits⟩
      · exact hlt
      · rw [h] at hfits
        rcases hfits with hfits | ⟨-, hfits⟩
        · cases hfits
        · cases hfits
    · intro hlt
      exact ⟨_, _, Activation.leave_of_short hlt⟩
  jump h := by
    rcases a.leave_short_or_fits t with ⟨-, hfault⟩ | ⟨hle, hfits⟩
    · rw [hfault] at h
      cases h
    · rw [h] at hfits
      exact ⟨hfits.1.mem_successors, hle, hfits.2⟩
  ret h := by
    rcases a.leave_short_or_fits t with ⟨-, hfault⟩ | ⟨-, hfits⟩
    · rw [hfault] at h
      cases h
    · rw [h] at hfits
      exact hfits
  throw h := by
    rcases a.leave_short_or_fits t with ⟨-, hfault⟩ | ⟨-, hfits⟩
    · rw [hfault] at h
      cases h
    · rw [h] at hfits
      exact hfits
  leads := a.exists_jump_iff t
  successors h _ := ⟨Takes.mem_successors, h.takes⟩

/-- **What the analyses know of the code is what the machine does.** -/
theorem accurate_facts (p : Program) (s : Store) (a : Activation) :
    (∀ i : Instr, i.Accurate p s a) ∧ ∀ t : Terminator, t.Accurate a :=
  ⟨Instr.accurate p s a, Terminator.accurate a⟩

/-- A successor to which control never goes: the case before has the same value. -/
theorem exists_successor_not_taken :
    ¬ ∀ b, b ∈ (Terminator.switch [(1, 2), (1, 3)] 4).successors ↔
      ∃ (a : Activation) (rest : List Value),
        a.leave (Terminator.switch [(1, 2), (1, 3)] 4) = .jump b rest := by
  intro h
  obtain ⟨a, rest, hjump⟩ := (h 3).1 (by decide)
  have htakes := (a.exists_jump_iff _ 3).1 ⟨a.stack, rest, hjump⟩
  rcases htakes with ⟨n, hn⟩ | ⟨hdefault, -⟩
  · rw [List.lookup_cons, List.lookup_cons, List.lookup_nil] at hn
    cases hn1 : n == 1 <;> rw [hn1] at hn <;> cases hn
  · cases hdefault

end Resumable
