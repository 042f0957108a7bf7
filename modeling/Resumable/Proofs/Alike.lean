/-
**Machines that run alike.**

Two machines are alike if one is the other with its cells renamed, whatever the depths of calls are.
They stay alike step by step, also when the two programs differ, as long as neither enters a method
on which they differ and neither gets to the limit on the depth of calls.

One lemma says what an instruction does in two activations, `Activation.follows_exec`.  It allows
the locals to be numbered differently, so it serves both for code that two programs share and for
code that was taken over into another method.

Main results:

* `Activation.follows_exec` — **one instruction in two activations**;
* `Machine.Alike.step` — **machines that are alike stay alike**.
-/

import Mathlib.Data.List.Forall2
import Resumable.Proofs.Renaming
import Resumable.Proofs.Sequences

set_option autoImplicit false

namespace Resumable

open List

/-! ### Faults without their places -/

namespace Fault

/-- The fault, told without the place in the method where it arose. -/
def unplaced : Fault → Fault
  | stackUnderflow method _ => stackUnderflow method ⟨0, 0⟩
  | mismatch method _ m => mismatch method ⟨0, 0⟩ m
  | unreachable method _ => unreachable method ⟨0, 0⟩
  | unknownBlock method _ => unknownBlock method 0
  | monitorUnderflow method _ => monitorUnderflow method ⟨0, 0⟩
  | f => f

/-- The fault, had it arisen at `here` in the method of that name. -/
def placed (name : String) (here : Location) : Fault → Fault
  | stackUnderflow _ _ => stackUnderflow name here
  | mismatch _ _ m => mismatch name here m
  | unreachable _ _ => unreachable name here
  | rawCleanup _ => rawCleanup name
  | unknownBlock _ _ => unknownBlock name here.block
  | monitorUnderflow _ _ => monitorUnderflow name here
  | f => f

/-- The method and the place make no other difference to the fault. -/
def AnyPlace (k : String → Location → Fault) : Prop :=
  ∀ name name' here there, k name' there = (k name here).placed name' there

/-- Told without the place, a fault is the same wherever in the method it arose. -/
theorem unplaced_placed (f : Fault) (name : String) (here there : Location) :
    (f.placed name here).unplaced = (f.placed name there).unplaced := by
  cases f <;> rfl

/-- **The fault of a dispatcher that answers the fault of its method.** -/
inductive Answers (method dispatcher : String) : Fault → Fault → Prop where
  /-- Something they called comes to it. -/
  | same (f : Fault) : Answers method dispatcher f f
  /-- The code of both comes to it, each at its own place. -/
  | moved (f : Fault) (here there : Location) : f = f.placed method here →
      Answers method dispatcher f (f.placed dispatcher there)
  /-- A marker is given something else than a future: where the method calls it, the dispatcher
  asks whether the future is done. -/
  | marker (name sort : String) (there : Location) :
      Answers method dispatcher (arity name 1 1) (mismatch dispatcher there (.expectedFuture sort))

/-- A fault that only names its place is answered by the same fault at the other place. -/
theorem AnyPlace.answers {k : String → Location → Fault} (hk : AnyPlace k)
    {method dispatcher name name' : String} (hname : name = method) (hname' : name' = dispatcher)
    (here there : Location) : Answers method dispatcher (k name here) (k name' there) := by
  subst hname hname'
  rw [hk name name' here there]
  exact .moved _ here there (hk name name here here)

end Fault

/-! ### One instruction -/

/-- The locals after an instruction that gives the local it writes, if any, the value `v`. -/
def Locals.write (ls : Locals) (i : Instr) (v : Value) : Locals :=
  match i.defines? with
  | some l => ls.set l v
  | none => ls

/-- With other numbers for the locals, an instruction stores the local with the new number. -/
theorem Instr.defines?_mapLocals (f : Nat → Nat) (i : Instr) :
    (i.mapLocals f).defines? = i.defines?.map f := by
  cases i <;> rfl

theorem Instr.uses?_mapLocals (f : Nat → Nat) (i : Instr) :
    (i.mapLocals f).uses? = i.uses?.map f := by
  cases i <;> rfl

namespace Activation

/-- What an instruction leads to in two activations.  The locals of the second are numbered by `f`,
and its cells are renamed by `ρ`.  Faults name the place where they arise. -/
inductive Follows (ρ : Renaming) (f : Nat → Nat) (i : Instr) (a b : Activation) :
    Action → Action → Prop where
  | next (v : Value) (stack : List Value) (monitors : Nat) :
      Follows ρ f i a b
        (.next { a with
          locals := a.locals.write i v, stack := stack, monitors := monitors
          offset := a.offset + 1 })
        (.next { b with
          locals := b.locals.write (i.mapLocals f) (v.rename ρ)
          stack := stack.map (Value.rename ρ), monitors := monitors, offset := b.offset + 1 })
  | throw (e : Value) : i.mayThrow = true → Follows ρ f i a b (.throw e) (.throw (e.rename ρ))
  | fault (k : String → Location → Fault) : Fault.AnyPlace k →
      Follows ρ f i a b (.fault (k a.method.name a.location))
        (.fault (k b.method.name b.location))
  | call (stack : List Value) (name : String) (args : List Value) (keep : Bool) :
      i.mayThrow = true →
      Follows ρ f i a b (.call { a with stack := stack } name args keep)
        (.call { b with stack := stack.map (Value.rename ρ) } name
          (args.map (Value.rename ρ)) keep)
  | fulfill (stack : List Value) (p : Nat) (v : Value) : i.isProtocol = true →
      Follows ρ f i a b (.fulfill { a with stack := stack } p v)
        (.fulfill { b with stack := stack.map (Value.rename ρ) } (ρ.promise p) (v.rename ρ))
  | reject (stack : List Value) (p : Nat) (e : Value) : i.isProtocol = true →
      Follows ρ f i a b (.reject { a with stack := stack } p e)
        (.reject { b with stack := stack.map (Value.rename ρ) } (ρ.promise p) (e.rename ρ))
  | subscribe (stack : List Value) (p : Nat) (c : Callback) : i.isProtocol = true →
      Follows ρ f i a b (.subscribe { a with stack := stack } p c)
        (.subscribe { b with stack := stack.map (Value.rename ρ) } (ρ.promise p) (c.rename ρ))

section Exec

variable {ρ : Renaming} {f : Nat → Nat} {base s t : Store} {a b : Activation}

/-- The same number of operands can be taken from a renamed stack, and they are renamed. -/
theorem take?_map (hstack : b.stack = a.stack.map (Value.rename ρ)) (n : Nat) :
    b.take? n = (a.take? n).map fun c =>
      (c.1.map (Value.rename ρ), c.2.map (Value.rename ρ)) := by
  simp only [take?, hstack, length_map]
  split
  · simp only [Option.map_some, map_take, map_drop, map_reverse]
  · rfl

variable {i : Instr}

/-- What an instruction leads to in two activations, from stores that are renamed. -/
structure Parallels (ρ : Renaming) (f : Nat → Nat) (base : Store) (i : Instr) (a b : Activation)
    (x y : Store × Action) : Prop where
  stores : Store.Renamed ρ base x.1 y.1
  actions : Follows ρ f i a b x.2 y.2

theorem Follows.advance (hi : i.defines? = none) (hmon : b.monitors = a.monitors)
    (stack : List Value) :
    Follows ρ f i a b (.next (a.advance stack))
      (.next (b.advance (stack.map (Value.rename ρ)))) := by
  have h := Follows.next (ρ := ρ) (f := f) (i := i) (a := a) (b := b) .null stack a.monitors
  simp only [Locals.write, Instr.defines?_mapLocals, hi, Option.map_none] at h
  rw [Activation.advance, Activation.advance, hmon]
  exact h

theorem Follows.push (hi : i.defines? = none) (hmon : b.monitors = a.monitors)
    (hstack : b.stack = a.stack.map (Value.rename ρ)) {v w : Value} (hv : w = v.rename ρ) :
    Follows ρ f i a b (.next (a.advance (v :: a.stack))) (.next (b.advance (w :: b.stack))) := by
  rw [hstack, hv]
  exact .advance hi hmon (v :: a.stack)

namespace Parallels

theorem underflow (hs : Store.Renamed ρ base s t) :
    Parallels ρ f base i a b (s, .fault a.underflow) (t, .fault b.underflow) :=
  ⟨hs, .fault .stackUnderflow fun _ _ _ _ => rfl⟩

theorem mismatch (hs : Store.Renamed ρ base s t) (m : Mismatch) :
    Parallels ρ f base i a b (s, .fault (a.mismatch m)) (t, .fault (b.mismatch m)) :=
  ⟨hs, .fault (fun name loc => .mismatch name loc m) fun _ _ _ _ => rfl⟩

/-- An operator gives the same result on both sides, up to the renaming. -/
theorem computed (hi : i.defines? = none) (ht : i.mayThrow = true)
    (hs : Store.Renamed ρ base s t) (hmon : b.monitors = a.monitors) (rest : List Value)
    (c : Computed) : Parallels ρ f base i a b (a.computed s rest c)
      (b.computed t (rest.map (Value.rename ρ)) (c.rename ρ)) := by
  cases c with
  | value v => exact ⟨hs, .advance hi hmon (v :: rest)⟩
  | divisionByZero =>
    obtain ⟨hnew, hv⟩ := hs.newException "ArithmeticException" "/ by zero"
    refine ⟨hnew, ?_⟩
    simp only [Activation.computed, Computed.rename, hv]
    exact .throw _ ht
  | mismatch m => exact mismatch hs m

/-- An outcome that is unwrapped gives the same value, or throws the same exception. -/
theorem unwrapped (hi : i.defines? = none) (ht : i.mayThrow = true)
    (hs : Store.Renamed ρ base s t) (hmon : b.monitors = a.monitors) (rest : List Value)
    (o : Outcome Value) : Parallels ρ f base i a b (a.unwrapped s rest o)
      (b.unwrapped t (rest.map (Value.rename ρ)) (o.map (Value.rename ρ))) := by
  cases o with
  | fulfilled v => exact ⟨hs, .advance hi hmon (v :: rest)⟩
  | rejected e => exact ⟨hs, .throw e ht⟩

/-- Going on with the future on top of a stack, which may be what is left after other operands. -/
theorem withFuture (hs : Store.Renamed ρ base s t) {stack stack' : List Value}
    (hstack : stack' = stack.map (Value.rename ρ)) {k j : Nat → List Value → Store × Action}
    (hk : ∀ p rest,
      Parallels ρ f base i a b (k p rest) (j (ρ.promise p) (rest.map (Value.rename ρ)))) :
    Parallels ρ f base i a b ({ a with stack := stack }.withFuture s k)
      ({ b with stack := stack' }.withFuture t j) := by
  subst hstack
  unfold Activation.withFuture
  cases stack with
  | nil => exact underflow hs
  | cons v rest =>
    cases v with
    | future p => exact hk p rest
    | _ => exact mismatch hs _

/-- An instruction on a frame finds the frame on both sides, or fails on both. -/
theorem withFrame {l l' : Nat} (hs : Store.Renamed ρ base s t)
    (hl : b.locals.get l' = (a.locals.get l).rename ρ) {k j : Nat → Store × Action}
    (hk : ∀ c, Parallels ρ f base i a b (k c) (j (ρ.frame c))) :
    Parallels ρ f base i a b (a.withFrame s l k) (b.withFrame t l' j) := by
  unfold Activation.withFrame
  rw [hl]
  cases a.locals.get l with
  | frame c => exact hk c
  | _ => exact mismatch hs _

end Parallels

/-- **One instruction in two activations.**  If the stacks and monitors correspond, and the local
that the instruction reads, then what it leads to corresponds, and the stores stay renamed. -/
theorem follows_exec (i : Instr) (hs : Store.Renamed ρ base s t)
    (hstack : b.stack = a.stack.map (Value.rename ρ)) (hmon : b.monitors = a.monitors)
    (huse : ∀ l, i.uses? = some l → b.locals.get (f l) = (a.locals.get l).rename ρ) :
    Parallels ρ f base i a b (a.exec s i) (b.exec t (i.mapLocals f)) := by
  cases i with
  | push c => exact ⟨hs, .push rfl hmon hstack (Value.rename_ofConst ..).symm⟩
  | load l => exact ⟨hs, .push rfl hmon hstack (huse l rfl)⟩
  | store l =>
    simp only [exec, Instr.mapLocals, hstack]
    cases a.stack with
    | nil => exact .underflow hs
    | cons v rest =>
      refine ⟨hs, ?_⟩
      have h := Follows.next (ρ := ρ) (f := f) (i := .store l) (a := a) (b := b) v rest a.monitors
      simp only [map_cons, Activation.advance, hmon]
      exact h
  | dup =>
    simp only [exec, Instr.mapLocals, hstack]
    cases a.stack with
    | nil => exact .underflow hs
    | cons v rest => exact ⟨hs, .advance rfl hmon (v :: v :: rest)⟩
  | pop =>
    simp only [exec, Instr.mapLocals, hstack]
    cases a.stack with
    | nil => exact .underflow hs
    | cons v rest => exact ⟨hs, .advance rfl hmon rest⟩
  | swap =>
    simp only [exec, Instr.mapLocals, hstack]
    rcases a.stack with _ | ⟨v, _ | ⟨w, rest⟩⟩
    · exact .underflow hs
    · exact .underflow hs
    · exact ⟨hs, .advance rfl hmon (w :: v :: rest)⟩
  | binary op =>
    simp only [exec, Instr.mapLocals, hstack]
    rcases a.stack with _ | ⟨right, _ | ⟨left, rest⟩⟩
    · exact .underflow hs
    · exact .underflow hs
    · simp only [map_cons, BinaryOp.apply_rename]
      exact .computed rfl rfl hs hmon rest _
  | unary op =>
    simp only [exec, Instr.mapLocals, hstack]
    cases a.stack with
    | nil => exact .underflow hs
    | cons v rest =>
      simp only [map_cons, UnaryOp.apply_rename]
      exact .computed rfl rfl hs hmon rest _
  | invoke callee =>
    simp only [exec, Instr.mapLocals, take?_map hstack]
    cases a.take? callee.argc with
    | none => exact .underflow hs
    | some c => exact ⟨hs, .call c.2 callee.name c.1 _ rfl⟩
  | construct cls argc =>
    simp only [exec, Instr.mapLocals, take?_map hstack]
    cases a.take? argc with
    | none => exact .underflow hs
    | some c =>
      obtain ⟨hnew, hv⟩ := hs.newObject cls c.1
      refine ⟨hnew, ?_⟩
      simp only [Option.map_some, hv]
      exact .advance rfl hmon ((s.newObject cls c.1).2 :: c.2)
  | monitorEnter =>
    simp only [exec, Instr.mapLocals, hstack]
    cases a.stack with
    | nil => exact .underflow hs
    | cons v rest =>
      refine ⟨hs, ?_⟩
      simp only [map_cons, Activation.advance, hmon]
      exact .next .null rest (a.monitors + 1)
  | monitorExit =>
    simp only [exec, Instr.mapLocals, hstack]
    cases a.stack with
    | nil => exact .underflow hs
    | cons v rest =>
      simp only [map_cons, Activation.advance, hmon]
      split
      · exact ⟨hs, .fault .monitorUnderflow fun _ _ _ _ => rfl⟩
      · exact ⟨hs, .next .null rest (a.monitors - 1)⟩
  | closure method captures =>
    simp only [exec, Instr.mapLocals, take?_map hstack]
    cases a.take? captures with
    | none => exact .underflow hs
    | some c =>
      obtain ⟨hnew, hv⟩ := hs.newClosure method c.1
      refine ⟨hnew, ?_⟩
      simp only [Option.map_some, hv]
      exact .advance rfl hmon ((s.newClosure method c.1).2 :: c.2)
  | callClosure argc ret =>
    simp only [exec, Instr.mapLocals, take?_map hstack]
    rcases a.take? argc with _ | ⟨args, _ | ⟨v, rest⟩⟩
    · exact .underflow hs
    · exact .underflow hs
    · cases v with
      | closure identity method captures =>
        have h := Follows.call (ρ := ρ) (f := f) (i := .callClosure argc ret) (a := a) (b := b)
          rest method (captures ++ args) (!ret.isVoid) rfl
        simp only [map_append] at h
        simp only [Option.map_some, map_cons, Value.rename, Value.renameList_eq_map]
        exact ⟨hs, h⟩
      | _ => exact .mismatch hs _
  | futureNew =>
    obtain ⟨hnew, hid⟩ := hs.newPromise
    exact ⟨hnew, .push rfl hmon hstack (congrArg Value.future hid)⟩
  | futureIsDone =>
    refine .withFuture hs hstack fun p rest => ⟨hs, ?_⟩
    rw [hs.isSettled]
    exact .advance rfl hmon (.bool (s.isSettled p) :: rest)
  | futureJoin =>
    refine .withFuture hs hstack fun p rest => ?_
    simp only [hs.outcome?]
    cases s.outcome? p with
    | none => exact ⟨hs, .fault (fun _ _ => .wouldBlock "future_join") fun _ _ _ _ => rfl⟩
    | some o => exact .unwrapped rfl rfl hs hmon rest o
  | futureFulfill =>
    simp only [exec, Instr.mapLocals, hstack]
    cases a.stack with
    | nil => exact .underflow hs
    | cons v below => exact .withFuture hs rfl fun p rest => ⟨hs, .fulfill rest p v rfl⟩
  | futureReject =>
    simp only [exec, Instr.mapLocals, hstack]
    cases a.stack with
    | nil => exact .underflow hs
    | cons e below => exact .withFuture hs rfl fun p rest => ⟨hs, .reject rest p e rfl⟩
  | frameNew slots =>
    refine .withFuture hs hstack fun p rest => ?_
    obtain ⟨hnew, hid⟩ := hs.newFrame p slots
    have h := Follows.advance (ρ := ρ) (f := f) (i := .frameNew slots) rfl hmon
      (.frame (s.newFrame p slots).2 :: rest)
    rw [map_cons, Value.rename, ← hid] at h
    exact ⟨hnew, h⟩
  | frameLoad frame slot =>
    refine .withFrame hs (huse frame rfl) fun c => ?_
    simp only [hs.loadSlot?]
    cases s.loadSlot? c slot with
    | none => exact .mismatch hs _
    | some v => exact ⟨hs, .push rfl hmon hstack rfl⟩
  | frameStore frame slot =>
    simp only [exec, Instr.mapLocals, hstack]
    cases a.stack with
    | nil => exact .underflow hs
    | cons v rest =>
      refine .withFrame hs (huse frame rfl) fun c => ?_
      rcases hs.storeSlot? c slot v with ⟨h₁, h₂⟩ | ⟨s', t', h₁, h₂, hs'⟩
      · simp only [h₁, h₂]
        exact .mismatch hs _
      · simp only [h₁, h₂]
        exact ⟨hs', .advance rfl hmon rest⟩
  | frameOuter frame =>
    refine .withFrame hs (huse frame rfl) fun c => ?_
    simp only [hs.outer?]
    cases s.outer? c with
    | none => exact .mismatch hs _
    | some p => exact ⟨hs, .push rfl hmon hstack rfl⟩
  | outcomeUnwrap =>
    simp only [exec, Instr.mapLocals, hstack]
    cases a.stack with
    | nil => exact .underflow hs
    | cons v rest =>
      cases v with
      | outcome o =>
        simp only [map_cons, Value.rename, Value.renameOutcome_eq_map]
        exact .unwrapped rfl rfl hs hmon rest o
      | null => exact ⟨hs, .advance rfl hmon (.null :: rest)⟩
      | _ => exact .mismatch hs _
  | resume dispatcher state frame =>
    refine .withFuture hs hstack fun p rest => ?_
    refine .withFrame hs (huse frame rfl) fun c => ⟨hs, ?_⟩
    rw [hs.ambient]
    exact .subscribe rest p (.resume dispatcher state c s.ambient) rfl

end Exec

/-! ### The end of a block -/

/-- Where a terminator leads in two activations.  The targets of the second are numbered by `g`. -/
inductive Parts (ρ : Renaming) (g : Nat → Nat) (t : Terminator) (a b : Activation) :
    Departure → Departure → Prop where
  | jump (k : Nat) (stack : List Value) : k ∈ t.successors →
      Parts ρ g t a b (.jump k stack) (.jump (g k) (stack.map (Value.rename ρ)))
  | ret (v : Value) : t = .ret → Parts ρ g t a b (.ret v) (.ret (v.rename ρ))
  | throw (e : Value) : t = .raise → Parts ρ g t a b (.throw e) (.throw (e.rename ρ))
  | fault (k : String → Location → Fault) : Fault.AnyPlace k →
      Parts ρ g t a b (.fault (k a.method.name a.location))
        (.fault (k b.method.name b.location))

/-- A switch to renumbered targets takes the same case. -/
theorem lookup_map_snd (g : Nat → Nat) (cases : List (Int64 × Nat)) (n : Int64) :
    (cases.map fun c => (c.1, g c.2)).lookup n = (cases.lookup n).map g := by
  induction cases with
  | nil => rfl
  | cons c cs ih =>
    rw [map_cons, lookup_cons, lookup_cons]
    cases n == c.1 with
    | true => rfl
    | false => exact ih

theorem getD_lookup_mem (cases : List (Int64 × Nat)) (default : Nat) (n : Int64) :
    (cases.lookup n).getD default ∈ (Terminator.switch cases default).successors := by
  rw [Terminator.successors]
  cases hlookup : cases.lookup n with
  | none => exact mem_append_right _ (by simp)
  | some k =>
    exact mem_append_left _ (mem_map.2 ⟨(n, k), mem_of_lookup_eq_some hlookup, rfl⟩)

/-- **One terminator in two activations**; if it returns, of methods that return the same type. -/
theorem parts_leave {ρ : Renaming} {a b : Activation} (g : Nat → Nat) (t : Terminator)
    (hstack : b.stack = a.stack.map (Value.rename ρ))
    (hret : t = .ret → b.method.ret = a.method.ret) :
    Parts ρ g t a b (a.leave t) (b.leave (t.mapTargets g)) := by
  cases t with
  | goto target =>
    simp only [leave, Terminator.mapTargets, hstack]
    exact .jump target a.stack (by simp [Terminator.successors])
  | branch ifTrue ifFalse =>
    simp only [leave, Terminator.mapTargets, hstack]
    cases a.stack with
    | nil => exact .fault .stackUnderflow fun _ _ _ _ => rfl
    | cons v rest =>
      cases v with
      | bool c =>
        cases c with
        | true => exact .jump ifTrue rest (by simp [Terminator.successors])
        | false => exact .jump ifFalse rest (by simp [Terminator.successors])
      | _ => exact .fault (fun name loc => .mismatch name loc (.branchOn _)) fun _ _ _ _ => rfl
  | switch cases default =>
    simp only [leave, Terminator.mapTargets, hstack, lookup_map_snd]
    cases a.stack with
    | nil => exact .fault .stackUnderflow fun _ _ _ _ => rfl
    | cons v rest =>
      cases v with
      | int n =>
        have h := Parts.jump (ρ := ρ) (g := g) (a := a) (b := b) _ rest
          (getD_lookup_mem cases default n)
        rw [← Option.getD_map g] at h
        exact h
      | _ => exact .fault (fun name loc => .mismatch name loc (.switchOn _)) fun _ _ _ _ => rfl
  | ret =>
    simp only [leave, Terminator.mapTargets, hstack, hret rfl]
    split
    · exact .ret .null rfl
    · cases a.stack with
      | nil => exact .fault .stackUnderflow fun _ _ _ _ => rfl
      | cons v rest => exact .ret v rfl
  | raise =>
    simp only [leave, Terminator.mapTargets, hstack]
    cases a.stack with
    | nil => exact .fault .stackUnderflow fun _ _ _ _ => rfl
    | cons e rest => exact .throw e rfl
  | endCleanup => exact .fault (fun name _ => .rawCleanup name) fun _ _ _ _ => rfl
  | unreachable => exact .fault .unreachable fun _ _ _ _ => rfl

end Activation

/-! ### Nothing renamed -/

theorem Instr.mapLocals_id (i : Instr) : i.mapLocals id = i := by
  cases i <;> rfl

theorem Callback.rename_id (c : Callback) : c.rename .id = c := by
  cases c <;> simp only [Callback.rename, Ambient.rename_id] <;> rfl

theorem Locals.get_write {ls : Locals} {i : Instr} {v : Value} {l : Nat} :
    (ls.write i v).get l = if i.defines? = some l then v else ls.get l := by
  unfold Locals.write
  cases hd : i.defines? with
  | none => simp
  | some k =>
    rw [Locals.get_set]
    by_cases hk : l = k
    · simp [hk]
    · simp [hk, Ne.symm hk]

/-! ### Machines -/

/-- The second activation is the first with its cells renamed; it may be deeper. -/
structure Activation.Alike (ρ : Renaming) (a b : Activation) : Prop where
  method : b.method = a.method
  locals : ∀ l, b.locals.get l = (a.locals.get l).rename ρ
  stack : b.stack = a.stack.map (Value.rename ρ)
  monitors : b.monitors = a.monitors
  block : b.block = a.block
  offset : b.offset = a.offset
  depth : a.depth ≤ b.depth

/-- Controls that are alike. -/
inductive Control.Alike (ρ : Renaming) : Control → Control → Prop where
  | exec {a b : Activation} : a.Alike ρ b → Control.Alike ρ (.exec a) (.exec b)
  | enter (name : String) (args : List Value) {d d' : Nat} : d ≤ d' →
      Control.Alike ρ (.enter name args d) (.enter name (args.map (Value.rename ρ)) d')
  | deliver (o : Outcome Value) (cs : List Callback) :
      Control.Alike ρ (.deliver o cs)
        (.deliver (o.map (Value.rename ρ)) (cs.map (Callback.rename ρ)))
  | answer (v : Value) : Control.Alike ρ (.answer v) (.answer (v.rename ρ))
  | unwind (u : Unwind) : Control.Alike ρ (.unwind u) (.unwind (u.rename ρ))

/-- Tasks that are alike. -/
inductive Task.Alike (ρ : Renaming) : Task → Task → Prop where
  | caller {a b : Activation} (keep : Bool) : a.Alike ρ b →
      Task.Alike ρ (.caller a keep) (.caller b keep)
  | deliver (o : Outcome Value) (cs : List Callback) :
      Task.Alike ρ (.deliver o cs)
        (.deliver (o.map (Value.rename ρ)) (cs.map (Callback.rename ρ)))
  | resumed (outer : Option Nat) (saved : Ambient) :
      Task.Alike ρ (.resumed outer saved) (.resumed (outer.map ρ.promise) (saved.rename ρ))
  | restore (saved : Ambient) : Task.Alike ρ (.restore saved) (.restore (saved.rename ρ))

/-- Machines that are alike: the second is the first with its cells renamed. -/
structure Machine.Alike (ρ : Renaming) (base : Store) (m t : Machine) : Prop where
  store : Store.Renamed ρ base m.store t.store
  control : m.control.Alike ρ t.control
  tasks : List.Forall₂ (Task.Alike ρ) m.tasks t.tasks

/-- Two programs that differ at most in the methods of the given names. -/
structure Program.AgreeOff (names : List String) (p q : Program) : Prop where
  methods : ∀ name, name ∉ names → q.method? name = p.method? name
  natives : q.natives = p.natives
  parents : q.parents = p.parents
  markers : q.markers = p.markers
  maxDepth : q.maxDepth = p.maxDepth

/-! ### Settlements and calls -/

section Calls

variable {ρ : Renaming} {base s t : Store}

theorem Store.Renamed.settle (h : Store.Renamed ρ base s t) (p : Nat) (o : Outcome Value) :
    Store.Renamed ρ base (s.settle p o).1 (t.settle (ρ.promise p) (o.map (Value.rename ρ))).1 ∧
      (s.settle p o).2.Alike ρ (t.settle (ρ.promise p) (o.map (Value.rename ρ))).2 := by
  unfold Store.settle
  rcases h.settle? p o with ⟨hs, ht⟩ | ⟨s', t', waiting, hs, ht, h'⟩
  · rw [hs, ht]
    exact ⟨h, .answer (.bool false)⟩
  · rw [hs, ht]
    exact ⟨h', .deliver o waiting⟩

/-- A callback is registered on both sides, or runs at once on both. -/
theorem Store.Renamed.register (h : Store.Renamed ρ base s t) (p : Nat) (c : Callback) :
    Store.Renamed ρ base (s.register p c).1 (t.register (ρ.promise p) (c.rename ρ)).1 ∧
      (s.register p c).2.Alike ρ (t.register (ρ.promise p) (c.rename ρ)).2 := by
  obtain ⟨hstore, hout⟩ := h.subscribe p c
  unfold Store.register
  revert hstore hout
  rcases s.subscribe p c with ⟨s', o⟩
  rcases t.subscribe (ρ.promise p) (c.rename ρ) with ⟨t', o'⟩
  rintro hstore rfl
  cases o with
  | none => exact ⟨hstore, .answer (.bool true)⟩
  | some o => exact ⟨hstore, .deliver o [c]⟩

theorem Store.Renamed.reject (h : Store.Renamed ρ base s t) (p : Nat) (e : Value) :
    Store.Renamed ρ base (s.reject p e).1 (t.reject (ρ.promise p) (e.rename ρ)).1 ∧
      (s.reject p e).2.Alike ρ (t.reject (ρ.promise p) (e.rename ρ)).2 :=
  h.settle p (.rejected e)

/-- A promise is fulfilled on both sides, or adopts the same future on both. -/
theorem Store.Renamed.fulfill (h : Store.Renamed ρ base s t) (p : Nat) (v : Value) :
    Store.Renamed ρ base (s.fulfill p v).1 (t.fulfill (ρ.promise p) (v.rename ρ)).1 ∧
      (s.fulfill p v).2.Alike ρ (t.fulfill (ρ.promise p) (v.rename ρ)).2 := by
  cases v with
  | future q =>
    simp only [Store.fulfill, Value.rename, h.isSettled]
    split
    · exact ⟨h, .answer (.bool false)⟩
    · exact h.register q (.adopt p)
  | _ => exact h.settle p (.fulfilled _)

theorem Store.Renamed.realize (h : Store.Renamed ρ base s t) (c : Payload) :
    Store.Renamed ρ base (s.realize c).1 (t.realize (c.rename ρ)).1 ∧
      (t.realize (c.rename ρ)).2 = (s.realize c).2.rename ρ := by
  cases c with
  | value v => exact ⟨h, rfl⟩
  | exception cls message => exact h.newException cls message

theorem Store.Renamed.realizeOutcome (h : Store.Renamed ρ base s t) (o : Outcome Payload) :
    Store.Renamed ρ base (s.realizeOutcome o).1 (t.realizeOutcome (o.map (Payload.rename ρ))).1 ∧
      (t.realizeOutcome (o.map (Payload.rename ρ))).2 =
        (s.realizeOutcome o).2.map (Value.rename ρ) := by
  cases o with
  | fulfilled c =>
    obtain ⟨hs, hv⟩ := h.realize c
    exact ⟨hs, congrArg Outcome.fulfilled hv⟩
  | rejected c =>
    obtain ⟨hs, hv⟩ := h.realize c
    exact ⟨hs, congrArg Outcome.rejected hv⟩

/-- **What a native function asks for** is carried out alike. -/
theorem Store.Renamed.perform (h : Store.Renamed ρ base s t) (r : Request) :
    Store.Renamed ρ base (s.perform r).1 (t.perform (r.rename ρ)).1 ∧
      (s.perform r).2.Alike ρ (t.perform (r.rename ρ)).2 := by
  cases r with
  | answer v => exact ⟨h, .answer v⟩
  | throw e => exact ⟨h, .unwind (.throw e)⟩
  | note line => exact ⟨h.note line, .answer .null⟩
  | pending tag =>
    obtain ⟨hnew, hid⟩ := h.newPromise
    have hanswer := Control.Alike.answer (ρ := ρ) (.future s.newPromise.2)
    rw [Value.rename, ← hid] at hanswer
    refine ⟨{ hnew with queue := ?_ }, hanswer⟩
    have hq : t.newPromise.1.queue = s.newPromise.1.queue.map fun c => (c.1, ρ.promise c.2) :=
      hnew.queue
    simp only [Request.rename, Store.perform, map_append, map_cons, map_nil, ← hid,
      ← hq]
  | settled o =>
    obtain ⟨hreal, ho⟩ := h.realizeOutcome o
    obtain ⟨hset, hid⟩ := hreal.settledPromise (s.realizeOutcome o).2
    rw [← ho] at hset hid
    have hanswer := Control.Alike.answer (ρ := ρ)
      (.future ((s.realizeOutcome o).1.settledPromise (s.realizeOutcome o).2).2)
    rw [Value.rename, ← hid] at hanswer
    exact ⟨hset, hanswer⟩
  | lookup key =>
    refine ⟨h, ?_⟩
    have hanswer := Control.Alike.answer (ρ := ρ) ((s.ambient.get? key).getD .null)
    simp only [Store.perform, Request.rename, h.ambient, Ambient.get?_rename]
    rw [← Option.getD_map (Value.rename ρ)] at hanswer
    exact hanswer
  | assign key v =>
    have hset := h.setAmbient (s.ambient.set key v)
    rw [← Ambient.set_rename, ← h.ambient] at hset
    exact ⟨hset, .answer .null⟩
  | invoke name args => exact ⟨h, .enter name args (Nat.le_refl 0)⟩

end Calls

/-! ### Steps -/

namespace Program.AgreeOff

variable {names : List String} {p q : Program} {ρ : Renaming} {base s t : Store}

theorem takes (h : p.AgreeOff names q) (e : Value) (k : RegionKind) :
    q.takes (e.rename ρ) k = p.takes e k := by
  cases k with
  | catches cls =>
    simp only [Program.takes, Value.className?_rename, Program.isSubclass, Program.heirCount,
      h.parents]
  | catchAll => rfl
  | cleanup => rfl

theorem handler? (h : p.AgreeOff names q) (m : Method) (b : Nat) (e : Value) :
    q.handler? m b (e.rename ρ) = p.handler? m b e := by
  simp only [Program.handler?, h.takes]

/-- **An exception goes the same way**: to the same handler, or out of the activation. -/
theorem raise (h : p.AgreeOff names q) {a b : Activation} (hab : a.Alike ρ b) (e : Value) :
    (p.raise a e).Alike ρ (q.raise b (e.rename ρ)) := by
  unfold Program.raise
  rw [hab.method, hab.block, h.handler?]
  cases p.handler? a.method a.block e with
  | none => exact .unwind (.throw e)
  | some handler =>
    exact .exec ⟨hab.method, hab.locals, rfl, hab.monitors, rfl, rfl, hab.depth⟩

/-- A marker that is called directly joins the same future, or blocks on both sides. -/
theorem joinMarker (hs : Store.Renamed ρ base s t) (marker : String) (args : List Value) :
    (Program.joinMarker s marker args).Alike ρ
      (Program.joinMarker t marker (args.map (Value.rename ρ))) := by
  unfold Program.joinMarker
  cases args with
  | nil => exact .unwind (.fault _)
  | cons v rest =>
    cases v with
    | future c =>
      simp only [map_cons, Value.rename, hs.outcome?]
      rcases s.outcome? c with _ | ⟨v | e⟩
      · exact .unwind (.fault _)
      · exact .answer v
      · exact .unwind (.throw e)
    | _ =>
      simp only [map_cons, Value.rename, length_cons, length_map]
      exact .unwind (.fault _)

/-- Renamed arguments make renamed locals. -/
theorem ofArgs_rename (params : List Local) (args : List Value) (l : Nat) :
    (Locals.ofArgs params (args.map (Value.rename ρ))).get l =
      ((Locals.ofArgs params args).get l).rename ρ := by
  unfold Locals.ofArgs
  -- the two folds set the same locals one after the other
  have key : ∀ (cs : List (Local × Value)) (ls ls' : Locals),
      (∀ l, ls'.get l = (ls.get l).rename ρ) →
      ∀ l, ((cs.map fun c => (c.1, c.2.rename ρ)).foldl (fun ls c => ls.set c.1.id c.2) ls').get l =
        ((cs.foldl (fun ls c => ls.set c.1.id c.2) ls).get l).rename ρ := by
    intro cs
    induction cs with
    | nil => exact fun ls ls' h => h
    | cons c cs ih =>
      intro ls ls' h
      refine ih _ _ fun l => ?_
      simp only [Locals.get_set]
      split
      · rfl
      · exact h l
  have hzip : params.zip (args.map (Value.rename ρ)) =
      (params.zip args).map fun c => (c.1, c.2.rename ρ) := by
    rw [zip_map_right]
    rfl
  rw [hzip]
  exact key _ _ _ (fun l => rfl) l

theorem enterMethod (h : p.AgreeOff names q) (name : String) (m : Method) (args : List Value)
    {d d' : Nat} (hd : d ≤ d')
    (hdepth : ∀ k, q.enterMethod name m (args.map (Value.rename ρ)) d' ≠
      .unwind (.fault (.depthLimit k))) :
    (p.enterMethod name m args d).Alike ρ
      (q.enterMethod name m (args.map (Value.rename ρ)) d') := by
  simp only [Program.enterMethod, length_map, h.maxDepth] at hdepth ⊢
  by_cases harity : args.length = m.params.length
  · simp only [if_neg (not_not_intro harity)] at hdepth ⊢
    by_cases hlimit : p.maxDepth ≤ d'
    · rw [if_pos hlimit] at hdepth
      exact absurd rfl (hdepth p.maxDepth)
    · have hlimit' : ¬ p.maxDepth ≤ d := fun hle => hlimit (Nat.le_trans hle hd)
      rw [if_neg hlimit, if_neg hlimit']
      exact .exec ⟨rfl, ofArgs_rename m.params args, rfl, rfl, rfl, rfl, Nat.succ_le_succ hd⟩
  · simp only [if_pos harity]
    exact .unwind (.fault _)

/-- **Entering a function** on which the programs agree. -/
theorem enter (h : p.AgreeOff names q) (hs : Store.Renamed ρ base s t)
    (huniform : ∀ name f, p.native? name = some f → Native.Uniform ρ f) {name : String}
    (hname : name ∉ names) (args : List Value) {d d' : Nat} (hd : d ≤ d')
    (hdepth : ∀ k, (q.enter t name (args.map (Value.rename ρ)) d').2 ≠
      .unwind (.fault (.depthLimit k))) :
    Store.Renamed ρ base (p.enter s name args d).1
        (q.enter t name (args.map (Value.rename ρ)) d').1 ∧
      (p.enter s name args d).2.Alike ρ (q.enter t name (args.map (Value.rename ρ)) d').2 := by
  unfold Program.enter at hdepth ⊢
  have hnative : q.native? name = p.native? name := by
    simp only [Program.native?, h.natives]
  rw [h.markers, hnative, h.methods name hname] at hdepth ⊢
  by_cases hmarker : p.markers.contains name = true
  · simp only [if_pos hmarker]
    exact ⟨hs, joinMarker hs name args⟩
  · simp only [if_neg hmarker] at hdepth ⊢
    cases hf : p.native? name with
    | some f =>
      have hreq := huniform name f hf s.calls args
      rw [← hs.calls] at hreq
      simp only [hreq]
      exact (hs.addCall ⟨name, args⟩).perform (f s.calls args)
    | none =>
      simp only [hf] at hdepth
      cases hm : p.method? name with
      | none => exact ⟨hs, .unwind (.fault _)⟩
      | some m =>
        simp only [hm] at hdepth
        exact ⟨hs, h.enterMethod name m args hd hdepth⟩

end Program.AgreeOff

namespace Machine.Alike

variable {names : List String} {p q : Program} {ρ : Renaming} {base : Store} {ts ts' : List Task}
  {s t : Store}

theorem of_control {c : Store × Control} {c' : Store × Control}
    (hc : Store.Renamed ρ base c.1 c'.1 ∧ c.2.Alike ρ c'.2)
    (hts : List.Forall₂ (Task.Alike ρ) ts ts') :
    (Machine.of c ts).Alike ρ base (Machine.of c' ts') :=
  ⟨hc.1, hc.2, hts⟩

/-- What an instruction led to is done alike by the two machines. -/
theorem act (h : p.AgreeOff names q) {a b : Activation} (hab : a.Alike ρ b) {i : Instr}
    {x y : Store × Action} (hstore : Store.Renamed ρ base x.1 y.1)
    (hxy : Activation.Follows ρ (fun l => l) i a b x.2 y.2)
    (hts : List.Forall₂ (Task.Alike ρ) ts ts') :
    (Machine.act p a ts x).Alike ρ base (Machine.act q b ts' y) := by
  have hloc : b.location = a.location := by
    rw [Activation.location, Activation.location, hab.block, hab.offset]
  -- the caller of whatever the instruction asked for
  have hcaller : ∀ (stack : List Value) (keep : Bool), Task.Alike ρ
      (.caller { a with stack := stack } keep)
      (.caller { b with stack := stack.map (Value.rename ρ) } keep) := fun stack keep =>
    .caller keep ⟨hab.method, hab.locals, rfl, hab.monitors, hab.block, hab.offset, hab.depth⟩
  obtain ⟨s', x⟩ := x
  obtain ⟨t', y⟩ := y
  cases hxy with
  | next v stack monitors =>
    refine ⟨hstore, .exec ⟨hab.method, ?_, rfl, rfl, hab.block, ?_, hab.depth⟩, hts⟩
    · intro l
      have hmap : i.mapLocals (fun l => l) = i := by cases i <;> rfl
      rw [hmap]
      unfold Locals.write
      cases i.defines? with
      | none => exact hab.locals l
      | some k =>
        simp only [Locals.get_set]
        split
        · rfl
        · exact hab.locals l
    · exact congrArg (· + 1) hab.offset
  | throw e _ => exact ⟨hstore, h.raise hab e, hts⟩
  | fault k =>
    rw [hab.method, hloc]
    exact ⟨hstore, .unwind (.fault _), hts⟩
  | call stack name args keep _ =>
    exact ⟨hstore, .enter name args hab.depth, .cons (hcaller stack keep) hts⟩
  | fulfill stack c v _ => exact of_control (hstore.fulfill c v) (.cons (hcaller stack false) hts)
  | reject stack c e _ => exact of_control (hstore.reject c e) (.cons (hcaller stack false) hts)
  | subscribe stack c k _ =>
    exact of_control (hstore.register c k) (.cons (hcaller stack false) hts)

/-- **Activations that are alike take the same step.** -/
theorem execute (h : p.AgreeOff names q) (hs : Store.Renamed ρ base s t) {a b : Activation}
    (hab : a.Alike ρ b) (hts : List.Forall₂ (Task.Alike ρ) ts ts') :
    (Machine.execute p s a ts).Alike ρ base (Machine.execute q t b ts') := by
  unfold Machine.execute
  rw [hab.method, hab.block, hab.offset]
  cases a.method.block? a.block with
  | none => exact ⟨hs, .unwind (.fault _), hts⟩
  | some block =>
    cases hi : block.instrs[a.offset]? with
    | some i =>
      have hmap : i.mapLocals (fun l => l) = i := by cases i <;> rfl
      have hexec := Activation.follows_exec (f := fun l => l) i hs hab.stack hab.monitors
        fun l _ => hab.locals l
      rw [hmap] at hexec
      simp only [hi]
      exact act h hab hexec.1 hexec.2 hts
    | none =>
      have hloc : b.location = a.location := by
        rw [Activation.location, Activation.location, hab.block, hab.offset]
      have hleave := Activation.parts_leave (fun k => k) block.terminator hab.stack
        fun _ => congrArg Method.ret hab.method
      have hmap : block.terminator.mapTargets (fun k => k) = block.terminator := by
        cases block.terminator <;> simp [Terminator.mapTargets]
      rw [hmap] at hleave
      simp only [hi]
      revert hleave
      generalize a.leave block.terminator = x
      generalize b.leave block.terminator = y
      intro hleave
      cases hleave with
      | jump k stack _ =>
        exact ⟨hs, .exec ⟨hab.method, hab.locals, rfl, hab.monitors, rfl, rfl, hab.depth⟩, hts⟩
      | ret v _ => exact ⟨hs, .answer v, hts⟩
      | throw e _ => exact ⟨hs, h.raise hab e, hts⟩
      | fault k =>
        rw [hab.method, hloc]
        exact ⟨hs, .unwind (.fault _), hts⟩

theorem call (hs : Store.Renamed ρ base s t) (o : Outcome Value) (c : Callback)
    (hts : List.Forall₂ (Task.Alike ρ) ts ts') :
    (Machine.call s o ts c).Alike ρ base
      (Machine.call t (o.map (Value.rename ρ)) ts' (c.rename ρ)) := by
  cases c with
  | adopt c => exact of_control (hs.settle c o) hts
  | resume dispatcher state frame ambient =>
    have htask := Task.Alike.resumed (ρ := ρ) (s.outer? frame) s.ambient
    rw [← hs.outer?, ← hs.ambient] at htask
    have henter := Control.Alike.enter (ρ := ρ) dispatcher
      [.int (Int64.ofNat state), .outcome o, .frame frame] (Nat.le_refl 0)
    simp only [map_cons, map_nil, Value.rename, Value.renameOutcome_eq_map] at henter
    exact ⟨hs.setAmbient ambient, henter, .cons htask hts⟩
  | note tag =>
    cases o with
    | fulfilled v | rejected e =>
      simp only [Machine.call, Callback.rename, Outcome.map, Value.text_rename]
      exact ⟨hs.note _, .answer .null, hts⟩

theorem answered (hs : Store.Renamed ρ base s t) (v : Value) {k k' : Task} (hk : k.Alike ρ k')
    (hts : List.Forall₂ (Task.Alike ρ) ts ts') :
    (Machine.answered s v ts k).Alike ρ base (Machine.answered t (v.rename ρ) ts' k') := by
  cases hk with
  | caller keep hab =>
    refine ⟨hs, .exec ⟨hab.method, hab.locals, ?_, hab.monitors, hab.block, ?_, hab.depth⟩, hts⟩
    · cases keep with
      | true => exact congrArg (v.rename ρ :: ·) hab.stack
      | false => exact hab.stack
    · exact congrArg (· + 1) hab.offset
  | deliver o cs => exact ⟨hs, .deliver o cs, hts⟩
  | resumed outer saved | restore saved => exact ⟨hs.setAmbient saved, .answer .null, hts⟩

theorem failure (hs : Store.Renamed ρ base s t) (u : Unwind) :
    Store.Renamed ρ base (Machine.failure s u).1 (Machine.failure t (u.rename ρ)).1 ∧
      (Machine.failure t (u.rename ρ)).2 = (Machine.failure s u).2.rename ρ := by
  cases u with
  | throw e => exact ⟨hs, rfl⟩
  | fault f => exact hs.newException "VmFault" f.message

/-- An exception or a fault goes through tasks that are alike in the same way. -/
theorem unwound (h : p.AgreeOff names q) (hs : Store.Renamed ρ base s t) (u : Unwind) {k k' : Task}
    (hk : k.Alike ρ k') (hts : List.Forall₂ (Task.Alike ρ) ts ts') :
    (Machine.unwound p s u ts k).Alike ρ base (Machine.unwound q t (u.rename ρ) ts' k') := by
  cases hk with
  | caller keep hab =>
    cases u with
    | throw e => exact ⟨hs, h.raise hab e, hts⟩
    | fault f => exact ⟨hs, .unwind (.fault f), hts⟩
  | deliver o cs => exact ⟨hs, .deliver o cs, hts⟩
  | resumed outer saved =>
    cases outer with
    | none => exact ⟨hs.setAmbient saved, .answer .null, hts⟩
    | some c =>
      obtain ⟨hfail, he⟩ := failure hs u
      have hreject := hfail.reject c (Machine.failure s u).2
      rw [← he] at hreject
      exact of_control hreject (.cons (.restore saved) hts)
  | restore saved => exact ⟨hs.setAmbient saved, .unwind u, hts⟩

/-- **Machines that are alike stay alike**, unless one enters a method on which the programs differ
or gets to the limit on the depth of calls. -/
theorem step (h : p.AgreeOff names q)
    (huniform : ∀ name f, p.native? name = some f → Native.Uniform ρ f) {m t : Machine}
    (hmt : m.Alike ρ base t) (hname : ∀ name args d, m.control = .enter name args d → name ∉ names)
    (hdepth : ∀ t' k, t.step? q = some t' → t'.control ≠ .unwind (.fault (.depthLimit k))) :
    (m.step? p = none ∧ t.step? q = none) ∨
      ∃ m' t', m.step? p = some m' ∧ t.step? q = some t' ∧ m'.Alike ρ base t' := by
  obtain ⟨s, c, ts⟩ := m
  obtain ⟨s', c', ts'⟩ := t
  obtain ⟨hs, hc, hts⟩ := hmt
  cases hc with
  | exec hab => exact .inr ⟨_, _, rfl, rfl, execute h hs hab hts⟩
  | enter name args hd =>
    refine .inr ⟨_, _, rfl, rfl, of_control ?_ hts⟩
    exact h.enter hs huniform (hname name args _ rfl) args hd fun k => hdepth _ k rfl
  | deliver o cs =>
    cases cs with
    | nil => exact .inr ⟨_, _, rfl, rfl, hs, .answer (.bool true), hts⟩
    | cons c cs => exact .inr ⟨_, _, rfl, rfl, call hs o c (.cons (.deliver o cs) hts)⟩
  | answer v =>
    cases hts with
    | nil => exact .inl ⟨rfl, rfl⟩
    | cons hk hts => exact .inr ⟨_, _, rfl, rfl, answered hs v hk hts⟩
  | unwind u =>
    cases hts with
    | nil => exact .inl ⟨rfl, rfl⟩
    | cons hk hts => exact .inr ⟨_, _, rfl, rfl, unwound h hs u hk hts⟩

end Machine.Alike

end Resumable
