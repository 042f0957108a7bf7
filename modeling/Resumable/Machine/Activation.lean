/-
**Activations.**

A running method: where it is, its locals and its operand stack.  One instruction either leads to
the next state of the activation or asks for something that other code has a part in: a call, or the
settling of a promise, whose callbacks may run code.
-/

import Resumable.Machine.Arithmetic
import Resumable.Machine.Program

set_option autoImplicit false

namespace Resumable

/-! ### Locals -/

/-- The locals of an activation; one that was never stored is null. -/
structure Locals where
  cells : Array Value := #[]
deriving Inhabited

namespace Locals

/-- The value of a local. -/
def get (ls : Locals) (l : Nat) : Value := ls.cells[l]?.getD .null

/-- The locals with one stored. -/
def set (ls : Locals) (l : Nat) (v : Value) : Locals :=
  if l < ls.cells.size then ⟨ls.cells.setIfInBounds l v⟩
  else ⟨(ls.cells ++ Array.replicate (l - ls.cells.size) Value.null).push v⟩

/-- A stored local has the value that was stored, and the others keep theirs. -/
theorem get_set (ls : Locals) (l k : Nat) (v : Value) :
    (ls.set l v).get k = if k = l then v else ls.get k := by
  unfold set get
  by_cases h : l < ls.cells.size
  · rw [if_pos h]
    by_cases hk : k = l
    · subst hk
      simp [h]
    · rw [if_neg hk, Array.getElem?_setIfInBounds_ne (Ne.symm hk)]
  · have hsize : (ls.cells ++ Array.replicate (l - ls.cells.size) Value.null).size = l := by
      simp only [Array.size_append, Array.size_replicate]
      omega
    rw [if_neg h, Array.getElem?_push, hsize]
    by_cases hk : k = l
    · simp [hk]
    · rw [if_neg hk, if_neg hk, Array.getElem?_append]
      split
      · rfl
      · rename_i hk'
        rw [Array.getElem?_replicate, Array.getElem?_eq_none (Nat.le_of_not_lt hk')]
        split <;> rfl

/-- The locals at the start of a call. -/
def ofArgs (params : List Local) (args : List Value) : Locals :=
  (params.zip args).foldl (fun ls c => ls.set c.1.id c.2) {}

end Locals

/-! ### Activations -/

/-- A running method. -/
structure Activation where
  method : Method
  locals : Locals
  /-- The operand stack, the top first. -/
  stack : List Value
  monitors : Nat
  block : Nat
  /-- The offset of the current instruction in its block. -/
  offset : Nat
  /-- The number of calls around this one, itself counted. -/
  depth : Nat
deriving Inhabited

/-- What an instruction leads to.  Where other code has a part, the activation is given with the
operands taken, still at the instruction. -/
inductive Action where
  | next (a : Activation)
  | throw (e : Value)
  | fault (f : Fault)
  /-- Calls a function and keeps its result or not. -/
  | call (a : Activation) (name : String) (args : List Value) (keep : Bool)
  | fulfill (a : Activation) (p : Nat) (v : Value)
  | reject (a : Activation) (p : Nat) (e : Value)
  /-- Registers a callback. -/
  | subscribe (a : Activation) (p : Nat) (c : Callback)
deriving Inhabited

/-- Where control goes at the end of a block. -/
inductive Departure where
  /-- To a block, with what is left of the stack. -/
  | jump (b : Nat) (stack : List Value)
  | ret (v : Value)
  | throw (e : Value)
  | fault (f : Fault)
deriving Inhabited

namespace Activation

/-- The activation of a method that is called with the given arguments. -/
def start (m : Method) (args : List Value) (depth : Nat) : Activation :=
  { method := m, locals := Locals.ofArgs m.params args, stack := [], monitors := 0
    block := m.entry, offset := 0, depth := depth }

/-- The position of the current instruction. -/
def location (a : Activation) : Location := ⟨a.block, a.offset⟩

/-- The activation after the current instruction, with the given stack. -/
def advance (a : Activation) (stack : List Value) : Activation :=
  { a with stack := stack, offset := a.offset + 1 }

/-- The activation at the start of a block, with the given stack. -/
def jump (a : Activation) (b : Nat) (stack : List Value) : Activation :=
  { a with stack := stack, block := b, offset := 0 }

/-- The activation in a handler, the stack holding the exception only. -/
def handle (a : Activation) (handler : Nat) (e : Value) : Activation := a.jump handler [e]

/-- The fault of an operand that is not there. -/
def underflow (a : Activation) : Fault := .stackUnderflow a.method.name a.location

/-- The fault of an operand of the wrong sort. -/
def mismatch (a : Activation) (m : Mismatch) : Fault := .mismatch a.method.name a.location m

/-- The topmost operands, the deepest first, and the stack below them. -/
def take? (a : Activation) (n : Nat) : Option (List Value × List Value) :=
  if n ≤ a.stack.length then some ((a.stack.take n).reverse, a.stack.drop n) else none

/-! ### Instructions -/

/-- Puts the result of an operator on the stack. -/
def computed (a : Activation) (s : Store) (rest : List Value) : Computed → Store × Action
  | .value v => (s, .next (a.advance (v :: rest)))
  | .mismatch m => (s, .fault (a.mismatch m))
  | .divisionByZero =>
    let (s, e) := s.newException "ArithmeticException" "/ by zero"
    (s, .throw e)

/-- Puts the value of an outcome on the stack, or throws its exception. -/
def unwrapped (a : Activation) (s : Store) (rest : List Value) : Outcome Value → Store × Action
  | .fulfilled v => (s, .next (a.advance (v :: rest)))
  | .rejected e => (s, .throw e)

/-- Goes on with the future on top of the stack. -/
def withFuture (a : Activation) (s : Store)
    (k : Nat → List Value → Store × Action) : Store × Action :=
  match a.stack with
  | .future p :: rest => k p rest
  | v :: _ => (s, .fault (a.mismatch (.expectedFuture v.typeName)))
  | [] => (s, .fault a.underflow)

/-- Goes on with the frame in a local. -/
def withFrame (a : Activation) (s : Store) (l : Nat) (k : Nat → Store × Action) :
    Store × Action :=
  match a.locals.get l with
  | .frame f => k f
  | v => (s, .fault (a.mismatch (.expectedFrame v.typeName)))

/-- **One instruction.** -/
def exec (a : Activation) (s : Store) : Instr → Store × Action
  | .push c => (s, .next (a.advance (Value.ofConst c :: a.stack)))
  | .load l => (s, .next (a.advance (a.locals.get l :: a.stack)))
  | .store l =>
    match a.stack with
    | v :: rest => (s, .next ({ a with locals := a.locals.set l v }.advance rest))
    | [] => (s, .fault a.underflow)
  | .dup =>
    match a.stack with
    | v :: rest => (s, .next (a.advance (v :: v :: rest)))
    | [] => (s, .fault a.underflow)
  | .pop =>
    match a.stack with
    | _ :: rest => (s, .next (a.advance rest))
    | [] => (s, .fault a.underflow)
  | .swap =>
    match a.stack with
    | v :: w :: rest => (s, .next (a.advance (w :: v :: rest)))
    | _ => (s, .fault a.underflow)
  | .binary op =>
    match a.stack with
    | right :: left :: rest => a.computed s rest (op.apply left right)
    | _ => (s, .fault a.underflow)
  | .unary op =>
    match a.stack with
    | v :: rest => a.computed s rest (op.apply v)
    | [] => (s, .fault a.underflow)
  | .invoke callee =>
    match a.take? callee.argc with
    | some (args, rest) =>
      (s, .call { a with stack := rest } callee.name args (!callee.ret.isVoid))
    | none => (s, .fault a.underflow)
  | .construct cls argc =>
    match a.take? argc with
    | some (fields, rest) =>
      let (s, v) := s.newObject cls fields
      (s, .next (a.advance (v :: rest)))
    | none => (s, .fault a.underflow)
  | .monitorEnter =>
    match a.stack with
    | _ :: rest => (s, .next ({ a with monitors := a.monitors + 1 }.advance rest))
    | [] => (s, .fault a.underflow)
  | .monitorExit =>
    match a.stack with
    | _ :: rest =>
      if a.monitors = 0 then (s, .fault (.monitorUnderflow a.method.name a.location))
      else (s, .next ({ a with monitors := a.monitors - 1 }.advance rest))
    | [] => (s, .fault a.underflow)
  | .closure method captures =>
    match a.take? captures with
    | some (values, rest) =>
      let (s, v) := s.newClosure method values
      (s, .next (a.advance (v :: rest)))
    | none => (s, .fault a.underflow)
  | .callClosure argc ret =>
    match a.take? argc with
    | some (args, .closure _ method captures :: rest) =>
      (s, .call { a with stack := rest } method (captures ++ args) (!ret.isVoid))
    | some (_, v :: _) => (s, .fault (a.mismatch (.callOn v.typeName)))
    | _ => (s, .fault a.underflow)
  | .futureNew =>
    let (s, p) := s.newPromise
    (s, .next (a.advance (.future p :: a.stack)))
  | .futureIsDone =>
    a.withFuture s fun p rest => (s, .next (a.advance (.bool (s.isSettled p) :: rest)))
  | .futureJoin =>
    a.withFuture s fun p rest =>
      match s.outcome? p with
      | some o => a.unwrapped s rest o
      | none => (s, .fault (.wouldBlock "future_join"))
  | .futureFulfill =>
    match a.stack with
    | v :: below =>
      { a with stack := below }.withFuture s fun p rest =>
        (s, .fulfill { a with stack := rest } p v)
    | [] => (s, .fault a.underflow)
  | .futureReject =>
    match a.stack with
    | e :: below =>
      { a with stack := below }.withFuture s fun p rest =>
        (s, .reject { a with stack := rest } p e)
    | [] => (s, .fault a.underflow)
  | .frameNew slots =>
    a.withFuture s fun p rest =>
      let (s, f) := s.newFrame p slots
      (s, .next (a.advance (.frame f :: rest)))
  | .frameLoad frame slot =>
    a.withFrame s frame fun f =>
      match s.loadSlot? f slot with
      | some v => (s, .next (a.advance (v :: a.stack)))
      | none => (s, .fault (a.mismatch (.slotOutOfRange slot)))
  | .frameStore frame slot =>
    match a.stack with
    | v :: rest =>
      a.withFrame s frame fun f =>
        match s.storeSlot? f slot v with
        | some s => (s, .next (a.advance rest))
        | none => (s, .fault (a.mismatch (.slotOutOfRange slot)))
    | [] => (s, .fault a.underflow)
  | .frameOuter frame =>
    a.withFrame s frame fun f =>
      match s.outer? f with
      | some p => (s, .next (a.advance (.future p :: a.stack)))
      | none => (s, .fault (a.mismatch (.expectedFrame "frame")))
  | .outcomeUnwrap =>
    match a.stack with
    | .outcome o :: rest => a.unwrapped s rest o
    | .null :: rest => (s, .next (a.advance (.null :: rest)))
    | v :: _ => (s, .fault (a.mismatch (.unwrapOf v.typeName)))
    | [] => (s, .fault a.underflow)
  | .resume dispatcher state frame =>
    a.withFuture s fun p rest =>
      a.withFrame s frame fun f =>
        (s, .subscribe { a with stack := rest } p (.resume dispatcher state f s.ambient))

/-! ### Terminators -/

/-- **The end of a block.** -/
def leave (a : Activation) : Terminator → Departure
  | .goto target => .jump target a.stack
  | .branch ifTrue ifFalse =>
    match a.stack with
    | .bool true :: rest => .jump ifTrue rest
    | .bool false :: rest => .jump ifFalse rest
    | v :: _ => .fault (a.mismatch (.branchOn v.typeName))
    | [] => .fault a.underflow
  | .switch cases default =>
    match a.stack with
    | .int n :: rest => .jump ((cases.lookup n).getD default) rest
    | v :: _ => .fault (a.mismatch (.switchOn v.typeName))
    | [] => .fault a.underflow
  | .ret =>
    if a.method.ret.isVoid then .ret .null
    else
      match a.stack with
      | v :: _ => .ret v
      | [] => .fault a.underflow
  | .raise =>
    match a.stack with
    | e :: _ => .throw e
    | [] => .fault a.underflow
  | .endCleanup => .fault (.rawCleanup a.method.name)
  | .unreachable => .fault (.unreachable a.method.name a.location)

end Activation

end Resumable
