/-
**The machine.**

A machine runs one call, or one settlement, with everything it sets off.  What it does next is its
*control*; what waits for the control to finish is a stack of *tasks*.  Callbacks run inside the
settlement that sets them off, so a task can stand for the callbacks that are still to run.

A resumed dispatcher runs in the ambient context saved with its callback; the context of whoever
settled the promise comes back when it ends, however it ends.  If the dispatcher fails, the future
that stands for the result of the resumed method is rejected, since nobody else waits for the
failure.
-/

import Resumable.Machine.Activation

set_option autoImplicit false

namespace Resumable

/-- What a machine does next. -/
inductive Control where
  /-- Runs the current instruction of an activation. -/
  | exec (a : Activation)
  /-- Calls a function from an activation of the given depth. -/
  | enter (name : String) (args : List Value) (depth : Nat)
  /-- Runs callbacks with the outcome of their promise. -/
  | deliver (o : Outcome Value) (cs : List Callback)
  /-- Hands a result to the topmost task. -/
  | answer (v : Value)
  /-- Hands an exception or a fault to the topmost task. -/
  | unwind (u : Unwind)
deriving Inhabited

/-- What waits for the control to finish. -/
inductive Task where
  /-- An activation waits at its current instruction, and keeps the result or not. -/
  | caller (a : Activation) (keep : Bool)
  /-- Callbacks are still to run. -/
  | deliver (o : Outcome Value) (cs : List Callback)
  /-- A resumed dispatcher runs; `outer` gets its failure, and `saved` is the ambient context of
  whoever settled the promise. -/
  | resumed (outer : Option Nat) (saved : Ambient)
  /-- An ambient context is to come back. -/
  | restore (saved : Ambient)
deriving Inhabited

/-- A machine. -/
structure Machine where
  store : Store
  control : Control
  tasks : List Task
deriving Inhabited

/-! ### Settlements -/

namespace Store

/-- Settles a promise.  The answer is whether it was pending. -/
def settle (s : Store) (p : Nat) (o : Outcome Value) : Store × Control :=
  match s.settle? p o with
  | some (s, waiting) => (s, .deliver o waiting)
  | none => (s, .answer (.bool false))

/-- Registers a callback, which runs at once if the promise has settled. -/
def register (s : Store) (p : Nat) (c : Callback) : Store × Control :=
  match s.subscribe p c with
  | (s, some o) => (s, .deliver o [c])
  | (s, none) => (s, .answer (.bool true))

/-- Fulfils a promise.  Given a future, the promise takes over its outcome when there is one, and
can still be settled otherwise until then.  The answer is whether the promise was pending. -/
def fulfill (s : Store) (p : Nat) (v : Value) : Store × Control :=
  match v with
  | .future q => if s.isSettled p then (s, .answer (.bool false)) else s.register q (.adopt p)
  | v => s.settle p (.fulfilled v)

/-- Rejects a promise.  The answer is whether it was pending. -/
def reject (s : Store) (p : Nat) (e : Value) : Store × Control := s.settle p (.rejected e)

/-! ### Calls -/

/-- Makes a value, or an exception. -/
def realize (s : Store) : Payload → Store × Value
  | .value v => (s, v)
  | .exception cls message => s.newException cls message

/-- Makes an outcome. -/
def realizeOutcome (s : Store) : Outcome Payload → Store × Outcome Value
  | .fulfilled p => let (s, v) := s.realize p; (s, .fulfilled v)
  | .rejected p => let (s, e) := s.realize p; (s, .rejected e)

/-- Carries out what a native function asks for. -/
def perform (s : Store) : Request → Store × Control
  | .answer v => (s, .answer v)
  | .throw e => (s, .unwind (.throw e))
  | .note line => (s.note line, .answer .null)
  | .pending tag =>
    let (s, p) := s.newPromise
    ({ s with queue := s.queue ++ [(tag, p)] }, .answer (.future p))
  | .settled o =>
    let (s, o) := s.realizeOutcome o
    let (s, p) := s.settledPromise o
    (s, .answer (.future p))
  | .lookup key => (s, .answer ((s.ambient.get? key).getD .null))
  | .assign key v => ({ s with ambient := s.ambient.set key v }, .answer .null)
  | .invoke name args => (s, .enter name args 0)

end Store

namespace Program

/-- A marker in code that was not converted: the value of a settled future, and a fault for a
pending one. -/
def joinMarker (s : Store) (marker : String) (args : List Value) : Control :=
  match args with
  | .future q :: _ =>
    match s.outcome? q with
    | some (.fulfilled v) => .answer v
    | some (.rejected e) => .unwind (.throw e)
    | none => .unwind (.fault (.wouldBlock marker))
  | _ => .unwind (.fault (.arity marker 1 args.length))

/-- Starts a method. -/
def enterMethod (p : Program) (name : String) (m : Method) (args : List Value) (depth : Nat) :
    Control :=
  if args.length ≠ m.params.length then .unwind (.fault (.arity name m.params.length args.length))
  else if p.maxDepth ≤ depth then .unwind (.fault (.depthLimit p.maxDepth))
  else .exec (Activation.start m args (depth + 1))

/-- Calls a function: a marker, else a native function, else a method. -/
def enter (p : Program) (s : Store) (name : String) (args : List Value) (depth : Nat) :
    Store × Control :=
  if p.markers.contains name then (s, joinMarker s name args)
  else
    match p.native? name with
    | some f => { s with calls := ⟨name, args⟩ :: s.calls }.perform (f s.calls args)
    | none =>
      match p.method? name with
      | some m => (s, p.enterMethod name m args depth)
      | none => (s, .unwind (.fault (.unknownFunction name)))

/-- An exception in an activation goes to its handler, or out of it. -/
def raise (p : Program) (a : Activation) (e : Value) : Control :=
  match p.handler? a.method a.block e with
  | some handler => .exec (a.handle handler e)
  | none => .unwind (.throw e)

end Program

namespace Machine

/-! ### Steps -/

/-- A store and a control, with the given tasks. -/
def of (c : Store × Control) (tasks : List Task) : Machine := ⟨c.1, c.2, tasks⟩

/-- What an instruction led to. -/
def act (p : Program) (a : Activation) (tasks : List Task) : Store × Action → Machine
  | (s, .next b) => ⟨s, .exec b, tasks⟩
  | (s, .throw e) => ⟨s, p.raise a e, tasks⟩
  | (s, .fault f) => ⟨s, .unwind (.fault f), tasks⟩
  | (s, .call b name args keep) => ⟨s, .enter name args b.depth, .caller b keep :: tasks⟩
  | (s, .fulfill b q v) => of (s.fulfill q v) (.caller b false :: tasks)
  | (s, .reject b q e) => of (s.reject q e) (.caller b false :: tasks)
  | (s, .subscribe b q c) => of (s.register q c) (.caller b false :: tasks)

/-- Runs the current instruction of an activation, or the terminator after the last. -/
def execute (p : Program) (s : Store) (a : Activation) (tasks : List Task) : Machine :=
  match a.method.block? a.block with
  | none => ⟨s, .unwind (.fault (.unknownBlock a.method.name a.block)), tasks⟩
  | some block =>
    match block.instrs[a.offset]? with
    | some i => act p a tasks (a.exec s i)
    | none =>
      match a.leave block.terminator with
      | .jump b stack => ⟨s, .exec (a.jump b stack), tasks⟩
      | .ret v => ⟨s, .answer v, tasks⟩
      | .throw e => ⟨s, p.raise a e, tasks⟩
      | .fault f => ⟨s, .unwind (.fault f), tasks⟩

/-- Runs the first of the callbacks. -/
def call (s : Store) (o : Outcome Value) (tasks : List Task) : Callback → Machine
  | .adopt p => of (s.settle p o) tasks
  | .resume dispatcher state frame ambient =>
    ⟨{ s with ambient := ambient },
      .enter dispatcher [.int (Int64.ofNat state), .outcome o, .frame frame] 0,
      .resumed (s.outer? frame) s.ambient :: tasks⟩
  | .note tag =>
    let line :=
      match o with
      | .fulfilled v => tag ++ ": fulfilled " ++ v.text
      | .rejected e => tag ++ ": rejected " ++ e.text
    ⟨s.note line, .answer .null, tasks⟩

/-- A result reaches the topmost task. -/
def answered (s : Store) (v : Value) (tasks : List Task) : Task → Machine
  | .caller a keep => ⟨s, .exec (a.advance (if keep then v :: a.stack else a.stack)), tasks⟩
  | .deliver o cs => ⟨s, .deliver o cs, tasks⟩
  | .resumed _ saved => ⟨{ s with ambient := saved }, .answer .null, tasks⟩
  | .restore saved => ⟨{ s with ambient := saved }, .answer .null, tasks⟩

/-- The exception that the outer future of a failed dispatcher gets. -/
def failure (s : Store) : Unwind → Store × Value
  | .throw e => (s, e)
  | .fault f => s.newException "VmFault" f.message

/-- An exception or a fault reaches the topmost task. -/
def unwound (p : Program) (s : Store) (u : Unwind) (tasks : List Task) : Task → Machine
  | .caller a _ =>
    match u with
    | .throw e => ⟨s, p.raise a e, tasks⟩
    | .fault f => ⟨s, .unwind (.fault f), tasks⟩
  | .deliver o cs => ⟨s, .deliver o cs, tasks⟩
  | .resumed (some outer) saved =>
    let (s, e) := failure s u
    of (s.reject outer e) (.restore saved :: tasks)
  | .resumed none saved => ⟨{ s with ambient := saved }, .answer .null, tasks⟩
  | .restore saved => ⟨{ s with ambient := saved }, .unwind u, tasks⟩

/-- **One step**; `none` when the machine has finished. -/
def step? (p : Program) (m : Machine) : Option Machine :=
  match m.control, m.tasks with
  | .exec a, tasks => some (execute p m.store a tasks)
  | .enter name args depth, tasks => some (of (p.enter m.store name args depth) tasks)
  | .deliver _ [], tasks => some ⟨m.store, .answer (.bool true), tasks⟩
  | .deliver o (c :: cs), tasks => some (call m.store o (.deliver o cs :: tasks) c)
  | .answer v, t :: tasks => some (answered m.store v tasks t)
  | .unwind u, t :: tasks => some (unwound p m.store u tasks t)
  | .answer _, [] => none
  | .unwind _, [] => none

/-- How a machine that has finished ended. -/
def result (m : Machine) : Except Unwind Value :=
  match m.control with
  | .answer v => .ok v
  | .unwind u => .error u
  | _ => .ok .null

/-- The store and the result of a machine that finishes within the given number of steps. -/
def run? (p : Program) : Nat → Machine → Option (Store × Except Unwind Value)
  | 0, _ => none
  | steps + 1, m =>
    match m.step? p with
    | none => some (m.store, m.result)
    | some m => run? p steps m

/-! ### What the host starts -/

/-- Calls a function. -/
def invoke (s : Store) (name : String) (args : List Value) : Machine := ⟨s, .enter name args 0, []⟩

/-- Fulfils a promise. -/
def fulfill (s : Store) (p : Nat) (v : Value) : Machine := of (s.fulfill p v) []

/-- Rejects a promise. -/
def reject (s : Store) (p : Nat) (e : Value) : Machine := of (s.reject p e) []

/-- Settles a promise with an outcome as it is. -/
def settle (s : Store) (p : Nat) (o : Outcome Value) : Machine := of (s.settle p o) []

/-- Registers a callback. -/
def subscribe (s : Store) (p : Nat) (c : Callback) : Machine := of (s.register p c) []

end Machine

end Resumable
