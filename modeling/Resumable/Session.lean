/-
**Host sessions.**

A host plays with a program step by step: it makes promises and settles them, calls functions, sets
the ambient context and looks at what came of it.  Between the steps the machine is at rest.
-/

import Resumable.Machine.Step
import Resumable.Machine.View

set_option autoImplicit false

namespace Resumable

/-! ### Native functions of the host -/

/-- What a native function of the host does. -/
inductive Behaviour where
  /-- Notes the text of its first argument. -/
  | log
  /-- Returns a pending promise, which the host keeps. -/
  | pending
  /-- Returns a promise that is fulfilled with its tag, or rejected from the given tag on. -/
  | ready (limit : Int64)
  /-- Returns its first argument. -/
  | echo
  /-- Returns the number of its arguments. -/
  | count
  /-- Throws its first argument. -/
  | throw
  /-- Calls a function with its arguments. -/
  | call (name : String)
deriving DecidableEq, Inhabited

/-- The tag that arguments give: the first one, if it is an integer. -/
def Behaviour.tag (args : List Value) : Int64 := (args.head?.bind Value.int?).getD 0

/-- The native function with a behaviour. -/
def Behaviour.native : Behaviour → Native
  | .log, _, args => .note (Native.firstText args)
  | .pending, _, args => .pending (tag args)
  | .ready limit, _, args =>
    if limit ≤ tag args then .settled (.rejected (.exception "LimitException" "done"))
    else .settled (.fulfilled (.value (.int (tag args))))
  | .echo, _, args => .answer (Native.arg args 0)
  | .count, _, args => .answer (.int (Int64.ofNat args.length))
  | .throw, _, args => .throw (Native.arg args 0)
  | .call name, _, args => .invoke name args

/-! ### Steps and answers -/

/-- A value as the host writes it down.  Every occurrence makes a new object, promise or closure. -/
inductive Expr where
  | const (c : Const)
  /-- The value that a name is bound to. -/
  | ref (name : String)
  | object (cls : String) (fields : List Expr)
  | exception (cls message : String)
  /-- A new promise with an outcome. -/
  | promise (o : Outcome Expr)
  | outcome (o : Outcome Expr)
  | closure (method : String) (captures : List Expr)
deriving Inhabited

/-- What a host does.  A step that is `detached` runs in an ambient context of its own, empty at
first. -/
inductive Step where
  | bind (value : Expr) (name : String)
  | promises (names : List String)
  | fulfill (promise value : Expr) (detached : Bool)
  | reject (promise value : Expr) (detached : Bool)
  | settle (promise : Expr) (outcome : Outcome Expr) (detached : Bool)
  /-- Has the outcome of a promise noted. -/
  | watch (promise : Expr) (tag : String)
  /-- Has another promise settle with the same outcome. -/
  | chain (promise target : Expr)
  | state (promise : Expr)
  | invoke (method : String) (args : List Expr) (name : Option String) (detached : Bool)
  /-- Settles the oldest promise that the host keeps; without an outcome it is fulfilled with its
  tag. -/
  | next (outcome : Option (Outcome Expr))
  /-- Settles the promises that the host keeps until none is left: those with a tag above the limit
  are rejected, the others fulfilled with their tags. -/
  | drain (limit : Int64)
  | ambientSet (key : String) (value : Expr)
  | ambientGet (key : String) (detached : Bool)
  | ambientClear
  /-- Keeps the ambient context under a name. -/
  | capture (name : String)
  /-- Goes into a kept ambient context. -/
  | enter (name : String)
  /-- Goes back to the ambient context before the last `enter`. -/
  | leave
  | frameNew (outer : Expr) (slots : Nat) (name : String)
  | frameLoad (frame : Expr) (slot : Nat)
  | frameStore (frame : Expr) (slot : Nat) (value : Expr)
  | frameOuter (frame promise : Expr)
  | inspect (value : Expr)
  | same (left right : Expr)
  | isSubclass (cls ancestor : String)
  | hasMethod (name : String)
deriving Inhabited

/-- How a call ended. -/
inductive CallEnd where
  | returned (v : View)
  | threw (e : View) (message : String)
  | faulted (f : Fault)
deriving Inhabited

/-- What a value says about itself. -/
structure Inspection where
  typeName : String
  text : String
  className : Option String
  message : Option String
  int : Option Int64
  isFuture : Bool
deriving Inhabited

/-- What a host gets back. -/
inductive Answer where
  | nothing
  | flag (b : Bool)
  | count (n : Nat)
  | value (v : View)
  /-- A value that can be missing. -/
  | found (v : Option View)
  /-- A value in a slot that may not exist. -/
  | inSlot (v : Option View)
  /-- The outcome of a promise, if it has settled. -/
  | state (o : Option (Outcome View))
  | call (e : CallEnd)
  /-- The tag of a promise and whether it was pending; nothing if there was no promise. -/
  | next (o : Option (Int64 × Bool))
  | captured (isEmpty : Bool)
  | frame (slots : Nat)
  | inspection (i : Inspection)
deriving Inhabited

/-- Why a step cannot be played. -/
inductive StepError where
  | unbound (name : String)
  | noFuture
  | noFrame
  /-- The machine did not finish within the number of steps allowed. -/
  | unfinished
deriving DecidableEq, Inhabited

/-! ### Sessions -/

/-- A session at rest. -/
structure Session where
  program : Program
  store : Store := {}
  bindings : List (String × Value) := []
  snapshots : List (String × Ambient) := []
  /-- The ambient contexts to go back to, the last one first. -/
  guards : List Ambient := []
deriving Inhabited

namespace Session

/-- The session with a name bound to a value. -/
def bind (t : Session) (name : String) (v : Value) : Session :=
  { t with bindings := (name, v) :: t.bindings.filter (·.1 != name) }

mutual

/-- Makes the value that an expression stands for. -/
def eval (t : Session) : Expr → Except StepError (Session × Value)
  | .const c => .ok (t, Value.ofConst c)
  | .ref name =>
    match t.bindings.lookup name with
    | some v => .ok (t, v)
    | none => .error (.unbound name)
  | .object cls fields =>
    match evalAll t fields with
    | .error e => .error e
    | .ok (t, values) =>
      let (s, v) := t.store.newObject cls values
      .ok ({ t with store := s }, v)
  | .exception cls message =>
    let (s, v) := t.store.newException cls message
    .ok ({ t with store := s }, v)
  | .promise o =>
    match evalOutcome t o with
    | .error e => .error e
    | .ok (t, o) =>
      let (s, p) := t.store.settledPromise o
      .ok ({ t with store := s }, .future p)
  | .outcome o =>
    match evalOutcome t o with
    | .error e => .error e
    | .ok (t, o) => .ok (t, .outcome o)
  | .closure method captures =>
    match evalAll t captures with
    | .error e => .error e
    | .ok (t, values) =>
      let (s, v) := t.store.newClosure method values
      .ok ({ t with store := s }, v)

/-- Makes the values that expressions stand for, one after the other. -/
def evalAll (t : Session) : List Expr → Except StepError (Session × List Value)
  | [] => .ok (t, [])
  | e :: es =>
    match eval t e with
    | .error err => .error err
    | .ok (t, v) =>
      match evalAll t es with
      | .error err => .error err
      | .ok (t, vs) => .ok (t, v :: vs)

/-- Makes an outcome. -/
def evalOutcome (t : Session) : Outcome Expr → Except StepError (Session × Outcome Value)
  | .fulfilled e =>
    match eval t e with
    | .error err => .error err
    | .ok (t, v) => .ok (t, .fulfilled v)
  | .rejected e =>
    match eval t e with
    | .error err => .error err
    | .ok (t, v) => .ok (t, .rejected v)

end

/-- Makes a future. -/
def evalFuture (t : Session) (e : Expr) : Except StepError (Session × Nat) := do
  match ← t.eval e with
  | (t, .future p) => return (t, p)
  | _ => throw .noFuture

/-- Makes a frame. -/
def evalFrame (t : Session) (e : Expr) : Except StepError (Session × Nat) := do
  match ← t.eval e with
  | (t, .frame f) => return (t, f)
  | _ => throw .noFrame

/-- Runs a machine on the store, at most the given number of steps.  Detached, it runs in an empty
ambient context, and the context of the session stays as it is. -/
def run (t : Session) (steps : Nat) (detached : Bool) (start : Store → Machine) :
    Except StepError (Session × Except Unwind Value) :=
  let store := if detached then { t.store with ambient := [] } else t.store
  match (start store).run? t.program steps with
  | none => .error .unfinished
  | some (s, r) =>
    let s := if detached then { s with ambient := t.store.ambient } else s
    .ok ({ t with store := s }, r)

/-- Whether the answer of a settlement was that the promise had been pending. -/
def wasPending : Except Unwind Value → Bool
  | .ok (.bool b) => b
  | _ => false

/-- Settles the oldest promise that the host keeps as the given function says. -/
def settleOldest (t : Session) (steps : Nat) (how : Int64 → Store → Store × Outcome Value) :
    Except StepError (Session × Option (Int64 × Bool)) :=
  match t.store.queue with
  | [] => .ok (t, none)
  | (tag, p) :: rest =>
    let (s, o) := how tag { t.store with queue := rest }
    let start (s : Store) : Machine :=
      match o with
      | .fulfilled v => .fulfill s p v
      | .rejected e => .reject s p e
    match { t with store := s }.run steps false start with
    | .error e => .error e
    | .ok (t, r) => .ok (t, some (tag, wasPending r))

/-- The most promises that are settled when the host settles all it keeps. -/
def drainLimit : Nat := 5000

/-- Settles the promises that the host keeps, at most `most` of them, and counts them. -/
def drain (t : Session) (steps : Nat) (limit : Int64) : Nat → Except StepError (Session × Nat)
  | 0 => .ok (t, 0)
  | most + 1 =>
    let how (tag : Int64) (s : Store) : Store × Outcome Value :=
      if limit < tag then
        let (s, e) := s.newException "LimitException" "enough"
        (s, .rejected e)
      else (s, .fulfilled (.int tag))
    match t.settleOldest steps how with
    | .error e => .error e
    | .ok (t, none) => .ok (t, 0)
    | .ok (t, some _) =>
      match t.drain steps limit most with
      | .error e => .error e
      | .ok (t, n) => .ok (t, n + 1)

/-- How a call ended. -/
def callEnd (s : Store) : Except Unwind Value → CallEnd
  | .ok v => .returned (v.view s)
  | .error (.throw e) => .threw (e.view s) (Unwind.message (.throw e))
  | .error (.fault f) => .faulted f

/-- **One step of a session**, each machine it starts running at most the given number of steps. -/
def play (t : Session) (steps : Nat) : Step → Except StepError (Session × Answer)
  | .bind value name => do
    let (t, v) ← t.eval value
    return (t.bind name v, .value (v.view t.store))
  | .promises names =>
    .ok (names.foldl (fun t name =>
      let (s, p) := t.store.newPromise
      { t with store := s }.bind name (.future p)) t, .nothing)
  | .fulfill promise value detached => do
    let (t, p) ← t.evalFuture promise
    let (t, v) ← t.eval value
    let (t, r) ← t.run steps detached (.fulfill · p v)
    return (t, .flag (wasPending r))
  | .reject promise value detached => do
    let (t, p) ← t.evalFuture promise
    let (t, v) ← t.eval value
    let (t, r) ← t.run steps detached (.reject · p v)
    return (t, .flag (wasPending r))
  | .settle promise outcome detached => do
    let (t, p) ← t.evalFuture promise
    let (t, o) ← t.evalOutcome outcome
    let (t, r) ← t.run steps detached (.settle · p o)
    return (t, .flag (wasPending r))
  | .watch promise tag => do
    let (t, p) ← t.evalFuture promise
    let (t, _) ← t.run steps false (.subscribe · p (.note tag))
    return (t, .nothing)
  | .chain promise target => do
    let (t, p) ← t.evalFuture promise
    let (t, q) ← t.evalFuture target
    let (t, _) ← t.run steps false (.subscribe · p (.adopt q))
    return (t, .nothing)
  | .state promise => do
    let (t, p) ← t.evalFuture promise
    return (t, .state ((t.store.outcome? p).map
      (·.map (Value.viewWithin t.store (View.levels - 1)))))
  | .invoke method args name detached => do
    let (t, vs) ← t.evalAll args
    let (t, r) ← t.run steps detached (.invoke · method vs)
    let answer := Answer.call (callEnd t.store r)
    match r, name with
    | .ok v, some n => return (t.bind n v, answer)
    | _, _ => return (t, answer)
  | .next outcome => do
    match outcome with
    | none =>
      let (t, o) ← t.settleOldest steps fun tag s => (s, .fulfilled (.int tag))
      return (t, .next o)
    | some o =>
      if t.store.queue.isEmpty then return (t, .next none)
      else
        let (t, o) ← t.evalOutcome o
        let (t, r) ← t.settleOldest steps fun _ s => (s, o)
        return (t, .next r)
  | .drain limit => do
    let (t, n) ← t.drain steps limit drainLimit
    return (t, .count n)
  | .ambientSet key value => do
    let (t, v) ← t.eval value
    return ({ t with store := { t.store with ambient := t.store.ambient.set key v } }, .nothing)
  | .ambientGet key detached =>
    let found := if detached then none else t.store.ambient.get? key
    .ok (t, .found (found.map (·.view t.store)))
  | .ambientClear => .ok ({ t with store := { t.store with ambient := [] } }, .nothing)
  | .capture name =>
    .ok ({ t with snapshots := (name, t.store.ambient) :: t.snapshots },
      .captured t.store.ambient.isEmpty)
  | .enter name =>
    match t.snapshots.lookup name with
    | none => .error (.unbound name)
    | some ambient =>
      let guards := t.store.ambient :: t.guards
      .ok ({ t with store := { t.store with ambient := ambient }, guards := guards },
        .count guards.length)
  | .leave =>
    match t.guards with
    | [] => .ok (t, .count 0)
    | ambient :: guards =>
      .ok ({ t with store := { t.store with ambient := ambient }, guards := guards },
        .count guards.length)
  | .frameNew outer slots name => do
    let (t, p) ← t.evalFuture outer
    let (s, f) := t.store.newFrame p slots
    return ({ t with store := s }.bind name (.frame f), .frame slots)
  | .frameLoad frame slot => do
    let (t, f) ← t.evalFrame frame
    return (t, .inSlot ((t.store.loadSlot? f slot).map (·.view t.store)))
  | .frameStore frame slot value => do
    let (t, f) ← t.evalFrame frame
    let (t, v) ← t.eval value
    match t.store.storeSlot? f slot v with
    | some s => return ({ t with store := s }, .flag true)
    | none => return (t, .flag false)
  | .frameOuter frame promise => do
    let (t, f) ← t.evalFrame frame
    let (t, p) ← t.evalFuture promise
    return (t, .flag (t.store.outer? f == some p))
  | .inspect value => do
    let (t, v) ← t.eval value
    return (t, .inspection
      { typeName := v.typeName, text := v.text, className := v.className?, message := v.message?
        int := v.int?, isFuture := v.isFuture })
  | .same left right => do
    let (t, v) ← t.eval left
    let (t, w) ← t.eval right
    return (t, .flag (v.same w))
  | .isSubclass cls ancestor => .ok (t, .flag (t.program.isSubclass cls ancestor))
  | .hasMethod name => .ok (t, .flag (t.program.method? name).isSome)

/-! ### What the host sees -/

/-- What the host can see after a step. -/
structure Record where
  answer : Answer
  /-- The lines noted during the step. -/
  log : List String
  /-- The promises that names are bound to. -/
  promises : List (String × String)
  /-- The tags of the promises that the host keeps, oldest first. -/
  queued : List Int64
deriving Inhabited

/-- The promises that names are bound to, in one line each. -/
def namedPromises (t : Session) : List (String × String) :=
  t.bindings.filterMap fun b =>
    match b.2 with
    | .future p => some (b.1, t.store.promiseText p)
    | _ => none

/-- One step, with what the host can see after it. -/
def record (t : Session) (steps : Nat) (step : Step) : Except StepError (Session × Record) := do
  let noted := t.store.log.size
  let (t, answer) ← t.play steps step
  return (t,
    { answer := answer
      log := (t.store.log.extract noted t.store.log.size).toList
      promises := t.namedPromises
      queued := t.store.queue.map (·.1) })

end Session

end Resumable
