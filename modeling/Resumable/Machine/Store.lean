/-
**The store of the machine.**

Promises, frames, the ambient context and what the host sees.  A promise is pending with the
callbacks that wait for it, or it is settled for good.

Settling a promise hands its callbacks over in the order in which they were registered; running them
is the machine's task, since a callback can run code.
-/

import Resumable.Machine.Value

set_option autoImplicit false

namespace Resumable

/-! ### Ambient context -/

/-- Values that go with the running code from call to call, by key. -/
abbrev Ambient := List (String × Value)

namespace Ambient

/-- The value of a key. -/
def get? (a : Ambient) (key : String) : Option Value := a.lookup key

/-- The context with a key set. -/
def set (a : Ambient) (key : String) (v : Value) : Ambient :=
  (key, v) :: a.filter (·.1 != key)

end Ambient

/-! ### Cells -/

/-- What is to happen when a promise settles. -/
inductive Callback where
  /-- Another promise settles with the same outcome. -/
  | adopt (p : Nat)
  /-- A dispatcher is called with a state, the outcome and a frame, in the ambient context of the
  moment when the callback was registered. -/
  | resume (dispatcher : String) (state : Nat) (frame : Nat) (ambient : Ambient)
  /-- The host notes the outcome under a tag. -/
  | note (tag : String)
deriving Inhabited

/-- The state of a promise. -/
inductive Promise where
  /-- With the callbacks that wait, in the order in which they were registered. -/
  | pending (waiting : List Callback)
  | settled (o : Outcome Value)
deriving Inhabited

/-- The saved state of a parked method: the future that stands for its result, and its locals. -/
structure Frame where
  outer : Nat
  slots : List Value
deriving Inhabited

/-- One call of a native function. -/
structure NativeCall where
  name : String
  args : List Value
deriving Inhabited

/-- The store. -/
structure Store where
  promises : Array Promise := #[]
  frames : Array Frame := #[]
  /-- The next identity for an object or a closure. -/
  identities : Nat := 0
  ambient : Ambient := []
  /-- The lines noted by the host. -/
  log : Array String := #[]
  /-- The pending promises handed out by the host, oldest first, each with its tag. -/
  queue : List (Int64 × Nat) := []
  /-- The calls of native functions, latest first. -/
  calls : List NativeCall := []
deriving Inhabited

namespace Store

/-! ### Identities -/

/-- Makes an object. -/
def newObject (s : Store) (cls : String) (fields : List Value) : Store × Value :=
  ({ s with identities := s.identities + 1 }, .object s.identities cls fields)

/-- Makes an exception with a message. -/
def newException (s : Store) (cls message : String) : Store × Value :=
  s.newObject cls [.str message]

/-- Makes a closure. -/
def newClosure (s : Store) (method : String) (captures : List Value) : Store × Value :=
  ({ s with identities := s.identities + 1 }, .closure s.identities method captures)

/-! ### Promises -/

/-- Makes a promise in the given state. -/
def addPromise (s : Store) (p : Promise) : Store × Nat :=
  ({ s with promises := s.promises.push p }, s.promises.size)

/-- Makes a pending promise. -/
def newPromise (s : Store) : Store × Nat := s.addPromise (.pending [])

/-- The outcome of a promise, once it has settled. -/
def outcome? (s : Store) (p : Nat) : Option (Outcome Value) :=
  match s.promises[p]? with
  | some (.settled o) => some o
  | _ => none

/-- Whether a promise has settled. -/
def isSettled (s : Store) (p : Nat) : Bool := (s.outcome? p).isSome

/-- Gives a pending promise its outcome and hands over the callbacks that waited; `none` if the
promise has settled before. -/
def settle? (s : Store) (p : Nat) (o : Outcome Value) : Option (Store × List Callback) :=
  match s.promises[p]? with
  | some (.pending waiting) =>
    some ({ s with promises := s.promises.setIfInBounds p (.settled o) }, waiting)
  | _ => none

/-- Registers a callback on a pending promise; if the promise has settled, nothing is registered and
the outcome is given back. -/
def subscribe (s : Store) (p : Nat) (c : Callback) : Store × Option (Outcome Value) :=
  match s.promises[p]? with
  | some (.pending waiting) =>
    ({ s with promises := s.promises.setIfInBounds p (.pending (waiting ++ [c])) }, none)
  | some (.settled o) => (s, some o)
  | none => (s, none)

/-- Makes a promise that is settled at once.  Fulfilled with a future, it takes over the outcome of
that future, when there is one. -/
def settledPromise (s : Store) (o : Outcome Value) : Store × Nat :=
  match o with
  | .fulfilled (.future q) =>
    match s.outcome? q with
    | some taken => s.addPromise (.settled taken)
    | none =>
      let (s, p) := s.newPromise
      ((s.subscribe q (.adopt p)).1, p)
  | o => s.addPromise (.settled o)

/-! ### Frames -/

/-- Makes a frame with empty slots. -/
def newFrame (s : Store) (outer : Nat) (slots : Nat) : Store × Nat :=
  ({ s with frames := s.frames.push ⟨outer, List.replicate slots .null⟩ }, s.frames.size)

/-- The outer future of a frame. -/
def outer? (s : Store) (f : Nat) : Option Nat := s.frames[f]?.map (·.outer)

/-- The slots of a frame. -/
def slots (s : Store) (f : Nat) : List Value := (s.frames[f]?.map (·.slots)).getD []

/-- The value in a slot of a frame, if the slot exists. -/
def loadSlot? (s : Store) (f : Nat) (slot : Nat) : Option Value := (s.slots f)[slot]?

/-- Puts a value into a slot of a frame, if the slot exists. -/
def storeSlot? (s : Store) (f : Nat) (slot : Nat) (v : Value) : Option Store :=
  match s.frames[f]? with
  | some frame =>
    if slot < frame.slots.length then
      some { s with frames :=
        s.frames.setIfInBounds f { frame with slots := frame.slots.set slot v } }
    else none
  | none => none

/-! ### The host -/

/-- Notes a line. -/
def note (s : Store) (line : String) : Store := { s with log := s.log.push line }

end Store

end Resumable
