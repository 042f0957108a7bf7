/-
**Programs.**

What a machine runs: methods and native functions by name, the inheritance of classes, the suspend
markers and the limit on the depth of calls.  Whatever is added later takes the place of what had
the same name.

A native function answers a call with a request that the machine carries out.  It may depend on the
calls of native functions made so far, so it can behave differently from call to call.
-/

import Resumable.Machine.Store

set_option autoImplicit false

namespace Resumable

/-! ### Native functions -/

/-- A value, or an exception still to be made. -/
inductive Payload where
  | value (v : Value)
  | exception (cls message : String)
deriving Inhabited

/-- What a native function asks for. -/
inductive Request where
  /-- Returns a value. -/
  | answer (v : Value)
  /-- Throws an exception. -/
  | throw (v : Value)
  /-- Notes a line and returns nothing. -/
  | note (line : String)
  /-- Returns a new pending promise, which the host keeps under a tag. -/
  | pending (tag : Int64)
  /-- Returns a new promise with the given outcome. -/
  | settled (o : Outcome Payload)
  /-- Returns the ambient value of a key. -/
  | lookup (key : String)
  /-- Sets the ambient value of a key and returns nothing. -/
  | assign (key : String) (v : Value)
  /-- Calls a function from the outermost level and ends as it ends. -/
  | invoke (name : String) (args : List Value)
deriving Inhabited

/-- A native function: a request for each call, given the calls of native functions before it. -/
abbrev Native := List NativeCall → List Value → Request

namespace Native

/-- The text of the first argument; without arguments the empty text. -/
def firstText (args : List Value) : String := (args.head?.map Value.text).getD ""

/-- The argument at a position, or nothing. -/
def arg (args : List Value) (i : Nat) : Value := args[i]?.getD .null

/-- The native functions of every program. -/
def builtins : List (String × Native) :=
  [ ("Future.completed", fun _ args => .settled (.fulfilled (.value (arg args 0)))),
    ("Future.failed", fun _ args => .settled (.rejected (.value (arg args 0)))),
    ("Context.get", fun _ args => .lookup (firstText args)),
    ("Context.set", fun _ args => .assign (firstText args) (arg args 1)) ]

end Native

/-! ### Programs -/

/-- A program.  Entries in front come before those behind. -/
structure Program where
  methods : List (String × Method) := []
  natives : List (String × Native) := Native.builtins
  /-- Classes, each with the class it inherits from. -/
  parents : List (String × String) := []
  markers : List String := ["Await.await", "suspend"]
  maxDepth : Nat := 256
deriving Inhabited

namespace Program

/-- Adds a method under its own name. -/
def addMethod (p : Program) (m : Method) : Program :=
  { p with methods := (m.name, m) :: p.methods }

/-- Adds the methods of a class, each under its qualified name and under its own. -/
def addClass (p : Program) (u : ClassUnit) : Program :=
  u.methods.foldl (fun p m =>
    { p with methods := (m.name, m) :: (m.qualified u.name, m) :: p.methods }) p

/-- Adds a native function. -/
def addNative (p : Program) (name : String) (f : Native) : Program :=
  { p with natives := (name, f) :: p.natives }

/-- Declares that a class inherits from another. -/
def addSubclass (p : Program) (child parent : String) : Program :=
  { p with parents := (child, parent) :: p.parents }

/-- The method of the given name. -/
def method? (p : Program) (name : String) : Option Method := p.methods.lookup name

/-- The native function of the given name. -/
def native? (p : Program) (name : String) : Option Native := p.natives.lookup name

/-! ### Inheritance -/

/-- A class and the classes above it, at most `steps` of them. -/
def ancestry (parents : List (String × String)) : Nat → String → List String
  | 0, cls => [cls]
  | steps + 1, cls =>
    match parents.lookup cls with
    | some parent => cls :: ancestry parents steps parent
    | none => [cls]

/-- How many classes inherit from another. -/
def heirCount (p : Program) : Nat := (p.parents.map (·.1)).eraseDups.length

/-- Whether a class is the given one or inherits from it.  Every class is a `Throwable`.  There are
no more classes above a class than there are heirs, unless they go round in a circle. -/
def isSubclass (p : Program) (cls ancestor : String) : Bool :=
  ancestor == "Throwable" || (ancestry p.parents p.heirCount cls).contains ancestor

/-- Whether a region of this kind takes an exception.  Only an object has a class. -/
def takes (p : Program) (e : Value) : RegionKind → Bool
  | .catches cls =>
    match e.className? with
    | some c => p.isSubclass c cls
    | none => false
  | .catchAll | .cleanup => true

/-- The handler that takes an exception raised in a block: that of the first region that covers the
block and takes the exception. -/
def handler? (p : Program) (m : Method) (b : Nat) (e : Value) : Option Nat :=
  ((m.covering b).find? fun r => p.takes e r.kind).map (·.handler)

theorem mem_handlers_of_handler? {p : Program} {m : Method} {b handler : Nat} {e : Value}
    (h : p.handler? m b e = some handler) : handler ∈ m.handlers b := by
  obtain ⟨region, hregion, rfl⟩ := Option.map_eq_some_iff.1 h
  exact List.mem_map_of_mem (List.mem_of_find?_eq_some hregion)

end Program

end Resumable
