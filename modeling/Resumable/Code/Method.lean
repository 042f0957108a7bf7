/-
**Methods.**

A method is a list of basic blocks, each a run of instructions that ends in a terminator, with a
table of exception regions.  The first region in the table that covers the throwing block and
matches the exception handles it.
-/

import Resumable.Code.Instr
import Resumable.IdSet

set_option autoImplicit false

namespace Resumable

/-! ### Terminators -/

/-- How a block ends. -/
inductive Terminator where
  | goto (target : Nat)
  /-- Takes a truth value. -/
  | branch (ifTrue ifFalse : Nat)
  /-- Takes an integer. -/
  | switch (cases : List (Int64 × Nat)) (default : Nat)
  /-- Takes the returned value unless the method returns nothing. -/
  | ret
  /-- Takes an exception. -/
  | raise
  /-- Ends a cleanup body: control goes on along the exit that entered it. -/
  | endCleanup
  | unreachable
deriving DecidableEq, Inhabited

namespace Terminator

/-- The blocks that normal control can go to, in the order in which they are written. -/
def successors : Terminator → List Nat
  | goto target => [target]
  | branch ifTrue ifFalse => [ifTrue, ifFalse]
  | switch cases default => cases.map (·.2) ++ [default]
  | _ => []

/-- The terminator with every target renamed. -/
def mapTargets (f : Nat → Nat) : Terminator → Terminator
  | goto target => goto (f target)
  | branch ifTrue ifFalse => branch (f ifTrue) (f ifFalse)
  | switch cases default => switch (cases.map fun c => (c.1, f c.2)) (f default)
  | t => t

/-- The number of operands taken from the stack in a method that returns `ret`. -/
def pops (ret : Ty) : Terminator → Nat
  | branch _ _ | switch _ _ | raise => 1
  | .ret => ret.slots
  | goto _ | endCleanup | unreachable => 0

/-- Renaming the targets renames the successors. -/
@[simp] theorem successors_mapTargets (f : Nat → Nat) (t : Terminator) :
    (t.mapTargets f).successors = t.successors.map f := by
  cases t <;> simp [mapTargets, successors]

end Terminator

/-! ### Methods -/

/-- A run of instructions and the terminator after it. -/
structure Block where
  id : Nat
  instrs : List Instr
  terminator : Terminator
deriving DecidableEq, Inhabited

/-- A local variable, a parameter or a temporary. -/
structure Local where
  id : Nat
  name : Option String
  ty : Ty
  isParam : Bool
deriving DecidableEq, Inhabited

/-- What an exception region does with an exception. -/
inductive RegionKind where
  /-- Handles exceptions of the class and of its subclasses. -/
  | catches (cls : String)
  | catchAll
  /-- Runs a cleanup body on every way out of the region. -/
  | cleanup
deriving DecidableEq, Inhabited

/-- Blocks guarded by one handler. -/
structure Region where
  id : Nat
  blocks : IdSet
  handler : Nat
  kind : RegionKind
deriving DecidableEq, Inhabited

/-- A note attached to a method. -/
structure Annotation where
  name : String
  args : List (String × Const)
deriving DecidableEq, Inhabited

/-- Modifiers of a method. -/
structure Flags where
  isPublic : Bool := false
  isStatic : Bool := false
  /-- Generated, not part of the callable surface. -/
  isSynthetic : Bool := false
  /-- The body of a closure, whose captured values come as leading arguments. -/
  isLambda : Bool := false
deriving DecidableEq, Inhabited

/-- A method: signature, locals, blocks and exception table. -/
structure Method where
  name : String
  params : List Local
  ret : Ty
  /-- All locals, parameters first. -/
  locals : List Local
  blocks : List Block
  entry : Nat
  /-- In order of priority. -/
  regions : List Region
  annotations : List Annotation := []
  throws : List String := []
  flags : Flags := {}
deriving DecidableEq, Inhabited

/-- A named group of methods. -/
structure ClassUnit where
  name : String
  methods : List Method
deriving DecidableEq, Inhabited

/-- The position of an instruction in a method: its block and its offset there.  The offset after
the last instruction is that of the terminator. -/
structure Location where
  block : Nat
  offset : Nat
deriving DecidableEq, Inhabited

/-- Positions are ordered by block, then by offset. -/
def Location.before (a b : Location) : Bool :=
  a.block < b.block || (a.block == b.block && a.offset < b.offset)

namespace Method

/-- The block with the given number. -/
def block? (m : Method) (b : Nat) : Option Block := m.blocks[b]?

/-- The first declared local with the given number. -/
def local? (m : Method) (l : Nat) : Option Local := m.locals.find? (·.id == l)

/-- The static type of a local. -/
def localTy (m : Method) (l : Nat) : Ty :=
  match m.local? l with
  | some v => v.ty
  | none => .object "?"

/-- The name of a local, made from its number when it has none. -/
def localName (m : Method) (l : Nat) : String :=
  match (m.local? l).bind (·.name) with
  | some name => name
  | none => "_" ++ toString l

/-- The regions that cover a block, in order of priority. -/
def covering (m : Method) (b : Nat) : List Region := m.regions.filter (b ∈ ·.blocks)

/-- The handlers of the regions that cover a block, in order of priority. -/
def handlers (m : Method) (b : Nat) : List Nat := (m.covering b).map (·.handler)

/-- Whether some instruction calls a function whose name satisfies `p`. -/
def callsAny (m : Method) (p : String → Bool) : Bool :=
  m.blocks.any fun b => b.instrs.any fun i => (i.callee? p).isSome

/-- The name of the method as a member of a class; a class without a name adds nothing. -/
def qualified (m : Method) (cls : String) : String :=
  if cls.isEmpty then m.name else cls ++ "." ++ m.name

/-- The least number above those of all locals. -/
def nextLocal (m : Method) : Nat := m.locals.foldl (fun n l => max n (l.id + 1)) 0

/-- The blocks that control can go to from a block, normally or by an exception. -/
def exits (m : Method) (b : Nat) : List Nat :=
  match m.block? b with
  | some block => block.terminator.successors ++ m.handlers b
  | none => []

end Method

/-- The first method of the given name. -/
def ClassUnit.method? (u : ClassUnit) (name : String) : Option Method :=
  u.methods.find? (·.name == name)

/-! ### Agreement -/

/-- Equality of lists by a relation on their members. -/
def agreeing {α : Type} (p : α → α → Bool) (xs ys : List α) : Bool :=
  xs.length == ys.length && (xs.zip ys).all fun c => p c.1 c.2

/-- Equality of methods in which constants are compared by `Const.agrees`. -/
def Method.agrees (m n : Method) : Bool :=
  m.name == n.name && m.params = n.params && m.ret = n.ret && m.locals = n.locals &&
  agreeing (fun b c => b.id == c.id && agreeing Instr.agrees b.instrs c.instrs &&
    b.terminator = c.terminator) m.blocks n.blocks &&
  m.entry == n.entry && m.regions = n.regions &&
  agreeing (fun a b => a.name == b.name &&
    agreeing (fun x y => x.1 == y.1 && x.2.agrees y.2) a.args b.args) m.annotations n.annotations &&
  m.throws == n.throws && m.flags = n.flags

/-- Equality of class units in which constants are compared by `Const.agrees`. -/
def ClassUnit.agrees (u v : ClassUnit) : Bool :=
  u.name == v.name && agreeing Method.agrees u.methods v.methods

end Resumable
