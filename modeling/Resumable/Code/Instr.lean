/-
**Instructions of a stack machine with locals.**

An instruction takes its operands from the operand stack and leaves its result there.  The last
group of instructions, the *continuation protocol*, is what a converted method uses to park itself
on a future and to be resumed later.
-/

set_option autoImplicit false

namespace Resumable

/-! ### Types, constants, operators -/

/-- Static types of locals and stack values. -/
inductive Ty where
  | void
  | bool
  | int
  | float
  | str
  /-- An instance of the named class. -/
  | object (cls : String)
  /-- A value that is pending, fulfilled or rejected. -/
  | future
  /-- The saved state of a parked method. -/
  | frame
  /-- What a settled future delivers: a value or a failure. -/
  | outcome
deriving DecidableEq, Inhabited

/-- The number of operand stack slots a value of the type takes. -/
def Ty.slots : Ty → Nat
  | .void => 0
  | _ => 1

/-- Whether the type has no values. -/
def Ty.isVoid (t : Ty) : Bool := t.slots == 0

/-- Constants that can be pushed. -/
inductive Const where
  | null
  | bool (b : Bool)
  | int (n : Int64)
  | float (x : Float)
  | str (s : String)
deriving DecidableEq, Inhabited

/-- Equality of constants in which floats are compared as numbers: a constant that is not a number
differs from itself, and the two zeros agree. -/
def Const.agrees : Const → Const → Bool
  | .float x, .float y => x == y
  | c, d => c = d

/-- Operators on two operands. -/
inductive BinaryOp where
  | add | sub | mul | div | rem
  | eq | ne | lt | gt | le | ge
  | and | or
deriving DecidableEq, Inhabited

/-- Operators on one operand. -/
inductive UnaryOp where
  | neg | not
deriving DecidableEq, Inhabited

/-- The target of a call: `argc` values are taken, and one is left unless `ret` is void. -/
structure Callee where
  name : String
  argc : Nat
  ret : Ty
deriving DecidableEq, Inhabited

/-! ### Instructions -/

/-- Straight-line instructions. -/
inductive Instr where
  | push (c : Const)
  | load (l : Nat)
  | store (l : Nat)
  | dup
  | pop
  | swap
  | binary (op : BinaryOp)
  | unary (op : UnaryOp)
  | invoke (callee : Callee)
  /-- Builds an object, typically an exception, from `argc` operands. -/
  | construct (cls : String) (argc : Nat)
  | monitorEnter
  | monitorExit
  /-- Builds a closure over `captures` operands, which become the leading arguments of `method`. -/
  | closure (method : String) (captures : Nat)
  /-- Takes `argc` arguments, then the closure to call. -/
  | callClosure (argc : Nat) (ret : Ty)
  /-- Leaves a new pending future. -/
  | futureNew
  /-- Replaces a future by whether it has settled. -/
  | futureIsDone
  /-- Replaces a settled future by its value, or throws its failure. -/
  | futureJoin
  /-- Takes a value, then a future, and fulfils it. -/
  | futureFulfill
  /-- Takes an exception, then a future, and rejects it. -/
  | futureReject
  /-- Replaces an outer future by a frame with empty slots. -/
  | frameNew (slots : Nat)
  | frameLoad (frame : Nat) (slot : Nat)
  | frameStore (frame : Nat) (slot : Nat)
  /-- Leaves the outer future of a frame. -/
  | frameOuter (frame : Nat)
  /-- Replaces an outcome by its value, or throws its failure. -/
  | outcomeUnwrap
  /-- Takes a future; once it settles, `dispatcher` is called with the state, the outcome and the
  frame. -/
  | resume (dispatcher : String) (state : Nat) (frame : Nat)
deriving DecidableEq, Inhabited

namespace Instr

/-- The number of operands taken from the stack. -/
def pops : Instr → Nat
  | push _ | load _ | futureNew | frameLoad _ _ | frameOuter _ => 0
  | store _ | pop | dup | unary _ | monitorEnter | monitorExit | futureIsDone | futureJoin
  | outcomeUnwrap | frameNew _ | frameStore _ _ | resume _ _ _ => 1
  | swap | binary _ | futureFulfill | futureReject => 2
  | invoke callee => callee.argc
  | construct _ argc => argc
  | closure _ captures => captures
  | callClosure argc _ => argc + 1

/-- The number of results left on the stack. -/
def pushes : Instr → Nat
  | store _ | pop | monitorEnter | monitorExit | futureFulfill | futureReject | frameStore _ _
  | resume _ _ _ => 0
  | push _ | load _ | binary _ | unary _ | construct _ _ | closure _ _ | futureNew | futureIsDone
  | futureJoin | outcomeUnwrap | frameNew _ | frameLoad _ _ | frameOuter _ => 1
  | dup | swap => 2
  | invoke callee => callee.ret.slots
  | callClosure _ ret => ret.slots

/-- Whether executing the instruction can raise an exception. -/
def mayThrow : Instr → Bool
  | push _ | load _ | store _ | dup | pop | swap | futureNew | futureIsDone | frameLoad _ _
  | frameStore _ _ | frameOuter _ => false
  | _ => true

/-- The local that the instruction reads. -/
def uses? : Instr → Option Nat
  | load l => some l
  | frameLoad f _ | frameStore f _ | frameOuter f | resume _ _ f => some f
  | _ => none

/-- The local that the instruction writes. -/
def defines? : Instr → Option Nat
  | store l => some l
  | _ => none

/-- Whether the instruction belongs to the continuation protocol. -/
def isProtocol : Instr → Bool
  | futureNew | futureIsDone | futureJoin | futureFulfill | futureReject | frameNew _
  | frameLoad _ _ | frameStore _ _ | frameOuter _ | outcomeUnwrap | resume _ _ _ => true
  | _ => false

/-- The instruction with every local renamed. -/
def mapLocals (f : Nat → Nat) : Instr → Instr
  | load l => load (f l)
  | store l => store (f l)
  | frameLoad frame slot => frameLoad (f frame) slot
  | frameStore frame slot => frameStore (f frame) slot
  | frameOuter frame => frameOuter (f frame)
  | resume dispatcher state frame => resume dispatcher state (f frame)
  | i => i

/-- The callee, if the instruction calls a function whose name satisfies `p`. -/
def callee? (p : String → Bool) : Instr → Option Callee
  | invoke callee => if p callee.name then some callee else none
  | _ => none

/-- Equality of instructions in which constants are compared by `Const.agrees`. -/
def agrees : Instr → Instr → Bool
  | push c, push d => c.agrees d
  | i, j => i = j

end Instr

end Resumable
