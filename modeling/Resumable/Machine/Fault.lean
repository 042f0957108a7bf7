/-
**Faults.**

A fault is a bug in the code that runs or in its host.  Unlike an exception it cannot be handled by
the code.
-/

import Resumable.Machine.Value

set_option autoImplicit false

namespace Resumable

/-- An operand of the wrong sort; sorts are given by their names. -/
inductive Mismatch where
  | branchOn (sort : String)
  | switchOn (sort : String)
  | callOn (sort : String)
  | unwrapOf (sort : String)
  | expectedFuture (sort : String)
  | expectedFrame (sort : String)
  | slotOutOfRange (slot : Nat)
  | unaryOn (op : UnaryOp) (sort : String)
  /-- The operator is not defined on two numbers. -/
  | numericOn (op : BinaryOp) (sort : String)
  | binaryOn (op : BinaryOp) (left right : String)
deriving DecidableEq, Inhabited

/-- A mismatch in words. -/
def Mismatch.detail : Mismatch → String
  | branchOn sort => "branch on " ++ sort
  | switchOn sort => "switch on " ++ sort
  | callOn sort => "call on " ++ sort
  | unwrapOf sort => "unwrap of " ++ sort
  | expectedFuture sort => "expected future, found " ++ sort
  | expectedFrame sort => "expected frame, found " ++ sort
  | slotOutOfRange slot => "frame slot " ++ toString slot ++ " out of range"
  | unaryOn op sort => op.text ++ " on " ++ sort
  | numericOn op sort => op.text ++ " on " ++ sort
  | binaryOn op left right => op.text ++ " on " ++ left ++ " and " ++ right

/-- Faults. -/
inductive Fault where
  | unknownFunction (name : String)
  | stackUnderflow (method : String) (location : Location)
  | mismatch (method : String) (location : Location) (m : Mismatch)
  | wouldBlock (marker : String)
  | unreachable (method : String) (location : Location)
  | rawCleanup (method : String)
  | arity (name : String) (expected got : Nat)
  | unknownBlock (method : String) (block : Nat)
  | monitorUnderflow (method : String) (location : Location)
  | depthLimit (limit : Nat)
deriving DecidableEq, Inhabited

/-- A fault in one sentence. -/
def Fault.message : Fault → String
  | unknownFunction name => "undefined function `" ++ name ++ "`"
  | stackUnderflow method location =>
    "operand stack underflow in `" ++ method ++ "` at " ++ location.text
  | mismatch method location m =>
    "type error in `" ++ method ++ "` at " ++ location.text ++ ": " ++ m.detail
  | wouldBlock marker => "`" ++ marker ++ "` would block: the awaited future is still pending"
  | unreachable method location =>
    "reached unreachable code in `" ++ method ++ "` at " ++ location.text
  | rawCleanup method =>
    "`" ++ method ++ "` uses end_finally; normalize finally regions before running it"
  | arity name expected got =>
    "expected " ++ toString expected ++ " argument" ++ (if expected = 1 then "" else "s") ++
      ", got " ++ toString got ++ " calling `" ++ name ++ "`"
  | unknownBlock method block => "no block " ++ blockText block ++ " in `" ++ method ++ "`"
  | monitorUnderflow method location =>
    "monitor exit without a held monitor in `" ++ method ++ "` at " ++ location.text
  | depthLimit limit => "call depth limit of " ++ toString limit ++ " exceeded"

/-- How a call ends when it does not return. -/
inductive Unwind where
  | throw (exception : Value)
  | fault (f : Fault)
deriving Inhabited

/-- The ending in words. -/
def Unwind.message : Unwind → String
  | .throw e => "uncaught " ++ e.text
  | .fault f => f.message

end Resumable
