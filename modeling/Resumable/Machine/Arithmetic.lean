/-
**Operators on values.**

Integers wrap around at 64 bits, and dividing one by zero is an exception.  An integer and a float
are computed as floats.  Adding anything to a string appends its text.
-/

import Resumable.Machine.Fault

set_option autoImplicit false

namespace Resumable

/-- The result of an operator. -/
inductive Computed where
  | value (v : Value)
  | divisionByZero
  | mismatch (m : Mismatch)
deriving Inhabited

/-- Applies an operator to an operand. -/
def UnaryOp.apply : UnaryOp → Value → Computed
  | .neg, .int n => .value (.int (-n))
  | .neg, .float x => .value (.float (-x))
  | .not, .bool b => .value (.bool !b)
  | op, v => .mismatch (.unaryOn op v.typeName)

/-- Applies an operator to two integers. -/
def BinaryOp.onInts (op : BinaryOp) (x y : Int64) : Computed :=
  match op with
  | .add => .value (.int (x + y))
  | .sub => .value (.int (x - y))
  | .mul => .value (.int (x * y))
  | .div => if y = 0 then .divisionByZero else .value (.int (x / y))
  | .rem => if y = 0 then .divisionByZero else .value (.int (x % y))
  | .lt => .value (.bool (x < y))
  | .gt => .value (.bool (y < x))
  | .le => .value (.bool (x ≤ y))
  | .ge => .value (.bool (y ≤ x))
  | .eq | .ne | .and | .or => .mismatch (.numericOn op "int")

/-- Applies an operator to two floats. -/
def BinaryOp.onFloats (op : BinaryOp) (x y : Float) : Computed :=
  match op with
  | .add => .value (.float (x + y))
  | .sub => .value (.float (x - y))
  | .mul => .value (.float (x * y))
  | .div => .value (.float (x / y))
  | .rem => .value (.float (Binary64.remainder x y))
  | .lt => .value (.bool (x < y))
  | .gt => .value (.bool (y < x))
  | .le => .value (.bool (x ≤ y))
  | .ge => .value (.bool (y ≤ x))
  | .eq | .ne | .and | .or => .mismatch (.numericOn op "float")

/-- Applies an operator to operands that are not compared for equality. -/
def BinaryOp.onValues (op : BinaryOp) (a b : Value) : Computed :=
  match a, b with
  | .int x, .int y => op.onInts x y
  | .int x, .float y => op.onFloats x.toFloat y
  | .float x, .int y => op.onFloats x y.toFloat
  | .float x, .float y => op.onFloats x y
  | a, b => .mismatch (.binaryOn op a.typeName b.typeName)

/-- Applies an operator to two operands. -/
def BinaryOp.apply (op : BinaryOp) (a b : Value) : Computed :=
  match op, a, b with
  | .eq, a, b => .value (.bool (a.same b))
  | .ne, a, b => .value (.bool !(a.same b))
  | .and, .bool x, .bool y => .value (.bool (x && y))
  | .or, .bool x, .bool y => .value (.bool (x || y))
  | .add, .str x, b => .value (.str (x ++ b.text))
  | op, a, b => op.onValues a b

end Resumable
