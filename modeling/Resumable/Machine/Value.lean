/-
**Values of the machine.**

Objects and closures never change, so a value carries their contents; what tells two of them apart
is the identity they were made with.  Futures and frames do change, and a value names their cell in
the store.
-/

import Resumable.Code.Text

set_option autoImplicit false

namespace Resumable

/-- A value, or a failure. -/
inductive Outcome (α : Type) where
  | fulfilled (value : α)
  | rejected (exception : α)
deriving DecidableEq, Inhabited

/-- What an outcome carries. -/
def Outcome.payload {α : Type} : Outcome α → α
  | .fulfilled v => v
  | .rejected e => e

/-- Values. -/
inductive Value where
  | null
  | bool (b : Bool)
  | int (n : Int64)
  | float (x : Float)
  | str (s : String)
  /-- An instance of a class; an exception has its message as its first field. -/
  | object (identity : Nat) (cls : String) (fields : List Value)
  | future (p : Nat)
  | frame (f : Nat)
  | outcome (o : Outcome Value)
  | closure (identity : Nat) (method : String) (captures : List Value)
deriving Inhabited

namespace Value

/-- The value of a constant. -/
def ofConst : Const → Value
  | .null => null
  | .bool b => bool b
  | .int n => int n
  | .float x => float x
  | .str s => str s

/-- The class of an object. -/
def className? : Value → Option String
  | object _ cls _ => some cls
  | _ => none

/-- The message of an exception. -/
def message? : Value → Option String
  | object _ _ (str s :: _) => some s
  | _ => none

/-- The name of the sort of a value. -/
def typeName : Value → String
  | null => "null"
  | bool _ => "bool"
  | int _ => "int"
  | float _ => "float"
  | str _ => "string"
  | object _ _ _ => "object"
  | future _ => "future"
  | frame _ => "frame"
  | outcome _ => "outcome"
  | closure _ _ _ => "closure"

/-- The integer, if the value is one. -/
def int? : Value → Option Int64
  | int n => some n
  | _ => none

/-- Whether the value is a future. -/
def isFuture : Value → Bool
  | future _ => true
  | _ => false

/-- The written form of a value.  Futures and frames are not looked into. -/
def text : Value → String
  | null => "null"
  | bool b => boolText b
  | int n => intText n
  | float x => Binary64.text x
  | str s => s
  | object _ cls (str s :: _) => cls ++ ": " ++ s
  | object _ cls _ => cls
  | future _ => "<future>"
  | frame _ => "<frame>"
  | outcome (.fulfilled v) => "<fulfilled " ++ v.text ++ ">"
  | outcome (.rejected e) => "<rejected " ++ e.text ++ ">"
  | closure _ method _ => "<closure " ++ method ++ ">"

/-- The equality that programs can test: scalars and strings by value, an integer and a float as
numbers, objects, futures and closures by identity; frames and outcomes are never the same. -/
def same : Value → Value → Bool
  | null, null => true
  | bool a, bool b => a == b
  | int a, int b => a == b
  | float a, float b => a == b
  | int a, float b => a.toFloat == b
  | float a, int b => b.toFloat == a
  | str a, str b => a == b
  | object i _ _, object j _ _ => i == j
  | future p, future q => p == q
  | closure i _ _, closure j _ _ => i == j
  | _, _ => false

end Value

end Resumable
