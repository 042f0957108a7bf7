/-
**Views of values.**

A view shows a value with what it leads to through the store: the outcomes of futures and the slots
of frames.  Frames can lead back to themselves, so a view stops below a fixed depth, where it gives
the text of the value only.
-/

import Resumable.Machine.Store

set_option autoImplicit false

namespace Resumable

/-- A value with what it leads to. -/
inductive View where
  | null
  | bool (b : Bool)
  | int (n : Int64)
  | float (x : Float)
  | str (s : String)
  | object (cls : String) (fields : List View) (text : String)
  | pending
  | settled (o : Outcome View)
  | frame (slots : List View)
  | outcome (o : Outcome View)
  | closure (method : String) (captures : List View)
  /-- A value below the depth of the view, by its text. -/
  | deep (text : String)
deriving Inhabited

/-- Applies a function to what an outcome carries. -/
def Outcome.map {α β : Type} (f : α → β) : Outcome α → Outcome β
  | .fulfilled v => .fulfilled (f v)
  | .rejected e => .rejected (f e)

/-- The view of a value that shows the given number of levels. -/
def Value.viewWithin (s : Store) : Nat → Value → View
  | 0, v => .deep v.text
  | levels + 1, v =>
    match v with
    | .null => .null
    | .bool b => .bool b
    | .int n => .int n
    | .float x => .float x
    | .str t => .str t
    | .object _ cls fields => .object cls (fields.map (viewWithin s levels)) v.text
    | .future p =>
      match s.outcome? p with
      | some o => .settled (o.map (viewWithin s levels))
      | none => .pending
    | .frame f => .frame ((s.slots f).map (viewWithin s levels))
    | .outcome o => .outcome (o.map (viewWithin s levels))
    | .closure _ method captures => .closure method (captures.map (viewWithin s levels))

/-- The number of levels that views show. -/
def View.levels : Nat := 13

/-- The view of a value. -/
def Value.view (s : Store) (v : Value) : View := v.viewWithin s View.levels

/-- A promise in one line. -/
def Promise.text : Promise → String
  | .pending waiting => "Promise(pending, " ++ toString waiting.length ++ " waiting)"
  | .settled (.fulfilled v) => "Promise(fulfilled: " ++ v.text ++ ")"
  | .settled (.rejected e) => "Promise(rejected: " ++ e.text ++ ")"

/-- The promise of the given name in one line. -/
def Store.promiseText (s : Store) (p : Nat) : String :=
  ((s.promises[p]?).map Promise.text).getD (Promise.text (.pending []))

end Resumable
