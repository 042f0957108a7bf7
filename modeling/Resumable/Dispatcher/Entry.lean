/-
**The entry of a converted method.**

The entry keeps name, parameters, annotations, declared exceptions and flags of the method, and
returns a future.  It puts its arguments into a frame and calls the dispatcher in state 0.
-/

import Resumable.Code.Text

set_option autoImplicit false

namespace Resumable.Dispatcher

/-- The dispatcher of the given name as the target of a call. -/
def callee (name : String) : Callee := ⟨name, 3, .future⟩

/-- The parameters of the entry: those of the method, renumbered, each with a name. -/
def entryParams (m : Method) : List Local :=
  m.params.mapIdx fun i l => ⟨i, some (l.name.getD (slotText l.id)), l.ty, true⟩

/-- The code of the entry; `frame` is the local of the frame. -/
def entryCode (m : Method) (dispatcher : String) (frame : Nat) : List Instr :=
  [.futureNew, .frameNew m.params.length, .store frame] ++
  (m.params.mapIdx fun i _ => [Instr.load i, .frameStore frame i]).flatten ++
  [.push (.int 0), .push .null, .load frame, .invoke (callee dispatcher)]

/-- **The entry of a method** with the given dispatcher. -/
def entry (m : Method) (dispatcher : String) : Method :=
  let frame := m.params.length
  { name := m.name, params := entryParams m, ret := .future
    locals := entryParams m ++ [⟨frame, some "__frame", .frame, false⟩]
    blocks := [{ id := 0, instrs := entryCode m dispatcher frame, terminator := .ret }]
    entry := 0, regions := [], annotations := m.annotations, throws := m.throws, flags := m.flags }

end Resumable.Dispatcher
