/-
**Methods under construction.**

A draft grows a method piece by piece: blocks and locals are numbered as they are made,
instructions go to the end of the current block, and each region added has a lower priority than
those before it.
-/

import Resumable.Code.Method

set_option autoImplicit false

namespace Resumable

/-- A method under construction and the block that receives instructions. -/
structure Draft where
  method : Method
  current : Nat
deriving DecidableEq

namespace Draft

/-- A draft with one empty block, the entry. -/
def start (name : String) (ret : Ty) : Draft :=
  { method :=
      { name := name, params := [], ret := ret, locals := []
        blocks := [{ id := 0, instrs := [], terminator := .unreachable }]
        entry := 0, regions := [], annotations := [], throws := [], flags := {} }
    current := 0 }

/-! ### Blocks -/

/-- Adds an empty block, and says which. -/
def addBlock (d : Draft) : Draft × Nat :=
  let id := d.method.blocks.length
  ({ d with method := { d.method with
      blocks := d.method.blocks ++ [{ id := id, instrs := [], terminator := .unreachable }] } }, id)

/-- Makes a block the current one. -/
def select (d : Draft) (b : Nat) : Draft := { d with current := b }

/-- Changes the current block. -/
def onCurrent (d : Draft) (f : Block → Block) : Draft :=
  { d with method := { d.method with blocks := d.method.blocks.modify d.current f } }

/-- Appends instructions to the current block. -/
def push (d : Draft) (instrs : List Instr) : Draft :=
  d.onCurrent fun b => { b with instrs := b.instrs ++ instrs }

/-- Ends the current block. -/
def terminate (d : Draft) (t : Terminator) : Draft :=
  d.onCurrent fun b => { b with terminator := t }

/-- Whether the current block still has the terminator it was made with. -/
def isOpen (d : Draft) : Bool :=
  match d.method.block? d.current with
  | some b => b.terminator = .unreachable
  | none => false

/-! ### Locals -/

/-- Declares a local, and says which. -/
def declare (d : Draft) (name : Option String) (ty : Ty) (isParam : Bool) : Draft × Nat :=
  let id := d.method.locals.length
  let l : Local := { id := id, name := name, ty := ty, isParam := isParam }
  ({ d with method := { d.method with
      locals := d.method.locals ++ [l]
      params := if isParam then d.method.params ++ [l] else d.method.params } }, id)

/-- Declares a local without a name. -/
def addTemp (d : Draft) (ty : Ty) : Draft × Nat := d.declare none ty false

/-- Declares a local. -/
def addLocal (d : Draft) (name : String) (ty : Ty) : Draft × Nat := d.declare (some name) ty false

/-- Declares a parameter. -/
def addParam (d : Draft) (name : String) (ty : Ty) : Draft × Nat := d.declare (some name) ty true

/-! ### The rest of the method -/

/-- Adds a region below all others, and says which. -/
def addRegion (d : Draft) (blocks : IdSet) (handler : Nat) (kind : RegionKind) : Draft × Nat :=
  let id := d.method.regions.length
  ({ d with method := { d.method with
      regions := d.method.regions ++
        [{ id := id, blocks := blocks, handler := handler, kind := kind }] } }, id)

/-- Adds an annotation. -/
def annotate (d : Draft) (a : Annotation) : Draft :=
  { d with method := { d.method with annotations := d.method.annotations ++ [a] } }

/-- Declares that the method throws exceptions of a class. -/
def declareThrows (d : Draft) (cls : String) : Draft :=
  { d with method := { d.method with throws := d.method.throws ++ [cls] } }

/-- Replaces the flags. -/
def setFlags (d : Draft) (flags : Flags) : Draft :=
  { d with method := { d.method with flags := flags } }

end Draft

end Resumable
