/-
**Cleanup regions as plain control flow.**

A cleanup body runs on every way out of its region.  Here each such region is replaced by ordinary
code: every jump out of the region goes through a copy of the body that then jumps on, every return
through a copy that then returns the saved value, and exceptions go to a handler that catches
everything, runs a copy and throws the exception again.  After that a method that is resumed inside
the region leaves it as one that was never parked.

Blocks keep their numbers; copies are appended.  A copy belongs to the regions that the copied
block belongs to, except the one being expanded.  At the end the blocks that nothing leads to any
more, the bodies among them, are emptied.
-/

import Resumable.Code.Check

set_option autoImplicit false

namespace Resumable

/-- How a copy of a cleanup body goes on where the body ends. -/
inductive Completion where
  | jump (target : Nat)
  /-- Returns the saved value, if there is one. -/
  | ret (saved : Option Nat)
  /-- Throws the saved exception. -/
  | rethrow (saved : Nat)
deriving DecidableEq

/-- The instructions and the terminator that take the place of the end of a body. -/
def Completion.code : Completion → List Instr × Terminator
  | .jump target => ([], .goto target)
  | .ret none => ([], .ret)
  | .ret (some saved) => ([.load saved], .ret)
  | .rethrow saved => ([.load saved], .raise)

namespace Method

/-! ### Bodies -/

/-- The blocks that control goes to from a block when nothing is thrown. -/
def normalExits (m : Method) (b : Nat) : List Nat :=
  match m.block? b with
  | some block => block.terminator.successors
  | none => []

/-- The blocks of the cleanup body that starts at a handler, in order of discovery. -/
def cleanupBody (m : Method) (handler : Nat) : List Nat :=
  Search.preorder m.blocks.length m.normalExits [handler]

/-- Whether the method has cleanup regions. -/
def hasCleanup (m : Method) : Bool := m.regions.any (·.kind = .cleanup)

/-- The end of a cleanup body may stand in such a body only. -/
def strayEndDefects (m : Method) : List Defect :=
  let bodies := (m.regions.filter (·.kind = .cleanup)).flatMap fun r => m.cleanupBody r.handler
  m.blocks.filterMap fun b =>
    if b.terminator = .endCleanup ∧ ¬ b.id ∈ bodies then
      some ⟨⟨b.id, b.instrs.length⟩, .strayEndCleanup⟩
    else none

/-! ### Copies -/

/-- The block with the given number, or an empty one. -/
def blockOrStub (m : Method) (b : Nat) : Block :=
  (m.block? b).getD { id := b, instrs := [], terminator := .unreachable }

/-- Appends a block. -/
def addBlock (m : Method) (instrs : List Instr) (t : Terminator) : Method :=
  { m with blocks := m.blocks ++ [{ id := m.blocks.length, instrs := instrs, terminator := t }] }

/-- Declares a local whose name ends in its number, and says which. -/
def addSaved (m : Method) (name : String) (ty : Ty) : Method × Nat :=
  let id := m.nextLocal
  let l : Local := { id := id, name := some (name ++ toString id), ty := ty, isParam := false }
  ({ m with locals := m.locals ++ [l] }, id)

/-- Puts the image of each covered block of `body` into every region but the one at `index`. -/
def inherit (m : Method) (index : Nat) (body : List Nat) (image : Nat → Nat) : Method :=
  { m with regions := m.regions.mapIdx fun i r =>
      if i = index then r
      else { r with blocks := r.blocks.insertMany ((body.filter (· ∈ r.blocks)).map image) } }

/-- The number that a block of a body gets in a copy that starts at `base`; other blocks keep
theirs. -/
def copyOf (body : List Nat) (base : Nat) (b : Nat) : Nat :=
  if b ∈ body then base + body.idxOf b else b

/-- The copy of one block of a body.  The first block is copied without its first instruction, which
takes the exception. -/
def copiedBlock (m : Method) (body : List Nat) (base : Nat) (c : Completion)
    (position : Nat) (b : Nat) : Block :=
  let block := m.blockOrStub b
  let instrs := if position = 0 then block.instrs.drop 1 else block.instrs
  if block.terminator = .endCleanup then
    { id := base + position, instrs := instrs ++ c.code.1, terminator := c.code.2 }
  else
    { id := base + position, instrs := instrs
      terminator := block.terminator.mapTargets (copyOf body base) }

/-- Appends a copy of a body for the region at `index`.  The copy starts at the first new block. -/
def copyBody (m : Method) (index : Nat) (body : List Nat) (c : Completion) : Method :=
  let base := m.blocks.length
  { (m.inherit index body (copyOf body base)) with
    blocks := m.blocks ++ body.mapIdx (m.copiedBlock body base c) }

end Method

/-! ### One region -/

/-- A region being expanded: the method so far and the copies made so far. -/
structure Expansion where
  method : Method
  /-- For each target outside the region, the copy that goes on to it. -/
  jumps : List (Nat × Nat) := []
  /-- The local that saves the returned value and the copy that returns it. -/
  returns : Option (Option Nat × Nat) := none

namespace Expansion

/-- Makes sure that there is a copy that goes on to a target. -/
def withJump (index : Nat) (body : List Nat) (e : Expansion) (target : Nat) : Expansion :=
  if (e.jumps.lookup target).isSome then e
  else
    { e with
      method := e.method.copyBody index body (.jump target)
      jumps := e.jumps ++ [(target, e.method.blocks.length)] }

/-- Makes sure that there is a copy that returns. -/
def withReturn (index : Nat) (body : List Nat) (e : Expansion) : Expansion :=
  match e.returns with
  | some _ => e
  | none =>
    if e.method.ret.isVoid then
      { e with
        method := e.method.copyBody index body (.ret none)
        returns := some (none, e.method.blocks.length) }
    else
      let (m, saved) := e.method.addSaved "__finally_ret" e.method.ret
      { e with
        method := m.copyBody index body (.ret (some saved))
        returns := some (some saved, m.blocks.length) }

/-- Changes one block. -/
def onBlock (e : Expansion) (b : Nat) (f : Block → Block) : Expansion :=
  { e with method := { e.method with blocks := e.method.blocks.modify b f } }

/-- Leads the ways out of one block of the region through copies of the body. -/
def leave (index : Nat) (region : Region) (body : List Nat) (e : Expansion) (b : Nat) :
    Except Defect Expansion :=
  let block := e.method.blockOrStub b
  match block.terminator with
  | .ret =>
    let e := e.withReturn index body
    match e.returns with
    | some (saved, copy) =>
      .ok (e.onBlock b fun k =>
        { k with
          instrs := k.instrs ++ (saved.map Instr.store).toList
          terminator := .goto copy })
    | none => .ok e
  | .goto _ | .branch _ _ | .switch _ _ =>
    let outside := block.terminator.successors.filter (¬ · ∈ region.blocks)
    if outside.any (· ∈ body) then
      .error ⟨⟨b, block.instrs.length⟩, .jumpIntoCleanup region.id⟩
    else
      let e := outside.foldl (withJump index body) e
      .ok (e.onBlock b fun k =>
        { k with terminator := k.terminator.mapTargets fun t => (e.jumps.lookup t).getD t })
  | .raise | .endCleanup | .unreachable => .ok e

end Expansion

namespace Method

/-- The instructions by which the handler of a cleanup region takes the exception when it also has
to keep it; `none` if the handler does not begin by taking it. -/
def takeException? (m : Method) (handler : Nat) : Option (List Instr) :=
  match (m.blockOrStub handler).instrs with
  | .pop :: _ => some []
  | .store l :: _ => some [.dup, .store l]
  | _ => none

/-- The handler of an expanded region: it saves the exception, runs a copy of the body and throws
the exception again. -/
def addRethrow (m : Method) (index : Nat) (region : Region) (body : List Nat)
    (take : List Instr) : Method :=
  let (m, saved) := m.addSaved "__finally_exc" (.object "Throwable")
  let copy := m.blocks.length
  let m := m.copyBody index body (.rethrow saved)
  let handler := m.blocks.length
  let m := m.addBlock (take ++ [.store saved]) (.goto copy)
  let m := m.inherit index [region.handler] fun _ => handler
  { m with regions := m.regions.set index { region with handler := handler, kind := .catchAll } }

/-- The method with the region at `index`, a cleanup region, expanded. -/
def expandCleanup (m : Method) (index : Nat) (region : Region) : Except Defect Method :=
  let body := m.cleanupBody region.handler
  match body.find? (· ∈ region.blocks) with
  | some b => .error ⟨⟨b, 0⟩, .cleanupOverlapsRegion region.id⟩
  | none =>
    match m.takeException? region.handler with
    | none => .error ⟨⟨region.handler, 0⟩, .cleanupKeepsException⟩
    | some take =>
      match region.blocks.toList.foldlM (Expansion.leave index region body) { method := m } with
      | .error d => .error d
      | .ok e => .ok (e.method.addRethrow index region body take)

/-- The method with the region at `index` expanded if it is a cleanup region. -/
def expandAt (m : Method) (index : Nat) : Except Defect Method :=
  match m.regions[index]? with
  | some region => if region.kind = .cleanup then m.expandCleanup index region else .ok m
  | none => .ok m

/-! ### All regions -/

/-- Empties the blocks that nothing leads to and takes them out of the regions; regions without
blocks go. -/
def dropUnreachable (m : Method) : Method :=
  let live := m.reachable
  { m with
    blocks := m.blocks.map fun b =>
      if b.id ∈ live then b else { b with instrs := [], terminator := .unreachable }
    regions := (m.regions.map fun r => { r with blocks := r.blocks.filter (· ∈ live) }).filter
      fun r => !r.blocks.isEmpty }

/-- **The method without cleanup regions**, expanded in the order of the table, inner ones first. -/
def withoutCleanup (m : Method) : Except Defect Method :=
  match m.strayEndDefects with
  | d :: _ => .error d
  | [] =>
    if m.hasCleanup then
      match (List.range m.regions.length).foldlM expandAt m with
      | .error d => .error d
      | .ok n => .ok n.dropUnreachable
    else .ok m

end Method

end Resumable
