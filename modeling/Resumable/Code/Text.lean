/-
**The text of methods.**

Every part of a method has one written form; a method is written as a block of lines with its
annotations, signature, locals, blocks and exception table.
-/

import Resumable.Binary64.Text
import Resumable.Code.Method

set_option autoImplicit false

namespace Resumable

/-- The items with a separator between them. -/
def separated (sep : String) (items : List String) : String := sep.intercalate items

/-! ### Small parts -/

/-- The written form of a type; a class is written by its name. -/
def Ty.text : Ty → String
  | .void => "void"
  | .bool => "bool"
  | .int => "int"
  | .float => "float"
  | .str => "string"
  | .object cls => cls
  | .future => "future"
  | .frame => "frame"
  | .outcome => "outcome"

/-- The written form of a truth value. -/
def boolText (b : Bool) : String := if b then "true" else "false"

/-- The written form of an integer. -/
def intText (n : Int64) : String :=
  let i := n.toInt
  if i < 0 then "-" ++ toString i.natAbs else toString i.natAbs

/-- The written form of a constant; the text of a string stands between quotes as it is. -/
def Const.text : Const → String
  | .null => "null"
  | .bool b => boolText b
  | .int n => intText n
  | .float x => Binary64.text x
  | .str s => "\"" ++ s ++ "\""

/-- The name of an operator. -/
def BinaryOp.text : BinaryOp → String
  | .add => "add"
  | .sub => "sub"
  | .mul => "mul"
  | .div => "div"
  | .rem => "rem"
  | .eq => "eq"
  | .ne => "ne"
  | .lt => "lt"
  | .gt => "gt"
  | .le => "le"
  | .ge => "ge"
  | .and => "and"
  | .or => "or"

/-- The name of an operator. -/
def UnaryOp.text : UnaryOp → String
  | .neg => "neg"
  | .not => "not"

/-- The written form of a callee: name, number of arguments, result. -/
def Callee.text (c : Callee) : String := c.name ++ "/" ++ toString c.argc ++ " -> " ++ c.ret.text

/-- The written form of a block number. -/
def blockText (b : Nat) : String := "bb" ++ toString b

/-- The written form of a local number. -/
def slotText (l : Nat) : String := "_" ++ toString l

/-- The written form of a position. -/
def Location.text (l : Location) : String := blockText l.block ++ ":" ++ toString l.offset

/-! ### Instructions and terminators -/

/-- The written form of an instruction. -/
def Instr.text : Instr → String
  | .push c => "push " ++ c.text
  | .load l => "load " ++ slotText l
  | .store l => "store " ++ slotText l
  | .dup => "dup"
  | .pop => "pop"
  | .swap => "swap"
  | .binary op => op.text
  | .unary op => op.text
  | .invoke callee => "invoke " ++ callee.text
  | .construct cls argc => "new " ++ cls ++ "/" ++ toString argc
  | .monitorEnter => "monitor_enter"
  | .monitorExit => "monitor_exit"
  | .closure method captures => "closure " ++ method ++ "/" ++ toString captures
  | .callClosure argc ret => "call_closure/" ++ toString argc ++ " -> " ++ ret.text
  | .futureNew => "future_new"
  | .futureIsDone => "future_is_done"
  | .futureJoin => "future_join"
  | .futureFulfill => "future_fulfill"
  | .futureReject => "future_reject"
  | .frameNew slots => "frame_new " ++ toString slots
  | .frameLoad frame slot => "frame_load " ++ slotText frame ++ "[" ++ toString slot ++ "]"
  | .frameStore frame slot => "frame_store " ++ slotText frame ++ "[" ++ toString slot ++ "]"
  | .frameOuter frame => "frame_outer " ++ slotText frame
  | .outcomeUnwrap => "outcome_unwrap"
  | .resume dispatcher state frame =>
    "resume " ++ dispatcher ++ "@" ++ toString state ++ " with " ++ slotText frame

/-- The written form of a terminator.  A comma stands before the default case even when there is
no other. -/
def Terminator.text : Terminator → String
  | .goto target => "goto " ++ blockText target
  | .branch ifTrue ifFalse => "if then " ++ blockText ifTrue ++ " else " ++ blockText ifFalse
  | .switch cases default =>
    "switch [" ++ separated ", " (cases.map fun c => intText c.1 ++ ": " ++ blockText c.2) ++
      ", default: " ++ blockText default ++ "]"
  | .ret => "return"
  | .raise => "throw"
  | .endCleanup => "end_finally"
  | .unreachable => "unreachable"

/-! ### Methods -/

/-- The written form of the kind of a region. -/
def RegionKind.text : RegionKind → String
  | .catches cls => "catch " ++ cls
  | .catchAll => "catch *"
  | .cleanup => "finally"

/-- The written form of a region. -/
def Region.text (r : Region) : String :=
  "r" ++ toString r.id ++ ": [" ++ separated ", " (r.blocks.toList.map blockText) ++ "] -> " ++
    blockText r.handler ++ " " ++ r.kind.text

/-- The written form of an annotation. -/
def Annotation.text (a : Annotation) : String :=
  if a.args.isEmpty then "@" ++ a.name
  else
    "@" ++ a.name ++ "(" ++ separated ", " (a.args.map fun p => p.1 ++ " = " ++ p.2.text) ++ ")"

/-- A parameter in a signature. -/
def Local.paramText (l : Local) : String :=
  (match l.name with
    | some name => name
    | none => slotText l.id) ++ ": " ++ l.ty.text

/-- The declaration of a local that is no parameter. -/
def Local.declText (l : Local) : String :=
  match l.name with
  | some name => "  let " ++ name ++ ": " ++ l.ty.text ++ "  // " ++ slotText l.id
  | none => "  let " ++ slotText l.id ++ ": " ++ l.ty.text

/-- The first line of a method. -/
def Method.signature (m : Method) : String :=
  (if m.flags.isPublic then "public " else "") ++
  (if m.flags.isStatic then "static " else "") ++
  (if m.flags.isSynthetic then "synthetic " else "") ++
  "method " ++ m.name ++ "(" ++ separated ", " (m.params.map Local.paramText) ++ ") -> " ++
  m.ret.text ++
  (if m.throws.isEmpty then "" else " throws " ++ separated ", " m.throws) ++ " \x7b"

/-- The lines of a block. -/
def Block.lines (b : Block) : List String :=
  ("  " ++ blockText b.id ++ ":") :: b.instrs.map (fun i => "    " ++ i.text) ++
    ["    " ++ b.terminator.text]

/-- The lines of a method.  A blank line closes the declarations of its locals, if there are
any. -/
def Method.lines (m : Method) : List String :=
  let declared := m.locals.filter (!·.isParam)
  m.annotations.map Annotation.text ++ [m.signature] ++
  declared.map Local.declText ++ (if declared.isEmpty then [] else [""]) ++
  m.blocks.flatMap Block.lines ++
  (if m.regions.isEmpty then [] else "  regions:" :: m.regions.map (fun r => "    " ++ r.text)) ++
  ["\x7d"]

/-- **The written form of a method.** -/
def Method.text (m : Method) : String := separated "\n" m.lines

end Resumable
