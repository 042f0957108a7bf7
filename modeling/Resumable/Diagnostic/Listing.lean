/-
**Diagnostics for the terminal.**

A diagnostic is listed with the instructions it labels, taken from the method itself:

  error[T0001]: suspend marker called with values pending on the operand stack
    --> Orders.total bb1:3
         |
   bb1:3 | invoke Await.await/1 -> int
         | ^^^^^^^^^^^^^^^^^^^^^^^^^^^ 1 value beneath the awaited future
         = help: store the pending value in a local before awaiting
-/

import Resumable.Code.Text
import Resumable.Diagnostic
import Resumable.Diagnostic.Style

set_option autoImplicit false

namespace Resumable

/-- How diagnostics are listed. -/
structure Listing where
  /-- The method whose instructions are shown. -/
  method : Option Method := none
  colours : Bool := false

/-- A position to be listed, with the labels on it. -/
structure Listed where
  location : Location
  text : String
  labels : List Label

namespace Listing

/-! ### What is listed -/

/-- The instruction or terminator at a position. -/
def textAt (l : Listing) (at' : Location) : String :=
  match l.method.bind (·.block? at'.block) with
  | none => "<unavailable>"
  | some b =>
    match b.instrs[at'.offset]? with
    | some i => i.text
    | none => b.terminator.text

/-- Puts a position at its place in an ascending list, unless it is there already. -/
def place (x : Location) : List Location → List Location
  | [] => [x]
  | y :: ys => if x.before y then x :: y :: ys else if x = y then y :: ys else y :: place x ys

/-- The labelled positions in ascending order, each with its labels in the order given. -/
def listed (l : Listing) (d : Diagnostic) : List Listed :=
  let positions := d.labels.foldl (fun ps label => place label.location ps) []
  positions.map fun p =>
    { location := p, text := l.textAt p, labels := d.labels.filter (·.location = p) }

/-- The width of the widest position, at least two. -/
def gutter (ps : List Listed) : Nat := ps.foldl (fun n p => max n p.location.text.length) 2

/-! ### Lines -/

/-- Blanks. -/
def blanks (n : Nat) : String := String.ofList (List.replicate n ' ')

/-- The text with blanks before it, up to a width. -/
def padded (width : Nat) (text : String) : String := blanks (width - text.length) ++ text

/-- A text in a colour. -/
def inColour (l : Listing) (c : Colour) (text : String) : String :=
  Style.paint { colour := some c } l.colours text

/-- A bold text in a colour. -/
def inBold (l : Listing) (c : Colour) (text : String) : String :=
  Style.paint { bold := true, colour := some c } l.colours text

/-- The colour of a severity. -/
def severityColour : Severity → Colour
  | .error => .red
  | .warning => .yellow
  | .note => .blue

/-- The first line. -/
def header (l : Listing) (d : Diagnostic) : String :=
  let severity := l.inBold (severityColour d.severity) d.severity.text
  let message := Style.paint { bold := true } l.colours d.message
  match d.code with
  | some code => severity ++ "[" ++ l.inBold .red code ++ "]: " ++ message
  | none => severity ++ ": " ++ message

/-- The line under a listed instruction for one of its labels. -/
def labelLine (l : Listing) (width : Nat) (text : String) (label : Label) : String :=
  let length := max text.length 1
  let (mark, message) :=
    match label.style with
    | .primary =>
      (l.inBold .red (String.ofList (List.replicate length '^')),
        label.message.map (l.inBold .red))
    | .secondary =>
      (l.inColour .blue (String.ofList (List.replicate length '-')),
        label.message.map (l.inColour .blue))
  blanks (width + 1) ++ " " ++ l.inColour .blue "|" ++ " " ++ mark ++ " " ++ message.getD ""

/-- The lines of a listed instruction. -/
def listedLines (l : Listing) (width : Nat) (p : Listed) : List String :=
  (l.inBold .blue (padded (width + 1) p.location.text) ++ " " ++ l.inColour .blue "|" ++ " " ++
    p.text) :: p.labels.map (l.labelLine width p.text)

/-- The line of a note or of advice. -/
def footLine (l : Listing) (width : Nat) (name text : String) : String :=
  blanks (width + 1) ++ " " ++ l.inColour .cyan "=" ++ " " ++ l.inBold .cyan name ++ ": " ++ text

/-- The lines of a diagnostic. -/
def lines (l : Listing) (d : Diagnostic) : List String :=
  let ps := l.listed d
  let width := gutter ps
  [l.header d] ++
  (match d.primary? with
    | some p =>
      ["  " ++ l.inColour .blue "-->" ++ " " ++ d.method.getD "<method>" ++ " " ++ p.text]
    | none => []) ++
  (if ps.isEmpty then []
    else (blanks (width + 1) ++ " " ++ l.inColour .blue "|") :: ps.flatMap (l.listedLines width)) ++
  d.notes.map (l.footLine width "note") ++
  (d.help.map (l.footLine width "help")).toList

/-- **The listing of a diagnostic**, every line ended by a line break. -/
def render (l : Listing) (d : Diagnostic) : String := String.join ((l.lines d).map (· ++ "\n"))

end Listing

end Resumable
