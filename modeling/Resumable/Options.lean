/-
**Options of the conversion.**

Which functions count as suspend markers and how dispatchers are named.  Options are read from a
JSON object, in which a key may be left out, or from a JSON list that gives the values in order.
-/

import Resumable.Document
import Resumable.Document.Reader

set_option autoImplicit false

namespace Resumable

/-- The options. -/
structure Options where
  /-- The names of the functions that suspend.  A call of one takes a future and evaluates to its
  value. -/
  markers : List String := ["Await.await", "suspend"]
  /-- What is appended to the name of a method to name its dispatcher. -/
  suffix : String := "$dispatch"
  /-- Whether the methods of a batch may be converted side by side.  The results are the same. -/
  parallel : Bool := true
deriving DecidableEq, Inhabited

/-- Why options are refused. -/
inductive OptionsError where
  | unreadable
  | noMarkers
  | emptySuffix
deriving DecidableEq

/-- The wording of a refusal. -/
def OptionsError.message : OptionsError → String
  | .unreadable => "invalid transform options"
  | .noMarkers => "no suspend markers configured"
  | .emptySuffix => "dispatcher suffix must not be empty"

namespace Options

/-- Whether a function suspends. -/
def isMarker (o : Options) (name : String) : Bool := o.markers.contains name

/-- The name of the dispatcher of a method. -/
def dispatcherName (o : Options) (method : String) : String := method ++ o.suffix

/-- Refuses options without markers, then an empty suffix. -/
def validate (o : Options) : Except OptionsError Options :=
  if o.markers.isEmpty then .error .noMarkers
  else if o.suffix.isEmpty then .error .emptySuffix
  else .ok o

/-- The options as a document. -/
def document (o : Options) : Document :=
  .object [("suspend_markers", .list (o.markers.map .text)), ("dispatcher_suffix", .text o.suffix),
    ("parallel", .bool o.parallel)]

/-! ### Reading -/

/-- The value of a text. -/
def textOf? : Source → Option String
  | .text s => s
  | _ => none

/-- The value of a list of texts. -/
def textsOf? : Source → Option (List String)
  | .list items => items.mapM textOf?
  | _ => none

/-- The value of a truth value. -/
def boolOf? : Source → Option Bool
  | .bool b => some b
  | _ => none

/-- The three values, each present or not. -/
structure Fields where
  markers : Option (List String) := none
  suffix : Option String := none
  parallel : Option Bool := none

/-- The options with the defaults in the place of what is not present. -/
def Fields.options (f : Fields) : Options :=
  let d : Options := {}
  { markers := f.markers.getD d.markers, suffix := f.suffix.getD d.suffix
    parallel := f.parallel.getD d.parallel }

/-- Takes in one field of an object.  Unknown keys are passed over; a known one may come once. -/
def Fields.add? (f : Fields) (field : Option String × Source) : Option Fields :=
  match field.1 with
  | none => none
  | some key =>
    if key = "suspend_markers" then
      if f.markers.isSome then none
      else (textsOf? field.2).map fun v => { f with markers := some v }
    else if key = "dispatcher_suffix" then
      if f.suffix.isSome then none
      else (textOf? field.2).map fun v => { f with suffix := some v }
    else if key = "parallel" then
      if f.parallel.isSome then none
      else (boolOf? field.2).map fun v => { f with parallel := some v }
    else some f

/-- The fields given in order; the last ones may be missing. -/
def Fields.ofList? : List Source → Option Fields
  | [] => some {}
  | [m] => (textsOf? m).map fun v => { markers := some v }
  | [m, s] => do
    let v ← textsOf? m
    let w ← textOf? s
    some { markers := some v, suffix := some w }
  | [m, s, p] => do
    let v ← textsOf? m
    let w ← textOf? s
    let b ← boolOf? p
    some { markers := some v, suffix := some w, parallel := some b }
  | _ => none

/-- The options that a document gives. -/
def ofSource? : Source → Option Options
  | .object fields => (fields.foldlM Fields.add? {}).map Fields.options
  | .list items => (Fields.ofList? items).map Fields.options
  | _ => none

/-- **Reads options from their written form.** -/
def read (text : String) : Except OptionsError Options :=
  match (Source.read? text).bind ofSource? with
  | none => .error .unreadable
  | some o => o.validate

end Options

end Resumable
