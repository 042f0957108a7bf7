/-
**Converting classes.**

The methods of all classes of a batch are listed as jobs.  The jobs are run one after the other or
side by side, and then their results are taken in, in the order of the jobs: a conversion goes to
the output of its class and is counted, a method that is refused is reported.
-/

import Resumable.Conversion
import Resumable.Diagnostic.Report

set_option autoImplicit false

namespace Resumable

/-- Converts a method of a class.  The name of its dispatcher must be free in the class. -/
def ClassUnit.convertMethod (u : ClassUnit) (o : Options) (m : Method) :
    Except Rejection Conversion :=
  match m.convert u.name o with
  | .error r => .error r
  | .ok (.unchanged n) => .ok (.unchanged n)
  | .ok (.converted pair) =>
    if (u.method? pair.dispatcher.name).isSome then
      .error ⟨m.qualified u.name, ⟨m.entry, 0⟩, .dispatcherTaken pair.dispatcher.name⟩
    else .ok (.converted pair)

/-- The results for one class, in the order of its methods. -/
structure ClassOutput where
  name : String
  results : List Conversion
deriving DecidableEq, Inhabited

/-- The class as it is after the conversion. -/
def ClassOutput.unit (c : ClassOutput) : ClassUnit := ⟨c.name, c.results.flatMap Conversion.methods⟩

/-- A method that was refused. -/
structure Failure where
  cls : String
  method : String
  rejection : Rejection
deriving DecidableEq, Inhabited

/-- A failure as a document. -/
def Failure.document (f : Failure) : Document :=
  .object [("class", .text f.cls), ("method", .text f.method),
    ("kind", .text f.rejection.kind.name), ("location", f.rejection.location.document),
    ("detail", .text f.rejection.detail)]

/-- The results of a batch, with the numbers of methods that were replaced by an entry and a
dispatcher, and of those that stayed as they were. -/
structure BatchOutput where
  classes : List ClassOutput
  failures : List Failure
  converted : Nat
  unchanged : Nat
deriving DecidableEq, Inhabited

namespace BatchOutput

/-- Whether no method was refused. -/
def isClean (b : BatchOutput) : Bool := b.failures.isEmpty

/-- The classes as they are after the conversion. -/
def units (b : BatchOutput) : List ClassUnit := b.classes.map ClassOutput.unit

/-- The diagnostics of the refused methods. -/
def diagnostics (b : BatchOutput) : List Diagnostic := b.failures.map (·.rejection.diagnostic)

/-- The report of the batch. -/
def report (b : BatchOutput) : String := (Report.document b.diagnostics "transform").pretty

end BatchOutput

/-! ### Jobs -/

/-- A way to run jobs side by side.  The results come in the order of the jobs. -/
structure Gathering where
  gather : {α β : Type} → (α → β) → List α → List β
  gather_eq : ∀ {α β : Type} (f : α → β) (jobs : List α), gather f jobs = jobs.map f

/-- A task for each job. -/
def Gathering.tasks : Gathering where
  gather f jobs := (jobs.map fun job => Task.spawn fun _ => f job).map Task.get
  gather_eq _ _ := List.map_map

namespace Batch

/-- A method to convert, with its class and the place of the class in the batch. -/
structure Job where
  place : Nat
  unit : ClassUnit
  method : Method

/-- The methods of a batch, class by class. -/
def jobs (units : List ClassUnit) : List Job :=
  units.zipIdx.flatMap fun c => c.1.methods.map fun m => ⟨c.2, c.1, m⟩

/-- The result for a method, with the place of its class. -/
def Job.run (o : Options) (j : Job) : Nat × Except Rejection Conversion :=
  (j.place, j.unit.convertMethod o j.method)

end Batch

namespace BatchOutput

/-- No results yet. -/
def start (units : List ClassUnit) : BatchOutput :=
  { classes := units.map fun u => ⟨u.name, []⟩, failures := [], converted := 0, unchanged := 0 }

/-- Counts a conversion. -/
def count (b : BatchOutput) : Conversion → BatchOutput
  | .converted _ => { b with converted := b.converted + 1 }
  | .unchanged _ => { b with unchanged := b.unchanged + 1 }

/-- Takes in the result for a job. -/
def take (b : BatchOutput) : (Nat × Except Rejection Conversion) × Batch.Job → BatchOutput
  | ((i, .ok c), _) =>
    { b.count c with classes := b.classes.modify i fun k => { k with results := k.results ++ [c] } }
  | ((_, .error r), j) =>
    { b with failures := b.failures ++ [⟨j.unit.name, j.method.name, r⟩] }

end BatchOutput

/-- **Converts a batch of classes.** -/
def Batch.convert (units : List ClassUnit) (o : Options) (w : Gathering := .tasks) : BatchOutput :=
  let jobs := jobs units
  let results := if o.parallel then w.gather (Job.run o) jobs else jobs.map (Job.run o)
  (results.zip jobs).foldl BatchOutput.take (.start units)

end Resumable
