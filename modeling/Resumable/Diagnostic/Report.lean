/-
**Reports.**

The diagnostics of a run as one document for other tools, with the category of every known code and
the numbers of errors and warnings.
-/

import Resumable.Diagnostic
import Resumable.Document

set_option autoImplicit false

namespace Resumable

/-- A position as a document. -/
def Location.document (l : Location) : Document :=
  .object [("block", .number l.block), ("offset", .number l.offset)]

/-- A text, or nothing. -/
def Document.ofText? : Option String → Document
  | some s => .text s
  | none => .null

/-- A field that is left out when it has no value. -/
def Document.field? (name : String) (value : Option Document) : List (String × Document) :=
  match value with
  | some d => [(name, d)]
  | none => []

namespace Report

/-- A label in a report. -/
def label (l : Label) : Document :=
  .object ([("role", .text l.style.text)] ++ Document.field? "message" (l.message.map .text) ++
    [("location", l.location.document)])

/-- A diagnostic in a report.  What is absent is left out. -/
def entry (d : Diagnostic) : Document :=
  let category := d.code.bind fun c => (CodeInfo.find? c).map (·.category)
  .object ([("severity", .text d.severity.text)] ++
    Document.field? "code" (d.code.map .text) ++
    Document.field? "category" (category.map .text) ++
    [("message", .text d.message)] ++
    Document.field? "method" (d.method.map .text) ++
    Document.field? "location" (d.primary?.map Location.document) ++
    [("labels", .list (d.labels.map label))] ++
    Document.field? "notes" (if d.notes.isEmpty then none else some (.list (d.notes.map .text))) ++
    Document.field? "help" (d.help.map .text))

/-- **The report of a phase.** -/
def document (ds : List Diagnostic) (phase : String) : Document :=
  let errors := (ds.filter (·.severity = .error)).length
  let warnings := (ds.filter (·.severity = .warning)).length
  .object [("version", .number 1), ("success", .bool (errors == 0)), ("phase", .text phase),
    ("diagnostics", .list (ds.map entry)), ("error_count", .number errors),
    ("warning_count", .number warnings)]

end Report

/-- A label with all its fields. -/
def Label.document (l : Label) : Document :=
  .object [("location", l.location.document), ("style", .text l.style.text),
    ("message", Document.ofText? l.message)]

/-- A diagnostic with all its fields. -/
def Diagnostic.document (d : Diagnostic) : Document :=
  .object [("severity", .text d.severity.text), ("code", Document.ofText? d.code),
    ("message", .text d.message), ("method", Document.ofText? d.method),
    ("labels", .list (d.labels.map Label.document)), ("notes", .list (d.notes.map .text)),
    ("help", Document.ofText? d.help)]

end Resumable
