/-
**Diagnostics.**

A diagnostic is a message about a method with labelled positions in it, notes and advice.  Errors
have a code; the registry gives the title and the category of each known code.
-/

import Resumable.Code.Method

set_option autoImplicit false

namespace Resumable

/-- How serious a diagnostic is. -/
inductive Severity where
  | error | warning | note
deriving DecidableEq, Inhabited

/-- The name of a severity. -/
def Severity.text : Severity → String
  | .error => "error"
  | .warning => "warning"
  | .note => "note"

/-- Whether a label marks the offending position or a related one. -/
inductive LabelStyle where
  | primary | secondary
deriving DecidableEq, Inhabited

/-- The name of a label style. -/
def LabelStyle.text : LabelStyle → String
  | .primary => "primary"
  | .secondary => "secondary"

/-- A labelled position. -/
structure Label where
  location : Location
  style : LabelStyle
  message : Option String
deriving DecidableEq, Inhabited

/-- A message about a method. -/
structure Diagnostic where
  severity : Severity
  code : Option String := none
  message : String
  /-- The qualified name of the method. -/
  method : Option String := none
  labels : List Label := []
  notes : List String := []
  help : Option String := none
deriving DecidableEq, Inhabited

/-- The position of the first primary label, or of the first label if there is no primary one. -/
def Diagnostic.primary? (d : Diagnostic) : Option Location :=
  match d.labels.find? (·.style = .primary) with
  | some l => some l.location
  | none => d.labels.head?.map (·.location)

/-- Whether the diagnostic is an error. -/
def Diagnostic.isError (d : Diagnostic) : Bool := d.severity = .error

/-! ### The registry of codes -/

/-- What is known about a code. -/
structure CodeInfo where
  code : String
  title : String
  category : String
deriving DecidableEq, Inhabited

/-- The known codes, in ascending order. -/
def CodeInfo.all : List CodeInfo :=
  [ ⟨"T0001", "unsupported suspension position", "Suspension"⟩,
    ⟨"T0002", "unbalanced synchronized region", "Synchronization"⟩,
    ⟨"T0003", "unreachable suspension state", "Reachability"⟩,
    ⟨"T0004", "ambiguous exception region", "ExceptionTable"⟩,
    ⟨"T0005", "malformed method body", "Verification"⟩ ]

/-- The entry of a code. -/
def CodeInfo.find? (code : String) : Option CodeInfo := CodeInfo.all.find? (·.code == code)

end Resumable
