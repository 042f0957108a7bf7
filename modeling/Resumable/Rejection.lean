/-
**Why a method is refused.**

A method that cannot be converted has a *defect*: a cause at a position.  Causes fall into five
kinds, and each has a wording.  A *rejection* is a defect of a named method, and can be shown as a
diagnostic.
-/

import Resumable.Code.Text
import Resumable.Diagnostic

set_option autoImplicit false

namespace Resumable

/-! ### Kinds -/

/-- The kinds of failures. -/
inductive FailureKind where
  | unsupportedSuspensionPosition
  | unbalancedSynchronizedRegion
  | unreachableSuspensionState
  | ambiguousExceptionRegion
  | malformedCode
deriving DecidableEq, Inhabited

namespace FailureKind

/-- The code of a kind. -/
def code : FailureKind → String
  | unsupportedSuspensionPosition => "T0001"
  | unbalancedSynchronizedRegion => "T0002"
  | unreachableSuspensionState => "T0003"
  | ambiguousExceptionRegion => "T0004"
  | malformedCode => "T0005"

/-- A kind in words. -/
def text : FailureKind → String
  | unsupportedSuspensionPosition => "unsupported suspension position"
  | unbalancedSynchronizedRegion => "unbalanced synchronized region"
  | unreachableSuspensionState => "unreachable suspension state"
  | ambiguousExceptionRegion => "ambiguous exception region"
  | malformedCode => "malformed code"

/-- The name of a kind in reports. -/
def name : FailureKind → String
  | unsupportedSuspensionPosition => "UnsupportedSuspensionPosition"
  | unbalancedSynchronizedRegion => "UnbalancedSynchronizedRegion"
  | unreachableSuspensionState => "UnreachableSuspensionState"
  | ambiguousExceptionRegion => "AmbiguousExceptionRegion"
  | malformedCode => "MalformedCode"

end FailureKind

/-! ### Causes -/

/-- How two exception regions conflict. -/
inductive RegionClash where
  /-- They share blocks and neither contains the other. -/
  | overlap
  /-- The outer one is listed first. -/
  | outerFirst
deriving DecidableEq, Inhabited

/-- What is wrong with a method. -/
inductive Cause where
  | missingEntry
  | misnumberedBlock (position : Nat) (id : Nat)
  | undeclaredLocal (l : Nat)
  | missingTarget (target : Nat)
  | missingHandler (region : Nat)
  | missingCovered (region : Nat)
  | strayEndCleanup
  | cleanupOverlapsRegion (region : Nat)
  | jumpIntoCleanup (region : Nat)
  | cleanupKeepsException
  /-- The instruction or terminator, as written, takes more operands than there are. -/
  | underflow (text : String)
  | depthMismatch (incoming existing : Nat) (meeting : Location)
  | dispatcherTaken (name : String)
  | markerArity (marker : String) (argc : Nat)
  | noFuture
  | valuesBeneath (count : Nat)
  | unmatchedMonitorExit
  | suspendsHolding (monitors : Nat)
  | returnsHolding (monitors : Nat)
  | monitorMismatch (incoming existing : Nat) (meeting : Location)
  | unreachableSuspension
  | ambiguousRegions (first second : Nat) (firstHandler secondHandler : Nat)
      (clash : RegionClash)
deriving DecidableEq, Inhabited

namespace Cause

/-- The kind of a cause. -/
def kind : Cause → FailureKind
  | missingEntry | misnumberedBlock _ _ | undeclaredLocal _ | missingTarget _ | missingHandler _
  | missingCovered _ | strayEndCleanup | cleanupOverlapsRegion _ | jumpIntoCleanup _
  | cleanupKeepsException | underflow _ | depthMismatch _ _ _ | dispatcherTaken _ => .malformedCode
  | markerArity _ _ | noFuture | valuesBeneath _ => .unsupportedSuspensionPosition
  | unmatchedMonitorExit | suspendsHolding _ | returnsHolding _ | monitorMismatch _ _ _ =>
    .unbalancedSynchronizedRegion
  | unreachableSuspension => .unreachableSuspensionState
  | ambiguousRegions _ _ _ _ _ => .ambiguousExceptionRegion

/-- A cause in words. -/
def detail : Cause → String
  | missingEntry => "entry block does not exist"
  | misnumberedBlock position id =>
    "block listed at position " ++ toString position ++ " is numbered " ++ blockText id
  | undeclaredLocal l => "undeclared local " ++ slotText l
  | missingTarget target => "jump to missing block " ++ blockText target
  | missingHandler region => "region r" ++ toString region ++ " names a missing handler"
  | missingCovered region => "region r" ++ toString region ++ " covers a missing block"
  | strayEndCleanup => "end_finally outside a finally body"
  | cleanupOverlapsRegion region =>
    "finally body of r" ++ toString region ++ " overlaps its own try-set"
  | jumpIntoCleanup region => "jump into the finally body of r" ++ toString region
  | cleanupKeepsException => "finally handler must begin by consuming the exception"
  | underflow text => "stack underflow at `" ++ text ++ "`"
  | depthMismatch incoming existing meeting =>
    "stack depth " ++ toString incoming ++ " meets " ++ toString existing ++ " at " ++
      meeting.text
  | dispatcherTaken name => "dispatcher name `" ++ name ++ "` is already taken in the class"
  | markerArity marker argc =>
    "`" ++ marker ++ "` takes exactly one future, called with " ++ toString argc
  | noFuture => "no future on the operand stack"
  | valuesBeneath count =>
    toString count ++ " value" ++ (if count = 1 then "" else "s") ++ " beneath the awaited future"
  | unmatchedMonitorExit => "monitor exit without a matching enter"
  | suspendsHolding monitors => "suspends while holding " ++ toString monitors ++ " monitor(s)"
  | returnsHolding monitors => "returns while holding " ++ toString monitors ++ " monitor(s)"
  | monitorMismatch incoming existing meeting =>
    toString incoming ++ " monitor(s) held here but " ++ toString existing ++
      " on another path into " ++ meeting.text
  | unreachableSuspension => "no path from the method entry reaches this suspend marker"
  | ambiguousRegions _ _ _ _ .overlap => "try-sets partially overlap"
  | ambiguousRegions _ _ _ _ .outerFirst => "enclosing region listed before the region it contains"

end Cause

/-! ### Rejections -/

/-- A cause at a position. -/
structure Defect where
  location : Location
  cause : Cause
deriving DecidableEq, Inhabited

/-- A defect of a method, given by its qualified name. -/
structure Rejection where
  method : String
  location : Location
  cause : Cause
deriving DecidableEq, Inhabited

/-- The rejection of a method for a defect. -/
def Defect.ofMethod (d : Defect) (method : String) : Rejection := ⟨method, d.location, d.cause⟩

namespace Rejection

/-- The kind of a rejection. -/
def kind (r : Rejection) : FailureKind := r.cause.kind

/-- The detail of a rejection. -/
def detail (r : Rejection) : String := r.cause.detail

/-- A rejection in one sentence. -/
def message (r : Rejection) : String :=
  let place := "`" ++ r.method ++ "` at " ++ r.location.text
  match r.cause with
  | .ambiguousRegions first second _ _ _ =>
    "ambiguous exception regions r" ++ toString first ++ " and r" ++ toString second ++ " in `" ++
      r.method ++ "`: " ++ r.detail
  | .unreachableSuspension => "suspension point in " ++ place ++ " is unreachable"
  | c =>
    match c.kind with
    | .unsupportedSuspensionPosition =>
      "suspend marker in unsupported position in " ++ place ++ ": " ++ r.detail
    | .unbalancedSynchronizedRegion =>
      "unbalanced synchronized region in " ++ place ++ ": " ++ r.detail
    | _ => "malformed code in " ++ place ++ ": " ++ r.detail

/-- The diagnostic of a rejection: the position is labelled with the detail, and some kinds add
related positions, notes or advice. -/
def diagnostic (r : Rejection) : Diagnostic :=
  let plain : Diagnostic :=
    { severity := .error, code := some r.kind.code, message := r.message, method := some r.method
      labels := [⟨r.location, .primary, some r.detail⟩] }
  match r.cause with
  | .ambiguousRegions first second firstHandler secondHandler _ =>
    { plain with
      labels :=
        [⟨r.location, .primary,
            some ("covered by r" ++ toString first ++ " and r" ++ toString second)⟩,
          ⟨⟨firstHandler, 0⟩, .secondary, some ("handler of r" ++ toString first)⟩,
          ⟨⟨secondHandler, 0⟩, .secondary, some ("handler of r" ++ toString second)⟩]
      notes := ["regions must nest, innermost listed first"] }
  | .unreachableSuspension =>
    { plain with
      labels := [⟨r.location, .primary, some "never executed"⟩]
      help := some "remove the dead code containing this await" }
  | c =>
    match c.kind with
    | .unsupportedSuspensionPosition =>
      { plain with help := some "store pending operands in locals before awaiting" }
    | .unbalancedSynchronizedRegion =>
      { plain with
        notes := ["a monitor cannot be held across a suspension"]
        help :=
          some "release the lock before awaiting, or await outside the synchronized block" }
    | _ => plain

end Rejection

end Resumable
