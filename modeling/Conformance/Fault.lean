import Conformance.Handle

/-!
# Faults

A computation that gives no answer either ran out of its allowance of nested steps or broke a rule of use: a key or a
level left that was never entered, a record closed while entries were open, a binder tracked twice. Refusals that a
caller is expected to meet are not faults; those are `BuildError` values.
-/

namespace Conformance

/-- A rule of use that was broken. -/
inductive Fault where
  /-- A key was left that is not open. -/
  | leaveAbsentKey
  /-- A guard was closed while `active` keys were open. -/
  | guardClosedWhileOpen (active : Nat)
  /-- A level was left at depth zero. -/
  | leaveAtDepthZero
  /-- A depth counter was closed above depth zero. -/
  | depthClosedWhileDeep (depth : Nat)
  /-- A binder was put under inference a second time. -/
  | alreadyTracked (binder : BinderId)
deriving DecidableEq

/-- The text that reports a fault. -/
def Fault.message : Fault → String
  | .leaveAbsentKey => "RecursionGuard::leave() called with a key that is not in the visiting set"
  | .guardClosedWhileOpen active =>
    "RecursionGuard dropped with " ++ toString active ++ " active entries still in the visiting set"
  | .leaveAtDepthZero => "DepthCounter::leave() called at depth 0"
  | .depthClosedWhileDeep depth =>
    "DepthCounter dropped with depth " ++ toString depth ++ "; enter() without matching leave()"
  | .alreadyTracked binder => "binder #" ++ toString binder.id ++ " is already tracked"

/-- Why a computation ended without an answer. -/
inductive Halt where
  /-- The allowance of nested steps was used up; a larger one may still give an answer. -/
  | outOfFuel
  | fault (f : Fault)
deriving DecidableEq

end Conformance
