import Conformance.Depth
import Conformance.Options
import Conformance.ConstraintStore
import Conformance.Walk

/-!
# Comparers

A comparer holds the constraint store of the parameters it infers, how deep the comparison in progress nests, and the
pairs it is in the middle of comparing once it is deep enough to be monitored. `CompareM.frame` runs one comparison as a
transaction: its narrowings stay when it answers true and are taken back when it answers false.
-/

namespace Conformance

/-- The state of a comparer. -/
structure Comparer where
  options : Options
  constraint : ConstraintStore
  depth : DepthCounter
  /-- The pairs that monitored comparisons are in the middle of. -/
  pending : Guard (Ty × Ty)

/-- A comparer at rest with nothing under inference. -/
def Comparer.new (options : Options) : WorldM Comparer := do
  return { options, constraint := ← ConstraintStore.new, depth := { threshold := options.monitorThreshold },
           pending := { bounds := .none } }

/-- Computations of a comparer. -/
abbrev CompareM := StateT Comparer WorldM

namespace CompareM

/-- The world of a comparison. -/
def world : CompareM World := (get : WorldM World)

/-- The constraint store. -/
def constraint : CompareM ConstraintStore := return (← get).constraint

def setConstraint (store : ConstraintStore) : CompareM Unit := modify fun c => { c with constraint := store }

/-- The bounds within which `p` may be chosen, if it is under inference. -/
def currentBounds (p : Param) : CompareM (Option (Ty × Ty)) := do
  match (← constraint).bounds? p with
  | none => return none
  | some bounds => return (← world).boundsParts? bounds

/-- Goes one level deeper. -/
def enterLevel : CompareM DepthMode :=
  modifyGet fun c =>
    let (mode, depth) := c.depth.enter
    (mode, { c with depth })

/-- Comes back up one level. -/
def leaveLevel : CompareM Unit := do
  let depth ← Walk.orFault (← get).depth.leave
  modify fun c => { c with depth }

/-- Runs `body` and takes its narrowings back unless it answers true. -/
def atomically (body : CompareM Bool) : CompareM Bool := do
  let saved ← constraint
  let answer ← body
  if !answer then setConstraint saved
  return answer

/-- Runs `body` one level deeper, as a transaction. -/
def frame (body : DepthMode → CompareM Bool) : CompareM Bool :=
  atomically do
    let answer ← body (← enterLevel)
    leaveLevel
    return answer

/-- Runs `body` with the pair marked as being compared; a pair that comes round again is answered false. -/
def withPending (pair : Ty × Ty) (body : CompareM Bool) : CompareM Bool := do
  let (entry, pending) := (← get).pending.enter pair
  modify fun c => { c with pending }
  if entry.isEntered then
    let answer ← body
    let pending ← Walk.orFault ((← get).pending.leave pair)
    modify fun c => { c with pending }
    return answer
  else
    return false

end CompareM

end Conformance
