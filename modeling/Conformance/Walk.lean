import Conformance.Construct
import Conformance.Guard

/-!
# Guarded walks

Walks that follow the infos of symbols can meet a type again, as in `type A <: B` with `type B <: A`. They run under a
guard: a type that is open already, or one beyond the limits, is not entered again and answers `refused`. The allowance
of levels is one more than the guard lets in, so that the guard refuses before the allowance is used up.
-/

namespace Conformance

/-- Computations on a world under a guard of the types that are open. -/
abbrev WalkM := StateT (Guard Ty) WorldM

namespace Walk

variable {α : Type}

/-- Turns a broken rule into the end of the computation. -/
def orFault {β : Type} : Except Fault β → WorldM β
  | .ok b => pure b
  | .error f => throw (.fault f)

/-- Runs `body` with `t` open, or answers `refused` when the guard does not let `t` in. -/
def inside (refused : α) (t : Ty) (body : WalkM α) : WalkM α := do
  let (entry, g) := (← get).enter t
  set g
  if entry.isEntered then
    let answer ← body
    set (← orFault ((← get).leave t))
    return answer
  else
    return refused

/-- Runs `step` at `t` inside the guard; `step` is given the walk itself for the types it goes on to. -/
def descend (refused : α) (step : (Ty → WalkM α) → Ty → WalkM α) : Nat → Ty → WalkM α
  | 0, _ => throw .outOfFuel
  | n + 1, t => inside refused t (step (descend refused step n) t)

/-- A walk from `t` on, under a guard of its own. -/
def run (refused : α) (step : (Ty → WalkM α) → Ty → WalkM α) (t : Ty) : WorldM α := do
  let (answer, g) ← (descend refused step (Limits.walkDepth.toNat + 1) t).run { bounds := .walk }
  orFault g.reset.close
  return answer

/-- The world of a walk. -/
def world : WalkM World := (get : WorldM World)

/-- The first present answer along a list of types. -/
def firstPresent (next : Ty → WalkM Ty) : List Ty → WalkM Ty
  | [] => return .noType
  | t :: ts => do
    let answer ← next t
    if answer.present then return answer else firstPresent next ts

end Walk

end Conformance
