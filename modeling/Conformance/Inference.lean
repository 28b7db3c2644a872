import Conformance.Relations

/-!
# Inference of parameters

`track` puts the parameters of a universal type under inference; from then on comparisons narrow their bounds instead
of failing. `approximate` chooses a parameter at one end of its bounds, and `replace` lets the choice stand for it in
the bounds of all others.
-/

namespace Conformance

namespace CompareM

/-- Puts the parameters of a universal type under inference and gives the type whose parameters they are: the type
itself, or a copy on a fresh binder if its parameters are under inference already. -/
def track (fuel : Nat) (poly : Ty) : CompareM (Except BuildError Ty) := do
  match (← world).shape poly with
  | .universal b => do
    let store ← constraint
    if store.tracks b then
      let copy ← b.copy fuel
      setConstraint (← store.add copy)
      return .ok (← copy.type)
    else
      setConstraint (← store.add b)
      return .ok poly
  | _ => return .error (.notUniversal poly)

/-- Takes `p` out of the store and puts `inst` in its place in all bounds that remain. -/
def replace (fuel : Nat) (p : Param) (inst : Ty) : CompareM ConstraintStore := do
  let store ← (← constraint).subst fuel p inst
  setConstraint store
  return store

/-- Chooses `p` at the lower or the upper end of its bounds, less the refinements that mention `p`, and replaces it; no
type if `p` is not under inference. -/
def approximate (fuel : Nat) (p : Param) (fromBelow : Bool) : CompareM Ty := do
  match ← currentBounds p with
  | none => return .noType
  | some (lo, hi) => do
    let inst ← Ty.dropRefinements p fuel (if fromBelow then lo else hi)
    discard <| replace fuel p inst
    return inst

end CompareM

end Conformance
