import Conformance.Comparer

/-!
# Sameness and narrowing

Two relations that are read off conformance, given as `sub`: mutual conformance, and the narrowing of a parameter under
inference, which is accepted when the lower end of the narrowed bounds conforms to the upper end.
-/

namespace Conformance

namespace CompareM

section
variable (sub : Ty → Ty → CompareM Bool)

/-- Mutual conformance; an absent type is the same as nothing. -/
def same (a b : Ty) : CompareM Bool :=
  if !a.present || !b.present then return false
  else if a = b then return true
  else atomically (sub a b <&&> sub b a)

/-- Narrows the bounds of `p` by `bound` and answers whether they still leave a type; a parameter that is not under
inference, or has been chosen, is left alone and answered false. -/
def narrow (p : Param) (bound : Ty) : CompareM Bool := do
  let store ← constraint
  match store.slots? p.binder with
  | none => return false
  | some slots =>
    match (slots[p.index]?).filter (·.present) with
    | none => return false
    | some old => do
      let narrowed ← Ty.boundsInter old bound
      if narrowed ≠ old then
        setConstraint (← store.withSlots p.binder (slots.set p.index narrowed))
      match (← world).boundsParts? narrowed with
      | none => return false
      | some (lo, hi) => sub lo hi

end

end CompareM

end Conformance
