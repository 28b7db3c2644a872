import Conformance.World

/-!
# Stability

A type is a stable path when it stands for one value that cannot change: a value that cannot be assigned, an instance,
a literal, a skolem or a value parameter, an intersection with a stable operand, or an inference variable settled to
a stable type.
-/

namespace Conformance

/-- Whether `t` is a stable path. -/
def World.isStable (w : World) : Nat → Ty → Except Halt Bool
  | 0, _ => throw .outOfFuel
  | n + 1, t =>
    match w.shape t with
    | .path _ s => return !(w.decls.flags s).assignable
    | .self _ | .literal _ | .skolem .. | .valueParam _ => return true
    | .inter a b => isStable w n a <||> isStable w n b
    | .var v =>
      match w.varInstance? v with
      | some inst => isStable w n inst
      | none => return false
    | _ => return false

end Conformance
