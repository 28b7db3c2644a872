import Conformance.BaseType

/-!
# Nullability

A type excludes `null` when its values are literals or instances, when its class is a value class or carries the
marker for it, or when that holds of what it is built from.
-/

namespace Conformance

namespace Nullability

/-- Whether a class excludes `null`. -/
def classExcludes (cls : Symbol) : WorldM Bool :=
  if cls = Builtin.notNull.symbol || cls = Builtin.nothing.symbol then return true
  else cls.derivesFrom Builtin.anyVal.symbol <||> cls.derivesFrom Builtin.notNull.symbol

/-- One level of the test; `next` tests another type. -/
def step (next : Ty → WalkM Bool) (t : Ty) : WalkM Bool := do
  let w ← Walk.world
  match w.shape t with
  | .literal _ | .self _ => return true
  | .named _ s => if w.decls.isClass s then classExcludes s else next (← t.upperBound)
  | .refined parent _ _ => next parent
  | .inter a b => next a <||> next b
  | .union a b => next a <&&> next b
  | d => if d.isSingleton || d.isVar then next (← t.underlying) else return false

end Nullability

/-- Whether no value of `t` is `null`. -/
def Ty.isNotNull (t : Ty) : WorldM Bool := Walk.run false Nullability.step t

end Conformance
