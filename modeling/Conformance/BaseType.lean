import Conformance.Member

/-!
# Base types

The base type of `t` at a class is `t` seen as an instance of that class: the reference to the class that `t` inherits
from, under those refinements of `t` that narrow a type the class declares itself.
-/

namespace Conformance

namespace BaseType

/-- One level of the search for the base type at `cls`; `next` searches from another type. -/
def step (cls : Symbol) (next : Ty → WalkM Ty) (t : Ty) : WalkM Ty := do
  let w ← Walk.world
  match w.shape t with
  | .named _ s =>
    if s = cls then return t
    else if w.decls.isClass s then Walk.firstPresent next (w.decls.parents s)
    else next (← t.upperBound)
  | .classInfo pre c => next (← Ty.named pre c)
  | .refined parent name info => do
    let base ← next parent
    if base.present && w.declaresType cls name then Ty.refined base name info else return base
  | .inter a b => do
    let left ← next a
    let right ← next b
    if left.present && right.present then Ty.inter left right
    else if left.present then return left
    else return right
  | .union a b => do
    let left ← next a
    let right ← next b
    if left.present && right.present then Ty.union left right else return .noType
  | .param p => next (w.paramUpper p)
  | d => if d.isSingleton || d.isVar then next (← t.underlying) else return .noType

end BaseType

/-- The base type of `t` at `cls`; no type when `t` does not inherit from it. -/
def Ty.baseType (t : Ty) (cls : Symbol) : WorldM Ty := Walk.run .noType (BaseType.step cls) t

/-- Whether the class `cls` is `base` or inherits from it. -/
def Symbol.derivesFrom (cls base : Symbol) : WorldM Bool := do
  if !(← get).decls.isClass cls then return false
  else if cls = base then return true
  else return (← (← cls.ref).baseType base).present

/-- Whether values of class `s` can be `null`: classes under the root class that are no value classes. -/
def Symbol.isReferenceClass (s : Symbol) : WorldM Bool := do
  if !(← get).decls.isClass s || s = Builtin.nothing.symbol then return false
  else if ← s.derivesFrom Builtin.anyVal.symbol then return false
  else s.derivesFrom Builtin.object.symbol

end Conformance
