import Conformance.Info
import Conformance.Walk

/-!
# Erasure

Erasure forgets everything about a type but the name of a class. The erased signature of a method lists the names of its
parameter types and of its result; it tells overloads apart.
-/

namespace Conformance

/-- The erased names of the parameters and the result of a member type. -/
structure Signature where
  params : List String
  result : String
deriving DecidableEq

/-- Whether two signatures agree in their parameters; results are compared by conformance instead. -/
def Signature.matches (a b : Signature) : Bool := a.params = b.params

namespace Erasure

/-- One level of erasure to a class name; `next` erases another type. The top type erases to the root class. -/
def step (next : Ty → WalkM String) (t : Ty) : WalkM String := do
  let w ← Walk.world
  match w.shape t with
  | .named _ s =>
    if s = Builtin.any.symbol then return w.decls.name Builtin.object.symbol
    else if w.decls.isClass s then return w.decls.name s
    else next (← t.upperBound)
  | .classInfo _ cls => return w.decls.name cls
  | .refined parent _ _ => next parent
  | .inter a _ => next a
  | .union _ _ => return w.decls.name Builtin.object.symbol
  | .byName result => next result
  | .param p => next (w.paramUpper p)
  | .method b | .universal b =>
    match w.binder? b with
    | some d => next d.result
    | none => return ""
  | d => if d.isSingleton || d.isVar then next (← t.underlying) else return ""

end Erasure

namespace Ty

/-- The name of the class that `t` erases to; empty when there is none. -/
def erasedName (t : Ty) : WorldM String := Walk.run "" Erasure.step t

/-- The erased signature of a member type; a universal type has that of its body. -/
def signature : Nat → Ty → WorldM Signature
  | 0, _ => throw .outOfFuel
  | n + 1, t => do
    let w ← get
    match w.shape t with
    | .method b =>
      match w.binder? b with
      | some d => do
        let params ← d.infos.mapM erasedName
        let result ← d.result.erasedName
        return { params, result }
      | none => return { params := [], result := "" }
    | .universal b =>
      match w.binder? b with
      | some d => signature n d.result
      | none => return { params := [], result := "" }
    | _ => return { params := [], result := ← t.erasedName }

end Ty

end Conformance
