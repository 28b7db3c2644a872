import Conformance.Info
import Conformance.Walk

/-!
# Members

The info of a member of a type: refinements come first, then the declarations of the class and of its parents. In an
intersection the first operand that has the member decides; in a union both have to have it, and their bounds are
widened to hold both.
-/

namespace Conformance

namespace World

/-- Whether `cls` itself declares a type under `name`. -/
def declaresType (w : World) (cls : Symbol) (name : String) : Bool := (w.decls.member? cls name .type).isSome

end World

namespace Member

/-- The member `name` of a class: its own types, its own values, then its parents in order. -/
def ofClass (name : String) (next : Ty → WalkM Ty) (cls : Symbol) : WalkM Ty := do
  let w ← Walk.world
  match w.decls.member? cls name .type with
  | some s => do (← s.ref).infoOf
  | none =>
    match w.decls.member? cls name .term with
    | some s => return w.decls.info s
    | none => Walk.firstPresent next (w.decls.parents cls)

/-- The infos of a member on both sides of a union, joined. -/
def ofUnion (left right : Ty) : WorldM Ty := do
  let w ← get
  match w.boundsParts? left, w.boundsParts? right with
  | some (lo₁, hi₁), some (lo₂, hi₂) => do
    let lo ← Ty.inter lo₁ lo₂
    let hi ← Ty.union hi₁ hi₂
    Ty.bounds lo hi
  | _, _ => Ty.union left right

/-- One level of member look-up; `next` looks in another type. -/
def step (name : String) (next : Ty → WalkM Ty) (t : Ty) : WalkM Ty := do
  let w ← Walk.world
  match w.shape t with
  | .named _ s => if w.decls.isClass s then ofClass name next s else next (← t.upperBound)
  | .classInfo _ cls => ofClass name next cls
  | .refined parent refinedName info => if refinedName = name then return info else next parent
  | .inter a b => do
    let info ← next a
    if info.present then return info else next b
  | .union a b => do
    let left ← next a
    let right ← next b
    if left.present && right.present then ofUnion left right else return .noType
  | .param p => next (w.paramUpper p)
  | d => if d.isSingleton || d.isVar then next (← t.underlying) else return .noType

end Member

/-- The info of the member `name` of `t`; no type when there is none. -/
def Ty.member (t : Ty) (name : String) : WorldM Ty := Walk.run .noType (Member.step name) t

end Conformance
