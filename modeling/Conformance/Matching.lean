import Conformance.Narrowing

/-!
# Matching of member types

Two member types match when one can stand for the other as a declaration of the same member: parameter types have to be
the same, results only have to match again, and a method without parameters matches a by-name type. Parameter lists are
compared the same way in matching and in conformance.
-/

namespace Conformance

namespace CompareM

/-- Whether the types are the root class and the top type, in either order. -/
def isTopPair (a b : Ty) : Bool :=
  (a = Builtin.object.type && b = Builtin.any.type) || (a = Builtin.any.type && b = Builtin.object.type)

/-- The infos of a binder with the parameters of `b` in place of those of `own`. -/
def infosUnder (fuel : Nat) (own b : BinderId) (d : Binder) : CompareM (List Ty) :=
  d.infos.mapM fun info => (Ty.substBinder fuel own b info : WorldM Ty)

section
variable (sub : Ty → Ty → CompareM Bool)

/-- Whether two parameter lists agree place by place; between languages the root class and the top type agree. -/
def sameParams (formals₁ formals₂ : List Ty) (foreign₁ foreign₂ : Bool) : CompareM Bool :=
  if formals₁.length ≠ formals₂.length then return false
  else (formals₁.zip formals₂).allM fun (a, b) =>
    same sub a b <||> return (foreign₁ || foreign₂) && isTopPair a b

/-- Whether member types match; `simple` is what two types that are neither methods nor universal answer without being
compared, and when it is off they have to be the same. -/
def matchesWith (simple : Bool) : Nat → Ty → Ty → CompareM Bool
  | 0, _, _ => throw .outOfFuel
  | n + 1, t₁, t₂ => do
    let w ← world
    match w.shape t₁, w.shape t₂ with
    | .method b₁, .method b₂ =>
      match w.binder? b₁, w.binder? b₂ with
      | some m₁, some m₂ => do
        let formals₂ ← infosUnder n b₂ b₁ m₂
        if m₁.flags.implicitArgs ≠ m₂.flags.implicitArgs then return false
        else
          sameParams sub m₁.infos formals₂ m₁.flags.foreign m₂.flags.foreign <&&> do
            let result₂ ← Ty.substBinder n b₂ b₁ m₂.result
            matchesWith simple n m₁.result result₂
      | _, _ => return false
    | .method b₁, .byName result₂ =>
      match w.binder? b₁ with
      | some m₁ => if m₁.arity = 0 then matchesWith simple n m₁.result result₂ else return false
      | none => return false
    | .method _, _ => return false
    | .byName result₁, .method b₂ =>
      match w.binder? b₂ with
      | some m₂ => if m₂.arity = 0 then matchesWith simple n result₁ m₂.result else return false
      | none => return false
    | .byName result₁, _ => matchesWith simple n result₁ t₂
    | .universal b₁, .universal b₂ =>
      match w.binder? b₁, w.binder? b₂ with
      | some p₁, some p₂ =>
        if p₁.arity ≠ p₂.arity then return false
        else do
          let result₂ ← Ty.substBinder n b₂ b₁ p₂.result
          matchesWith simple n p₁.result result₂
      | _, _ => return false
    | .universal _, _ => return false
    | _, .method _ | _, .universal _ => return false
    | _, .byName result₂ => matchesWith simple n t₁ result₂
    | _, _ => if simple then return true else same sub t₁ t₂

end

end CompareM

end Conformance
