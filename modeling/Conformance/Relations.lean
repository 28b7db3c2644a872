import Conformance.Cascade

/-!
# The relations on types

`isSubType` closes the cascade: each nested comparison is the relation itself, one level deeper, run as a transaction
and watched for coming round again once it is deep enough. The other relations are read off it. All take an allowance
of nested steps; an answer does not depend on how large the allowance was.
-/

namespace Conformance

namespace CompareM

/-- Whether `t₁` conforms to `t₂`. -/
def isSubType : Nat → Ty → Ty → CompareM Bool
  | 0, _, _ => throw .outOfFuel
  | n + 1, t₁, t₂ =>
    if !t₁.present || !t₂.present then return false
    else if t₁ = t₂ then return true
    else frame fun
      | .direct => first n (isSubType n) t₁ t₂
      | .monitored => withPending (t₁, t₂) (first n (isSubType n) t₁ t₂)

section
variable (fuel : Nat)

/-- Whether `t₁` and `t₂` conform to each other. -/
def isSameType (t₁ t₂ : Ty) : CompareM Bool := same (isSubType fuel) t₁ t₂

/-- Whether the type constructor `t₁` fits the trait `t₂`. -/
def isSubTypeConstructor (t₁ t₂ : Ty) : CompareM Bool := conformsAsConstructor fuel (isSubType fuel) t₁ t₂

/-- Whether member types match; with `simple`, two types that are neither methods nor universal always do. -/
def matchesType (t₁ t₂ : Ty) (simple : Bool) : CompareM Bool := matchesWith (isSubType fuel) simple fuel t₁ t₂

/-- Whether two parameter lists are the same place by place. -/
def matchingParams (formals₁ formals₂ : List Ty) (foreign₁ foreign₂ : Bool) : CompareM Bool :=
  sameParams (isSubType fuel) formals₁ formals₂ foreign₁ foreign₂

/-- Narrows the bounds of `p` by `bound` and answers whether they still leave a type. -/
def addConstraint (p : Param) (bound : Ty) : CompareM Bool := narrow (isSubType fuel) p bound

end

end CompareM

end Conformance
