import Conformance.Erasure
import Conformance.Matching
import Conformance.Nullability
import Conformance.Stability
import Conformance.TypeParams

/-!
# The cascade

Whether a type conforms to another is settled by four steps, each looking at the shape of one side and either deciding
or handing on to the next.

* `first` looks at the target: names against names, placeholders, inference variables, parameters under inference.
* `second` looks at the source for the same.
* `third` looks at the target again: names, refinements, intersections, unions, methods, universals, by-name, bounds.
* `fourth` looks at the source: names, single values, refinements, intersections, unions.

Every nested comparison goes through `sub`, so one step of the cascade is a function of the relation it is part of.
-/

namespace Conformance

namespace CompareM

/-- The prefix and the symbol of a named shape, and whether it names a type. -/
def nameParts? : Shape → Option (Ty × Symbol × Bool)
  | .named pre s => some (pre, s, true)
  | .path pre s => some (pre, s, false)
  | _ => none

section
variable (fuel : Nat) (sub : Ty → Ty → CompareM Bool)

/-- Whether the type constructor `t₁` fits the trait `t₂`: each open parameter of `t₁`, as a member of an opaque
instance of `t₁`, lies within the argument of `t₂` at its place, and the variances agree. -/
def conformsAsConstructor (t₁ t₂ : Ty) : CompareM Bool := do
  let params ← WorldM.reading (·.openTypeParams fuel t₁)
  let args ← WorldM.reading (·.typeArgs fuel t₂)
  if params.length ≠ args.length then return false
  else do
    let base ← Ty.skolem t₁
    let fit ← (params.zip args).allM fun (p, arg) => do
      let info ← Ty.member base ((← world).decls.name p)
      sub (← info.asBounds) (← arg.asBounds)
    let w ← world
    let traitParams := ((w.typeSymbol? t₂).map w.decls.typeParams).getD []
    return fit && (params.zip traitParams).all fun (p, q) => w.decls.variance p = w.decls.variance q

/-! ## Fourth step -/

/-- Whether the null class conforms to `t`: aliases and refinements lead from it to a class that has `null`. -/
def nullConforms (t : Ty) : WorldM Bool := do
  let w ← get
  match w.typeSymbol? (w.dealias t) with
  | some s => s.isReferenceClass
  | none => return false

def fourth (t₁ t₂ : Ty) : CompareM Bool := do
  let w ← world
  match w.shape t₁ with
  | .named _ s =>
    if s = Builtin.nothing.symbol then return true
    else
      (if s = Builtin.null.symbol then (nullConforms t₂ : WorldM Bool) else return false) <||>
        if w.decls.isClass s then return false else do sub (← t₁.upperBound) t₂
  | .refined parent _ _ => sub parent t₂
  | .inter a b => sub a t₂ <||> sub b t₂
  | .union a b => sub a t₂ <&&> sub b t₂
  | d => if d.isSingleton then do sub (← t₁.underlying) t₂ else return false

/-! ## Third step -/

/-- A source against a named target: the lower end of its bounds, or the markers, or the traits of constructors. -/
def thirdNamed (t₁ t₂ : Ty) : CompareM Bool := do
  let info ← t₂.infoOf
  let w ← world
  match w.boundsParts? info with
  | some (lo₂, _) => sub t₁ lo₂ <||> fourth sub t₁ t₂
  | none =>
    let s₂ := match w.shape t₂ with
      | .named _ s => s
      | _ => .absent
    (if s₂ = Builtin.singleton.symbol then WorldM.reading (·.isStable fuel t₁) else return false) <||>
      (if s₂ = Builtin.notNull.symbol then (t₁.isNotNull : WorldM Bool) else return false) <||>
      (if Builtin.isTrait s₂ then conformsAsConstructor fuel sub t₁ t₂ else return false) <||>
      fourth sub t₁ t₂

/-- Methods: the same erased parameters and the same parameter types, and results that conform. -/
def methods (t₁ : Ty) (b₁ : BinderId) (t₂ : Ty) (b₂ : BinderId) : CompareM Bool := do
  let w ← world
  match w.binder? b₁, w.binder? b₂ with
  | some m₁, some m₂ => do
    let formals₂ ← infosUnder fuel b₂ b₁ m₂
    let sig₁ ← Ty.signature fuel t₁
    let sig₂ ← Ty.signature fuel t₂
    if !sig₁.matches sig₂ then return false
    else
      sameParams sub m₁.infos formals₂ m₁.flags.foreign m₂.flags.foreign <&&>
        if m₁.flags.implicitArgs ≠ m₂.flags.implicitArgs then return false
        else do sub m₁.result (← Ty.substBinder fuel b₂ b₁ m₂.result)
  | _, _ => return false

/-- Universal types: the same erased parameters and the same bounds, and bodies that conform. -/
def universals (t₁ : Ty) (b₁ : BinderId) (t₂ : Ty) (b₂ : BinderId) : CompareM Bool := do
  let w ← world
  match w.binder? b₁, w.binder? b₂ with
  | some p₁, some p₂ => do
    let sig₁ ← Ty.signature fuel t₁
    let sig₂ ← Ty.signature fuel t₂
    if !sig₁.matches sig₂ || p₁.arity ≠ p₂.arity then return false
    else
      ((p₁.infos.zip p₂.infos).allM fun (bounds₁, bounds₂) => do
          same sub bounds₁ (← Ty.substBinder fuel b₂ b₁ bounds₂)) <&&> do
        sub p₁.result (← Ty.substBinder fuel b₂ b₁ p₂.result)
  | _, _ => return false

def third (t₁ t₂ : Ty) : CompareM Bool := do
  let w ← world
  match w.shape t₂, w.shape t₁ with
  | .named .., _ | .path .., _ => thirdNamed fuel sub t₁ t₂
  | .refined parent name info, _ =>
    (sub t₁ parent <&&>
        if name = Builtin.anyName then return true else do sub (← t₁.member name) info) <||>
      fourth sub t₁ t₂
  | .inter a b, _ => sub t₁ a <&&> sub t₁ b
  | .union a b, _ => sub t₁ a <||> sub t₁ b <||> fourth sub t₁ t₂
  | .method b₂, .method b₁ => methods fuel sub t₁ b₁ t₂ b₂
  | .universal b₂, .universal b₁ => universals fuel sub t₁ b₁ t₂ b₂
  | .byName result₂, .byName result₁ => sub result₁ result₂
  | .bounds lo₂ hi₂, .bounds lo₁ hi₁ => sub lo₂ lo₁ <&&> sub hi₁ hi₂
  | .bounds lo₂ hi₂, .classInfo pre cls => do
    let ref ← Ty.named pre cls
    sub lo₂ ref <&&> sub ref hi₂
  | _, _ => fourth sub t₁ t₂

/-! ## Second step -/

def second (t₁ t₂ : Ty) : CompareM Bool := do
  let w ← world
  match w.shape t₁ with
  | .fixed .wildcard | .fixed .error => return true
  | .var v => sub (w.varUnderlying v) t₂
  | .param p =>
    match ← currentBounds p with
    | some (_, hi) => sub hi t₂ <||> do narrow sub p (← Ty.upperBounds t₂)
    | none => third fuel sub t₁ t₂
  | _ => third fuel sub t₁ t₂

/-! ## First step -/

/-- A name against a name: one symbol, then one name, then the class hierarchy, then the later steps. -/
def names (t₁ t₂ : Ty) : CompareM Bool := do
  let w ← world
  match nameParts? (w.shape t₁), nameParts? (w.shape t₂) with
  | some (pre₁, s₁, isType₁), some (pre₂, s₂, isType₂) =>
    if s₁ = s₂ then
      if (← get).options.erasedTypes || w.decls.isStatic s₁ then return true else sub pre₁ pre₂
    else
      (if isType₁ = isType₂ ∧ w.decls.name s₁ = w.decls.name s₂ then sub pre₁ pre₂ else return false) <||>
        (if w.decls.isClass s₂ then do
            let base ← Ty.baseType t₁ s₂
            if base.present && base ≠ t₁ then sub base t₂ else return false
          else return false) <||>
        thirdNamed fuel sub t₁ t₂
  | _, _ => return false

def first (t₁ t₂ : Ty) : CompareM Bool := do
  let w ← world
  match w.shape t₂ with
  | .named .. | .path .. => if (w.shape t₁).isNamed then names fuel sub t₁ t₂ else second fuel sub t₁ t₂
  | .fixed .wildcard | .fixed .error => return true
  | .var v => sub t₁ (w.varUnderlying v)
  | .param p =>
    match ← currentBounds p with
    | some (lo, _) => sub t₁ lo <||> do narrow sub p (← Ty.lowerBounds t₁)
    | none => second fuel sub t₁ t₂
  | _ => second fuel sub t₁ t₂

end

end CompareM

end Conformance
