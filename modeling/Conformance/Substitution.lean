import Conformance.Construct

/-!
# Substitution

Rebuilding a type child by child. A type none of whose children changes is returned as it is, with the same handle. A
universal or method type whose infos or result change is rebuilt on a fresh binder, whose parameters take the place of
the old ones. Three operations are built on this: renaming the parameters of one binder to those of another
(`Ty.substBinder`), replacing one parameter by a type (`Ty.substParam`), and dropping the refinements that mention a
parameter (`Ty.dropRefinements`).
-/

namespace Conformance

open WorldM

namespace World

/-- The types directly inside `t`; those of a binder are its infos and its result. -/
def children (w : World) (t : Ty) : List Ty :=
  match w.shape t with
  | .named pre _ | .path pre _ | .classInfo pre _ => [pre]
  | .refined parent _ info => [parent, info]
  | .inter a b | .union a b => [a, b]
  | .byName result => [result]
  | .bounds lo hi => [lo, hi]
  | .method b | .universal b =>
    match w.binder? b with
    | some d => d.infos ++ [d.result]
    | none => []
  | _ => []

/-- Whether `t` mentions the type parameter `p`. -/
def mentions (w : World) (p : Param) : Nat → Ty → Except Halt Bool
  | 0, _ => throw .outOfFuel
  | n + 1, t =>
    match w.shape t with
    | .param q => return q = p
    | _ => (w.children t).anyM (mentions w p n)

end World

namespace Ty

/-- `t` with its one child `old` replaced by `f old`. -/
def rebuild₁ (f : Ty → WorldM Ty) (t old : Ty) (make : Ty → WorldM Ty) : WorldM Ty := do
  let new ← f old
  if new = old then return t else make new

/-- `t` with its two children replaced, the first one first. -/
def rebuild₂ (f : Ty → WorldM Ty) (t old₁ old₂ : Ty) (make : Ty → Ty → WorldM Ty) : WorldM Ty := do
  let new₁ ← f old₁
  let new₂ ← f old₂
  if new₁ = old₁ ∧ new₂ = old₂ then return t else make new₁ new₂

/-- `t`, whose binder is `b`, with infos and result replaced; `rename` puts the parameters of the fresh binder in. -/
def rebuildBinder (f : Ty → WorldM Ty) (rename : BinderId → BinderId → Ty → WorldM Ty) (t : Ty) (b : BinderId) :
    WorldM Ty := do
  match (← get).binder? b with
  | none => return t
  | some d => do
    let infos ← d.infos.mapM f
    let result ← f d.result
    if infos = d.infos ∧ result = d.result then return t
    else do
      let fresh ← freshBinder d.kind d.names
      let infos ← infos.mapM (rename b fresh)
      let result ← rename b fresh result
      fillBinder fresh infos result
      fresh.type

/-- `t` with `f` applied to each type directly inside it. -/
def mapChildren (f : Ty → WorldM Ty) (rename : BinderId → BinderId → Ty → WorldM Ty) (t : Ty) : WorldM Ty := do
  match (← get).shape t with
  | .named pre s => rebuild₁ f t pre (named · s)
  | .path pre s => rebuild₁ f t pre (path · s)
  | .classInfo pre cls => rebuild₁ f t pre (classInfo · cls)
  | .refined parent name info => rebuild₂ f t parent info (refined · name ·)
  | .inter a b => rebuild₂ f t a b inter
  | .union a b => rebuild₂ f t a b union
  | .byName result => rebuild₁ f t result byName
  | .bounds lo hi => rebuild₂ f t lo hi bounds
  | .method b | .universal b => rebuildBinder f rename t b
  | _ => return t

/-- `t` with every parameter of `old` replaced by the parameter of `new` at the same place. -/
def substBinder : Nat → BinderId → BinderId → Ty → WorldM Ty
  | 0, _, _, _ => throw .outOfFuel
  | n + 1, old, new, t =>
    if old = new then return t
    else do
      match (← get).shape t with
      | .param p | .valueParam p =>
        if p.binder = old then Param.type ⟨new, p.index⟩ else return t
      | _ => mapChildren (substBinder n old new) (substBinder n) t

/-- `t` with the type parameter `p` replaced by `replacement`. -/
def substParam (p : Param) (replacement : Ty) : Nat → Ty → WorldM Ty
  | 0, _ => throw .outOfFuel
  | n + 1, t => do
    match (← get).shape t with
    | .param q => if q = p then return replacement else return t
    | _ => mapChildren (substParam p replacement n) (substBinder n) t

/-- `t` with every refinement whose info mentions `p` replaced by its parent. -/
def dropRefinements (p : Param) : Nat → Ty → WorldM Ty
  | 0, _ => throw .outOfFuel
  | n + 1, t => do
    match (← get).shape t with
    | .refined parent _ info =>
      if ← reading (·.mentions p n info) then dropRefinements p n parent
      else mapChildren (dropRefinements p n) (substBinder n) t
    | _ => mapChildren (dropRefinements p n) (substBinder n) t

end Ty

/-- A fresh binder with the names, infos and result of `b`, its own parameters in place of those of `b`. -/
def BinderId.copy (fuel : Nat) (b : BinderId) : WorldM BinderId := do
  match (← get).binder? b with
  | none => return b
  | some d => do
    let fresh ← freshBinder d.kind d.names
    let infos ← d.infos.mapM (Ty.substBinder fuel b fresh)
    let result ← Ty.substBinder fuel b fresh d.result
    fillBinder fresh infos result
    return fresh

end Conformance
