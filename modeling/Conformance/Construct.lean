import Conformance.Builtin
import Conformance.BuildError

/-!
# Building types

One function per shape. Intersections and unions collapse where an operand decides the outcome: equal operands are one,
the top type is the unit of intersection and absorbs unions, the bottom type the other way round.
-/

namespace Conformance

open WorldM

/-- Computations that may refuse what they are asked for; what they did before stays done. -/
abbrev BuildM := ExceptT BuildError WorldM

namespace Ty

/-! ## Names and single values -/

def named (pre : Ty) (s : Symbol) : WorldM Ty := intern (.named pre s)

def path (pre : Ty) (s : Symbol) : WorldM Ty := intern (.path pre s)

def self (cls : Symbol) : WorldM Ty := intern (.self cls)

def literal (value : Literal) : WorldM Ty := intern (.literal value)

/-- An opaque value of type `underlying`, different from all others. -/
def skolem (underlying : Ty) : WorldM Ty := do
  let k ← freshSkolem
  intern (.skolem k underlying)

end Ty

/-- The reference to a class or type that is reachable without a prefix. -/
def Symbol.ref (s : Symbol) : WorldM Ty := Ty.named .noPrefix s

namespace Ty

/-! ## Compound types -/

def refined (parent : Ty) (name : String) (info : Ty) : WorldM Ty := intern (.refined parent name info)

/-- The intersection of two types. -/
def inter (a b : Ty) : WorldM Ty :=
  if a = b then pure a
  else if a = Builtin.any.type then pure b
  else if b = Builtin.any.type then pure a
  else if a = Builtin.nothing.type ∨ b = Builtin.nothing.type then pure Builtin.nothing.type
  else intern (.inter a b)

/-- The union of two types. -/
def union (a b : Ty) : WorldM Ty :=
  if a = b then pure a
  else if a = Builtin.nothing.type then pure b
  else if b = Builtin.nothing.type then pure a
  else if a = Builtin.any.type ∨ b = Builtin.any.type then pure Builtin.any.type
  else intern (.union a b)

def byName (result : Ty) : WorldM Ty := intern (.byName result)

def bounds (lo hi : Ty) : WorldM Ty := intern (.bounds lo hi)

/-- The bounds that leave `t` only. -/
def aliasBounds (t : Ty) : WorldM Ty := bounds t t

/-- The bounds from `lo` to the top type. -/
def lowerBounds (lo : Ty) : WorldM Ty := bounds lo Builtin.any.type

/-- The bounds from the bottom type to `hi`. -/
def upperBounds (hi : Ty) : WorldM Ty := bounds Builtin.nothing.type hi

/-- The bounds that leave every type. -/
def unbounded : WorldM Ty := bounds Builtin.nothing.type Builtin.any.type

def classInfo (pre : Ty) (cls : Symbol) : WorldM Ty := intern (.classInfo pre cls)

/-- Lifts a plain info `t` to the bounds that leave `t` only. -/
def asBounds (info : Ty) : WorldM Ty := do
  if info.present && ((← get).boundsParts? info).isNone then aliasBounds info else pure info

/-- The two ends of an info that was lifted to bounds; an absent info stands at both ends. -/
def endsOf (info : Ty) : WorldM (Ty × Ty) := do
  let lifted ← asBounds info
  return ((← get).boundsParts? lifted).getD (info, info)

/-- Bounds within both `a` and `b`: the union of the lower ends up to the intersection of the upper ends. -/
def boundsInter (a b : Ty) : WorldM Ty := do
  let (lo₁, hi₁) ← endsOf a
  let (lo₂, hi₂) ← endsOf b
  let lo ← union lo₁ lo₂
  let hi ← inter hi₁ hi₂
  bounds lo hi

end Ty

/-- Refuses a handle that is not a bounds type. -/
def Ty.expectBounds (t : Ty) : BuildM Unit := do
  if ((← get).boundsParts? t).isNone then throw (.notBounds t)

/-! ## Inference variables -/

/-- A fresh inference variable that stands for the type parameter `origin`. -/
def Ty.var (origin : Ty) : BuildM Ty := do
  match (← get).shape? origin with
  | some (.param _) => do
    let v ← freshVar origin
    intern (.var v)
  | _ => throw (.notParam origin)

/-- Settles an inference variable; that happens once at most. -/
def Ty.instantiate (var inst : Ty) : BuildM Unit := do
  let w ← get
  match w.shape? var with
  | some (.var v) =>
    match w.vars[v.id]? with
    | none => throw (.notTypeVar var)
    | some cell =>
      if cell.inst.isSome then throw (.alreadyInstantiated v)
      set { w with vars := w.vars.setIfInBounds v.id { cell with inst := some inst } }
  | _ => throw (.notTypeVar var)

/-! ## Parameters -/

/-- The type of a parameter, whether its binder has it or not. -/
def Param.type (p : Param) : WorldM Ty := do
  match (← get).binderKind? p.binder with
  | some (.method _) => intern (.valueParam p)
  | _ => intern (.param p)

namespace BinderId

/-- The universal or method type of a binder. -/
def type (b : BinderId) : WorldM Ty := do
  match (← get).binderKind? b with
  | some (.method _) => intern (.method b)
  | _ => intern (.universal b)

/-- The types of all parameters in order. -/
def paramTypes (b : BinderId) : WorldM (List Ty) := do
  (List.range ((← get).arity b)).mapM fun i => Param.type ⟨b, i⟩

/-- The type of the parameter at place `i`. -/
def paramType (b : BinderId) (i : Nat) : BuildM Ty := do
  let arity := (← get).arity b
  if arity ≤ i then throw (.paramOutOfRange ⟨b, i⟩ arity)
  Param.type ⟨b, i⟩

end BinderId

/-! ## Universal and method types -/

/-- Fills in a binder and gives its type, provided the infos match the names in number and pass `check`. -/
def BinderId.finish (b : BinderId) (names : List String) (check : Ty → BuildM Unit) (infos : List Ty) (result : Ty) :
    BuildM Ty := do
  if infos.length ≠ names.length then throw (.binderArity names.length infos.length)
  infos.forM check
  fillBinder b infos result
  b.type

section
variable {m : Type → Type} [Monad m] [MonadLiftT WorldM m]

/-- Runs `build` on the parameters of a fresh binder, so that infos and result can mention them. -/
def bind (kind : BinderKind) (names : List String) (check : Ty → BuildM Unit)
    (build : List Ty → m (List Ty × Ty)) : m (Except BuildError Ty) := do
  let b ← (freshBinder kind names : WorldM BinderId)
  let params ← (b.paramTypes : WorldM (List Ty))
  let (infos, result) ← build params
  (b.finish names check infos result).run

/-- A universal type; `build` gives the bounds of the parameters and the body. -/
def universal (names : List String) (build : List Ty → m (List Ty × Ty)) : m (Except BuildError Ty) :=
  bind .universal names Ty.expectBounds build

/-- A method type; `build` gives the types of the parameters and of the result. -/
def method (names : List String) (flags : MethodFlags) (build : List Ty → m (List Ty × Ty)) :
    m (Except BuildError Ty) :=
  bind (.method flags) names (fun _ => pure ()) build

end

/-- A method type whose parameters are not mentioned; they are named `x0`, `x1`, ... -/
def simpleMethod (formals : List Ty) (result : Ty) (flags : MethodFlags) : WorldM Ty := do
  let b ← freshBinder (.method flags) ((List.range formals.length).map fun i => "x" ++ toString i)
  fillBinder b formals result
  intern (.method b)

end Conformance
