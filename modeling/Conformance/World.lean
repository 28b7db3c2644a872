import Conformance.Fault
import Conformance.Binder
import Conformance.Declaration
import Conformance.TypeTable

/-!
# Worlds

A world holds everything that handles stand for: types, binders, inference variables and declarations. Computations on
types extend it as they go, in the order in which they ask for new types, binders and skolems; `WorldM` threads it
through. A computation that cannot finish ends in a `Halt`.
-/

namespace Conformance

/-- An inference variable: the parameter it stands for, and the type it was settled to. -/
structure VarCell where
  origin : Ty
  inst : Option Ty := none
deriving DecidableEq

/-- Everything that handles stand for. -/
structure World where
  types : TypeTable
  binders : Array Binder := #[]
  vars : Array VarCell := #[]
  /-- Number of skolems given out. -/
  skolems : Nat := 0
  decls : Declarations := {}
  /-- Number of constraint-store snapshots given out. -/
  snapshots : Nat := 0

/-- Computations that read and extend a world. -/
abbrev WorldM := StateT World (Except Halt)

namespace World

/-! ## Reading -/

def shape? (w : World) (t : Ty) : Option Shape := w.types.shape? t

/-- The shape of `t`; an unknown handle reads as the absent type. -/
def shape (w : World) (t : Ty) : Shape := w.types.shape t

/-- The two ends of a bounds type. -/
def boundsParts? (w : World) (t : Ty) : Option (Ty × Ty) :=
  match w.shape? t with
  | some (.bounds lo hi) => some (lo, hi)
  | _ => none

def binder? (w : World) (b : BinderId) : Option Binder := w.binders[b.id]?

/-- Whether `b` binds types or values. -/
def binderKind? (w : World) (b : BinderId) : Option BinderKind := (w.binder? b).map (·.kind)

/-- The binder of a universal or method type. -/
def binderOf? (w : World) (t : Ty) : Option BinderId :=
  match w.shape? t with
  | some (.universal b) | some (.method b) => some b
  | _ => none

/-- Number of parameters of `b`; an unknown binder has none. -/
def arity (w : World) (b : BinderId) : Nat := ((w.binder? b).map (·.arity)).getD 0

/-- The bounds of a type parameter, or the type of a value parameter. -/
def paramInfo (w : World) (p : Param) : Ty := ((w.binder? p.binder).bind (·.infos[p.index]?)).getD .noType

/-- The upper end of the bounds of a type parameter. -/
def paramUpper (w : World) (p : Param) : Ty := ((w.boundsParts? (w.paramInfo p)).map (·.2)).getD .noType

/-- What an inference variable was settled to. -/
def varInstance? (w : World) (v : VarId) : Option Ty := w.vars[v.id]?.bind (·.inst)

/-- The parameter an inference variable stands for. -/
def varOrigin (w : World) (v : VarId) : Ty := (w.vars[v.id]?.map (·.origin)).getD .noType

/-- What an inference variable was settled to, and until then the parameter it stands for. -/
def varUnderlying (w : World) (v : VarId) : Ty := (w.varInstance? v).getD (w.varOrigin v)

end World

/-! ## Extending -/

namespace WorldM

/-- Runs a reader of the world that may give up. -/
def reading {α : Type} (f : World → Except Halt α) : WorldM α := do liftM (f (← get))

/-- The handle of a shape, which is taken in if it is new. -/
def intern (d : Shape) : WorldM Ty :=
  fun ⟨types, binders, vars, skolems, decls, snapshots⟩ =>
    let (t, types) := types.intern d
    .ok (t, ⟨types, binders, vars, skolems, decls, snapshots⟩)

/-- A skolem that was not given out before. -/
def freshSkolem : WorldM SkolemId :=
  modifyGet fun w => (⟨w.skolems⟩, { w with skolems := w.skolems + 1 })

/-- The number of a constraint-store snapshot that was not given out before. -/
def freshSnapshot : WorldM Nat :=
  modifyGet fun w => (w.snapshots, { w with snapshots := w.snapshots + 1 })

/-- An inference variable that was not given out before. -/
def freshVar (origin : Ty) : WorldM VarId :=
  modifyGet fun w => (⟨w.vars.size⟩, { w with vars := w.vars.push { origin } })

/-- A binder that was not given out before; its infos and result are filled in later. -/
def freshBinder (kind : BinderKind) (names : List String) : WorldM BinderId :=
  modifyGet fun w => (⟨w.binders.size⟩, { w with binders := w.binders.push { kind, names } })

/-- Fills in the infos and the result of a binder. -/
def fillBinder (b : BinderId) (infos : List Ty) (result : Ty) : WorldM Unit :=
  modify fun w => { w with binders := w.binders.modify b.id fun d => { d with infos, result } }

/-- Stores a declaration under a new symbol. -/
def register (d : Declaration) : WorldM Symbol :=
  modifyGet fun w =>
    let (s, decls) := w.decls.register d
    (s, { w with decls })

end WorldM

end Conformance
