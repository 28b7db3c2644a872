import Conformance.InsertionMap
import Conformance.Substitution

/-!
# Constraint stores

A store holds one slot per parameter for each binder under inference: the bounds within which the parameter may still be
chosen, or no type once it has been chosen. A store is a value; every update makes a new one, under a new snapshot
number, and an update that changes nothing gives back the store it was asked to change. A binder leaves the store with
its last open slot.
-/

namespace Conformance

open WorldM

/-- The slots of the binders under inference. -/
structure ConstraintStore where
  slots : InsertionMap BinderId (List Ty)
  /-- Tells apart stores that were made separately, whatever they hold. -/
  snapshot : Nat

namespace ConstraintStore

/-! ## Reading -/

def isEmpty (c : ConstraintStore) : Bool := c.slots.isEmpty

/-- Number of binders under inference. -/
def size (c : ConstraintStore) : Nat := c.slots.size

/-- The slots of `b`, if it is under inference. -/
def slots? (c : ConstraintStore) (b : BinderId) : Option (List Ty) := c.slots.find? b

/-- Whether `b` is under inference. -/
def tracks (c : ConstraintStore) (b : BinderId) : Bool := c.slots.contains b

/-- The bounds of `p`, unless it is not under inference or has been chosen. -/
def bounds? (c : ConstraintStore) (p : Param) : Option Ty :=
  ((c.slots? p.binder).bind (·[p.index]?)).filter (·.present)

/-- Whether `p` is still to be chosen. -/
def isConstrained (c : ConstraintStore) (p : Param) : Bool := (c.bounds? p).isSome

/-- The parameters that are still to be chosen. -/
def domain (c : ConstraintStore) : List Param :=
  c.slots.entries.flatMap fun (b, slots) => (slots.zipIdx.filter (·.1.present)).map fun (_, i) => ⟨b, i⟩

/-- Whether two stores are the same snapshot. -/
def isSameSnapshot (c d : ConstraintStore) : Bool := c.snapshot = d.snapshot

/-! ## Updates -/

/-- A store with the given slots under a new snapshot number. -/
def ofSlots (slots : InsertionMap BinderId (List Ty)) : WorldM ConstraintStore := do
  return { slots, snapshot := ← freshSnapshot }

/-- An empty store. -/
def new : WorldM ConstraintStore := ofSlots {}

/-- The store with the slots of `b` set. -/
def withSlots (c : ConstraintStore) (b : BinderId) (slots : List Ty) : WorldM ConstraintStore :=
  ofSlots (c.slots.insert b slots)

/-- The store with `b` under inference, its slots holding the declared bounds; `b` must not be under inference yet. -/
def add (c : ConstraintStore) (b : BinderId) : WorldM ConstraintStore := do
  if c.tracks b then throw (.fault (.alreadyTracked b))
  match (← get).binder? b with
  | none => return c
  | some d => c.withSlots b d.infos

/-- The store with the slot of `p` cleared. -/
def without (c : ConstraintStore) (p : Param) : WorldM ConstraintStore :=
  match c.slots? p.binder with
  | none => return c
  | some slots =>
    if ((slots[p.index]?).filter (·.present)).isNone then return c
    else
      let cleared := slots.set p.index .noType
      if cleared.all (!·.present) then ofSlots (c.slots.erase p.binder) else c.withSlots p.binder cleared

/-- `f` on each open slot; cleared ones stay cleared. -/
def mapOpenSlots (f : Ty → WorldM Ty) (slots : List Ty) : WorldM (List Ty) :=
  slots.mapM fun t => if t.present then f t else return t

/-- The store with `p` chosen to be `replacement`: its slot is cleared, and `replacement` stands for it in the
others. -/
def subst (fuel : Nat) (c : ConstraintStore) (p : Param) (replacement : Ty) : WorldM ConstraintStore := do
  let cleared ← c.without p
  let mapped ← cleared.slots.entries.mapM fun (b, slots) =>
    return (b, ← mapOpenSlots (Ty.substParam p replacement fuel) slots)
  if mapped = cleared.slots.entries then return cleared else ofSlots ⟨mapped⟩

end ConstraintStore

end Conformance
