/-!
# Handles

Types, symbols, binders, inference variables and skolems are passed around as numbered handles. A handle means nothing
by itself: a `World` says what it stands for, and reads a handle it never gave out as the absent type or symbol.
-/

namespace Conformance

/-- Handle of a type; two handles are the same type exactly when they are equal. -/
structure Ty where
  id : Nat
deriving DecidableEq

namespace Ty

@[simp] theorem id_inj {a b : Ty} : a.id = b.id ↔ a = b := by
  cases a; cases b; simp

/-- Stands for an absent type; it conforms to nothing and nothing conforms to it. -/
def noType : Ty := ⟨0⟩

/-- Prefix of names that are reachable without one. -/
def noPrefix : Ty := ⟨1⟩

/-- Placeholder that conforms to everything and to which everything conforms. -/
def wildcard : Ty := ⟨2⟩

/-- What an earlier failure left behind; compares like the wildcard. -/
def error : Ty := ⟨3⟩

/-- Number of handles whose meaning is fixed in advance. -/
def fixedCount : Nat := 4

/-- Whether the handle stands for a type at all. -/
def present (t : Ty) : Bool := t ≠ noType

@[simp] theorem present_iff {t : Ty} : t.present = true ↔ t ≠ noType := by simp [present]

@[simp] theorem present_eq_false_iff {t : Ty} : t.present = false ↔ t = noType := by simp [present]

end Ty

/-- Handle of a class, a type parameter, an abstract type, an alias or a value. -/
structure Symbol where
  id : Nat
deriving DecidableEq

@[simp] theorem Symbol.id_inj {a b : Symbol} : a.id = b.id ↔ a = b := by
  cases a; cases b; simp

/-- No symbol; the owner of what is declared at top level. -/
def Symbol.absent : Symbol := ⟨0⟩

/-- Handle of a universal or method binder. -/
structure BinderId where
  id : Nat
deriving DecidableEq

@[simp] theorem BinderId.id_inj {a b : BinderId} : a.id = b.id ↔ a = b := by
  cases a; cases b; simp

/-- The parameter at place `index` of `binder`. -/
structure Param where
  binder : BinderId
  index : Nat
deriving DecidableEq

/-- Handle of an inference variable. -/
structure VarId where
  id : Nat
deriving DecidableEq

@[simp] theorem VarId.id_inj {a b : VarId} : a.id = b.id ↔ a = b := by
  cases a; cases b; simp

/-- Handle of an opaque stand-in for some value. -/
structure SkolemId where
  id : Nat
deriving DecidableEq

@[simp] theorem SkolemId.id_inj {a b : SkolemId} : a.id = b.id ↔ a = b := by
  cases a; cases b; simp

end Conformance
