import Conformance.BaseType

/-!
# Declaring symbols

Declarations check what they are given before they store anything: an owner has to be a class or absent, bounds have to
be bounds, and the parents of a class must not lead back to it. What is declared at top level is static. A class starts
out under the root class.
-/

namespace Conformance

open WorldM

/-- Refuses an owner that is neither absent nor a class. -/
def Symbol.expectOwner (owner : Symbol) : BuildM Unit := do
  if owner ≠ .absent ∧ !(← get).decls.isClass owner then throw (.badSymbol owner)

/-- Refuses a symbol that is no class. -/
def Symbol.expectClass (cls : Symbol) : BuildM Unit := do
  if !(← get).decls.isClass cls then throw (.badSymbol cls)

/-- The flags of a symbol: whatever has no owner is static. -/
def DeclFlags.under (flags : DeclFlags) (owner : Symbol) : DeclFlags :=
  { flags with static := flags.static || owner = .absent }

/-- Declares a class under the root class. -/
def declareClass (owner : Symbol) (name : String) (flags : DeclFlags) : WorldM Symbol := do
  let s ← register { kind := .cls, name, owner, flags := flags.under owner }
  modify fun w => { w with decls := w.decls.setParents s [Builtin.object.type] }
  return s

/-- Declares a type parameter of a class. -/
def declareTypeParam (cls : Symbol) (name : String) (variance : Variance) (bounds : Ty) : BuildM Symbol := do
  cls.expectClass
  bounds.expectBounds
  register { kind := .typeParam, name, owner := cls, variance, info := bounds }

/-- Declares an abstract type. -/
def declareAbstractType (owner : Symbol) (name : String) (bounds : Ty) : BuildM Symbol := do
  owner.expectOwner
  bounds.expectBounds
  register { kind := .abstractType, name, owner, flags := DeclFlags.under {} owner, info := bounds }

/-- Declares another name for the type `aliased`. -/
def declareAlias (owner : Symbol) (name : String) (aliased : Ty) : BuildM Symbol := do
  owner.expectOwner
  register { kind := .synonym, name, owner, flags := DeclFlags.under {} owner, info := aliased }

/-- Declares a value of type `t`. -/
def declareValue (owner : Symbol) (name : String) (t : Ty) (flags : DeclFlags) : BuildM Symbol := do
  owner.expectOwner
  register { kind := .value, name, owner, flags := flags.under owner, info := t }

/-- The parents that a list of given ones means: none at all means the root class, save for the top and bottom class. -/
def effectiveParents (cls : Symbol) (parents : List Ty) : List Ty :=
  if parents.isEmpty ∧ cls ≠ Builtin.any.symbol ∧ cls ≠ Builtin.nothing.symbol then [Builtin.object.type]
  else parents

/-- Replaces the parents of a class, unless one of them inherits from the class itself. -/
def setParents (cls : Symbol) (parents : List Ty) : BuildM Unit := do
  cls.expectClass
  let parents := effectiveParents cls parents
  parents.forM fun p => do
    if (← p.baseType cls).present then throw (.cyclicInheritance cls)
  modify fun w => { w with decls := w.decls.setParents cls parents }

end Conformance
