import Conformance.Handle

/-!
# Binders

Universal and method types own a parameter list. It is kept with a binder, and which binder a parameter belongs to is
a matter of identity: two universal types with equal parameter lists have different parameters.
-/

namespace Conformance

/-- Marks on a method type. -/
structure MethodFlags where
  /-- Arguments are supplied by the language. -/
  implicitArgs : Bool := false
  /-- Declared in another language; there the root class and the top type are the same. -/
  foreign : Bool := false
deriving DecidableEq

/-- Whether a binder binds types or values. -/
inductive BinderKind where
  | universal
  | method (flags : MethodFlags)
deriving DecidableEq

/-- The parameters and the body of a universal or method type. -/
structure Binder where
  kind : BinderKind
  names : List String
  /-- The bounds of each type parameter, or the type of each value parameter. -/
  infos : List Ty := []
  result : Ty := .noType
deriving DecidableEq

namespace Binder

/-- Number of parameters. -/
def arity (b : Binder) : Nat := b.names.length

/-- The marks of a method binder; a universal binder has none. -/
def flags (b : Binder) : MethodFlags :=
  match b.kind with
  | .method flags => flags
  | .universal => {}

end Binder

end Conformance
