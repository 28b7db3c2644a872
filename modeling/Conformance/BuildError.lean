import Conformance.Handle

/-!
# Refusals

The refusals that building a type or declaring a symbol may meet, and their texts.
-/

namespace Conformance

/-- Why a type was not built or a symbol not declared. -/
inductive BuildError where
  /-- A binder was given a different number of infos than names. -/
  | binderArity (expected found : Nat)
  /-- A type parameter was given something other than bounds. -/
  | notBounds (t : Ty)
  /-- A parameter past the end of its binder. -/
  | paramOutOfRange (p : Param) (arity : Nat)
  | notUniversal (t : Ty)
  /-- An inference variable was to be settled a second time. -/
  | alreadyInstantiated (v : VarId)
  | notTypeVar (t : Ty)
  | notParam (t : Ty)
  /-- A class would inherit from itself. -/
  | cyclicInheritance (s : Symbol)
  /-- A symbol that is unknown or of the wrong kind. -/
  | badSymbol (s : Symbol)
deriving DecidableEq

/-- The text that reports a refusal. -/
def BuildError.message : BuildError → String
  | .binderArity expected found =>
    "binder expects " ++ toString expected ++ " parameter infos, got " ++ toString found
  | .notBounds t => "type #" ++ toString t.id ++ " is not a bounds pair"
  | .paramOutOfRange p arity =>
    "parameter " ++ toString p.index ++ " out of range for binder #" ++ toString p.binder.id ++ " with " ++
      toString arity ++ " parameters"
  | .notUniversal t => "type #" ++ toString t.id ++ " is not a universal type"
  | .alreadyInstantiated v => "type variable ?" ++ toString v.id ++ " is already instantiated"
  | .notTypeVar t => "type #" ++ toString t.id ++ " is not a type variable"
  | .notParam t => "type #" ++ toString t.id ++ " is not a universal parameter"
  | .cyclicInheritance s => "symbol #" ++ toString s.id ++ " would inherit from itself"
  | .badSymbol s => "symbol #" ++ toString s.id ++ " is unknown or of the wrong kind"

end Conformance
