import Conformance.Info

/-!
# Type parameters and arguments

A type names a type constructor when aliases and refinements lead from it to a class or another symbol. Its open type
parameters are those of the symbol that no refinement on the way has fixed; its arguments are the refinements, and the
declared bounds where there is none.
-/

namespace Conformance

namespace World

/-- Follows aliases and refinements from `t` while the guard lets the types in. -/
def typeSymbolFrom (w : World) : Nat → Guard Ty → Ty → Option Symbol
  | 0, _, _ => none
  | n + 1, g, t =>
    match g.enter t with
    | (.entered, g) =>
      match w.shape t with
      | .named _ s => if w.decls.isSynonym s then typeSymbolFrom w n g (w.decls.info s) else some s
      | .classInfo _ cls => some cls
      | .refined parent _ _ => typeSymbolFrom w n g parent
      | _ => none
    | _ => none

/-- The symbol of the type constructor of `t`, behind aliases and refinements. -/
def typeSymbol? (w : World) (t : Ty) : Option Symbol :=
  w.typeSymbolFrom (Limits.walkDepth.toNat + 1) { bounds := .walk } t

/-- The info of the outermost refinement of `name` in `t`, looking through refinements and aliases. -/
def refinement? (w : World) (name : String) : Nat → Ty → Except Halt (Option Ty)
  | 0, _ => throw .outOfFuel
  | n + 1, t =>
    match w.shape t with
    | .refined parent refinedName info => if refinedName = name then return some info else refinement? w name n parent
    | .named _ s =>
      if w.decls.isSynonym s then
        let next := w.decls.info s
        if next = t then return none else refinement? w name n next
      else return none
    | _ => return none

/-- The type parameters of `t` that no refinement has fixed. -/
def openTypeParams (w : World) (fuel : Nat) (t : Ty) : Except Halt (List Symbol) :=
  match w.typeSymbol? t with
  | none => return []
  | some s => (w.decls.typeParams s).filterM fun p => return (← w.refinement? (w.decls.name p) fuel t).isNone

/-- The argument of `t` for each type parameter of its symbol. -/
def typeArgs (w : World) (fuel : Nat) (t : Ty) : Except Halt (List Ty) :=
  match w.typeSymbol? t with
  | none => return []
  | some s =>
    (w.decls.typeParams s).mapM fun p => return (← w.refinement? (w.decls.name p) fuel t).getD (w.decls.info p)

end World

end Conformance
