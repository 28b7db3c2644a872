import Conformance.Construct
import Conformance.Guard

/-!
# What names and single values stand for

A reference to a symbol has an info: the class seen from its declaration, the bounds of an abstract type, the aliased
type as bounds, or the type of a value. A single value has an underlying type. `World.dealias` follows aliases; it stops
where they come round in a circle or the chain is deeper than walks may go.
-/

namespace Conformance

namespace World

/-- The type that a reference to an alias stands for. -/
def aliased? (w : World) (t : Ty) : Option Ty :=
  match w.shape t with
  | .named _ s => if w.decls.isSynonym s then some (w.decls.info s) else none
  | _ => none

/-- Follows aliases from `t` while the guard lets the references in. -/
def dealiasFrom (w : World) : Nat → Guard Ty → Ty → Ty
  | 0, _, t => t
  | n + 1, g, t =>
    match w.aliased? t with
    | none => t
    | some next =>
      match g.enter t with
      | (.entered, g) => dealiasFrom w n g next
      | _ => t

/-- The type behind a chain of aliases; any other type is its own. -/
def dealias (w : World) (t : Ty) : Ty := w.dealiasFrom (Limits.walkDepth.toNat + 1) { bounds := .walk } t

end World

namespace Ty

/-- The declared info of a named type; other shapes have none. -/
def infoOf (t : Ty) : WorldM Ty := do
  let w ← get
  match w.shape t with
  | .named pre s =>
    match w.decls.kind? s with
    | some .cls => classInfo pre s
    | some .synonym => aliasBounds (w.decls.info s)
    | some .abstractType | some .typeParam => pure (w.decls.info s)
    | _ => pure noType
  | .path _ s => pure (w.decls.info s)
  | _ => pure noType

/-- The upper end of the info of a named type, or the info itself when it is no bounds type. -/
def upperBound (t : Ty) : WorldM Ty := do
  let info ← infoOf t
  return (((← get).boundsParts? info).map (·.2)).getD info

/-- What a single value or an inference variable stands for; other shapes stand for themselves and give no type. -/
def underlying (t : Ty) : WorldM Ty := do
  let w ← get
  match w.shape t with
  | .path _ s => pure (w.decls.info s)
  | .self cls => cls.ref
  | .literal (.int _) => pure Builtin.int.type
  | .literal (.bool _) => pure Builtin.boolean.type
  | .literal (.str _) => pure Builtin.string.type
  | .skolem _ u => pure u
  | .valueParam p => pure (w.paramInfo p)
  | .var v => pure (w.varUnderlying v)
  | _ => pure noType

end Ty

end Conformance
