import Conformance.Handle

/-!
# Shapes of types

The closed set of shapes that comparison dispatches on. A shape holds handles of other types only, never the types
themselves, and the parameter lists of universal and method types live with their binder. `Shape.code` lays a shape
out as a list of numbers; different shapes have different codes (`Shape.code_injective`).
-/

namespace Conformance

/-- The types whose handles are fixed in advance. -/
inductive FixedKind where
  | noType
  | noPrefix
  | wildcard
  | error
deriving DecidableEq

/-- The value of a literal type. -/
inductive Literal where
  | int (value : Int64)
  | bool (value : Bool)
  | str (value : String)
deriving DecidableEq

/-- One layer of a type. -/
inductive Shape where
  | fixed (kind : FixedKind)
  /-- A class, alias, abstract type or type parameter by name. -/
  | named (pre : Ty) (sym : Symbol)
  /-- A value by name; the type of that one value. -/
  | path (pre : Ty) (sym : Symbol)
  /-- The type of the current instance of a class. -/
  | self (cls : Symbol)
  | literal (value : Literal)
  /-- Some fixed but unknown value of type `underlying`. -/
  | skolem (id : SkolemId) (underlying : Ty)
  /-- A type to be inferred. -/
  | var (id : VarId)
  /-- A type parameter of a universal type. -/
  | param (p : Param)
  /-- A value parameter of a method type; the type of that one value. -/
  | valueParam (p : Param)
  /-- `parent` with the member `name` narrowed to `info`. -/
  | refined (parent : Ty) (name : String) (info : Ty)
  | inter (a b : Ty)
  | union (a b : Ty)
  | method (binder : BinderId)
  | universal (binder : BinderId)
  /-- A result that is computed at each use. -/
  | byName (result : Ty)
  /-- The range of types from `lo` up to `hi`. -/
  | bounds (lo hi : Ty)
  /-- A class seen from its declaration. -/
  | classInfo (pre : Ty) (cls : Symbol)
deriving DecidableEq

namespace Shape

/-- Whether the shape refers to a symbol by name. -/
def isNamed : Shape → Bool
  | .named .. | .path .. => true
  | _ => false

/-- Whether the shape is the type of a single value. -/
def isSingleton : Shape → Bool
  | .path .. | .self _ | .literal _ | .skolem .. | .valueParam _ => true
  | _ => false

/-- Whether the shape is a type to be inferred. -/
def isVar : Shape → Bool
  | .var _ => true
  | _ => false

end Shape

namespace FixedKind

/-- The place of a fixed type among the fixed handles. -/
def index : FixedKind → Nat
  | .noType => 0
  | .noPrefix => 1
  | .wildcard => 2
  | .error => 3

theorem index_injective {a b : FixedKind} (h : a.index = b.index) : a = b := by
  cases a <;> cases b <;> simp_all [index]

end FixedKind

/-- The code points of a string. -/
def codePoints (s : String) : List Nat := s.toList.map Char.toNat

@[simp] theorem codePoints_inj {s t : String} : codePoints s = codePoints t ↔ s = t := by
  refine ⟨fun h => ?_, congrArg _⟩
  exact String.toList_inj.1 (List.map_inj_right (fun _ _ => Char.toNat_inj.1) |>.1 h)

/-- A literal laid out as numbers. -/
def Literal.code : Literal → List Nat
  | .int v => [0, v.toBitVec.toNat]
  | .bool b => [1, b.toNat]
  | .str s => 2 :: codePoints s

@[simp] theorem Literal.code_inj {a b : Literal} : a.code = b.code ↔ a = b := by
  refine ⟨fun h => ?_, congrArg _⟩
  cases a <;> cases b <;> simp [code] at h
  · exact congrArg _ (Int64.toBitVec_inj.1 (BitVec.eq_of_toNat_eq h))
  · rename_i x y; cases x <;> cases y <;> simp_all
  · exact congrArg _ h

namespace Shape

/-- The shape laid out as numbers: a tag, the handles, and at the end the name if there is one. -/
def code : Shape → List Nat
  | .fixed k => [0, k.index]
  | .named pre s => [1, pre.id, s.id]
  | .path pre s => [2, pre.id, s.id]
  | .self c => [3, c.id]
  | .literal v => 4 :: v.code
  | .skolem k u => [5, k.id, u.id]
  | .var v => [6, v.id]
  | .param p => [7, p.binder.id, p.index]
  | .valueParam p => [8, p.binder.id, p.index]
  | .refined t n i => 9 :: t.id :: i.id :: codePoints n
  | .inter a b => [10, a.id, b.id]
  | .union a b => [11, a.id, b.id]
  | .method b => [12, b.id]
  | .universal b => [13, b.id]
  | .byName t => [14, t.id]
  | .bounds lo hi => [15, lo.id, hi.id]
  | .classInfo pre c => [16, pre.id, c.id]

/-- Different shapes have different codes. -/
theorem code_injective {a b : Shape} (h : a.code = b.code) : a = b := by
  cases a <;> cases b <;> simp [code] at h
  case fixed.fixed => exact congrArg _ (FixedKind.index_injective h)
  case param.param p q => obtain ⟨b, i⟩ := p; obtain ⟨c, j⟩ := q; simp_all
  case valueParam.valueParam p q => obtain ⟨b, i⟩ := p; obtain ⟨c, j⟩ := q; simp_all
  all_goals simp_all

@[simp] theorem code_inj {a b : Shape} : a.code = b.code ↔ a = b := ⟨code_injective, congrArg _⟩

end Shape

end Conformance
