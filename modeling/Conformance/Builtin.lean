import Conformance.Limits
import Conformance.World

/-!
# Built-in declarations

```text
Any
├── AnyVal ── Int, Boolean
├── Object ── String, Null
├── Singleton
└── NotNull
Nothing
Lambda$I, Lambda$P, Lambda$N, Lambda$II, ... Lambda$NN
```

Every world starts from `World.initial`, which declares these classes; their symbols and types are therefore the same in
all worlds and are given here once. A trait `Lambda$<v..>` has one type parameter `$hk<i>` per letter, invariant,
covariant (`P`) or contravariant (`N`); a type constructor conforms to it by the rule for type constructors.
-/

namespace Conformance

/-- The built-in classes in the order of declaration. -/
inductive Builtin where
  | any
  | nothing
  | anyVal
  | object
  | null
  | int
  | boolean
  | string
  /-- Marker that every stable path conforms to. -/
  | singleton
  /-- Marker that every type without `null` conforms to. -/
  | notNull
deriving DecidableEq

namespace Builtin

def all : List Builtin := [any, nothing, anyVal, object, null, int, boolean, string, singleton, notNull]

def index : Builtin → Nat
  | any => 0
  | nothing => 1
  | anyVal => 2
  | object => 3
  | null => 4
  | int => 5
  | boolean => 6
  | string => 7
  | singleton => 8
  | notNull => 9

def name : Builtin → String
  | any => "Any"
  | nothing => "Nothing"
  | anyVal => "AnyVal"
  | object => "Object"
  | null => "Null"
  | int => "Int"
  | boolean => "Boolean"
  | string => "String"
  | singleton => "Singleton"
  | notNull => "NotNull"

/-- The one class that a built-in class inherits from; the top and the bottom class have none. -/
def parent? : Builtin → Option Builtin
  | any | nothing => none
  | null | string => some object
  | int | boolean => some anyVal
  | anyVal | object | singleton | notNull => some any

/-- The symbol of a built-in class. -/
def symbol (b : Builtin) : Symbol := ⟨b.index + 1⟩

/-- The reference to a built-in class. -/
def type (b : Builtin) : Ty := ⟨Ty.fixedCount + b.index⟩

/-- A refinement under this name narrows nothing. -/
def anyName : String := "_"

/-! ## Traits of type constructors -/

/-- The letter of a variance in the name of a trait. -/
def letter : Variance → String
  | .invariant => "I"
  | .covariant => "P"
  | .contravariant => "N"

/-- All lists of `n` variances, the last place running fastest. -/
def variances : Nat → List (List Variance)
  | 0 => [[]]
  | n + 1 => (variances n).flatMap fun vs => [.invariant, .covariant, .contravariant].map fun v => vs ++ [v]

/-- Numbers traits from `n` on; a trait is followed by its parameters. -/
def numbered : Nat → List (List Variance) → List (List Variance × Symbol)
  | _, [] => []
  | n, vs :: rest => (vs, ⟨n⟩) :: numbered (n + 1 + vs.length) rest

/-- The traits, each with the variances of its parameters. -/
def traits : List (List Variance × Symbol) :=
  numbered (all.length + 1) ((List.range Limits.traitArity).flatMap fun n => variances (n + 1))

def isTrait (s : Symbol) : Bool := traits.any fun t => t.2 = s

/-- The trait whose parameters have exactly these variances. -/
def trait? (vs : List Variance) : Option Symbol := (traits.find? fun t => t.1 = vs).map (·.2)

def traitName (vs : List Variance) : String := "Lambda$" ++ String.join (vs.map letter)

/-! ## The start -/

/-- The declaration of a built-in class. -/
def declaration (b : Builtin) : Declaration where
  kind := .cls
  name := b.name
  owner := .absent
  flags := { static := true }
  parents := b.parent?.toList.map type

/-- Declares a built-in class and takes in the reference to it. -/
def declare (b : Builtin) (w : World) : World :=
  let (s, decls) := w.decls.register b.declaration
  { w with decls, types := (w.types.intern (.named .noPrefix s)).2 }

/-- Declares a trait and its parameters, all with the given bounds. -/
def declareTrait (bounds : Ty) (vs : List Variance) (ds : Declarations) : Declarations :=
  let (s, ds) := ds.register
    { kind := .cls, name := traitName vs, owner := .absent, flags := { static := true, synthetic := true },
      parents := [any.type] }
  vs.zipIdx.foldl (fun ds (v, i) => (ds.register
    { kind := .typeParam, name := "$hk" ++ toString i, owner := s, variance := v, info := bounds }).2) ds

end Builtin

/-- The table of the fixed types. -/
def TypeTable.fixed : TypeTable :=
  [FixedKind.noType, .noPrefix, .wildcard, .error].foldl (fun tbl k => (tbl.intern (.fixed k)).2) .empty

/-- The world in which only the built-in classes and traits are declared. -/
def World.initial : World :=
  let w := Builtin.all.foldl (fun w b => b.declare w) { types := .fixed }
  let (free, types) := w.types.intern (.bounds Builtin.nothing.type Builtin.any.type)
  { w with types, decls := Builtin.traits.foldl (fun ds t => Builtin.declareTrait free t.1 ds) w.decls }

end Conformance
