import Conformance.Handle
import Conformance.InsertionMap

/-!
# Declarations

What is declared under each symbol: classes with their parents, type parameters and members, abstract types and type
parameters with their bounds, aliases with the aliased type, values with their type. The table only stores; the checks
that a declaration has to pass are made by `declareTypeParam` and its kin. Symbols are numbered from one in the order
of declaration, so that `Symbol.absent` never names anything, and a new symbol is entered into its owner's members.
-/

namespace Conformance

/-- What a symbol names. -/
inductive DeclKind where
  | cls
  | typeParam
  | abstractType
  | synonym
  | value
deriving DecidableEq

/-- Whether a symbol of this kind names a type. -/
def DeclKind.isType (k : DeclKind) : Bool := k ≠ .value

/-- How the type that a type parameter stands for moves when its argument grows. -/
inductive Variance where
  | invariant
  | covariant
  | contravariant
deriving DecidableEq

/-- Marks on a symbol. -/
structure DeclFlags where
  /-- Reachable without a prefix: references are compared by symbol alone. -/
  static : Bool := false
  /-- A value that can be assigned; its name is no stable path. -/
  assignable : Bool := false
  /-- Made up at the start rather than declared. -/
  synthetic : Bool := false
deriving DecidableEq

/-- The two spaces of member names. -/
inductive MemberSpace where
  | type
  | term
deriving DecidableEq

/-- What is stored for one symbol. -/
structure Declaration where
  kind : DeclKind
  name : String
  /-- The enclosing class, or no symbol at top level. -/
  owner : Symbol
  flags : DeclFlags := {}
  variance : Variance := .invariant
  /-- Bounds of an abstract type or type parameter, the aliased type, or the type of a value. -/
  info : Ty := .noType
  parents : List Ty := []
  /-- Type parameters in the order of declaration. -/
  typeParams : List Symbol := []
  typeMembers : InsertionMap String Symbol := {}
  termMembers : InsertionMap String Symbol := {}

namespace Declaration

/-- Members of one space. -/
def members (d : Declaration) : MemberSpace → InsertionMap String Symbol
  | .type => d.typeMembers
  | .term => d.termMembers

/-- Enters a new symbol of the given kind into the members of its owner `d`. -/
def enroll (d : Declaration) (kind : DeclKind) (name : String) (s : Symbol) : Declaration :=
  match kind with
  | .typeParam => { d with typeParams := d.typeParams ++ [s], typeMembers := d.typeMembers.insert name s }
  | .value => { d with termMembers := d.termMembers.insert name s }
  | _ => { d with typeMembers := d.typeMembers.insert name s }

end Declaration

/-- The declarations of all symbols; symbol number `n + 1` is at place `n`. -/
structure Declarations where
  entries : Array Declaration := #[]

namespace Declarations

/-- What is stored for `s`. -/
def get? (ds : Declarations) (s : Symbol) : Option Declaration :=
  match s.id with
  | 0 => none
  | n + 1 => ds.entries[n]?

def contains (ds : Declarations) (s : Symbol) : Bool := (ds.get? s).isSome

/-- Number of symbols. -/
def size (ds : Declarations) : Nat := ds.entries.size

def isEmpty (ds : Declarations) : Bool := ds.entries.isEmpty

/-- Changes what is stored for `s`; nothing happens if `s` is unknown. -/
def update (ds : Declarations) (s : Symbol) (f : Declaration → Declaration) : Declarations :=
  match s.id with
  | 0 => ds
  | n + 1 => ⟨ds.entries.modify n f⟩

/-- Stores `d` under the next symbol and enters that symbol into the members of its owner. -/
def register (ds : Declarations) (d : Declaration) : Symbol × Declarations :=
  let s : Symbol := ⟨ds.entries.size + 1⟩
  (s, Declarations.update ⟨ds.entries.push d⟩ d.owner (·.enroll d.kind d.name s))

/-- Replaces the parents of `s`. -/
def setParents (ds : Declarations) (s : Symbol) (parents : List Ty) : Declarations :=
  ds.update s fun d => { d with parents }

/-! ## What an unknown symbol reads as -/

def kind? (ds : Declarations) (s : Symbol) : Option DeclKind := (ds.get? s).map (·.kind)

def name (ds : Declarations) (s : Symbol) : String := ((ds.get? s).map (·.name)).getD ""

def owner (ds : Declarations) (s : Symbol) : Symbol := ((ds.get? s).map (·.owner)).getD .absent

def flags (ds : Declarations) (s : Symbol) : DeclFlags := ((ds.get? s).map (·.flags)).getD {}

def variance (ds : Declarations) (s : Symbol) : Variance := ((ds.get? s).map (·.variance)).getD .invariant

def info (ds : Declarations) (s : Symbol) : Ty := ((ds.get? s).map (·.info)).getD .noType

def parents (ds : Declarations) (s : Symbol) : List Ty := ((ds.get? s).map (·.parents)).getD []

/-- Type parameters of a class in the order of declaration. -/
def typeParams (ds : Declarations) (s : Symbol) : List Symbol := ((ds.get? s).map (·.typeParams)).getD []

/-- The symbol that `cls` itself declares under `name`; members of its parents are not seen. -/
def member? (ds : Declarations) (cls : Symbol) (name : String) (space : MemberSpace) : Option Symbol :=
  (ds.get? cls).bind fun d => (d.members space).find? name

def isClass (ds : Declarations) (s : Symbol) : Bool := ds.kind? s = some .cls

def isSynonym (ds : Declarations) (s : Symbol) : Bool := ds.kind? s = some .synonym

def isStatic (ds : Declarations) (s : Symbol) : Bool := (ds.flags s).static

/-! ## What the updates store -/

/-- An update changes what is stored for its symbol only. -/
theorem get?_update (ds : Declarations) (s t : Symbol) (f : Declaration → Declaration) :
    (ds.update s f).get? t = if t = s then (ds.get? t).map f else ds.get? t := by
  obtain ⟨m⟩ := s
  obtain ⟨n⟩ := t
  cases m <;> cases n <;> simp only [update, get?, Symbol.mk.injEq, Nat.add_right_cancel_iff] <;> try simp
  · rename_i m n
    by_cases h : n = m
    · subst h; simp [Array.getElem?_modify]
    · simp [Array.getElem?_modify, h, Ne.symm h]

/-- Registering gives out the first number that is not in use. -/
theorem register_fst (ds : Declarations) (d : Declaration) : (ds.register d).1 = ⟨ds.size + 1⟩ := rfl

end Declarations

end Conformance
