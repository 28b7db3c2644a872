/-!
# The name pool

Strings are kept once each and passed around as numbers. The pool is cut into 64 shards by a function from strings to
shards; the number of a string is made of its place in its shard and the shard itself. The empty string is number zero.
-/

namespace Conformance

/-- Number of a pooled string. -/
structure Atom where
  raw : Nat
deriving DecidableEq

/-- The number of the empty string. -/
def Atom.none : Atom := ⟨0⟩

def Atom.isNone (a : Atom) : Bool := a = .none

namespace NamePool

/-- Number of shards. -/
abbrev shardCount : Nat := 64

/-- Largest place in a shard whose atom still fits a word. -/
def maxPlace : Nat := 67108863

end NamePool

/-- The atom of place `place` in shard `shard`. -/
def Atom.ofPlace (place : Nat) (shard : Fin NamePool.shardCount) : Atom :=
  ⟨place * NamePool.shardCount + shard⟩

/-- The shard an atom points into. -/
def Atom.shard (a : Atom) : Fin NamePool.shardCount := ⟨a.raw % NamePool.shardCount, Nat.mod_lt _ (by decide)⟩

/-- The place an atom points to in its shard. -/
def Atom.place (a : Atom) : Nat := a.raw / NamePool.shardCount

/-- The strings of each shard in the order in which they came. -/
structure NamePool where
  shards : Vector (Array String) NamePool.shardCount

namespace NamePool

/-- The pool that holds the empty string only. -/
def empty : NamePool := ⟨(Vector.replicate shardCount #[]).set 0 #[""]⟩

/-- Spreads strings over the shards by the sum of their code points. -/
def spread (s : String) : Fin shardCount :=
  ⟨s.toList.foldl (fun n c => n + c.toNat) 0 % shardCount, Nat.mod_lt _ (by decide)⟩

section
variable (shardOf : String → Fin shardCount)

/-- The atom of `s`, taken into the pool if it is new; a full shard gives the empty atom instead. -/
def intern (pool : NamePool) (s : String) : Atom × NamePool :=
  if s = "" then (.none, pool)
  else
    let shard := shardOf s
    let strings := pool.shards[shard]
    match strings.idxOf? s with
    | some place => (.ofPlace place shard, pool)
    | none =>
      if maxPlace < strings.size then (.none, pool)
      else (.ofPlace strings.size shard, ⟨pool.shards.set shard (strings.push s)⟩)

/-- Names that every set of declarations uses. -/
def commonNames : List String :=
  ["Any", "AnyVal", "Object", "Null", "Nothing", "Int", "Boolean", "String", "Singleton", "NotNull", "_", "this",
    "apply", "equals", "hashCode", "toString"]

/-- Takes the common names into the pool. -/
def internCommon (pool : NamePool) : NamePool :=
  commonNames.foldl (fun p s => (p.intern shardOf s).2) pool

end

/-- The string of an atom, if the pool has given it out. -/
def resolve? (pool : NamePool) (a : Atom) : Option String := pool.shards[a.shard][a.place]?

/-- The string of an atom; an atom the pool does not know reads as the empty string. -/
def resolve (pool : NamePool) (a : Atom) : String := (pool.resolve? a).getD ""

/-- Number of strings in the pool, the empty one included. -/
def size (pool : NamePool) : Nat := pool.shards.foldl (fun n strings => n + strings.size) 0

/-- Whether the pool holds the empty string only. -/
def isEmpty (pool : NamePool) : Bool := pool.size ≤ 1

end NamePool

end Conformance
