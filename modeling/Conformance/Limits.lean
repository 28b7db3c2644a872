/-!
# Limits

The numbers that bound the walks over declarations and decide when a comparison is watched for coming round again.
-/

namespace Conformance.Limits

/-- Nesting depth from which comparisons remember the pairs they are in the middle of. -/
def monitoredDepth : UInt32 := 50

/-- Levels a walk over declarations may nest. -/
def walkDepth : UInt32 := 64

/-- Entries a walk over declarations may attempt altogether. -/
def walkEntries : UInt32 := 100000

/-- Keys a walk over declarations may have open at one time. -/
def walkOpen : UInt32 := 10000

/-- Largest number of parameters for which a type-constructor trait is built in. -/
def traitArity : Nat := 2

/-- The largest word, which stands for the absence of a limit. -/
def unlimited : UInt32 := 4294967295

/-- The next count; counts stay at the largest word once they reach it. -/
def tally (n : Nat) : Nat := min (n + 1) unlimited.toNat

theorem tally_of_lt {n : Nat} (h : n < unlimited.toNat) : tally n = n + 1 := by
  unfold tally; omega

theorem tally_le (n : Nat) : tally n ≤ unlimited.toNat := by
  unfold tally; omega

end Conformance.Limits
