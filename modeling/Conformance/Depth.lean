import Conformance.Limits
import Conformance.Fault

/-!
# Nesting depth

Comparisons count how deep they nest. Going deeper is never refused; from `threshold` on the counter answers that the
comparison has to be monitored, and each time the threshold is reached from below it counts one crossing.
-/

namespace Conformance

/-- How a comparison at the current depth has to run. -/
inductive DepthMode where
  | direct
  | monitored
deriving DecidableEq

/-- Current depth, the depth from which comparisons are monitored, and how often that depth was reached from below. -/
structure DepthCounter where
  threshold : UInt32
  depth : Nat := 0
  crossings : Nat := 0
deriving DecidableEq

namespace DepthCounter

/-- The depth at which a comparison turns from direct to monitored. -/
def border (c : DepthCounter) : Nat := max c.threshold.toNat 1

/-- Whether the counter stands exactly where comparisons turn monitored. -/
def justCrossed (c : DepthCounter) : Bool := c.depth = c.border

/-- Goes one level deeper. -/
def enter (c : DepthCounter) : DepthMode × DepthCounter :=
  let deeper := { c with depth := Limits.tally c.depth }
  if deeper.depth < c.threshold.toNat then (.direct, deeper)
  else if deeper.justCrossed then (.monitored, { deeper with crossings := Limits.tally c.crossings })
  else (.monitored, deeper)

/-- Comes back up one level; at depth zero that is a fault. -/
def leave (c : DepthCounter) : Except Fault DepthCounter :=
  if c.depth = 0 then .error .leaveAtDepthZero else .ok { c with depth := c.depth - 1 }

/-- Gives the counter up; above depth zero that is a fault. -/
def close (c : DepthCounter) : Except Fault Unit :=
  if c.depth = 0 then .ok () else .error (.depthClosedWhileDeep c.depth)

theorem depth_enter (c : DepthCounter) : c.enter.2.depth = Limits.tally c.depth := by
  simp only [enter]
  split
  · rfl
  · split <;> rfl

end DepthCounter

end Conformance
