import Conformance.Limits
import Conformance.Fault

/-!
# Guards

A guard remembers the keys a walk is in the middle of, and refuses to enter one that is open, or any at all once a
limit is reached. `Guard.enter` checks the limits in the order: entries attempted, depth, the key itself, open keys.
A key that was entered and is left again restores the guard up to the number of entries attempted (`leave_enter`).
-/

namespace Conformance

/-- Bounds on how deep, how often and on how many keys at a time a walk may enter. -/
structure Guard.Bounds where
  depth : UInt32
  entries : UInt32
  openKeys : UInt32
deriving DecidableEq

/-- Bounds of walks through the infos of symbols. -/
def Guard.Bounds.walk : Guard.Bounds := ⟨Limits.walkDepth, Limits.walkEntries, Limits.walkOpen⟩

/-- Bounds that refuse a key only because it is open. -/
def Guard.Bounds.none : Guard.Bounds := ⟨Limits.unlimited, Limits.unlimited, Limits.unlimited⟩

/-- Keys that are open, with the counts that the bounds are compared with. -/
structure Guard (κ : Type) where
  bounds : Guard.Bounds
  /-- The open keys, the one entered last in front. -/
  openKeys : List κ := []
  depth : Nat := 0
  /-- Entries attempted since the last reset, refused ones included. -/
  entries : Nat := 0
  /-- Whether a limit has refused an entry since the last reset. -/
  exceeded : Bool := false

/-- Outcome of an attempt to enter a key. -/
inductive Guard.Entry where
  | entered
  /-- The key is open already. -/
  | cycle
  | depthExceeded
  | entriesExceeded
deriving DecidableEq

namespace Guard.Entry

def isEntered (e : Entry) : Bool := e = .entered

def isCycle (e : Entry) : Bool := e = .cycle

def isExceeded (e : Entry) : Bool := e = .depthExceeded || e = .entriesExceeded

end Guard.Entry

namespace Guard

variable {κ : Type} [DecidableEq κ]

/-- Whether `k` is open. -/
def isOpen (g : Guard κ) (k : κ) : Bool := g.openKeys.contains k

/-- Number of open keys. -/
def count (g : Guard κ) : Nat := g.openKeys.length

/-- What an attempt to enter `k` answers once it has been counted. -/
def verdict (g : Guard κ) (k : κ) : Entry :=
  if g.bounds.entries.toNat < g.entries then .entriesExceeded
  else if g.bounds.depth.toNat ≤ g.depth then .depthExceeded
  else if g.isOpen k then .cycle
  else if g.bounds.openKeys.toNat ≤ g.count then .depthExceeded
  else .entered

/-- Counts the attempt, then opens `k` unless a limit or `k` itself is in the way. -/
def enter (g : Guard κ) (k : κ) : Entry × Guard κ :=
  let counted := { g with entries := Limits.tally g.entries }
  match counted.verdict k with
  | .entered => (.entered, { counted with openKeys := k :: counted.openKeys, depth := counted.depth + 1 })
  | .cycle => (.cycle, counted)
  | e => (e, { counted with exceeded := true })

/-- Closes `k`; a key that is not open is a fault. -/
def leave (g : Guard κ) (k : κ) : Except Fault (Guard κ) :=
  if g.isOpen k then .ok { g with openKeys := g.openKeys.erase k, depth := g.depth - 1 }
  else .error .leaveAbsentKey

/-- Closes every key and forgets all counts. -/
def reset (g : Guard κ) : Guard κ := { bounds := g.bounds }

/-- Gives the guard up; open keys are a fault. -/
def close (g : Guard κ) : Except Fault Unit :=
  if g.openKeys.isEmpty then .ok () else .error (.guardClosedWhileOpen g.count)

/-- Leaving the key entered last undoes the entry, the attempt counted. -/
theorem leave_enter {g g' : Guard κ} {k : κ} (h : g.enter k = (.entered, g')) :
    g'.leave k = .ok { g with entries := Limits.tally g.entries } := by
  simp only [enter] at h
  split at h
  · obtain ⟨-, rfl⟩ := Prod.mk.injEq .. ▸ h
    simp [leave, isOpen]
  · simp at h
  · next hne _ => exact absurd (Prod.mk.injEq .. ▸ h).1 (by intro e; exact hne e)

end Guard

end Conformance
