import Mathlib
import Conformance.Guard

/-!
# What a guard accounts for

A guard is used by entering, leaving and resetting in any order; leaving a key that is not open is a fault, after which
the guard is as it was. What such a history leaves in the counts of the guard is an invariant of its steps
(`Accounts.step`, `accounts_after`): the open keys are those entered and not left since the last reset, the depth is
their number, entries are counted since the last reset up to the largest word, and the guard is exceeded just when a
limit has refused an entry since. So the answer to the next entry is known from the history (`history_decides`).
-/

namespace Conformance.Guard

variable {κ : Type} [DecidableEq κ] {g : Guard κ} {k : κ} {b : Bounds}

/-! ## One entry -/

/-- The guard with one more attempt counted. -/
def counted (g : Guard κ) : Guard κ := { g with entries := Limits.tally g.entries }

omit [DecidableEq κ] in
theorem counted_bounds (g : Guard κ) : g.counted.bounds = g.bounds := rfl

theorem enter_fst (g : Guard κ) (k : κ) : (g.enter k).1 = g.counted.verdict k := by
  simp only [enter, counted]
  split
  · next h => exact h.symm
  · next h => exact h.symm
  · rfl

/-- An attempt opens the key, or is counted only, or is remembered as exceeding a limit. -/
theorem enter_snd_cases (g : Guard κ) (k : κ) :
    ((g.enter k).1 = .entered ∧ (g.enter k).2 = { g.counted with openKeys := k :: g.openKeys, depth := g.depth + 1 }) ∨
    ((g.enter k).1 = .cycle ∧ (g.enter k).2 = g.counted) ∨
    ((g.enter k).1.isExceeded = true ∧ (g.enter k).2 = { g.counted with exceeded := true }) := by
  simp only [enter, counted]
  split
  · exact .inl ⟨rfl, rfl⟩
  · exact .inr (.inl ⟨rfl, rfl⟩)
  · next hentered hcycle =>
    refine .inr (.inr ⟨?_, rfl⟩)
    cases hv : ({ g with entries := Limits.tally g.entries } : Guard κ).verdict k with
    | entered => exact absurd hv hentered
    | cycle => exact absurd hv hcycle
    | depthExceeded => rfl
    | entriesExceeded => rfl

theorem verdict_eq_entered : g.verdict k = .entered ↔ g.entries ≤ g.bounds.entries.toNat ∧
    g.depth < g.bounds.depth.toNat ∧ g.isOpen k = false ∧ g.count < g.bounds.openKeys.toNat := by
  unfold verdict
  split
  · simp; omega
  split
  · simp; omega
  split
  · simp_all
  split
  · simp; omega
  · simp_all

theorem verdict_eq_cycle : g.verdict k = .cycle ↔
    g.entries ≤ g.bounds.entries.toNat ∧ g.depth < g.bounds.depth.toNat ∧ g.isOpen k = true := by
  unfold verdict
  split
  · simp; omega
  split
  · simp; omega
  split
  · simp_all
  split <;> simp_all

theorem leave_absent (hopen : g.isOpen k = false) : g.leave k = .error .leaveAbsentKey := by
  rw [leave, hopen]
  rfl

theorem leave_open (hopen : g.isOpen k = true) :
    g.leave k = .ok { g with openKeys := g.openKeys.erase k, depth := g.depth - 1 } := by
  rw [leave, if_pos hopen]

theorem isOpen_iff : g.isOpen k = true ↔ k ∈ g.openKeys := by simp [isOpen]

/-! ## Histories -/

/-- What may be done with a guard. -/
inductive Op (κ : Type) where
  | enter (k : κ)
  | leave (k : κ)
  | reset

namespace Op

def isReset : Op κ → Bool
  | .reset => true
  | _ => false

def isEnter : Op κ → Bool
  | .enter _ => true
  | _ => false

/-- The guard after one operation; a fault leaves it as it was. -/
def run (g : Guard κ) : Op κ → Guard κ
  | .enter k => (g.enter k).2
  | .leave k =>
    match g.leave k with
    | .ok g' => g'
    | .error _ => g
  | .reset => g.reset

end Op

/-- The guard with these bounds after a history. -/
def after (b : Bounds) (ops : List (Op κ)) : Guard κ := ops.foldl Op.run { bounds := b }

/-- Number of entries attempted since the last reset. -/
def attempts (ops : List (Op κ)) : Nat := (ops.rtakeWhile (fun op => !op.isReset)).countP Op.isEnter

/-- Some operation was such that `P` of it and the history before it, and no operation after it was in `ends`. -/
def Since (P : List (Op κ) → Op κ → Prop) (ends : Op κ → Prop) (ops : List (Op κ)) : Prop :=
  ∃ before op later, ops = before ++ op :: later ∧ P before op ∧ ∀ o ∈ later, ¬ends o

/-- A limit has refused an entry since the last reset. -/
def Limited (b : Bounds) : List (Op κ) → Prop :=
  Since (fun before op => ∃ k, op = .enter k ∧ ((after b before).enter k).1.isExceeded = true) (· = .reset)

/-- The key was entered, and neither left nor reset since. -/
def InFlight (b : Bounds) (k : κ) : List (Op κ) → Prop :=
  Since (fun before op => op = .enter k ∧ ((after b before).enter k).1 = .entered)
    (fun op => op = .leave k ∨ op = .reset)

/-- So many entries may be attempted: the largest word stands for the absence of a limit. -/
def Bounds.Admits (b : Bounds) (n : Nat) : Prop := n ≤ b.entries.toNat ∨ b.entries = Limits.unlimited

variable {ops : List (Op κ)} {op : Op κ}

omit [DecidableEq κ] in
theorem attempts_concat : attempts (ops ++ [op]) =
    if op.isReset then 0 else if op.isEnter then attempts ops + 1 else attempts ops := by
  rw [attempts, List.rtakeWhile_concat]
  cases op <;> simp [Op.isReset, Op.isEnter, attempts]

theorem after_concat (b : Bounds) (ops : List (Op κ)) (op : Op κ) : after b (ops ++ [op]) = op.run (after b ops) :=
  List.foldl_concat _ _ _ _

omit [DecidableEq κ] in
theorem since_concat {P : List (Op κ) → Op κ → Prop} {ends : Op κ → Prop} :
    Since P ends (ops ++ [op]) ↔ P ops op ∨ (Since P ends ops ∧ ¬ends op) := by
  constructor
  · rintro ⟨before, o, later, heq, hP, hlater⟩
    rcases List.eq_nil_or_concat later with rfl | ⟨later, last, rfl⟩
    · obtain ⟨rfl, hop⟩ := List.append_inj' heq rfl
      obtain rfl : op = o := List.singleton_inj.mp hop
      exact .inl hP
    · rw [List.concat_eq_append] at heq hlater
      rw [← List.cons_append, ← List.append_assoc] at heq
      obtain ⟨rfl, hop⟩ := List.append_inj' heq rfl
      obtain rfl : op = last := List.singleton_inj.mp hop
      exact .inr ⟨⟨before, o, later, rfl, hP, fun o ho => hlater o (List.mem_append_left _ ho)⟩,
        hlater op List.mem_concat_self⟩
  · rintro (hP | ⟨⟨before, o, later, rfl, hP, hlater⟩, hop⟩)
    · exact ⟨ops, op, [], rfl, hP, fun _ h => absurd h List.not_mem_nil⟩
    · refine ⟨before, o, later ++ [op], by rw [List.append_assoc, List.cons_append], hP, ?_⟩
      rw [List.forall_mem_append, List.forall_mem_singleton]
      exact ⟨hlater, hop⟩

omit [DecidableEq κ] in
theorem not_since_nil {P : List (Op κ) → Op κ → Prop} {ends : Op κ → Prop} : ¬Since P ends [] := by
  rintro ⟨before, op, later, heq, -⟩
  exact absurd heq (by simp)

/-! ## The accounts of a history -/

/-- The counts of a guard say what its history was, and respect its bounds. -/
structure Accounts (b : Bounds) (ops : List (Op κ)) (g : Guard κ) : Prop where
  bounds : g.bounds = b
  nodup : g.openKeys.Nodup
  mem_iff : ∀ k, k ∈ g.openKeys ↔ InFlight b k ops
  depth_eq : g.depth = g.count
  depth_le : g.depth ≤ b.depth.toNat
  count_le : g.count ≤ b.openKeys.toNat
  entries_eq : g.entries = min (attempts ops) Limits.unlimited.toNat
  exceeded_iff : g.exceeded = true ↔ Limited b ops

theorem accounts_nil (b : Bounds) : Accounts b [] (after b ([] : List (Op κ))) where
  bounds := rfl
  nodup := List.nodup_nil
  mem_iff _ := iff_of_false List.not_mem_nil not_since_nil
  depth_eq := rfl
  depth_le := Nat.zero_le _
  count_le := Nat.zero_le _
  entries_eq := rfl
  exceeded_iff := iff_of_false Bool.false_ne_true not_since_nil

theorem tally_min (n : Nat) : Limits.tally (min n Limits.unlimited.toNat) = min (n + 1) Limits.unlimited.toNat := by
  unfold Limits.tally
  omega

namespace Accounts

variable (h : Accounts b ops (after b ops))
include h

theorem counted_entries : (after b ops).counted.entries = min (attempts ops + 1) Limits.unlimited.toNat := by
  rw [counted, h.entries_eq, tally_min]

/-- An attempt is admitted unless there is a limit and it is beyond it. -/
theorem counted_le : (after b ops).counted.entries ≤ b.entries.toNat ↔ b.Admits (attempts ops + 1) := by
  have hword : b.entries = Limits.unlimited ↔ b.entries.toNat = Limits.unlimited.toNat := UInt32.toNat_inj.symm
  have hlt := b.entries.toNat_lt
  have hunlimited : Limits.unlimited.toNat = 4294967295 := rfl
  rw [h.counted_entries, Bounds.Admits, hword]
  omega

theorem entered_iff (k : κ) : ((after b ops).enter k).1 = .entered ↔ b.Admits (attempts ops + 1) ∧
    (after b ops).depth < b.depth.toNat ∧ (after b ops).isOpen k = false ∧ (after b ops).count < b.openKeys.toNat := by
  rw [enter_fst, verdict_eq_entered, counted_bounds, h.bounds, h.counted_le]
  rfl

theorem cycle_iff (k : κ) : ((after b ops).enter k).1 = .cycle ↔
    b.Admits (attempts ops + 1) ∧ (after b ops).depth < b.depth.toNat ∧ (after b ops).isOpen k = true := by
  rw [enter_fst, verdict_eq_cycle, counted_bounds, h.bounds, h.counted_le]
  rfl

theorem enter (k : κ) : Accounts b (ops ++ [.enter k]) (after b (ops ++ [.enter k])) := by
  have hentries : (after b ops).counted.entries = min (attempts (ops ++ [.enter k])) Limits.unlimited.toNat := by
    rw [attempts_concat, h.counted_entries]
    rfl
  have hlimited : Limited b (ops ++ [.enter k]) ↔
      ((after b ops).enter k).1.isExceeded = true ∨ (after b ops).exceeded = true := by
    rw [h.exceeded_iff, Limited, since_concat]
    simp
  have hflight : ∀ j, InFlight b j (ops ++ [.enter k]) ↔
      (k = j ∧ ((after b ops).enter k).1 = .entered) ∨ j ∈ (after b ops).openKeys := by
    intro j
    rw [h.mem_iff, InFlight, since_concat]
    by_cases hj : k = j
    · subst hj
      simp
    · simp [hj]
  rw [after_concat]
  change Accounts b _ ((after b ops).enter k).2
  rcases enter_snd_cases (after b ops) k with ⟨hanswer, hguard⟩ | ⟨hanswer, hguard⟩ | ⟨hanswer, hguard⟩
  all_goals rw [hguard]
  · obtain ⟨-, hdepth, hopen, hcount⟩ := (h.entered_iff k).mp hanswer
    have hnew : k ∉ (after b ops).openKeys := by simpa [isOpen] using hopen
    refine ⟨h.bounds, List.nodup_cons.mpr ⟨hnew, h.nodup⟩, fun j => ?_, congrArg (· + 1) h.depth_eq, hdepth, hcount,
      hentries, ?_⟩
    · rw [hflight, List.mem_cons, eq_comm, and_iff_left hanswer]
    · rw [hlimited, hanswer]
      exact (or_iff_right Bool.false_ne_true).symm
  · refine ⟨h.bounds, h.nodup, fun j => ?_, h.depth_eq, h.depth_le, h.count_le, hentries, ?_⟩
    · rw [hflight, hanswer]
      exact (or_iff_right fun hj => by cases hj.2).symm
    · rw [hlimited, hanswer]
      exact (or_iff_right Bool.false_ne_true).symm
  · refine ⟨h.bounds, h.nodup, fun j => ?_, h.depth_eq, h.depth_le, h.count_le, hentries, ?_⟩
    · rw [hflight, or_iff_right]
      · rfl
      · rintro ⟨-, hentered⟩
        rw [hentered] at hanswer
        cases hanswer
    · exact iff_of_true rfl (hlimited.mpr (.inl hanswer))

theorem leave (k : κ) : Accounts b (ops ++ [.leave k]) (after b (ops ++ [.leave k])) := by
  have hattempts : attempts (ops ++ [.leave k]) = attempts ops := attempts_concat
  have hlimited : Limited b (ops ++ [.leave k]) ↔ Limited b ops := by
    rw [Limited, since_concat]
    simp
  have hflight : ∀ j, InFlight b j (ops ++ [.leave k]) ↔ j ≠ k ∧ j ∈ (after b ops).openKeys := by
    intro j
    rw [h.mem_iff, InFlight, since_concat]
    simp [and_comm, eq_comm]
  rw [after_concat, Op.run]
  cases hopen : (after b ops).isOpen k with
  | false =>
    rw [leave_absent hopen]
    refine ⟨h.bounds, h.nodup, fun j => ?_, h.depth_eq, h.depth_le, h.count_le, hattempts ▸ h.entries_eq,
      h.exceeded_iff.trans hlimited.symm⟩
    rw [hflight, iff_and_self]
    rintro hj rfl
    rw [isOpen_iff.mpr hj] at hopen
    cases hopen
  | true =>
    have hcount : ((after b ops).openKeys.erase k).length + 1 = (after b ops).count :=
      List.length_erase_add_one (isOpen_iff.mp hopen)
    have hdepth := h.depth_eq
    have hle := h.count_le
    rw [leave_open hopen]
    refine ⟨h.bounds, h.nodup.erase k, fun j => ?_, ?_, ?_, ?_, hattempts ▸ h.entries_eq,
      h.exceeded_iff.trans hlimited.symm⟩
    · rw [hflight]
      exact h.nodup.mem_erase_iff
    · change (after b ops).depth - 1 = ((after b ops).openKeys.erase k).length
      omega
    · exact (Nat.sub_le _ _).trans h.depth_le
    · change ((after b ops).openKeys.erase k).length ≤ _
      omega

theorem reset : Accounts b (ops ++ [.reset]) (after b (ops ++ [.reset])) := by
  have hreset : after b (ops ++ [.reset]) = { bounds := b } := by
    rw [after_concat, Op.run, Guard.reset, h.bounds]
  have hattempts : attempts (ops ++ [.reset]) = 0 := attempts_concat
  have hlimited : ¬Limited b (ops ++ [.reset]) := by
    rw [Limited, since_concat]
    simp
  have hflight : ∀ j, ¬InFlight b j (ops ++ [.reset]) := by
    intro j
    rw [InFlight, since_concat]
    simp
  rw [hreset]
  exact ⟨rfl, List.nodup_nil, fun j => iff_of_false List.not_mem_nil (hflight j), rfl, Nat.zero_le _, Nat.zero_le _,
    by rw [hattempts]; rfl, iff_of_false Bool.false_ne_true hlimited⟩

/-- Whatever is done with a guard keeps its accounts. -/
theorem step (op : Op κ) : Accounts b (ops ++ [op]) (after b (ops ++ [op])) := by
  cases op with
  | enter k => exact h.enter k
  | leave k => exact h.leave k
  | reset => exact h.reset

end Accounts

/-- The counts of a guard say what its history was, whatever the history. -/
theorem accounts_after (b : Bounds) (ops : List (Op κ)) : Accounts b ops (after b ops) := by
  induction ops using List.reverseRecOn with
  | nil => exact accounts_nil b
  | append_singleton ops op ih => exact ih.step op

/-- **What a guard answers is decided by its history.** For all bounds and after every history, an entry is let in just
when the attempts since the last reset are admitted, the depth and the number of open keys are below their bounds and
the key is not open; it is a cycle just when the attempts and the depth allow it and the key is open. The open keys are
those in flight, the depth is their number and stays within both bounds, so that no count leaves the word; leaving a key
that is not open is a fault that changes nothing, and the guard is exceeded just when a limit has refused an entry since
the last reset. Without bounds, and fewer keys in flight than the largest word, only keys in flight are refused. -/
theorem history_decides (b : Bounds) (ops : List (Op κ)) :
    ((after b ops).depth = (after b ops).count ∧ (after b ops).depth ≤ min b.depth.toNat b.openKeys.toNat) ∧
    ((after b ops).count < 2 ^ 32 ∧ (after b ops).entries = min (attempts ops) (2 ^ 32 - 1) ∧
      ∀ k, ((after b ops).enter k).1 = .entered → (after b ops).depth + 1 < 2 ^ 32) ∧
    (∀ k, (after b ops).isOpen k = true ↔ InFlight b k ops) ∧
    (∀ k, (after b ops).isOpen k = true → 0 < (after b ops).depth ∧ ∃ g, (after b ops).leave k = .ok g) ∧
    (∀ k, (after b ops).isOpen k = false →
      (after b ops).leave k = .error .leaveAbsentKey ∧ after b (ops ++ [.leave k]) = after b ops) ∧
    (∀ k, ((after b ops).enter k).1 = .entered ↔ b.Admits (attempts ops + 1) ∧ (after b ops).depth < b.depth.toNat ∧
      (after b ops).isOpen k = false ∧ (after b ops).count < b.openKeys.toNat) ∧
    (∀ k, ((after b ops).enter k).1 = .cycle ↔
      b.Admits (attempts ops + 1) ∧ (after b ops).depth < b.depth.toNat ∧ (after b ops).isOpen k = true) ∧
    ((after b ops).exceeded = true ↔ Limited b ops) ∧
    (b = .none → (after b ops).count < 2 ^ 32 - 1 →
      ∀ k, ((after b ops).enter k).1 ≠ .entered ↔ InFlight b k ops) := by
  have h := accounts_after b ops
  have hflight : ∀ k, (after b ops).isOpen k = true ↔ InFlight b k ops := fun k => isOpen_iff.trans (h.mem_iff k)
  have hdepth := h.depth_eq
  have hdepthBound := b.depth.toNat_lt
  have hkeysBound := b.openKeys.toNat_lt
  refine ⟨⟨hdepth, ?_⟩, ⟨?_, h.entries_eq, fun k hk => ?_⟩, hflight, fun k hk => ⟨?_, _, leave_open hk⟩,
    fun k hk => ⟨leave_absent hk, ?_⟩, h.entered_iff, h.cycle_iff, h.exceeded_iff, ?_⟩
  · rw [Nat.le_min]
    exact ⟨h.depth_le, hdepth ▸ h.count_le⟩
  · exact h.count_le.trans_lt hkeysBound
  · obtain ⟨-, hlt, -⟩ := (h.entered_iff k).mp hk
    omega
  · rw [hdepth]
    exact List.length_pos_of_mem (isOpen_iff.mp hk)
  · rw [after_concat, Op.run, leave_absent hk]
  · rintro rfl hcount k
    have hentered : ((after .none ops).enter k).1 = .entered ↔ (after .none ops).isOpen k = false := by
      rw [h.entered_iff]
      refine ⟨fun hk => hk.2.2.1, fun hk => ⟨.inr rfl, ?_, hk, hcount⟩⟩
      rw [hdepth]
      exact hcount
    rw [← hflight, ne_eq, hentered, Bool.not_eq_false]

/-- Without bounds a key is refused while it is in flight, and one that was left is let in again. -/
theorem history_decides_reentry :
    let ops : List (Op Nat) := [.enter 1, .enter 2, .leave 1, .leave 3]
    ((after .none ops).enter 2).1 ≠ .entered ∧ ¬InFlight .none 1 ops ∧ ((after .none ops).enter 1).1 = .entered ∧
    (after .none ops).leave 3 = .error .leaveAbsentKey := by
  intro ops
  obtain ⟨-, -, hopen, -, habsent, -, -, -, hrefused⟩ := history_decides .none ops
  have hfew : (after .none ops).count < 2 ^ 32 - 1 := by decide
  have hflight : InFlight .none 2 ops := (hopen 2).mp (by decide)
  have hleft : ¬InFlight .none 1 ops := fun h => absurd ((hopen 1).mpr h) (by decide)
  refine ⟨(hrefused rfl hfew 2).mpr hflight, hleft, ?_, (habsent 3 (by decide)).1⟩
  exact not_not.mp (fun h => hleft ((hrefused rfl hfew 1).mp h))

end Conformance.Guard
