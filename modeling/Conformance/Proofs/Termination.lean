import Mathlib
import Conformance.Proofs.Convergence
import Conformance.Proofs.Evaluation
import Conformance.Proofs.Transport

/-!
# Monitored comparisons come to an end

A comparison whose nested comparisons are all of pairs from a finite set ends, whatever circles the declarations go
round in (`isSubType_terminates`). Below the threshold a pair may be entered any number of times, but each time a direct
level is used up; from there on only a pair that is not pending is entered, and each time one pair less is left. So what
is left at a place (`Place.remaining`) shrinks with every frame that is not refused, and bounds the frames that are open
at a time. The test for stability has no such bound, so that a variable that was settled to a type around itself keeps it
from an end (`isSubType_endless`).
-/

namespace Conformance

/-- What is left at the place: direct levels, and pairs of `P` that are not pending. -/
def Place.remaining (P : Finset (Ty × Ty)) (p : Place) : Nat :=
  (max p.threshold.toNat 1 - 1 - p.level) + (P \ p.pending.toFinset).card

theorem Place.Idle.remaining_eq {p : Place} (hp : p.Idle) (P : Finset (Ty × Ty)) :
    p.remaining P = max p.threshold.toNat 1 - 1 + P.card := by
  simp [Place.remaining, hp.level, hp.pending]

/-- Constraints on nothing hold nothing. -/
theorem Comparer.AtRest.stocks {c : Comparer} (hc : c.AtRest) (w : World) : w.Stocks c.constraint := by
  intro b slots hslots
  rw [ConstraintStore.slots?, InsertionMap.find?, hc.store] at hslots
  cases hslots

namespace CompareM

/-! ## Frames -/

section Frames

variable {levels : Nat} {p : Place} {w w₀ : World} {pair : Ty × Ty}

theorem converges_enterLevel (hp : p.level < Limits.unlimited.toNat) :
    Converges levels p p.deeper w₀ (fun _ mode => mode = p.mode) fun _ _ => enterLevel :=
  fun _ w _ hw hc _ => ⟨0, _, _, w, le_rfl, hw, hc.enter hp, hc.enter_mode hp, fun _ _ _ _ => rfl⟩

theorem converges_leaveLevel : Converges levels p.deeper p w₀ (fun _ _ => True) fun _ _ => leaveLevel :=
  fun _ w _ hw hc _ => ⟨0, (), _, w, le_rfl, hw, hc.leave.2, trivial, fun _ _ _ _ => leaveLevel_run hc w⟩

theorem concludes_frame {body : Option Nat → Nat → DepthMode → CompareM Bool} (hp : p.level < Limits.unlimited.toNat)
    (hbody : Concludes levels p.deeper w₀ fun limit n => body limit n p.mode) :
    Concludes levels p w₀ fun limit n => frame (body limit n) := by
  refine concludes_atomically (.bind (converges_enterLevel hp) fun w₁ mode hle₁ _ hmode => ?_)
  obtain rfl : mode = p.mode := hmode
  exact .bind (hbody.later hle₁) fun _ answer _ _ _ => .bind converges_leaveLevel fun _ _ _ _ _ => .done answer

/-- A pair that is let in is compared while it is pending. -/
theorem concludes_withPending {F : Family Bool} (hbounds : p.bounds = .none) (hadmits : p.admits pair)
    (hF : Concludes levels (p.entering pair) w₀ F) :
    Concludes levels p w₀ fun limit n => withPending pair (F limit n) := by
  have hunpend : ∀ w, Converges levels (p.entering pair) p w (fun _ _ => True) fun _ _ => unpend pair := by
    intro w₁ c w _ hw hc _
    obtain ⟨c', hback, hrun⟩ := unpend_run hc
    exact ⟨0, (), c', w, le_rfl, hw, hback, trivial, fun _ _ _ _ => hrun w⟩
  intro c w hle hw hc hfault
  obtain ⟨c₁, hc₁, hrun⟩ := withPending_entered hc hbounds hadmits
  have hbody := Converges.bind hF fun w answer _ _ _ => .bind (hunpend w) fun _ _ _ _ _ => .done answer
  simp only [hrun] at hfault ⊢
  exact hbody c₁ w hle hw hc₁ hfault

/-- A pair that is not let in is answered at once. -/
theorem concludes_refused {F : Family Bool} (hbounds : p.bounds = .none) (hadmits : ¬ p.admits pair) :
    Concludes levels p w₀ fun limit n => withPending pair (F limit n) := by
  intro c w _ hw hc _
  obtain ⟨c₁, hc₁, hrun⟩ := withPending_refused hc hbounds hadmits
  exact ⟨0, false, c₁, w, le_rfl, hw, hc₁, trivial, fun n _ limit _ => hrun (F limit n) w⟩

/-- A comparison of different types comes to an end if the cascade does in the places that it may open. -/
theorem concludes_framed {sub : Option Nat → Nat → Ty → Ty → CompareM Bool} {a b : Ty}
    (hlevel : p.level < Limits.unlimited.toNat) (hbounds : p.bounds = .none)
    (hfirst : ∀ p', Opens p (a, b) p' → Concludes levels p' w₀ fun limit n => first n (sub limit n) a b) :
    Concludes levels p w₀ fun limit n => framed n (sub limit n) a b := by
  refine concludes_frame hlevel ?_
  cases hmode : p.mode with
  | direct => exact hfirst _ (.direct hmode)
  | monitored =>
    by_cases hadmits : p.deeper.admits (a, b)
    · exact concludes_withPending hbounds hadmits (hfirst _ (.monitored hmode hadmits))
    · exact concludes_refused hbounds hadmits

end Frames

/-! ## Comparisons that keep to a set of pairs -/

/-- `isSubType` that breaks off with a fault at a pair outside `P`. Comparisons break no rule of use otherwise. -/
def isSubTypeOn (P : Finset (Ty × Ty)) : Nat → Ty → Ty → CompareM Bool
  | 0, _, _ => throw .outOfFuel
  | n + 1, t₁, t₂ =>
    if !t₁.present || !t₂.present then return false
    else if t₁ = t₂ then return true
    else if (t₁, t₂) ∈ P then framed n (isSubTypeOn P n) t₁ t₂
    else throw (.fault .leaveAbsentKey)

/-- The comparison is of a pair in `P`, and so are all those nested in it, however far they are followed. -/
def KeepsTo (P : Finset (Ty × Ty)) (t₁ t₂ : Ty) (c : Comparer) (w : World) : Prop :=
  ∀ fuel f, isSubTypeOn P fuel t₁ t₂ c w ≠ .error (.fault f)

/-- The comparison within a limit of levels, or without one, but of pairs in `P`. -/
def compared (P : Finset (Ty × Ty)) : Option Nat → Nat → Ty → Ty → CompareM Bool
  | none => isSubTypeOn P
  | some levels => isSubTypeWithin levels

variable {P : Finset (Ty × Ty)} {p p' : Place} {pair : Ty × Ty} {w : World}

/-- Every frame that is opened uses up a direct level or a pair. -/
theorem Opens.remaining_lt (h : Opens p pair p') (hpair : pair ∈ P) : p'.remaining P < p.remaining P := by
  cases h with
  | direct hmode =>
    have hlevel : p.level + 1 < p.threshold.toNat := by
      by_contra hlevel
      rw [Place.mode, if_neg hlevel] at hmode
      cases hmode
    simp only [Place.remaining, Place.deeper]
    omega
  | monitored hmode hadmits =>
    have hfewer : (P \ (pair :: p.pending).toFinset).card < (P \ p.pending.toFinset).card := by
      refine Finset.card_lt_card ((Finset.ssubset_iff_of_subset ?_).2 ⟨pair, ?_, ?_⟩)
      · exact Finset.sdiff_subset_sdiff (Finset.Subset.refl P) (by simp)
      · simpa using ⟨hpair, hadmits.2.2⟩
      · simp
    simp only [Place.remaining, Place.deeper, Place.entering]
    omega

/-- One step of the allowance and one level of the limit. -/
theorem Converges.step {α : Type} {levels : Nat} {p q : Place} {w₀ : World} {A : World → α → Prop} {F G : Family α}
    (hF : ∀ limit n, F (limit.map (· + 1)) (n + 1) = G limit n) (hG : Converges levels p q w₀ A G) :
    Converges (levels + 1) p q w₀ A F := by
  intro c w hle hw hc ⟨k₀, hfault⟩
  obtain ⟨k, x, c', w', hle', hw', hc', hx, hrun⟩ :=
    hG c w hle hw hc ⟨k₀, fun n hn f h => hfault (n + 1) (Nat.le_succ_of_le hn) f ((hF none n) ▸ h)⟩
  refine ⟨k + 1, x, c', w', hle', hw', hc', hx, fun n hn limit hlimit => ?_⟩
  obtain ⟨n, rfl⟩ := Nat.exists_eq_add_of_le' (Nat.le_trans (Nat.le_add_left 1 k) hn)
  obtain ⟨limit', rfl, hlimit'⟩ : ∃ limit', limit = limit'.map (· + 1) ∧ Lets levels limit' := by
    cases limit with
    | none => exact ⟨none, rfl, fun _ h => nomatch h⟩
    | some l =>
      obtain ⟨l, rfl⟩ := Nat.exists_eq_add_of_le' (Nat.le_trans (Nat.le_add_left 1 levels) (hlimit l rfl))
      refine ⟨some l, rfl, fun _ h => ?_⟩
      obtain rfl := Option.some.inj h
      exact Nat.le_of_succ_le_succ (hlimit _ rfl)
  rw [hF]
  exact hrun n (Nat.le_of_succ_le_succ hn) limit' hlimit'

/-- The induction is on what is left, for all places at once. -/
theorem concludes_compared (r : Nat) : ∀ p : Place, p.remaining P ≤ r → HasRoom p (r + 1) → p.bounds = .none →
    ∀ {w : World} {a b : Ty}, w.Finite (.ty a) → w.Finite (.ty b) →
      Concludes (r + 1) p w fun limit n => compared P limit n a b := by
  induction r using Nat.strongRecOn with | ind r ih => ?_
  intro p hr hroom hbounds w a b ha hb
  refine .step (G := fun limit n =>
    if !a.present || !b.present then return false
    else if a = b then return true
    else match limit with
      | none => if (a, b) ∈ P then framed n (isSubTypeOn P n) a b else throw (.fault .leaveAbsentKey)
      | some l => framed n (isSubTypeWithin l n) a b) (fun limit n => by cases limit <;> rfl) ?_
  refine .ite (fun _ => .done _) fun _ => .ite (fun _ => .done _) fun _ => ?_
  by_cases hpair : (a, b) ∈ P
  · have hframed : Concludes r p w fun limit n => framed n (compared P limit n) a b := by
      refine concludes_framed (by have := hroom.level; omega) hbounds fun p' hp' => ?_
      have hless := hp'.remaining_lt hpair
      obtain ⟨r, rfl⟩ := Nat.exists_eq_add_of_le' (Nat.le_trans (Nat.succ_le_of_lt (Nat.zero_lt_of_lt hless)) hr)
      have hbounds' : p'.bounds = .none := hp'.bounds_eq.trans hbounds
      exact concludes_first (ih r (Nat.lt_succ_self r) p' (by omega) (hroom.opens hp') hbounds') ha hb
    convert hframed using 3 with limit n
    cases limit with
    | none => rw [if_pos hpair]; rfl
    | some l => rfl
  · -- The watched run would end in a fault.
    intro c w _ _ _ ⟨k, hfault⟩
    refine absurd ?_ (hfault k (Nat.le_refl k) .leaveAbsentKey)
    simp only [if_neg hpair]
    rfl

/-- A comparison that keeps to the pairs of `P` ends the same way with every allowance that is large enough, within as
many levels as it may use up. -/
theorem exists_run_of_keepsTo {levels : Nat} {t₁ t₂ : Ty} {c : Comparer} (hw : w.Founded) (h₁ : w.Finite (.ty t₁))
    (h₂ : w.Finite (.ty t₂)) (hstore : w.Stocks c.constraint) (hc : c.place.Idle)
    (hlevels : max c.depth.threshold.toNat 1 + P.card ≤ levels)
    (hroom : max c.depth.threshold.toNat 1 + P.card ≤ Limits.unlimited.toNat) (hP : KeepsTo P t₁ t₂ c w) :
    ∃ k answer c' w', ∀ fuel, k ≤ fuel → isSubType fuel t₁ t₂ c w = .ok ((answer, c'), w') ∧
      OpensAtMost levels fuel (· t₁ t₂) c w := by
  have hroom' : HasRoom c.place (max c.depth.threshold.toNat 1 - 1 + P.card + 1) := .of_idle hc (by omega)
  have hremaining : c.place.remaining P = max c.depth.threshold.toNat 1 - 1 + P.card := hc.remaining_eq P
  have hconcludes := concludes_compared _ c.place (Nat.le_of_eq hremaining) hroom' hc.bounds h₁ h₂
  obtain ⟨k, answer, c', w', -, -, -, -, hrun⟩ := hconcludes c w le_rfl hw ⟨rfl, hstore⟩ ⟨0, fun n _ => hP n⟩
  have hused : max c.depth.threshold.toNat 1 - 1 + P.card + 1 ≤ levels := by omega
  refine ⟨max k levels, answer, c', w', fun fuel hfuel => ?_⟩
  have hk := Nat.le_trans (Nat.le_max_left ..) hfuel
  -- Each nested level takes one step of the allowance, so that many levels are no limit.
  have hself : isSubType fuel t₁ t₂ c w = .ok ((answer, c'), w') := by
    rw [← isSubTypeWithin_self]
    refine hrun fuel hk (some fuel) fun l hl => ?_
    obtain rfl := Option.some.inj hl
    exact Nat.le_trans hused (Nat.le_trans (Nat.le_max_right ..) hfuel)
  refine ⟨hself, ?_⟩
  have hwithin := hrun fuel hk (some levels) fun l hl => Option.some.inj hl ▸ hused
  exact hwithin.trans hself.symm

/-- **Monitored comparisons come to an end.** In a founded world, where types are finite trees and no variable is an operand
of its own instance, a comparison that starts with nothing in progress and keeps to the pairs of `P` ends, the same way
with every allowance that is large enough, and has at most `max t 1 + |P|` frames open at a time, where `t` is the
threshold; the counters, which stop at the largest word, have to count that far. -/
theorem isSubType_terminates (P : Finset (Ty × Ty)) (t₁ t₂ : Ty) (c : Comparer) (w : World) (hw : w.Founded)
    (h₁ : w.Finite (.ty t₁)) (h₂ : w.Finite (.ty t₂)) (hstore : w.Stocks c.constraint) (hc : c.place.Idle)
    (hroom : max c.depth.threshold.toNat 1 + P.card ≤ Limits.unlimited.toNat) (hP : KeepsTo P t₁ t₂ c w) :
    ∃ k answer c' w', ∀ fuel, k ≤ fuel → isSubType fuel t₁ t₂ c w = .ok ((answer, c'), w') ∧
      OpensAtMost (max c.depth.threshold.toNat 1 + P.card) fuel (· t₁ t₂) c w :=
  exists_run_of_keepsTo hw h₁ h₂ hstore hc (Nat.le_refl _) hroom hP

/-- A comparison that starts at rest keeps to finitely many pairs, which the counters can count. -/
def Confined (erased : Bool) (w : World) (a b : Ty) : Prop :=
  ∃ (c : Comparer) (P : Finset (Ty × Ty)), c.AtRest ∧ c.options.erasedTypes = erased ∧
    max c.depth.threshold.toNat 1 + P.card ≤ Limits.unlimited.toNat ∧ KeepsTo P a b c w

/-- A confined comparison of finite trees comes to an answer. -/
theorem Confined.returns {erased : Bool} {a b : Ty} (h : Confined erased w a b) (hw : w.Founded) (ha : w.Has a)
    (hb : w.Has b) : ∃ answer, w.Returns erased a b answer := by
  obtain ⟨c, P, hc, herased, hroom, hP⟩ := h
  obtain ⟨k, answer, c', w', hrun⟩ := exists_run_of_keepsTo hw (hw.tree ha) (hw.tree hb) (hc.stocks w) hc.idle
    (Nat.le_refl _) hroom hP
  exact ⟨answer, k, c, c', w, w', le_rfl, hc, herased, (hrun k (Nat.le_refl k)).1⟩

/-- Abstract types `A <: B`, at `15`, and `B <: A`, at `16`. -/
def circularWorld : World :=
  let w := World.initial
  let w := { w with types := (w.types.intern (.named .noPrefix ⟨44⟩)).2 }
  let w := { w with types := (w.types.intern (.named .noPrefix ⟨45⟩)).2 }
  let w := { w with types := (w.types.intern (.bounds Builtin.nothing.type ⟨16⟩)).2 }
  let w := { w with types := (w.types.intern (.bounds Builtin.nothing.type ⟨15⟩)).2 }
  let w := { w with decls := (w.decls.register
    { kind := .abstractType, name := "A", owner := .absent, info := ⟨17⟩ }).2 }
  { w with decls := (w.decls.register { kind := .abstractType, name := "B", owner := .absent, info := ⟨18⟩ }).2 }

/-- A comparer with one direct level. -/
def circularComparer : Comparer where
  options := {}
  constraint := ⟨{}, 0⟩
  depth := { threshold := 2 }
  pending := { bounds := .none }

/-- `A` and `B` against `Int`. -/
def circularPairs : Finset (Ty × Ty) := {(⟨15⟩, Builtin.int.type), (⟨16⟩, Builtin.int.type)}

set_option maxRecDepth 1000 in
theorem circular_run (n : Nat) : ((isSubTypeOn circularPairs (n + 4) ⟨15⟩ Builtin.int.type circularComparer
    circularWorld).map fun _ => ()) = .ok () := by
  cbv

theorem keepsTo_circular : KeepsTo circularPairs ⟨15⟩ Builtin.int.type circularComparer circularWorld := by
  have hshort : ∀ n < 4, ((isSubTypeOn circularPairs n ⟨15⟩ Builtin.int.type circularComparer circularWorld).map
      fun _ => ()) = .error .outOfFuel := by decide +kernel
  intro fuel f hfault
  rcases Nat.lt_or_ge fuel 4 with hfuel | hfuel
  · have hrun := hshort fuel hfuel
    rw [hfault] at hrun
    cases hrun
  · obtain ⟨n, rfl⟩ := Nat.exists_eq_add_of_le' hfuel
    have hrun := circular_run n
    rw [hfault] at hrun
    cases hrun

/-- `A` is compared with `Int` directly, then `B` and `A` under watch, and then `B` is refused. -/
theorem isSubType_terminates_circular :
    let levels := max circularComparer.depth.threshold.toNat 1 + circularPairs.card
    circularWorld.Founded ∧ circularWorld.Finite (.ty ⟨15⟩) ∧ circularWorld.Finite (.ty Builtin.int.type) ∧
      circularWorld.Stocks circularComparer.constraint ∧ circularComparer.place.Idle ∧
      levels ≤ Limits.unlimited.toNat ∧ KeepsTo circularPairs ⟨15⟩ Builtin.int.type circularComparer circularWorld ∧
      levels = 4 ∧ ∃ k answer c' w', ∀ fuel, k ≤ fuel →
        isSubType fuel ⟨15⟩ Builtin.int.type circularComparer circularWorld = .ok ((answer, c'), w') ∧
        OpensAtMost levels fuel (· ⟨15⟩ Builtin.int.type) circularComparer circularWorld := by
  have hw : circularWorld.Founded := World.founded_of_orderly (by decide +kernel)
  have h₁ : circularWorld.Finite (.ty ⟨15⟩) := hw.tree (by decide)
  have h₂ : circularWorld.Finite (.ty Builtin.int.type) := hw.tree (by decide)
  have hstore : circularWorld.Stocks circularComparer.constraint := fun b slots hslots => nomatch hslots
  have hidle : circularComparer.place.Idle := ⟨rfl, rfl, rfl, rfl⟩
  have hroom : max circularComparer.depth.threshold.toNat 1 + circularPairs.card ≤ Limits.unlimited.toNat := by
    decide
  exact ⟨hw, h₁, h₂, hstore, hidle, hroom, keepsTo_circular, by decide,
    isSubType_terminates circularPairs ⟨15⟩ Builtin.int.type circularComparer circularWorld hw h₁ h₂ hstore hidle hroom
      keepsTo_circular⟩

/-- A type parameter, at `15`, a variable for it, at `16`, and its intersection with `Int`, at `17`, to which the variable
is settled. -/
def selfHeldWorld : World :=
  let w := { World.initial with binders := #[{ kind := .universal, names := ["X"] }] }
  let w := { w with types := (w.types.intern (.param ⟨⟨0⟩, 0⟩)).2 }
  let w := { w with vars := #[{ origin := ⟨15⟩ }], types := (w.types.intern (.var ⟨0⟩)).2 }
  let w := { w with types := (w.types.intern (.inter ⟨16⟩ Builtin.int.type)).2 }
  { w with vars := #[{ origin := ⟨15⟩, inst := some ⟨17⟩ }] }

theorem selfHeldWorld_built : selfHeldWorld.Built := by
  have h₁ := World.Built.initial.binder .universal ["X"]
  have h₂ := h₁.intern (.param ⟨⟨0⟩, 0⟩) (World.mentions_param (rfl) _)
  have h₃ := (h₂.var ⟨15⟩ (rfl)).intern (.var ⟨0⟩) (.var trivial)
  have h₄ := h₃.intern (.inter ⟨16⟩ Builtin.int.type) (.inter ⟨rfl, rfl⟩ ⟨rfl, rfl⟩)
  exact h₄.instantiate 0 { origin := ⟨15⟩ } Array.mem_push_self ⟨17⟩ (rfl)

theorem isStable_selfHeld {v : World} (hv : selfHeldWorld ≤ v) (n : Nat) :
    v.isStable n ⟨17⟩ = .error .outOfFuel ∧ v.isStable n ⟨16⟩ = .error .outOfFuel := by
  have hinter : v.shape ⟨17⟩ = .inter ⟨16⟩ Builtin.int.type := World.shape_of_shape? (hv.shape (rfl))
  have hvar : v.shape ⟨16⟩ = .var ⟨0⟩ := World.shape_of_shape? (hv.shape (rfl))
  have hinst : v.varInstance? ⟨0⟩ = some ⟨17⟩ := by
    rw [World.varInstance?, hv.vars]
    rfl
  induction n with
  | zero => exact ⟨rfl, rfl⟩
  | succ n ih =>
    obtain ⟨ihinter, ihvar⟩ := ih
    constructor
    · rw [World.isStable, hinter]
      simp only [ihvar]
      rfl
    · rw [World.isStable, hvar]
      simp only [hinst]
      exact ihinter

/-- Whether the source is stable is asked before the other ways to conform to `Singleton`. -/
theorem thirdNamed_unstable {w : World} {n : Nat} {sub : Ty → Ty → CompareM Bool} {t : Ty} {e : Halt} (hw : w.Standard)
    (hstable : ∀ v, w ≤ v → v.isStable n t = .error e) (c : Comparer) :
    thirdNamed n sub t Builtin.singleton.type c w = .error e := by
  have hu := hw.shape .singleton
  obtain ⟨info, v, hinfo, hv, hshape⟩ : ∃ info v, Builtin.singleton.type.infoOf w = .ok (info, v) ∧ w ≤ v ∧
      v.shape? info = some (.classInfo .noPrefix Builtin.singleton.symbol) :=
    ⟨_, _, infoOf_class hu (hw.isClass .singleton), le_intern _ w, TypeTable.shape?_intern w.types _⟩
  have hnone : v.boundsParts? info = none := by simp only [World.boundsParts?, hshape]
  rw [thirdNamed, run_bind (run_lift hinfo c), run_world_bind]
  rw [hnone, World.shape_of_shape? (hv.shape hu)]
  refine run_bind_error ?_
  rw [if_pos rfl]
  show Except.bind (Except.bind (v.isStable n t) _) _ = _
  rw [hstable v hv]
  rfl

theorem framed_selfHeld (n : Nat) (sub : Ty → Ty → CompareM Bool) :
    framed n sub ⟨17⟩ Builtin.singleton.type (.vacant false) selfHeldWorld = .error .outOfFuel := by
  have hfirst (c : Comparer) : first n sub ⟨17⟩ Builtin.singleton.type c selfHeldWorld = .error .outOfFuel :=
    thirdNamed_unstable selfHeldWorld_built.standard (fun v hv => (isStable_selfHeld hv n).1) c
  show Except.bind (Except.bind (first n sub ⟨17⟩ Builtin.singleton.type _ selfHeldWorld) _) _ = _
  rw [hfirst]
  rfl

/-- A variable can be settled to an intersection with itself, and then the test for stability goes round in it without
end, whatever the threshold of the comparison that asks for it. That comparison has no other nested in it. -/
theorem isSubType_endless : selfHeldWorld.Built ∧ (Comparer.vacant false).AtRest ∧
    selfHeldWorld.shape? ⟨17⟩ = some (.inter ⟨16⟩ Builtin.int.type) ∧ selfHeldWorld.shape? ⟨16⟩ = some (.var ⟨0⟩) ∧
    selfHeldWorld.varInstance? ⟨0⟩ = some ⟨17⟩ ∧
    KeepsTo {(⟨17⟩, Builtin.singleton.type)} ⟨17⟩ Builtin.singleton.type (.vacant false) selfHeldWorld ∧
    ∀ fuel, isSubType fuel ⟨17⟩ Builtin.singleton.type (.vacant false) selfHeldWorld = .error .outOfFuel := by
  refine ⟨selfHeldWorld_built, Comparer.atRest_vacant _, rfl, rfl, rfl, fun fuel f h => ?_,
    fun fuel => ?_⟩
  · cases fuel with
    | zero => cases h
    | succ n =>
      have hrun : isSubTypeOn {(⟨17⟩, Builtin.singleton.type)} (n + 1) ⟨17⟩ Builtin.singleton.type (.vacant false)
          selfHeldWorld = .error .outOfFuel := framed_selfHeld n _
      rw [hrun] at h
      cases h
  · cases fuel with
    | zero => rfl
    | succ n => exact framed_selfHeld n _

end CompareM

end Conformance
