import Mathlib.Data.List.Forall2
import Mathlib.Logic.Relation
import Conformance.Proofs.ClassInference
import Conformance.Proofs.Twins

/-!
# Bounds only ever narrow

Whatever is asked, and whatever the answer, a comparison leaves the same parameters under inference, chosen ones stay
chosen, and the bounds of an open one are made narrower only by joining types to the lower end and meeting the upper
end with types: `question_tightens`. That is an invariant of single narrowings (`Tightens.boundsInter`) and of taking
narrowings back, and the cascade does nothing else to a store.
-/

namespace Conformance

open CompareM

/-! ## Ends made narrower -/

section Ends

variable {w w₁ w' : World} {a b t : Ty} {d : Shape}

/-- Done again in a world that holds the first result, the computation gives that result and takes in nothing. -/
def Repeats (m : WorldM Ty) : Prop := ∀ w t w₁ w', m w = .ok (t, w₁) → w₁ ≤ w' → m w' = .ok (t, w')

theorem Repeats.pure (t : Ty) : Repeats (pure t) := by
  intro w t' w₁ w' h hle
  cases h
  rfl

theorem Repeats.ite {p : Prop} [Decidable p] {m₁ m₂ : WorldM Ty} (h₁ : Repeats m₁) (h₂ : Repeats m₂) :
    Repeats (if p then m₁ else m₂) := by
  split
  · exact h₁
  · exact h₂

theorem repeats_intern (d : Shape) : Repeats (WorldM.intern d) := by
  intro w t w₁ w' h hle
  have ht : w'.shape? t = some d := by
    cases h
    exact hle.shape (TypeTable.shape?_intern w.types d)
  show Except.ok ((w'.types.intern d).1, { w' with types := (w'.types.intern d).2 }) = _
  rw [TypeTable.intern_of_shape? ht]

theorem repeats_union (a b : Ty) : Repeats (Ty.union a b) :=
  .ite (.pure _) (.ite (.pure _) (.ite (.pure _) (.ite (.pure _) (repeats_intern _))))

theorem repeats_inter (a b : Ty) : Repeats (Ty.inter a b) :=
  .ite (.pure _) (.ite (.pure _) (.ite (.pure _) (.ite (.pure _) (repeats_intern _))))

namespace World

/-- `hi` is `lo` joined with finitely many types, one after the other, all unions being in the world already. -/
def Joins (w : World) (lo hi : Ty) : Prop :=
  Relation.ReflTransGen (fun a b => ∃ t, Ty.union a t w = .ok (b, w)) lo hi

/-- `lo` is `hi` met with finitely many types, one after the other, all intersections being in the world already. -/
def Meets (w : World) (hi lo : Ty) : Prop :=
  Relation.ReflTransGen (fun a b => ∃ t, Ty.inter a t w = .ok (b, w)) hi lo

theorem Joins.grow {lo hi : Ty} (h : w.Joins lo hi) (hle : w ≤ w') : w'.Joins lo hi :=
  Relation.ReflTransGen.mono (fun _ _ ⟨t, ht⟩ => ⟨t, repeats_union _ _ w _ w w' ht hle⟩) _ _ h

theorem Meets.grow {lo hi : Ty} (h : w.Meets hi lo) (hle : w ≤ w') : w'.Meets hi lo :=
  Relation.ReflTransGen.mono (fun _ _ ⟨t, ht⟩ => ⟨t, repeats_inter _ _ w _ w w' ht hle⟩) _ _ h

/-- What may become of a slot: it stays cleared, or it stays open and its ends are moved towards each other. -/
inductive Tightens (w : World) : Ty → Ty → Prop
  | cleared : Tightens w .noType .noType
  | bounds {t t' lo hi lo' hi' : Ty} (hopen : t.present) (hopen' : t'.present)
    (ht : w.boundsParts? t = some (lo, hi)) (ht' : w.boundsParts? t' = some (lo', hi'))
    (hlo : w.Joins lo lo') (hhi : w.Meets hi hi') : Tightens w t t'

theorem Tightens.grow {t t' : Ty} (h : w.Tightens t t') (hle : w ≤ w') : w'.Tightens t t' := by
  cases h with
  | cleared => exact .cleared
  | bounds hopen hopen' ht ht' hlo hhi =>
    rw [boundsParts?_eq_some_iff] at ht ht'
    exact .bounds hopen hopen' (boundsParts?_eq_some_iff.2 (hle.shape ht)) (boundsParts?_eq_some_iff.2 (hle.shape ht'))
      (hlo.grow hle) (hhi.grow hle)

/-- An open slot that is narrowed by a type is narrower than before. -/
theorem Tightens.boundsInter (hw : w.Standard) {old bound narrowed : Ty} (h : w.Tightens t old) (hold : old.present)
    (hrun : Ty.boundsInter old bound w = .ok (narrowed, w')) : w'.Tightens t narrowed := by
  cases h with
  | cleared => simp at hold
  | @bounds _ _ lo₀ hi₀ lo₁ hi₁ hopen _ ht hold' hlo₀ hhi₀ =>
    obtain ⟨ends₁, v₁, hends, hrun⟩ := bind_ok hrun
    rw [endsOf_bounds (boundsParts?_eq_some_iff.1 hold')] at hends
    cases hends
    obtain ⟨⟨lo₂, hi₂⟩, w₁, hends, hrun⟩ := bind_ok hrun
    obtain ⟨lo, w₂, hlo, hrun⟩ := bind_ok hrun
    obtain ⟨hi, w₃, hhi, hrun⟩ := bind_ok hrun
    have hle₂ : w₁ ≤ w₂ := (grows_union lo₁ lo₂).le_of_ok hlo
    have hle₃ : w₂ ≤ w₃ := (grows_inter hi₁ hi₂).le_of_ok hhi
    have hle₄ : w₃ ≤ w' := (grows_bounds lo hi).le_of_ok hrun
    have hle : w ≤ w' := ((grows_endsOf bound).le_of_ok hends).trans (hle₂.trans (hle₃.trans hle₄))
    have hnarrowed : w'.shape? narrowed = some (.bounds lo hi) := by
      cases hrun
      exact TypeTable.shape?_intern w₃.types _
    refine .bounds hopen ((hw.grow hle).present hnarrowed (by simp))
      (boundsParts?_eq_some_iff.2 (hle.shape (boundsParts?_eq_some_iff.1 ht)))
      (boundsParts?_eq_some_iff.2 hnarrowed) ((hlo₀.grow hle).tail ⟨lo₂, ?_⟩) ((hhi₀.grow hle).tail ⟨hi₂, ?_⟩)
    · exact repeats_union lo₁ lo₂ w₁ lo w₂ w' hlo (hle₃.trans hle₄)
    · exact repeats_inter hi₁ hi₂ w₂ hi w₃ w' hhi hle₄

end World

end Ends

/-! ## Stores made tighter -/

namespace ConstraintStore

/-- `S'` has the same parameters under inference as `S`, chosen or open as they were there, in bounds as narrow or
narrower. -/
def Tightened (w : World) (S S' : ConstraintStore) : Prop :=
  ∀ b, Option.Rel (List.Forall₂ w.Tightens) (S.slots? b) (S'.slots? b)

/-- Every open slot holds bounds. -/
def HoldsBounds (w : World) (S : ConstraintStore) : Prop :=
  ∀ b slots, S.slots? b = some slots → ∀ t ∈ slots, t.present → (w.boundsParts? t).isSome

variable {w w' : World} {S S' : ConstraintStore}

theorem Tightened.refl (h : S.HoldsBounds w) : Tightened w S S := by
  intro b
  cases hs : S.slots? b with
  | none => exact .none
  | some slots =>
    refine .some (List.forall₂_same.2 fun t ht => ?_)
    by_cases hp : t.present
    · obtain ⟨⟨lo, hi⟩, hb⟩ := Option.isSome_iff_exists.1 (h b slots hs t ht hp)
      exact .bounds hp hp hb hb .refl .refl
    · obtain rfl : t = .noType := by simpa using hp
      exact .cleared

theorem Tightened.grow (h : Tightened w S S') (hle : w ≤ w') : Tightened w' S S' := by
  intro b
  have hb := h b
  revert hb
  cases S.slots? b <;> cases S'.slots? b
  · exact fun _ => .none
  · exact fun h => nomatch h
  · exact fun h => nomatch h
  · rintro ⟨hb⟩
    exact .some (hb.imp fun _ _ h => h.grow hle)

theorem forall₂_set {α β : Type} {r r' : α → β → Prop} {x : β} (hr : ∀ a b, r a b → r' a b) :
    ∀ {l : List α} {l' : List β} {i : Nat}, List.Forall₂ r l l' → (∀ a b, l'[i]? = some b → r a b → r' a x) →
      List.Forall₂ r' l (l'.set i x)
  | _, _, _, .nil, _ => .nil
  | _, _, 0, .cons hab h, hx => .cons (hx _ _ rfl hab) (h.imp hr)
  | _, _, _ + 1, .cons hab h, hx => .cons (hr _ _ hab) (forall₂_set hr h hx)

/-- Narrowing one open slot makes a store tighter. -/
theorem Tightened.narrow (hw : w.Standard) (h : Tightened w S S') {p : Param} {slots : List Ty} {old bound narrowed : Ty}
    (hslots : S'.slots? p.binder = some slots) (hold : slots[p.index]? = some old) (hpresent : old.present)
    (hrun : Ty.boundsInter old bound w = .ok (narrowed, w')) (n : Nat) :
    Tightened w' S ⟨S'.slots.insert p.binder (slots.set p.index narrowed), n⟩ := by
  have hle : w ≤ w' := (grows_boundsInter old bound).le_of_ok hrun
  intro b
  show Option.Rel _ _ (InsertionMap.find? _ b)
  rw [InsertionMap.find?_insert]
  split
  · next hbp =>
    subst hbp
    have hb := h p.binder
    rw [hslots] at hb
    cases hs : S.slots? p.binder with
    | none => rw [hs] at hb; cases hb
    | some slots₀ =>
      rw [hs] at hb
      obtain ⟨hb⟩ := hb
      refine .some (forall₂_set (fun _ _ h => h.grow hle) hb fun t t' ht' htt' => ?_)
      obtain rfl : old = t' := Option.some.inj (hold.symm.trans ht')
      exact htt'.boundsInter hw hpresent hrun
  · exact (h.grow hle) b

end ConstraintStore

/-! ## Comparisons -/

/-- All nodes, for statements that are not about particular types. -/
def Region.everything (w : World) : Region where
  base := w
  inside _ := True
  step _ _ := trivial
  shape _ _ := trivial
  newTy _ := trivial
  newBinder _ := ⟨trivial, fun _ => trivial⟩
  noType := trivial
  noPrefix := trivial

namespace CompareM

/-- One run beside itself, with constraints tighter than `S`. -/
def TightenedFrom (S : ConstraintStore) : StoreRel := fun w S₁ S₂ => S₁ = S₂ ∧ S.Tightened w S₁ ∧ w.Standard

theorem supports_tightenedFrom (w₀ : World) (S : ConstraintStore) :
    Supports (Region.everything w₀) (TightenedFrom S) where
  grow h hle _ := ⟨h.1, h.2.1.grow hle, h.2.2.grow hle⟩
  slots h _ := by rw [h.1]
  open_slot _ _ _ := ⟨trivial, trivial, trivial⟩
  narrow := by
    rintro w w' S₁ _ p slots old bound narrowed ⟨rfl, h, hw⟩ - hslots hold hpresent - - hrun n
    have hle : w ≤ w' := (grows_boundsInter old bound).le_of_ok hrun
    exact ⟨rfl, h.narrow hw hslots hold hpresent hrun n, hw.grow hle⟩

/-- The questions that a comparer is asked. -/
inductive Question (fuel : Nat) : CompareM Bool → Prop
  | subType (t₁ t₂ : Ty) : Question fuel (isSubType fuel t₁ t₂)
  | sameType (t₁ t₂ : Ty) : Question fuel (isSameType fuel t₁ t₂)
  | constructor (t₁ t₂ : Ty) : Question fuel (isSubTypeConstructor fuel t₁ t₂)
  | matchesType (t₁ t₂ : Ty) (simple : Bool) : Question fuel (matchesType fuel t₁ t₂ simple)
  | matchingParams (formals₁ formals₂ : List Ty) (foreign₁ foreign₂ : Bool) :
    Question fuel (matchingParams fuel formals₁ formals₂ foreign₁ foreign₂)
  | addConstraint (p : Param) (bound : Ty) : Question fuel (addConstraint fuel p bound)

variable {fuel : Nat} {m : CompareM Bool} {c c' : Comparer} {w w' : World} {answer : Bool}

theorem Question.inStep_everything (h : Question fuel m) (w₀ : World) {J : StoreRel}
    (hJ : Supports (Region.everything w₀) J) : InStep (Region.everything w₀) J m := by
  have hsub := inStep_isSubType hJ fuel
  cases h with
  | subType t₁ t₂ => exact hsub t₁ t₂ trivial trivial
  | sameType t₁ t₂ => exact inStep_same hJ hsub trivial trivial
  | constructor t₁ t₂ => exact inStep_conformsAsConstructor hJ hsub trivial trivial
  | matchesType t₁ t₂ simple => exact inStep_matchesWith hJ hsub simple fuel trivial trivial
  | matchingParams formals₁ formals₂ foreign₁ foreign₂ =>
    exact inStep_sameParams hJ hsub (fun _ _ => trivial) (fun _ _ => trivial) foreign₁ foreign₂
  | addConstraint p bound => exact inStep_narrow hJ hsub trivial trivial

/-- **Bounds only ever narrow.** Where every open slot holds bounds, a question that is answered, either way, leaves the
same binders under inference with as many slots each; cleared slots stay cleared, and of an open one the lower end is
joined, the upper end met with finitely many types. -/
theorem question_tightens (hm : Question fuel m) (hw : w.Standard) (hbounds : c.constraint.HoldsBounds w)
    (hrun : m c w = .ok ((answer, c'), w')) : w ≤ w' ∧ c.constraint.Tightened w' c'.constraint := by
  have hstep := hm.inStep_everything w (supports_tightenedFrom w c.constraint) c c w (Region.holds_base _)
    ⟨rfl, rfl, .refl hbounds, hw⟩
  rw [hrun] at hstep
  obtain ⟨-, -, -, hle, -, -, -, htight, -⟩ := hstep
  exact ⟨hle, htight⟩

/-- `X` is narrowed by `Int` from below; the store that holds it then is tighter than the one before. -/
theorem question_tightens_least :
    Question 6 (isSubType 6 Builtin.int.type SoleParam.least.x) ∧ SoleParam.leastWorld.Standard ∧
      SoleParam.leastComparer.constraint.HoldsBounds SoleParam.leastWorld ∧
      ∃ c' w', isSubType 6 Builtin.int.type SoleParam.least.x SoleParam.leastComparer SoleParam.leastWorld =
          .ok ((true, c'), w') ∧
        SoleParam.leastWorld ≤ w' ∧ SoleParam.leastComparer.constraint.Tightened w' c'.constraint := by
  have hw : SoleParam.leastWorld.Standard := SoleParam.leastWorld_built.1.standard
  have hbounds : SoleParam.leastComparer.constraint.HoldsBounds SoleParam.leastWorld := by
    intro b slots hslots t ht _
    obtain ⟨rfl, rfl⟩ := SoleParam.slots_leastComparer hslots
    obtain rfl : t = ⟨14⟩ := by simpa using ht
    decide +kernel
  have hm : Question 6 (isSubType 6 Builtin.int.type SoleParam.least.x) := .subType _ _
  have hanswer : ∃ c' w', isSubType 6 Builtin.int.type SoleParam.least.x SoleParam.leastComparer
      SoleParam.leastWorld = .ok ((true, c'), w') := exists_of_answer (by decide +kernel)
  obtain ⟨c', w', hrun⟩ := hanswer
  exact ⟨hm, hw, hbounds, c', w', hrun, question_tightens hm hw hbounds hrun⟩

end CompareM

end Conformance
