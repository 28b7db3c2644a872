import Conformance.Proofs.Aliases
import Conformance.Proofs.ClassOrder
import Conformance.Proofs.Erasures
import Conformance.Proofs.MatchingSymmetry
import Conformance.Proofs.Occurrences

/-!
# The same types and their erased names

Sameness looks at every part of a type, and erasure goes along one chain of parts. They agree on the types whose class
erasure comes to: of two classes that lie in types that lie in them in turn, the first lies beneath the second when the
types conform (`CompareM.beneath_of_conforms`).
-/

namespace Conformance

open Relation CompareM

namespace World

/-! ## Classes in types -/

/-- The class lies in the type: beneath every operand of its intersections, and beneath one of each of its unions. -/
inductive ClassIn (erased : Bool) (w : World) (s : Symbol) : Ty → Prop
  | ref {t q : Ty} {s₁ : Symbol} (ht : w.shape? t = some (.named q s₁)) (hs₁ : w.decls.isClass s₁)
    (h : Beneath erased w s s₁) : ClassIn erased w s t
  | refined {t parent info : Ty} {name : String} (ht : w.shape? t = some (.refined parent name info))
    (h : ClassIn erased w s parent) : ClassIn erased w s t
  | inter {t a b : Ty} (ht : w.shape? t = some (.inter a b)) (ha : ClassIn erased w s a) (hb : ClassIn erased w s b) :
    ClassIn erased w s t
  | left {t a b : Ty} (ht : w.shape? t = some (.union a b)) (ha : ClassIn erased w s a) : ClassIn erased w s t
  | right {t a b : Ty} (ht : w.shape? t = some (.union a b)) (hb : ClassIn erased w s b) : ClassIn erased w s t

/-- The type lies in the class: an operand of each of its intersections does, and all operands of its unions. -/
inductive InClass (erased : Bool) (w : World) (s : Symbol) : Ty → Prop
  | ref {t q : Ty} {s₁ : Symbol} (ht : w.shape? t = some (.named q s₁)) (hs₁ : w.decls.isClass s₁)
    (h : Beneath erased w s₁ s) : InClass erased w s t
  | refined {t parent info : Ty} {name : String} (ht : w.shape? t = some (.refined parent name info))
    (h : InClass erased w s parent) : InClass erased w s t
  | left {t a b : Ty} (ht : w.shape? t = some (.inter a b)) (ha : InClass erased w s a) : InClass erased w s t
  | right {t a b : Ty} (ht : w.shape? t = some (.inter a b)) (hb : InClass erased w s b) : InClass erased w s t
  | union {t a b : Ty} (ht : w.shape? t = some (.union a b)) (ha : InClass erased w s a) (hb : InClass erased w s b) :
    InClass erased w s t

/-- An intersection or a union, under refinements. -/
inductive Composed (w : World) : Ty → Prop
  | inter {t a b : Ty} (ht : w.shape? t = some (.inter a b)) : Composed w t
  | union {t a b : Ty} (ht : w.shape? t = some (.union a b)) : Composed w t
  | refined {t parent info : Ty} {name : String} (ht : w.shape? t = some (.refined parent name info))
    (h : Composed w parent) : Composed w t

variable {erased : Bool} {w v : World} {t u : Ty} {s s' : Symbol} {n : Nat}

theorem Composed.grow (h : w.Composed t) (hv : w ≤ v) : v.Composed t := by
  induction h with
  | inter ht => exact .inter (hv.shape ht)
  | union ht => exact .union (hv.shape ht)
  | refined ht _ ih => exact .refined (hv.shape ht) ih

/-- What is composed names no constructor. -/
theorem Composed.typeSymbolFrom (h : w.Composed t) (n : Nat) : ∀ g : Guard Ty, w.typeSymbolFrom n g t = none := by
  induction h generalizing n with
  | inter ht | union ht =>
    intro g
    by_contra hne
    obtain ⟨c, hc⟩ := Option.ne_none_iff_exists'.1 hne
    obtain ⟨m, g', hs⟩ := typeSymbolFrom_some hc
    rw [shape_of_shape? ht] at hs
    cases hs
  | refined ht _ ih =>
    intro g
    by_contra hne
    obtain ⟨c, hc⟩ := Option.ne_none_iff_exists'.1 hne
    obtain ⟨m, g', hs⟩ := typeSymbolFrom_some hc
    rw [shape_of_shape? ht] at hs
    cases (ih m g').symm.trans hs

theorem Composed.typeSymbol? (h : w.Composed t) : w.typeSymbol? t = none := h.typeSymbolFrom _ _

theorem Composed.not_nullConforms (h : w.Composed t) : nullConforms t w ≠ .ok (true, v) := by
  refine not_nullConforms_unnamed ?_ h.typeSymbol?
  cases h with
  | inter ht | union ht | refined ht => rw [aliased?, shape_of_shape? ht]

theorem Composed.plain (h : w.Composed t) : intercepts (w.shape t) = false ∧ (w.shape t).isNamed = false := by
  cases h with
  | inter ht | union ht | refined ht => rw [shape_of_shape? ht]; exact ⟨rfl, rfl⟩

namespace ClassIn

theorem has (h : w.ClassIn erased s t) : w.Has t := by
  cases h with
  | ref ht | refined ht | inter ht | left ht | right ht => exact Option.isSome_of_eq_some ht

theorem headed_or (h : w.ClassIn erased s t) : (∃ s₁, w.HeadedBy s₁ t ∧ w.Beneath erased s s₁) ∨ w.Composed t := by
  induction h with
  | ref ht hs₁ h => exact .inl ⟨_, .ref ht hs₁, h⟩
  | refined ht _ ih =>
    rcases ih with ⟨s₁, hhead, h⟩ | h
    · exact .inl ⟨s₁, .refined ht hhead, h⟩
    · exact .inr (.refined ht h)
  | inter ht => exact .inr (.inter ht)
  | left ht | right ht => exact .inr (.union ht)

theorem not_isStable (h : w.ClassIn erased s t) (hv : w ≤ v) (n : Nat) : v.isStable n t ≠ .ok true := by
  induction h generalizing n with
  | ref ht | refined ht | left ht | right ht =>
    cases n with
    | zero =>
      rintro ⟨⟩
    | succ n =>
      rw [isStable, shape_of_shape? (hv.shape ht)]
      rintro ⟨⟩
  | inter ht _ _ iha ihb =>
    cases n with
    | zero =>
      rintro ⟨⟩
    | succ n =>
      intro hr
      rw [isStable, shape_of_shape? (hv.shape ht)] at hr
      dsimp only at hr
      have ha := iha n
      cases hstable : v.isStable n _ with
      | error => rw [hstable] at hr; cases hr
      | ok b =>
        rw [hstable] at hr ha
        cases b with
        | true => exact ha rfl
        | false => exact ihb n hr

end ClassIn

namespace InClass

theorem has (h : w.InClass erased s t) : w.Has t := by
  cases h with
  | ref ht | refined ht | left ht | right ht | union ht => exact Option.isSome_of_eq_some ht

theorem headed_or (h : w.InClass erased s t) : (∃ s₁, w.HeadedBy s₁ t ∧ w.Beneath erased s₁ s) ∨ w.Composed t := by
  induction h with
  | ref ht hs₁ h => exact .inl ⟨_, .ref ht hs₁, h⟩
  | refined ht _ ih =>
    rcases ih with ⟨s₁, hhead, h⟩ | h
    · exact .inl ⟨s₁, .refined ht hhead, h⟩
    · exact .inr (.refined ht h)
  | left ht | right ht => exact .inr (.inter ht)
  | union ht => exact .inr (.union ht)

/-- A class that a type lies in is met through some reference. -/
theorem reference (h : w.InClass erased s t) : ∃ u q s₁, w.shape? u = some (.named q s₁) ∧ w.decls.isClass s₁ ∧
    w.Beneath erased s₁ s := by
  induction h with
  | ref ht hs₁ h => exact ⟨_, _, _, ht, hs₁, h⟩
  | refined _ _ ih | left _ _ ih | right _ _ ih | union _ _ _ ih => exact ih

/-- A class that lies in a type lies beneath those that the type lies in. -/
theorem beneath (h : w.InClass erased s' t) (ht : w.ClassIn erased s t) : w.Beneath erased s s' := by
  induction h with
  | ref hshape _ h =>
    cases ht with
    | ref hshape' _ h' =>
      cases hshape.symm.trans hshape'
      exact h'.trans h
    | refined hshape' | inter hshape' | left hshape' | right hshape' => cases hshape.symm.trans hshape'
  | refined hshape _ ih =>
    cases ht with
    | refined hshape' h' =>
      cases hshape.symm.trans hshape'
      exact ih h'
    | ref hshape' | inter hshape' | left hshape' | right hshape' => cases hshape.symm.trans hshape'
  | left hshape _ ih =>
    cases ht with
    | inter hshape' ha =>
      cases hshape.symm.trans hshape'
      exact ih ha
    | ref hshape' | refined hshape' | left hshape' | right hshape' => cases hshape.symm.trans hshape'
  | right hshape _ ih =>
    cases ht with
    | inter hshape' _ hb =>
      cases hshape.symm.trans hshape'
      exact ih hb
    | ref hshape' | refined hshape' | left hshape' | right hshape' => cases hshape.symm.trans hshape'
  | union hshape _ _ iha ihb =>
    cases ht with
    | left hshape' ha =>
      cases hshape.symm.trans hshape'
      exact iha ha
    | right hshape' hb =>
      cases hshape.symm.trans hshape'
      exact ihb hb
    | ref hshape' | refined hshape' | inter hshape' => cases hshape.symm.trans hshape'

end InClass

end World

namespace CompareM

section Beneath

variable {erased : Bool} {ρ : Corr} {w w₀ : World} {t u q : Ty} {s s' : Symbol}

/-- A class that lies in a type without `null` lies beneath the marker for such types. -/
theorem ensures_beneath_notNull (hw₀ : w₀.Built) (hle : w₀ ≤ w) (hM : ρ.Matches w w) (kt : ρ.ty t t) (ku : ρ.ty u u)
    (hu : w₀.shape? u = some (.named q Builtin.notNull.symbol)) (ht : w₀.ClassIn erased s t) (n : Nat) :
    Ensures w (Walk.descend false Nullability.step n t) fun answer =>
      answer = true → w₀.Beneath erased s Builtin.notNull.symbol := by
  have hmarked {x : Ty} (kx : ρ.ty x x) (n : Nat) : Ensures w (Walk.descend false Nullability.step n x) fun answer =>
      answer = true → Conforms erased w x u := ensures_notNull hM (hw₀.standard.grow hle) kx ku (hle.shape hu) n
  have hzero {x : Ty} {P : Prop} : Ensures w (Walk.descend false Nullability.step 0 x) fun answer => answer = true → P := by
    intro g v a g' v' _ hr
    cases hr
  induction ht generalizing n with
  | ref ht hs₁ h =>
    refine (hmarked kt n).mono fun _ hconf ha => ?_
    have hnow := (hconf ha).now hw₀.closed hle (Option.isSome_of_eq_some ht) (Option.isSome_of_eq_some hu)
    exact h.tail ⟨_, _, .ref ht hs₁, .ref hu (hw₀.standard.isClass .notNull), hnow⟩
  | refined ht _ ih =>
    cases n with
    | zero => exact hzero
    | succ n =>
      cases hM.parts kt (hle.shape ht) with | refined kp _ _ =>
      refine ensures_inside nofun (.world_bind fun v hv => ?_)
      rw [World.shape_of_shape? (hv.shape (hle.shape ht))]
      exact ih kp n
  | inter ht _ _ iha ihb =>
    cases n with
    | zero => exact hzero
    | succ n =>
      cases hM.parts kt (hle.shape ht) with | inter ka kb =>
      refine ensures_inside nofun (.world_bind fun v hv => ?_)
      rw [World.shape_of_shape? (hv.shape (hle.shape ht))]
      exact ((iha ka n).orElse (ihb kb n)).mono fun _ h ha => (h ha).elim id id
  | left ht _ ih =>
    cases n with
    | zero => exact hzero
    | succ n =>
      cases hM.parts kt (hle.shape ht) with | union ka kb =>
      refine ensures_inside nofun (.world_bind fun v hv => ?_)
      rw [World.shape_of_shape? (hv.shape (hle.shape ht))]
      exact ((ih ka n).andThen (hmarked kb n)).mono fun _ h ha => (h ha).1
  | right ht _ ih =>
    cases n with
    | zero => exact hzero
    | succ n =>
      cases hM.parts kt (hle.shape ht) with | union ka kb =>
      refine ensures_inside nofun (.world_bind fun v hv => ?_)
      rw [World.shape_of_shape? (hv.shape (hle.shape ht))]
      exact ((hmarked ka n).andThen (ih kb n)).mono fun _ h ha => (h ha).2

/-- The clause of the source takes a type apart into its operands; a reference that conforms by it to a composed type is
one to `Nothing`. -/
theorem beneath_of_below {S : World → Ty → Ty → Prop} (hw₀ : w₀.Built) (hle : w₀ ≤ w) (hS : Carried S S)
    (hM : ρ.Matches w w) (kt : ρ.ty t t) (ku : ρ.ty u u) (ht : w₀.ClassIn erased s t) (hu : w₀.InClass erased s' u)
    (hcomposed : w₀.Composed t ∨ w₀.Composed u)
    (hleft : ∀ {x : Ty}, w₀.ClassIn erased s x → ρ.ty x x → S w x u → w₀.Beneath erased s s')
    (h : Below erased S w t u) : w₀.Beneath erased s s' := by
  cases ht with
  | @ref _ q s₁ hshape hs₁ h₁ =>
    have hu' : w₀.Composed u := hcomposed.resolve_left fun h => by
      cases h with
      | inter ht | union ht | refined ht => cases hshape.symm.trans ht
    obtain ⟨y, v, hupper, -⟩ := (grows_upperBound t : Grows False _).total w
    rcases (below_named hS hM kt ku (hle.shape hshape) hupper).1 h with rfl | ⟨-, v, hnull⟩ | ⟨hplain, -⟩
    · obtain ⟨x, p, s₂, hx, hs₂, h₂⟩ := hu.reference
      have hpx : x.present := hw₀.standard.present hx nofun
      have hconf : Conforms erased w₀ t x := conforms_nothing hw₀.closed.identity_matches hw₀.standard
        ⟨rfl, Option.isSome_of_eq_some hshape⟩ ⟨rfl, Option.isSome_of_eq_some hx⟩ hshape (.leaf hpx hx rfl nofun)
      exact (h₁.tail ⟨t, x, .ref hshape hs₁, .ref hx hs₂, hconf⟩).trans h₂
    · exact absurd hnull (hu'.grow hle).not_nullConforms
    · exact absurd (hle.decls ▸ hs₁) hplain
  | refined hshape hparent =>
    cases hM.parts kt (hle.shape hshape) with | refined kp _ _ =>
    exact hleft hparent kp ((below_refined hS hM kt ku (hle.shape hshape)).1 h)
  | inter hshape ha hb =>
    cases hM.parts kt (hle.shape hshape) with | inter ka kb =>
    exact ((below_inter hS hM kt ku (hle.shape hshape)).1 h).elim (hleft ha ka) (hleft hb kb)
  | left hshape ha =>
    cases hM.parts kt (hle.shape hshape) with | union ka _ =>
    exact hleft ha ka ((below_union hS hM kt ku (hle.shape hshape)).1 h).1
  | right hshape hb =>
    cases hM.parts kt (hle.shape hshape) with | union _ kb =>
    exact hleft hb kb ((below_union hS hM kt ku (hle.shape hshape)).1 h).2

/-- **A class in a type that conforms lies beneath the classes that the other type lies in.** The induction is on the
derivation; where neither type is composed it is itself a step between classes. -/
theorem beneath_of_conforms (hw₀ : w₀.Built) (hle : w₀ ≤ w) (hM : ρ.Matches w w) (kt : ρ.ty t t) (ku : ρ.ty u u)
    (ht : w₀.ClassIn erased s t) (hu : w₀.InClass erased s' u) (h : Conforms erased w t u) : w₀.Beneath erased s s' := by
  refine h.induct (P := fun w t u => ∀ ρ : Corr, w₀ ≤ w → ρ.Matches w w → ρ.ty t t → ρ.ty u u → w₀.ClassIn erased s t →
    w₀.InClass erased s' u → w₀.Beneath erased s s') hM kt ku
    (fun w t _ ρ _ _ _ _ ht hu => hu.beneath ht)
    (fun {_ w t u S} hS hsub _ _ _ hpt hpu hholds ρ hle hM kt ku ht hu => ?_) ρ hle hM kt ku ht hu
  have hw := hw₀.standard.grow hle
  have hnow : Conforms erased w₀ t u :=
    Conforms.now (.step S hpt hpu (fun v x y h => (hsub v x y h).1) hholds) hw₀.closed hle ht.has hu.has
  have hleft {x : Ty} (hx : w₀.ClassIn erased s x) (kx : ρ.ty x x) (h : S w x u) : w₀.Beneath erased s s' :=
    (hsub w x u h).2 ρ hle hM kx ku hx hu
  have hright {y : Ty} (hy : w₀.InClass erased s' y) (ky : ρ.ty y y) (h : S w t y) : w₀.Beneath erased s s' :=
    (hsub w t y h).2 ρ hle hM kt ky ht hy
  have hbelow (hcomposed : w₀.Composed t ∨ w₀.Composed u) (h : Below erased S w t u) : w₀.Beneath erased s s' :=
    beneath_of_below hw₀ hle hS hM kt ku ht hu hcomposed hleft h
  by_cases hcomposed : w₀.Composed t ∨ w₀.Composed u
  swap
  · obtain ⟨s₁, hhead, h₁⟩ := ht.headed_or.resolve_right fun h => hcomposed (.inl h)
    obtain ⟨s₂, hhead', h₂⟩ := hu.headed_or.resolve_right fun h => hcomposed (.inr h)
    exact (h₁.tail ⟨t, u, hhead, hhead', hnow⟩).trans h₂
  have hplain : intercepts (w.shape t) = false := by
    cases ht with
    | ref ht | refined ht | inter ht | left ht | right ht => rw [World.shape_of_shape? (hle.shape ht)]; rfl
  have hthird {d : Shape} {P : Prop} (hd : w₀.shape? u = some d) (hnot : intercepts d = false) (hnamed : d.isNamed = false)
      (h : ∀ n, Tells erased w (third n (asking S) t u) P) : P := by
    have hshape := World.shape_of_shape? (hle.shape hd)
    exact (holds_of_tells hS hM kt ku (by rw [hshape, hnot]) hplain (by rw [hshape, hnamed, Bool.and_false]) h).1 hholds
  cases hu with
  | @ref _ q s₂ hshape hs₂ h₂ =>
    have ht' : w₀.Composed t := hcomposed.resolve_right fun h => by
      cases h with
      | inter ht | union ht | refined ht => cases hshape.symm.trans ht
    have hshape' := hle.shape hshape
    have hends := World.ends?_of_isClass hshape' (hle.decls ▸ hs₂)
    have hsymbol : targetSymbol w u = s₂ := by rw [targetSymbol, World.shape_of_shape? hshape']
    obtain ⟨n, hn⟩ := (holds_named hS hM kt ku (by rw [World.shape_of_shape? hshape']; rfl) (ht'.grow hle).plain.2
      hplain).1 hholds
    have hread := readable_of_affirmed hM ku hw hends hn kt
    rcases (tells_thirdNamed_none hS hM kt ku hw hends hread).affirmed_iff.1 hn with
      ⟨-, hstable⟩ | ⟨hs, v, hnull⟩ | ⟨htrait, h⟩ | h
    · exact absurd hstable (ht.not_isStable hle n)
    · obtain rfl : s₂ = Builtin.notNull.symbol := hsymbol.symm.trans hs
      exact (ensures_run (ensures_beneath_notNull hw₀ hle hM kt ku hshape ht _) le_rfl hnull rfl).trans h₂
    · refine absurd h (not_conformsAsConstructor_unnamed hw₀ hle.decls (fun v hv => ?_) htrait)
      exact (ht'.grow (hle.trans hv)).typeSymbol?
    · exact hbelow hcomposed h
  | refined hshape hparent =>
    cases hM.parts ku (hle.shape hshape) with | refined kp _ _ =>
    rcases hthird hshape rfl rfl fun n => tells_third_refined hS hM kt ku (hle.shape hshape) with ⟨h, -⟩ | h
    · exact hright hparent kp h
    · exact hbelow hcomposed h
  | left hshape ha =>
    cases hM.parts ku (hle.shape hshape) with | inter ka _ =>
    exact hright ha ka (hthird hshape rfl rfl fun n => tells_third_inter hS hM kt ku (hle.shape hshape)).1
  | right hshape hb =>
    cases hM.parts ku (hle.shape hshape) with | inter _ kb =>
    exact hright hb kb (hthird hshape rfl rfl fun n => tells_third_inter hS hM kt ku (hle.shape hshape)).2
  | union hshape ha hb =>
    cases hM.parts ku (hle.shape hshape) with | union ka kb =>
    rcases hthird hshape rfl rfl fun n => tells_third_union hS hM kt ku (hle.shape hshape) with h | h | h
    · exact hright ha ka h
    · exact hright hb kb h
    · exact hbelow hcomposed h

end Beneath

end CompareM

namespace World

/-! ## Erased classes -/

/-- Erasure comes from the type to the class in fewer than `n` steps, from a union to the root class. -/
inductive ErasesTo (w : World) : Nat → Ty → Symbol → Prop
  | ref {n : Nat} {t q : Ty} {s : Symbol} (ht : w.shape? t = some (.named q s)) (hs : w.decls.isClass s) :
    ErasesTo w (n + 1) t s
  | refined {n : Nat} {t parent info : Ty} {name : String} {s : Symbol}
    (ht : w.shape? t = some (.refined parent name info)) (h : ErasesTo w n parent s) : ErasesTo w (n + 1) t s
  | inter {n : Nat} {t a b : Ty} {s : Symbol} (ht : w.shape? t = some (.inter a b)) (h : ErasesTo w n a s) :
    ErasesTo w (n + 1) t s
  | union {n : Nat} {t a b : Ty} (ht : w.shape? t = some (.union a b)) : ErasesTo w (n + 1) t Builtin.object.symbol

/-- The name that a class erases to: the top class erases to the root class. -/
def className (w : World) (s : Symbol) : String :=
  w.decls.name (if s = Builtin.any.symbol then Builtin.object.symbol else s)

/-- Erasure comes to classes from both types. Where these differ, each lies in its type and its type lies in it. -/
def Classed (erased : Bool) (w : World) (a b : Ty) : Prop :=
  ∃ s s', w.ErasesTo Limits.walkDepth.toNat a s ∧ w.ErasesTo Limits.walkDepth.toNat b s' ∧ (s ≠ s' →
    (w.ClassIn erased s a ∧ w.InClass erased s a) ∧ w.ClassIn erased s' b ∧ w.InClass erased s' b)

/-- Erasure comes to classes from both types. Where these differ, each lies in its type and its type lies in it, and if
they lie beneath each other they have one name. -/
def Comparable (erased : Bool) (w : World) (a b : Ty) : Prop :=
  ∃ s s', w.ErasesTo Limits.walkDepth.toNat a s ∧ w.ErasesTo Limits.walkDepth.toNat b s' ∧ (s ≠ s' →
    (w.ClassIn erased s a ∧ w.InClass erased s a) ∧ (w.ClassIn erased s' b ∧ w.InClass erased s' b) ∧
      (w.Beneath erased s s' → w.Beneath erased s' s → w.className s = w.className s'))

variable {erased : Bool} {w v : World} {t u a b : Ty} {s s' : Symbol} {n : Nat}

theorem ErasesTo.has (h : w.ErasesTo n t s) : w.Has t := by
  cases h with
  | ref ht | refined ht | inter ht | union ht => exact Option.isSome_of_eq_some ht

theorem ErasesTo.erased? (h : w.ErasesTo n t s) : w.erased? n (w.site t) = some (w.className s) := by
  induction h with
  | @ref n t q s ht hs =>
    rw [site_of_shape ht, Site.of, World.erased?, erasing, className]
    by_cases hany : s = Builtin.any.symbol
    · rw [if_pos hany, if_pos hany]
    · rw [if_neg hany, if_neg hany, if_pos hs]
  | refined ht _ ih | inter ht _ ih => simpa only [site_of_shape ht, Site.of, World.erased?, erasing, shape_of_shape? ht]
  | union ht =>
    have hobject : ¬ Builtin.object.symbol = Builtin.any.symbol := by decide
    simp only [site_of_shape ht, Site.of, World.erased?, erasing, shape_of_shape? ht, className, if_neg hobject]

theorem ErasesTo.erased_eq (h : w.ErasesTo Limits.walkDepth.toNat t s) : w.erased t = w.className s := by
  rw [World.erased, h.erased?]
  rfl

theorem ErasesTo.isClass (hw : w.Standard) (h : w.ErasesTo n t s) : w.decls.isClass s := by
  induction h with
  | ref _ hs => exact hs
  | refined _ _ ih | inter _ _ ih => exact ih
  | union _ => exact hw.isClass .object

/-- Where the names of the classes are ranked, classes of one name erase to one name. -/
theorem Ranked.className_eq {rank : String → ℕ} (h : w.Ranked rank) (hw : w.Standard) (hs : w.decls.isClass s)
    (hs' : w.decls.isClass s') (hname : w.decls.name s = w.decls.name s') : w.className s = w.className s' := by
  by_cases hany : s = Builtin.any.symbol
  · rw [h.top hs' (hname ▸ hany ▸ hw.name .any), hany]
  · have hany' : s' ≠ Builtin.any.symbol := fun hany' => hany (h.top hs (hname.trans (hany' ▸ hw.name .any)))
    rw [className, className, if_neg hany, if_neg hany', hname]

/-- So there the types are comparable as soon as each of the classes that they erase to is the class of its type. -/
theorem Classed.comparable {rank : String → ℕ} (h : w.Classed erased a b) (hw : w.Built) (hrank : w.Ranked rank) :
    w.Comparable erased a b := by
  obtain ⟨s, s', ha, hb, hapart⟩ := h
  refine ⟨s, s', ha, hb, fun hne => ?_⟩
  obtain ⟨hain, hbin⟩ := hapart hne
  refine ⟨hain, hbin, fun hab hba => ?_⟩
  exact hrank.className_eq hw.standard (ha.isClass hw.standard) (hb.isClass hw.standard) (hrank.name_eq hw hab hba)

theorem Comparable.has (h : w.Comparable erased a b) : w.Has a ∧ w.Has b := by
  obtain ⟨s, s', ha, hb, -⟩ := h
  exact ⟨ha.has, hb.has⟩

/-- **Comparable types that are the same have one erased name.** -/
theorem Comparable.erased_eq (h : w.Comparable erased a b) (hw : w.Built) (hsame : Same erased w a b) :
    w.erased a = w.erased b := by
  obtain ⟨s, s', ha, hb, hapart⟩ := h
  rw [ha.erased_eq, hb.erased_eq]
  by_cases hs : s = s'
  · rw [hs]
  obtain ⟨⟨hain, hina⟩, ⟨hbin, hinb⟩, hcycle⟩ := hapart hs
  obtain rfl | ⟨hab, hba⟩ := hsame.2.2
  · exact ha.erased_eq.symm.trans hb.erased_eq
  have hM := hw.closed.identity_matches
  have ka : (Corr.identity w).ty a a := ⟨rfl, hain.has⟩
  have kb : (Corr.identity w).ty b b := ⟨rfl, hbin.has⟩
  exact hcycle (beneath_of_conforms hw le_rfl hM ka kb hain hinb hab)
    (beneath_of_conforms hw le_rfl hM kb ka hbin hina hba)

/-- Comparable types that are alike as formals have one erased name: the top class erases to the root class. -/
theorem Comparable.erased_eq_of_like {foreign : Bool} (h : w.Comparable erased a b) (hw : w.Built)
    (hlike : Like erased foreign w a b) : w.erased a = w.erased b := by
  rcases hlike with hsame | ⟨-, htop⟩
  · exact h.erased_eq hw hsame
  have herased (c : Builtin) : w.erased c.type = w.className c.symbol :=
    ErasesTo.erased_eq (.ref (hw.standard.shape c) (hw.standard.isClass c))
  simp only [isTopPair, Bool.or_eq_true, Bool.and_eq_true, decide_eq_true_eq] at htop
  rcases htop with ⟨rfl, rfl⟩ | ⟨rfl, rfl⟩ <;> rw [herased, herased] <;> rfl

/-- The signatures of the types match, asked for one after the other. -/
def SignaturesMatch (w : World) (t u : Ty) : Prop :=
  ∀ v, w ≤ v → ∀ k, ∃ sig v₁ sig' v₂, t.signature (k + 1) v = .ok (sig, v₁) ∧ u.signature (k + 1) v₁ = .ok (sig', v₂) ∧
    sig.matches sig' = true

section Methods

variable {b c : BinderId} {d e : Binder}

/-- Methods whose parameters have the same erased names have matching signatures. -/
theorem signaturesMatch_of_erased (hw : w.Built) (ht : w.shape? t = some (.method b)) (hu : w.shape? u = some (.method c))
    (hd : w.binder? b = some d) (he : w.binder? c = some e) (h : d.infos.map w.erased = e.infos.map w.erased) :
    w.SignaturesMatch t u := by
  intro v hv k
  have hM := hw.closed.identity_matches
  obtain ⟨v₁, ht, hle⟩ := signature_method trivial hM hw.standard ht hd
    (fun _ hi => ⟨rfl, (hw.closed.binder hd).1 _ hi⟩) ⟨rfl, (hw.closed.binder hd).2⟩ hv k
  obtain ⟨v₂, hu, -⟩ := signature_method trivial hM hw.standard hu he
    (fun _ hi => ⟨rfl, (hw.closed.binder he).1 _ hi⟩) ⟨rfl, (hw.closed.binder he).2⟩ (hv.trans hle) k
  exact ⟨_, v₁, _, v₂, ht, hu, decide_eq_true h⟩

/-- The parameters of two methods are found to be the same, those of the second one under the binder of the first. -/
def AcceptsParams (erased : Bool) (w : World) (b c : BinderId) (d e : Binder) : Prop :=
  w.Replies erased (fun n sub => do
    sameParams sub d.infos (← infosUnder n c b e) d.flags.foreign e.flags.foreign) true

theorem AcceptsParams.like (h : w.AcceptsParams erased b c d e) (hw : w.Closed) (hd : w.binder? b = some d)
    (he : w.binder? c = some e) (hclear : ∀ i ∈ e.infos, w.Clear true (·.IsParamOf c) i) :
    List.Forall₂ (Like erased (d.flags.foreign || e.flags.foreign) w) d.infos e.infos := by
  classical
  have hM := hw.identity_matches
  have kb : (Corr.identity w).binder b b := ⟨rfl, Option.isSome_of_eq_some hd⟩
  have kc : (Corr.identity w).binder c c := ⟨rfl, Option.isSome_of_eq_some he⟩
  obtain ⟨_, _, hd', hd'', kd⟩ := hM.binder trivial kb
  obtain ⟨_, _, he', he'', ke⟩ := hM.binder trivial kc
  cases hd.symm.trans hd'
  cases hd.symm.trans hd''
  cases he.symm.trans he'
  cases he.symm.trans he''
  have hasks (n : Nat) : Uniform (fun sub => do
      sameParams sub d.infos (← infosUnder n c b e) d.flags.foreign e.flags.foreign) := fun _ hR _ _ hsub =>
    hR.bind (hR.mapM (fun _ => hR.lifted _) _) fun _ => hR.sameParams hsub _ _ _ _
  obtain ⟨fuel, x, v, hasked⟩ := Replies.asked h hw hasks fun n hsub =>
    .bind (sim_infosUnder trivial (.inr (Nat.le_refl n)) kc kb ke) fun σ hσ _ _ hformals =>
      sim_sameParams (hsub.mono hσ) (Corr.tys_mono hσ kd.infos) hformals _ _
  obtain ⟨formals, x₁, v₁, hinfos, hsame⟩ := run_bind_ok hasked
  obtain ⟨rfl, hformals⟩ := infosUnder_ok hinfos
  cases mapM_same (fun i hi _ hr => substBinder_same _ (hclear i hi) hr) hformals
  rw [sameParams_asking] at hsame
  injection hsame with hsame
  exact of_decide_eq_true (congrArg (·.1.1) hsame)

end Methods

end World

namespace CompareM

/-- **Erasure respects sameness as far as it keeps the classes of types apart.** Comparable types that are the same have one
erased name. Methods with comparable parameters have matching signatures if the parameters are the same in pairs, or if they
are found to be the same where conformance of methods asks for it; there the parameters of the second method may not
mention one another. Where the hierarchies of classes are acyclic, the rules for built-in classes included, types that lie
in the classes they erase to, and in which these lie, are comparable. -/
theorem isSameType_erasure {erased : Bool} {w : World} (hw : w.Built) :
    (∀ a b, w.Comparable erased a b → w.Replies erased (fun _ sub => same sub a b) true →
      ∃ name v v', a.erasedName w = .ok (name, v) ∧ b.erasedName w = .ok (name, v')) ∧
    (∀ t u b c d e, w.shape? t = some (.method b) → w.shape? u = some (.method c) → w.binder? b = some d →
      w.binder? c = some e → List.Forall₂ (w.Comparable erased) d.infos e.infos →
      (List.Forall₂ (fun x y => w.Replies erased (fun _ sub => same sub x y) true) d.infos e.infos →
        w.SignaturesMatch t u) ∧
      ((∀ i ∈ e.infos, w.Clear true (·.IsParamOf c) i) → w.AcceptsParams erased b c d e → w.SignaturesMatch t u)) ∧
    ∀ rank, w.Ranked rank → ∀ a b, w.Classed erased a b → w.Comparable erased a b := by
  classical
  have herased {a b : Ty} (h : w.Comparable erased a b) (hreplies : w.Replies erased (fun _ sub => same sub a b) true) :
      w.erased a = w.erased b := by
    obtain ⟨ha, hb⟩ := h.has
    obtain ⟨_, c, v, hasked⟩ := hreplies.asked hw.closed (fun _ _ hR _ _ hsub => hR.same hsub a b)
      fun _ hsub => sim_same hsub ⟨rfl, ha⟩ ⟨rfl, hb⟩
    rw [same_asking] at hasked
    injection hasked with hasked
    exact h.erased_eq hw (of_decide_eq_true (congrArg (·.1.1) hasked))
  refine ⟨fun a b h hreplies => ?_, fun t u b c d e ht hu hd he h => ⟨fun hreplies => ?_, fun hclear haccepts => ?_⟩,
    fun rank hrank a b h => h.comparable hw hrank⟩
  · have hM := hw.closed.identity_matches
    obtain ⟨ha, hb⟩ := h.has
    obtain ⟨v, hname, -⟩ := World.erasedName_run trivial hM hw.standard ⟨rfl, ha⟩ le_rfl
    obtain ⟨v', hname', -⟩ := World.erasedName_run trivial hM hw.standard ⟨rfl, hb⟩ le_rfl
    exact ⟨w.erased b, v, v', herased h hreplies ▸ hname, hname'⟩
  · exact World.signaturesMatch_of_erased hw ht hu hd he (World.map_erased_eq (h.mp (fun _ _ => herased) hreplies))
  · have hlike := World.AcceptsParams.like haccepts hw.closed hd he hclear
    exact World.signaturesMatch_of_erased hw ht hu hd he (World.map_erased_eq (h.mp (fun _ _ h => h.erased_eq_of_like hw) hlike))

/-- The world with one more class. -/
def withClass (name : String) (parent : Ty) (w : World) : World :=
  { w with decls := (w.decls.register
      { kind := .cls, name, owner := .absent, flags := { static := true }, parents := [parent] }).2 }

theorem built_withClass {w : World} (hw : w.Built) (name : String) (parent : Ty) (hparent : w.Has parent) :
    (withClass name parent w).Built :=
  .register hw _ (Option.isSome_of_eq_some hw.standard.absent) fun _ ht => List.mem_singleton.1 ht ▸ hparent

/-- References to four classes at `15` to `18`, and the intersections of the second one with the first one and with the
fourth one, in both orders, at `19` to `21`. -/
def crossTypes : World :=
  [.named .noPrefix ⟨44⟩, .named .noPrefix ⟨45⟩, .named .noPrefix ⟨46⟩, .named .noPrefix ⟨47⟩, .inter ⟨16⟩ ⟨15⟩,
    .inter ⟨16⟩ ⟨18⟩, .inter ⟨18⟩ ⟨16⟩].foldl (fun w d => { w with types := (w.types.intern d).2 }) World.initial

/-- The classes are `Animal` and, under it, two that are called `Dog` and one `Cat`; there are methods with the parameter
types `Dog & Animal`, the other `Dog`, `Dog & Cat` and `Cat & Dog` at `22` to `25`. -/
def crossWorld : World :=
  let w := withClass "Animal" Builtin.object.type crossTypes
  let w := withClass "Cat" ⟨15⟩ (withClass "Dog" ⟨15⟩ (withClass "Dog" ⟨15⟩ w))
  let w := withMethod (withMethod w ⟨19⟩ Builtin.int.type) ⟨17⟩ Builtin.int.type
  withMethod (withMethod w ⟨20⟩ Builtin.int.type) ⟨21⟩ Builtin.int.type

theorem crossTypes_built : crossTypes.Built := by
  have h₁ := World.Built.intern .initial (.named .noPrefix ⟨44⟩) (World.mentions_named (by decide) _)
  have h₂ := h₁.intern (.named .noPrefix ⟨45⟩) (World.mentions_named (by decide) _)
  have h₃ := h₂.intern (.named .noPrefix ⟨46⟩) (World.mentions_named (by decide) _)
  have h₄ := h₃.intern (.named .noPrefix ⟨47⟩) (World.mentions_named (by decide) _)
  have h₅ := h₄.intern (.inter ⟨16⟩ ⟨15⟩) (.inter ⟨rfl, by decide⟩ ⟨rfl, by decide⟩)
  have h₆ := h₅.intern (.inter ⟨16⟩ ⟨18⟩) (.inter ⟨rfl, by decide⟩ ⟨rfl, by decide⟩)
  exact h₆.intern (.inter ⟨18⟩ ⟨16⟩) (.inter ⟨rfl, by decide⟩ ⟨rfl, by decide⟩)

theorem crossWorld_built : crossWorld.Built := by
  have hanimal := built_withClass crossTypes_built "Animal" Builtin.object.type (by decide)
  have hdog := built_withClass hanimal "Dog" ⟨15⟩ (by decide)
  have htwin := built_withClass hdog "Dog" ⟨15⟩ (by decide)
  have hcat := built_withClass htwin "Cat" ⟨15⟩ (by decide)
  have h₁ := built_withMethod hcat ⟨19⟩ Builtin.int.type (by decide) (by decide)
  have h₂ := built_withMethod h₁ ⟨17⟩ Builtin.int.type (by decide) (by decide)
  have h₃ := built_withMethod h₂ ⟨20⟩ Builtin.int.type (by decide) (by decide)
  exact built_withMethod h₃ ⟨21⟩ Builtin.int.type (by decide) (by decide)

/-- Every class ranks below what it conforms to. -/
def crossRank : String → ℕ
  | "Nothing" => 0
  | "Null" => 1
  | "Animal" | "AnyVal" => 3
  | "Object" | "NotNull" | "Lambda$I" | "Lambda$P" | "Lambda$N" => 4
  | "Any" => 5
  | _ => 2

/-- The classes of the world, and everything else that is declared in it. -/
def crossSymbols : List Symbol := (List.range 47).map fun n => ⟨n + 1⟩

theorem mem_crossSymbols {s : Symbol} (hs : crossWorld.decls.isClass s) : s ∈ crossSymbols := by
  have hsize : crossWorld.decls.entries.size = 47 := by decide
  obtain ⟨n⟩ := s
  cases n with
  | zero => cases hs
  | succ n =>
    refine List.mem_map.2 ⟨n, List.mem_range.2 ?_, rfl⟩
    by_contra hlarge
    have hnone : crossWorld.decls.get? ⟨n + 1⟩ = none := Array.getElem?_eq_none (by omega)
    rw [Declarations.isClass, Declarations.kind?, hnone] at hs
    cases hs

theorem crossWorld_ranked : crossWorld.Ranked crossRank where
  parents {s t} hs ht := by
    have hall : ∀ s ∈ crossSymbols, crossWorld.decls.isClass s → ∀ t ∈ crossWorld.decls.parents s,
        ∃ s' ∈ crossSymbols, crossWorld.shape? t = some (.named .noPrefix s') ∧ crossWorld.decls.isClass s' ∧
          crossWorld.Rises crossRank s s' := by decide
    obtain ⟨s', -, hshape, hs', hrises⟩ := hall s (mem_crossSymbols hs) hs t ht
    exact ⟨s', .ref hshape hs', hrises⟩
  bottom {s} hs := by
    have hall : ∀ s ∈ crossSymbols, crossWorld.Rises crossRank Builtin.nothing.symbol s := by decide
    exact hall s (mem_crossSymbols hs)
  null {s} hs hne _ _ := by
    have hall : ∀ s ∈ crossSymbols, s ≠ Builtin.nothing.symbol → crossWorld.Rises crossRank Builtin.null.symbol s := by
      decide
    exact hall s (mem_crossSymbols hs) hne
  marker := by decide
  trait {s s'} hs hs' hfits := by
    have hall : ∀ s ∈ crossSymbols, crossWorld.decls.isClass s → ∀ x ∈ Builtin.traits, crossWorld.Fits s x.2 →
        crossWorld.Rises crossRank s x.2 := by decide
    obtain ⟨x, hx, hxs⟩ := List.any_eq_true.1 hs'
    obtain rfl := of_decide_eq_true hxs
    exact hall s (mem_crossSymbols hs) hs x hx hfits
  top {s} hs hname := by
    have hall : ∀ s ∈ crossSymbols, crossWorld.decls.name s = Builtin.any.name → s = Builtin.any.symbol := by
      decide
    exact hall s (mem_crossSymbols hs) hname

/-- `Dog & Animal` and the other `Dog`: each lies in the class that it erases to. -/
theorem classed_dogs : crossWorld.Classed false ⟨19⟩ ⟨17⟩ := by
  have hw := crossWorld_built
  have hclass (s : Symbol) (hs : s ∈ [⟨44⟩, ⟨45⟩, ⟨46⟩]) : crossWorld.decls.isClass s := by
    revert s
    decide
  have hanimal : crossWorld.shape? ⟨15⟩ = some (.named .noPrefix ⟨44⟩) := by decide
  have hdog : crossWorld.shape? ⟨16⟩ = some (.named .noPrefix ⟨45⟩) := by decide
  have htwin : crossWorld.shape? ⟨17⟩ = some (.named .noPrefix ⟨46⟩) := by decide
  have hnarrowed : crossWorld.shape? ⟨19⟩ = some (.inter ⟨16⟩ ⟨15⟩) := by decide
  have hreturns : crossWorld.Returns false ⟨16⟩ ⟨15⟩ true :=
    World.returns_of_run 12 (by decide)
  have hleans : crossWorld.Leans false ⟨45⟩ ⟨44⟩ := ⟨⟨16⟩, ⟨15⟩, .ref hdog (hclass _ (by decide)),
    .ref hanimal (hclass _ (by decide)), (hreturns.iff hw.closed (by decide) (by decide)).1 rfl⟩
  have hdog' := hclass ⟨45⟩ (by decide)
  have htwin' := hclass ⟨46⟩ (by decide)
  refine ⟨⟨45⟩, ⟨46⟩, .inter hnarrowed (.ref hdog hdog'), .ref htwin htwin', fun _ => ⟨⟨?_, ?_⟩, ?_, ?_⟩⟩
  · exact .inter hnarrowed (.ref hdog hdog' .refl) (.ref hanimal (hclass _ (by decide)) (.single hleans))
  · exact .left hnarrowed (.ref hdog hdog' .refl)
  · exact .ref htwin htwin' .refl
  · exact .ref htwin htwin' .refl

/-- The method with one parameter of the given type. -/
def oneParam (formal : Ty) : Binder :=
  { kind := .method {}, names := ["x"], infos := [formal], result := Builtin.int.type }

theorem clear_twin : crossWorld.Clear true (·.IsParamOf ⟨1⟩) ⟨17⟩ := by
  refine World.Clear.of_kept (X := (· ∈ [⟨17⟩, Ty.noPrefix])) (fun t ht => ?_) (by decide)
  have hhas : ∀ t ∈ [⟨17⟩, Ty.noPrefix], crossWorld.Has t := by decide
  have hinside : ∀ t ∈ [⟨17⟩, Ty.noPrefix], ∀ u ∈ crossWorld.inside true t, u ∈ [⟨17⟩, Ty.noPrefix] := by decide
  refine ⟨⟨crossWorld_built.closed.known (hhas t ht), ?_⟩, hinside t ht⟩
  have htwin : crossWorld.shape? ⟨17⟩ = some (.named .noPrefix ⟨46⟩) := by decide
  have hnoPrefix : crossWorld.shape? .noPrefix = some (.fixed .noPrefix) := by decide
  simp only [List.mem_cons, List.not_mem_nil, or_false] at ht
  rcases ht with rfl | rfl
  · rw [World.shape_of_shape? htwin]
    rintro ⟨i, h | h⟩ <;> cases h
  · rw [World.shape_of_shape? hnoPrefix]
    rintro ⟨i, h | h⟩ <;> cases h

/-- `Dog & Animal` is the same as the other `Dog`, with which it shares the name; methods with these as parameters have
matching signatures. -/
theorem isSameType_erasure_dogs : crossWorld.Built ∧ crossWorld.Ranked crossRank ∧
    crossWorld.Classed false ⟨19⟩ ⟨17⟩ ∧ crossWorld.Comparable false ⟨19⟩ ⟨17⟩ ∧
    crossWorld.Replies false (fun _ sub => same sub ⟨19⟩ ⟨17⟩) true ∧
    (∃ name v v', Ty.erasedName ⟨19⟩ crossWorld = .ok (name, v) ∧ Ty.erasedName ⟨17⟩ crossWorld = .ok (name, v')) ∧
    crossWorld.Clear true (·.IsParamOf ⟨1⟩) ⟨17⟩ ∧
    crossWorld.AcceptsParams false ⟨0⟩ ⟨1⟩ (oneParam ⟨19⟩) (oneParam ⟨17⟩) ∧ crossWorld.SignaturesMatch ⟨22⟩ ⟨23⟩ := by
  have hw := crossWorld_built
  have hsame : crossWorld.Replies false (fun _ sub => same sub ⟨19⟩ ⟨17⟩) true :=
    World.replies_of_run 12 (by decide)
  have haccepts : crossWorld.AcceptsParams false ⟨0⟩ ⟨1⟩ (oneParam ⟨19⟩) (oneParam ⟨17⟩) :=
    World.replies_of_run 12 (by decide)
  obtain ⟨hnames, hmethods, hcomparable⟩ := @isSameType_erasure false _ hw
  have hdogs := hcomparable crossRank crossWorld_ranked ⟨19⟩ ⟨17⟩ classed_dogs
  have hclear : ∀ i ∈ (oneParam ⟨17⟩).infos, crossWorld.Clear true (·.IsParamOf ⟨1⟩) i := fun i hi =>
    List.mem_singleton.1 hi ▸ clear_twin
  have hmatch := (hmethods ⟨22⟩ ⟨23⟩ ⟨0⟩ ⟨1⟩ (oneParam ⟨19⟩) (oneParam ⟨17⟩) (by decide) (by decide)
    (by decide) (by decide) (.cons hdogs .nil)).2 hclear haccepts
  exact ⟨hw, crossWorld_ranked, classed_dogs, hdogs, hsame, hnames _ _ hdogs hsame, clear_twin, haccepts, hmatch⟩

/-- `Dog & Cat` and `Cat & Dog` are the same and erase to their first operands, so the parameters of methods with them are
accepted and the signatures do not match. Nor do the methods conform. -/
theorem isSameType_erasure_operands : crossWorld.Built ∧
    crossWorld.shape? ⟨20⟩ = some (.inter ⟨16⟩ ⟨18⟩) ∧ crossWorld.shape? ⟨21⟩ = some (.inter ⟨18⟩ ⟨16⟩) ∧
    crossWorld.Replies false (fun _ sub => same sub ⟨20⟩ ⟨21⟩) true ∧
    (∃ v v', Ty.erasedName ⟨20⟩ crossWorld = .ok ("Dog", v) ∧ Ty.erasedName ⟨21⟩ crossWorld = .ok ("Cat", v')) ∧
    crossWorld.shape? ⟨24⟩ = some (.method ⟨2⟩) ∧ crossWorld.shape? ⟨25⟩ = some (.method ⟨3⟩) ∧
    crossWorld.binder? ⟨2⟩ = some (oneParam ⟨20⟩) ∧ crossWorld.binder? ⟨3⟩ = some (oneParam ⟨21⟩) ∧
    crossWorld.AcceptsParams false ⟨2⟩ ⟨3⟩ (oneParam ⟨20⟩) (oneParam ⟨21⟩) ∧
    ¬ crossWorld.SignaturesMatch ⟨24⟩ ⟨25⟩ ∧ crossWorld.Returns false ⟨24⟩ ⟨25⟩ false := by
  have hname (t : Ty) (name : String) (h : (t.erasedName crossWorld).toOption.map (·.1) = some name) :
      ∃ v, t.erasedName crossWorld = .ok (name, v) := by
    obtain ⟨⟨_, v⟩, hrun, rfl⟩ := exists_of_map h
    exact ⟨v, hrun⟩
  obtain ⟨v, hdog⟩ := hname ⟨20⟩ "Dog" (by decide)
  obtain ⟨v', hcat⟩ := hname ⟨21⟩ "Cat" (by decide)
  refine ⟨crossWorld_built, by decide +kernel, by decide +kernel, World.replies_of_run 12 (by decide +kernel),
    ⟨v, v', hdog, hcat⟩, by decide, by decide, by decide, by decide,
    World.replies_of_run 12 (by decide +kernel), fun h => ?_, World.returns_of_run 12 (by decide +kernel)⟩
  obtain ⟨sig, v₁, sig', v₂, hsig, hsig', hmatch⟩ := h crossWorld le_rfl 0
  have hrun : ((do return (← Ty.signature 1 ⟨24⟩).matches (← Ty.signature 1 ⟨25⟩) : WorldM Bool)
      crossWorld).toOption.map (·.1) = some false := by decide
  rw [bind_run hsig, bind_run hsig'] at hrun
  cases hmatch.symm.trans (Option.some.inj hrun)

end CompareM

end Conformance
