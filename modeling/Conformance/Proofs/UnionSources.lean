import Conformance.Proofs.Replacement
import Conformance.Proofs.Termination

/-!
# Taking unions apart

A union that conforms does so operand by operand, as long as each question that the target asks of the union as a whole
comes to the operands as well. It does not where a name is met through the end of its bounds by the union, while an
operand is a name of the same symbol and is compared by its prefix only (`World.Apart`); and a refinement asks for
members, which the union joins from those of its operands.
-/

namespace Conformance

open CompareM

namespace World

/-- The source `j` is `x`, or a union with the operand `x`, or bounds in which the bounds `x` are joined with others. -/
inductive Merges (w : World) : Ty → Ty → Prop
  | same {t : Ty} : Merges w t t
  | left {m a b : Ty} (shape : w.shape? m = some (.union a b)) : Merges w m a
  | right {m a b : Ty} (shape : w.shape? m = some (.union a b)) : Merges w m b
  | bounds {j x lo hi lo' hi' : Ty} (shape : w.shape? j = some (.bounds lo hi))
    (shape' : w.shape? x = some (.bounds lo' hi')) (lower : Relation.ReflTransGen w.Shows lo lo')
    (unfolds : w.Unfolds lo) (upper : Merges w hi hi') (unfolds' : w.Unfolds hi') : Merges w j x
  | var {j x : Ty} {i : VarId} (merges : Merges w j x) (shape : w.shape? x = some (.var i)) : Merges w j (w.varUnderlying i)

/-- Somewhere on the way down from the target `u`, the source `j` is let in where its part `x` need not be: at a name
of the symbol of `x`, or by a member that the look-up does not join from that of `x`. -/
inductive Obstructed (erased : Bool) : World → Ty → Ty → Ty → Prop
  | apart {w : World} {j x u lo hi : Ty} (ends : w.ends? u = some (lo, hi)) (meets : Conforms erased w j lo)
    (apart : w.Apart erased x u) : Obstructed erased w j x u
  | through {w : World} {j x u v : Ty} (step : w.Through u v) (meets : Conforms erased w j v)
    (obstructed : Obstructed erased w j x v) : Obstructed erased w j x u
  | source {w : World} {j x u : Ty} {i : VarId} (shape : w.shape? x = some (.var i))
    (obstructed : Obstructed erased w j (w.varUnderlying i) u) : Obstructed erased w j x u
  | lost {w w₁ w₂ : World} {j x u parent info i l : Ty} {name : String}
    (shape : w.shape? u = some (.refined parent name info)) (member : j.member name w = .ok (i, w₁))
    (meets : Conforms erased w₁ i info) (member' : x.member name w₁ = .ok (l, w₂))
    (lost : ¬ (w₂.Merges i l ∧ w₂.Unfolds l)) : Obstructed erased w j x u
  | member {w w₁ w₂ : World} {j x u parent info i l : Ty} {name : String}
    (shape : w.shape? u = some (.refined parent name info)) (member : j.member name w = .ok (i, w₁))
    (member' : x.member name w₁ = .ok (l, w₂)) (obstructed : Obstructed erased w₂ i l info) : Obstructed erased w j x u
  | upper {w : World} {j x u lo₁ hi₁ lo₂ hi₂ lo hi : Ty} (shape : w.shape? j = some (.bounds lo₁ hi₁))
    (shape' : w.shape? x = some (.bounds lo₂ hi₂)) (target : w.shape? u = some (.bounds lo hi))
    (obstructed : Obstructed erased w hi₁ hi₂ hi) : Obstructed erased w j x u

/-- A name in the way is the target itself, or it is met at the lower end of what the target stands for. -/
theorem Obstructed.of_named {erased : Bool} {w : World} {j x u q : Ty} {s : Symbol} (h : Obstructed erased w j x u)
    (hu : w.shape? u = some (.named q s)) (hx : ∀ i, w.shape? x ≠ some (.var i)) :
    ∃ lo hi, w.ends? u = some (lo, hi) ∧ (w.Apart erased x u ∨ Obstructed erased w j x lo) := by
  cases h with
  | apart hends _ hapart => exact ⟨_, _, hends, .inl hapart⟩
  | through hstep _ h =>
    cases hstep with
    | lower hends => exact ⟨_, _, hends, .inr h⟩
    | var hshape | parent hshape | meet hshape | join hshape => cases hu.symm.trans hshape
  | source hshape => exact absurd hshape (hx _)
  | lost hshape | member hshape => cases hu.symm.trans hshape
  | upper _ _ hshape => cases hu.symm.trans hshape

section Merges

variable {erased : Bool} {ρ : Corr} {w : World} {j x u m a b t lo lo' : Ty}

theorem Merges.known (h : w.Merges j x) (hM : ρ.Matches w w) (kj : ρ.ty j j) :
    ρ.ty x x ∨ ∃ lo hi, w.shape? x = some (.bounds lo hi) := by
  induction h with
  | same => exact .inl kj
  | left hshape => cases hM.parts kj hshape with | union ka kb => exact .inl ka
  | right hshape => cases hM.parts kj hshape with | union ka kb => exact .inl kb
  | bounds _ hshape => exact .inr ⟨_, _, hshape⟩
  | var _ hshape ih =>
    rcases ih kj with kx | ⟨_, _, hb⟩
    · exact .inl (hM.held kx hshape)
    · cases hshape.symm.trans hb

theorem Merges.known_var (h : w.Merges j x) (hM : ρ.Matches w w) (kj : ρ.ty j j) {i : VarId}
    (hx : w.shape? x = some (.var i)) : ρ.ty x x :=
  (h.known hM kj).resolve_right fun ⟨_, _, hb⟩ => nomatch hx.symm.trans hb

/-- Bounds are joined from bounds. -/
theorem Merges.of_bounds {hi : Ty} (h : w.Merges j x) (hj : w.shape? j = some (.bounds lo hi)) :
    x = j ∨ ∃ lo' hi', w.shape? x = some (.bounds lo' hi') ∧ Relation.ReflTransGen w.Shows lo lo' ∧ w.Unfolds lo ∧
      w.Merges hi hi' ∧ w.Unfolds hi' := by
  induction h with
  | same => exact .inl rfl
  | left hshape | right hshape => cases hj.symm.trans hshape
  | bounds hshape hshape' hlower hlo hupper hhi =>
    cases hj.symm.trans hshape
    exact .inr ⟨_, _, hshape', hlower, hlo, hupper, hhi⟩
  | var _ hshape ih =>
    rcases ih hj with rfl | ⟨_, _, hb, -⟩
    · cases hj.symm.trans hshape
    · cases hshape.symm.trans hb

/-- What conforms to a type conforms to what the type shows. -/
theorem conforms_shown (hM : ρ.Matches w w) (hw : w.Standard) (kt : ρ.ty t t) (klo : ρ.ty lo lo) (hlo : w.Unfolds lo)
    (hshows : Relation.ReflTransGen w.Shows lo lo') (h : Conforms erased w t lo) : Conforms erased w t lo' := by
  induction hshows using Relation.ReflTransGen.head_induction_on with
  | refl => exact h
  | @head x y hstep _ ih =>
    have hy := hlo.shows hstep
    cases hstep with
    | left hshape =>
      cases hM.parts klo hshape with | inter ka kb =>
      exact ih ka hy (operands_conform h hM hw kt klo hshape hy (hlo.shows (.right hshape))).1
    | right hshape =>
      cases hM.parts klo hshape with | inter ka kb =>
      exact ih kb hy (operands_conform h hM hw kt klo hshape (hlo.shows (.left hshape)) hy).2
    | var hshape =>
      exact ih (hM.held klo hshape) hy ((conforms_var_right hM hw hshape hy kt klo h.present.1).1 h)

theorem shown_unfolds (hlo : w.Unfolds lo) (h : Relation.ReflTransGen w.Shows lo lo') : w.Unfolds lo' := by
  induction h with
  | refl => exact hlo
  | tail _ hstep ih => exact ih.shows hstep

theorem conforms_bounds {lo₁ hi₁ lo₂ hi₂ : Ty} (hM : ρ.Matches w w) (hw : w.Standard) (kt : ρ.ty t t) (ku : ρ.ty u u)
    (ht : w.shape? t = some (.bounds lo₁ hi₁)) (hu : w.shape? u = some (.bounds lo₂ hi₂))
    (hlo : Conforms erased w lo₂ lo₁) (hhi : Conforms erased w hi₁ hi₂) : Conforms erased w t u := by
  have hd := shape_of_shape? hu
  have hd' := shape_of_shape? ht
  refine conforms_of_holds hM kt ku (hw.present ht nofun) (hw.present hu nofun) ?_
  exact (holds_of_tells carried_conforms hM kt ku (by rw [hd]; rfl) (by rw [hd']; rfl) (by rw [hd, hd']; rfl)
    fun n => tells_third_bounds carried_conforms hM kt ku hu ht).2 ⟨hlo, hhi⟩

/-- A part conforms to what it is joined into. -/
theorem Merges.conforms (h : w.Merges j x) (hM : ρ.Matches w w) (hw : w.Standard) (kj : ρ.ty j j) (kx : ρ.ty x x)
    (hx : w.Unfolds x) : Conforms erased w x j := by
  induction h with
  | same => exact .refl (hx.present hw)
  | left hshape => exact conforms_union_right hM hw hshape hx kx kj (.inl (.refl (hx.present hw)))
  | right hshape => exact conforms_union_right hM hw hshape hx kx kj (.inr (.refl (hx.present hw)))
  | bounds hshape hshape' hlower hlo _ hhi ih =>
    cases hM.parts kj hshape with | bounds klo khi =>
    cases hM.parts kx hshape' with | bounds klo' khi' =>
    exact conforms_bounds hM hw kx kj hshape' hshape
      (conforms_of_shows hM hw hlo (shown_unfolds hlo hlower) klo klo' hlower) (ih khi khi' hhi)
  | var hmerges hshape ih =>
    have ky := hmerges.known_var hM kj hshape
    exact underlying_conforms (ih kj ky (.var hshape hx)) hM hw ky kj hshape (hx.present hw)

/-- What a union and its operands conform to, all its parts do; any other source but bounds is its only part. -/
theorem Merges.conforms_of_operands (h : w.Merges j x) (hM : ρ.Matches w w) (hw : w.Standard) (kj : ρ.ty j j)
    (ku : ρ.ty u u) (hbounds : ∀ lo hi, w.shape? j ≠ some (.bounds lo hi)) (hpx : x.present) (hju : Conforms erased w j u)
    (hoperands : ∀ a b, w.shape? j = some (.union a b) → Conforms erased w a u ∧ Conforms erased w b u) :
    Conforms erased w x u := by
  induction h with
  | same => exact hju
  | left hshape => exact (hoperands _ _ hshape).1
  | right hshape => exact (hoperands _ _ hshape).2
  | bounds hshape => exact absurd hshape (hbounds _ _)
  | var hmerges hshape ih =>
    have ky := hmerges.known_var hM kj hshape
    exact underlying_conforms (ih kj hbounds (hw.present hshape nofun) hju hoperands) hM hw ky ku hshape hpx

end Merges

end World

namespace CompareM

section Splitting

variable {erased : Bool} {ρ : Corr} {w w₀ : World} {S : World → Ty → Ty → Prop} {j x y u parent info : Ty} {name : String}

/-- A member that fits for the whole fits for the part. -/
theorem memberFits_of_merges (hS : Carried S S) (hM : ρ.Matches w w) (kj : ρ.ty j j) (ky : ρ.ty y y) (ku : ρ.ty u u)
    (hu : w.shape? u = some (.refined parent name info)) (hsub : ∀ v a b, S v a b → Conforms erased v a b)
    (hobs : ¬ World.Obstructed erased w j y u) (h : w.MemberFits S j name info)
    (hpart : ∀ {σ v i l}, ρ ≤ σ → σ.Matches v v → σ.ty i i → σ.ty l l → w ≤ v → S v i info → v.Merges i l → v.Unfolds l →
      ¬ World.Obstructed erased v i l info → Conforms erased v l info) : w.MemberFits (Conforms erased) y name info := by
  cases hM.parts ku hu with | refined kp _ kinfo =>
  refine memberFits_of_replaced hS hM kj ky kinfo h fun {_ w₁ w₂ i l} hi hmeets hl hle hσ hMσ ki kl hlater => ?_
  have hlost : w₂.Merges i l ∧ w₂.Unfolds l := by
    by_contra hlost
    exact hobs (.lost hu hi (hsub w₁ i info hmeets) hl hlost)
  exact hpart hσ hMσ ki kl hle hlater hlost.1 hlost.2 fun h => hobs (.member hu hi hl h)

/-- **The parts of a source conform to what it conforms to**, if nothing obstructs them. The induction is on the
derivation for the whole. -/
theorem conforms_of_merges (hw₀ : w₀.Built) (h : Conforms erased w j u) (hM : ρ.Matches w w) (kj : ρ.ty j j)
    (ku : ρ.ty u u) (hw : w.Standard) (hdecls : w.decls = w₀.decls) (kx : ρ.ty x x) (hmerges : w.Merges j x)
    (hx : w.Unfolds x) (hobs : ¬ World.Obstructed erased w j x u) : Conforms erased w x u := by
  refine h.induct (P := fun w j u => ∀ (ρ : Corr) (x : Ty), ρ.Matches w w → ρ.ty j j → ρ.ty u u → w.Standard →
    w.decls = w₀.decls → ρ.ty x x → w.Merges j x → w.Unfolds x → ¬ World.Obstructed erased w j x u →
    Conforms erased w x u) hM kj ku (fun w t _ ρ x hM kt _ hw _ kx hmerges hx _ => hmerges.conforms hM hw kt kx hx)
    (fun {_ w j u S} hS hsub _ _ _ hpj hpu hholds ρ x hM kj ku hw hdecls kx hmerges hx hobs => ?_)
    ρ x hM kj ku hw hdecls kx hmerges hx hobs
  have hconf (v : World) (a b : Ty) (h : S v a b) : Conforms erased v a b := (hsub v a b h).1
  have hju : Conforms erased w j u := .step S hpj hpu hconf hholds
  have hpx := hx.present hw
  obtain ⟨e, -, hj, -, -⟩ := hM.ty kj
  have hreplaced (he : e.isOutline) (hhead : e.isHeadless) (hbelow : Below erased S w j u → Conforms erased w x u)
      (hnotNull : ∀ q v, w.shape? u = some (.named q Builtin.notNull.symbol) → j.isNotNull w = .ok (true, v) →
        Conforms erased w x u)
      (hbounds : ∀ lo hi lo' hi', w.shape? u = some (.bounds lo hi) → w.shape? j = some (.bounds lo' hi') → S w lo lo' →
        S w hi' hi → Conforms erased w x u) : Conforms erased w x u := by
    refine conforms_of_replaced hS hM hw kj kx ku hj he hpu hx (fun v hstep h => ?_) hbelow ?_ ?_ hnotNull
      (fun n htrait h => absurd h (not_conformsAsConstructor_headless hw₀ hdecls hj hhead htrait)) ?_ hbounds hholds
    · exact (hsub w j v h).2 ρ x hM kj (hstep.known hM ku) hw hdecls kx hmerges hx
        fun h' => hobs (.through hstep (hconf w j v h) h')
    · exact fun lo hi hends h hapart => hobs (.apart hends (hconf w j lo h) hapart)
    · intro hnamed
      rw [World.shape_of_shape? hj] at hnamed
      cases e with
      | named => cases hhead
      | union | bounds => cases hnamed
      | _ => cases he
    · intro parent name info hu _ hxp hfits
      refine conforms_refined (P := fun y => w.Merges j y ∧ ¬ World.Obstructed erased w j y u) hM hw hu hx kx ku
        (fun y ky hy _ hPy _ => hfits.imp_right fun hfits => ?_) (fun y i _ hi hPy => ?_) ⟨hmerges, hobs⟩ hxp
      · refine memberFits_of_merges hS hM kj ky ku hu hconf hPy.2 hfits ?_
        intro σ v i l hσ hMσ ki kl hle h hil hl hfree
        cases hM.parts ku hu with | refined _ _ kinfo =>
        exact (hsub v i info h).2 σ l hMσ ki (hσ.ty kinfo) (hw.grow hle) (hle.decls.trans hdecls) kl hil hl hfree
      · exact ⟨.var hPy.1 hi, fun h => hPy.2 (.source hi h)⟩
  by_cases hbounds : ∃ lo hi, e = .bounds lo hi
  · obtain ⟨lo, hi, rfl⟩ := hbounds
    rcases hmerges.of_bounds hj with rfl | ⟨lo', hi', hshape, hlower, hlo, hupper, hhi⟩
    · exact hju
    cases hM.parts kj hj with | bounds klo khi =>
    cases hM.parts kx hshape with | bounds klo' khi' =>
    refine hreplaced rfl rfl (fun h => absurd h (not_below hj rfl)) ?_ ?_
    · exact fun q v _ h => absurd h (not_isNotNull_inert hj rfl rfl)
    · intro lo₂ hi₂ lo₁ hi₁ hu hj' hlo₂ hhi₂
      cases hj.symm.trans hj'
      cases hM.parts ku hu with | bounds klo₂ khi₂ =>
      refine World.conforms_bounds hM hw kx ku hshape hu ?_ ?_
      · exact World.conforms_shown hM hw klo₂ klo hlo hlower (hconf w lo₂ lo hlo₂)
      · exact (hsub w hi hi₂ hhi₂).2 ρ hi' hM khi khi₂ hw hdecls khi' hupper hhi
          fun h => hobs (.upper hj hshape hu h)
  have hplain : ∀ lo hi, w.shape? j ≠ some (.bounds lo hi) := by
    rintro lo hi hlohi
    exact hbounds ⟨lo, hi, Option.some.inj (hj.symm.trans hlohi)⟩
  by_cases hunion : ∃ a b, e = .union a b
  · obtain ⟨a, b, rfl⟩ := hunion
    cases hM.parts kj hj with | union ka kb =>
    have hparts (h : Conforms erased w a u ∧ Conforms erased w b u) : Conforms erased w x u := by
      refine hmerges.conforms_of_operands hM hw kj ku hplain hpx hju fun a' b' hj' => ?_
      cases hj.symm.trans hj'
      exact h
    refine hreplaced rfl rfl (fun h => ?_) (fun q v hu h => ?_) fun lo hi lo' hi' _ hj' => nomatch hj.symm.trans hj'
    · exact hparts (((below_union hS hM kj ku hj).1 h).imp (hconf w a u) (hconf w b u))
    · exact hparts (conforms_notNull_union hM hw ku hu hj kj h)
  · refine hmerges.conforms_of_operands hM hw kj ku hplain hpx hju fun a b hab => ?_
    exact absurd ⟨a, b, Option.some.inj (hj.symm.trans hab)⟩ hunion

end Splitting

/-- **Unions are taken apart.** If a union conforms, so does each operand that nothing obstructs: no comparison of the
operand that comes to an answer comes to another one, and those that keep to finitely many pairs come to it. -/
theorem isSubType_union_operand {erased : Bool} {w : World} {m a b x u : Ty} (hw : w.Built)
    (hm : w.shape? m = some (.union a b)) (hx : x = a ∨ x = b) (hunfolds : w.Unfolds x) (hu : w.Has u)
    (h : w.Returns erased m u true) (hfree : ¬ World.Obstructed erased w m x u) :
    (∀ answer, w.Returns erased x u answer → answer = true) ∧
      (w.Founded → Confined erased w x u → w.Returns erased x u true) := by
  have hcl := hw.closed
  have known {t : Ty} (ht : w.Has t) : (Corr.identity w).ty t t := ⟨rfl, ht⟩
  have hhas : w.Has m := Option.isSome_of_eq_some hm
  have hmerges : w.Merges m x := by
    rcases hx with rfl | rfl
    · exact .left hm
    · exact .right hm
  have hconf : Conforms erased w x u := conforms_of_merges hw ((h.iff hcl hhas hu).1 rfl) hcl.identity_matches (known hhas)
    (known hu) hw.standard rfl (known hunfolds.has) hmerges hunfolds hfree
  have hall (answer : Bool) (hr : w.Returns erased x u answer) : answer = true := (hr.iff hcl hunfolds.has hu).2 hconf
  refine ⟨hall, fun hfounded hconfined => ?_⟩
  obtain ⟨answer, hr⟩ := hconfined.returns hfounded hunfolds.has hu
  exact hall answer hr ▸ hr

/-- A comparison that ends with `k` levels and more, and has too few below, keeps to the pairs. -/
theorem keepsTo_of_run {P : Finset (Ty × Ty)} {a b : Ty} {c : Comparer} {w : World} {k : Nat}
    (hrun : ∀ n, ((isSubTypeOn P (n + k) a b c w).map fun _ => ()) = .ok ())
    (hshort : ∀ n < k, ((isSubTypeOn P n a b c w).map fun _ => ()) = .error .outOfFuel) : KeepsTo P a b c w := by
  intro fuel f hfault
  rcases Nat.lt_or_ge fuel k with hfuel | hfuel
  · have hrun := hshort fuel hfuel
    rw [hfault] at hrun
    cases hrun
  · obtain ⟨n, rfl⟩ := Nat.exists_eq_add_of_le' hfuel
    have hrun := hrun n
    rw [hfault] at hrun
    cases hrun

/-- What the comparison of `p.A` with `q.B` compares. -/
def selectionPairs : Finset (Ty × Ty) := {(⟨18⟩, ⟨20⟩), (⟨18⟩, Builtin.int.type)}

set_option maxRecDepth 1000 in
theorem selection_run (n : Nat) : ((isSubTypeOn selectionPairs (n + 3) ⟨18⟩ ⟨20⟩ (.vacant false) selectionWorld).map
    fun _ => ()) = .ok () := by
  cbv

theorem keepsTo_selection : KeepsTo selectionPairs ⟨18⟩ ⟨20⟩ (.vacant false) selectionWorld :=
  keepsTo_of_run selection_run (by decide)

/-- The union of `p.A` with a literal type conforms to `q.B`, as both stand for `Int`, and so does `p.A`. -/
theorem isSubType_union_operand_selection : selectionWorld.Built ∧
    selectionWorld.shape? ⟨22⟩ = some (.union ⟨18⟩ ⟨21⟩) ∧ selectionWorld.Returns false ⟨22⟩ ⟨20⟩ true ∧
    ¬ World.Obstructed false selectionWorld ⟨22⟩ ⟨18⟩ ⟨20⟩ ∧ selectionWorld.Founded ∧
    Confined false selectionWorld ⟨18⟩ ⟨20⟩ ∧ selectionWorld.Returns false ⟨18⟩ ⟨20⟩ true := by
  have hw := selectionWorld_built
  have hm : selectionWorld.shape? ⟨22⟩ = some (.union ⟨18⟩ ⟨21⟩) := by decide
  have hx : selectionWorld.shape? ⟨18⟩ = some (.named ⟨16⟩ ⟨45⟩) := by decide
  have hu : selectionWorld.shape? ⟨20⟩ = some (.named ⟨17⟩ ⟨46⟩) := by decide
  have hplain (i : VarId) : selectionWorld.shape? ⟨18⟩ ≠ some (.var i) := by
    rw [hx]
    exact nofun
  have hunion : selectionWorld.Returns false ⟨22⟩ ⟨20⟩ true := World.returns_of_run 12 (by decide)
  have hfree : ¬ World.Obstructed false selectionWorld ⟨22⟩ ⟨18⟩ ⟨20⟩ := by
    intro h
    obtain ⟨lo, hi, hends, hapart | h⟩ := h.of_named hu hplain
    · exact absurd (hapart.symbol_eq hx hu) (by decide)
    · have hint : selectionWorld.ends? ⟨20⟩ = some (Builtin.int.type, Builtin.int.type) := by decide
      obtain ⟨rfl, rfl⟩ := Prod.mk.inj (Option.some.inj (hint.symm.trans hends))
      obtain ⟨_, _, hends, -⟩ := h.of_named (hw.standard.shape .int) hplain
      have hclass : selectionWorld.ends? Builtin.int.type = none := by decide
      cases hclass.symm.trans hends
  have hfounded : selectionWorld.Founded := World.founded_of_orderly (by decide +kernel)
  have hconfined : Confined false selectionWorld ⟨18⟩ ⟨20⟩ :=
    ⟨.vacant false, selectionPairs, Comparer.atRest_vacant _, rfl, by decide, keepsTo_selection⟩
  have hoperand := isSubType_union_operand hw hm (.inl rfl) (.leaf rfl hx rfl nofun) (by decide) hunion hfree
  exact ⟨hw, hm, hunion, hfree, hfounded, hconfined, hoperand.2 hfounded hconfined⟩

/-- The same union conforms to `q.A`, which stands for `Int` as well, and `p.A` does not. -/
theorem isSubType_union_same_symbol : selectionWorld.shape? ⟨22⟩ = some (.union ⟨18⟩ ⟨21⟩) ∧
    selectionWorld.Returns false ⟨22⟩ ⟨19⟩ true ∧ selectionWorld.Returns false ⟨21⟩ ⟨19⟩ true ∧
    selectionWorld.Returns false ⟨18⟩ ⟨19⟩ false := by
  exact ⟨by decide, World.returns_of_run 12 (by decide), World.returns_of_run 12 (by decide),
    World.returns_of_run 12 (by decide)⟩

end CompareM

end Conformance
