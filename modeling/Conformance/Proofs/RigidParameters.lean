import Conformance.Proofs.Replacement

/-!
# Type parameters that are not inferred

A type parameter that is not under inference has no clause in the cascade: it is not widened to the upper end of its
bounds as a source, nor met through the lower end as a target. So it conforms to what shows the parameter itself
(`AboveParam`), and what conforms to it comes down to the parameter itself or to the bottom class (`BelowParam`). Its
bounds are looked at for its members only.
-/

namespace Conformance

open CompareM

namespace CompareM

/-- A target shows the parameter `x`: it is a placeholder or `x`, or it is met through a part that shows `x`. -/
inductive AboveParam (erased : Bool) (w : World) (x : Ty) : Ty → Prop
  | self : AboveParam erased w x x
  | hole {t : Ty} (hole : isHole (w.shape t)) : AboveParam erased w x t
  | var {t : Ty} {i : VarId} (shape : w.shape? t = some (.var i)) (underlying : AboveParam erased w x (w.varUnderlying i)) :
    AboveParam erased w x t
  | ends {t lo hi : Ty} (ends : w.ends? t = some (lo, hi)) (lower : AboveParam erased w x lo) : AboveParam erased w x t
  | refined {t parent info : Ty} {name : String} (shape : w.shape? t = some (.refined parent name info))
    (above : AboveParam erased w x parent)
    (fits : name = Builtin.anyName ∨ w.MemberFits (Conforms erased) x name info) : AboveParam erased w x t
  | inter {t a b : Ty} (shape : w.shape? t = some (.inter a b)) (left : AboveParam erased w x a)
    (right : AboveParam erased w x b) : AboveParam erased w x t
  | left {t a b : Ty} (shape : w.shape? t = some (.union a b)) (left : AboveParam erased w x a) : AboveParam erased w x t
  | right {t a b : Ty} (shape : w.shape? t = some (.union a b)) (right : AboveParam erased w x b) : AboveParam erased w x t

/-- A source comes down to the parameter `x`: it is a placeholder, the bottom class or `x`, or it stands for a type that
comes down to `x`. -/
inductive BelowParam (x : Ty) : World → Ty → Prop
  | self {w : World} : BelowParam x w x
  | hole {w : World} {t : Ty} (hole : isHole (w.shape t)) : BelowParam x w t
  | var {w : World} {t : Ty} {i : VarId} (shape : w.shape? t = some (.var i)) (underlying : BelowParam x w (w.varUnderlying i)) :
    BelowParam x w t
  | nothing {w : World} {t q : Ty} (shape : w.shape? t = some (.named q Builtin.nothing.symbol)) : BelowParam x w t
  | upper {w v : World} {t q hi : Ty} {s : Symbol} (shape : w.shape? t = some (.named q s)) (notClass : ¬ w.decls.isClass s)
    (upper : t.upperBound w = .ok (hi, v)) (below : BelowParam x v hi) : BelowParam x w t
  | single {w v : World} {t u : Ty} {d : Shape} (shape : w.shape? t = some d) (single : d.isSingleton)
    (underlying : t.underlying w = .ok (u, v)) (below : BelowParam x v u) : BelowParam x w t
  | refined {w : World} {t parent info : Ty} {name : String} (shape : w.shape? t = some (.refined parent name info))
    (below : BelowParam x w parent) : BelowParam x w t
  | left {w : World} {t a b : Ty} (shape : w.shape? t = some (.inter a b)) (left : BelowParam x w a) : BelowParam x w t
  | right {w : World} {t a b : Ty} (shape : w.shape? t = some (.inter a b)) (right : BelowParam x w b) : BelowParam x w t
  | union {w : World} {t a b : Ty} (shape : w.shape? t = some (.union a b)) (left : BelowParam x w a)
    (right : BelowParam x w b) : BelowParam x w t

section Reading

variable {w : World} {x : Ty} {p : Param}

theorem not_nullConforms_param (hx : w.shape? x = some (.param p)) {v : World} : nullConforms x w ≠ .ok (true, v) :=
  not_nullConforms_unnamed (by rw [World.aliased?, World.shape_of_shape? hx]) (typeSymbol?_headless hx rfl)

theorem not_isStable_param (hx : w.shape? x = some (.param p)) (n : Nat) : w.isStable n x ≠ .ok true := by
  intro h
  cases n with
  | zero => cases h
  | succ n =>
    rw [World.isStable, World.shape_of_shape? hx] at h
    cases h

end Reading

section Steps

variable {erased : Bool} {ρ : Corr} {S : World → Ty → Ty → Prop} {w w₀ : World} {x t : Ty} {p : Param}

variable (hS : Carried S S) (hM : ρ.Matches w w) (hρx : ρ.ty x x) (hρt : ρ.ty t t) (hw : w.Standard)
  (hx : w.shape? x = some (.param p))
include hS hM hρx hρt hw hx

/-- What the parameter `x`, as a source, is asked for. -/
theorem above_of_holds (hw₀ : w₀.Built) (hdecls : w.decls = w₀.decls)
    (hQ : ∀ u, S w x u → AboveParam erased w x u) (hfits : ∀ v u u', S v u u' → Conforms erased v u u')
    (h : Holds erased S w x t) : AboveParam erased w x t := by
  obtain ⟨d, -, hd, -, -⟩ := hM.ty hρt
  have hshape := World.shape_of_shape? hd
  have hnot : intercepts (w.shape x) = false := by rw [World.shape_of_shape? hx]; rfl
  have hnamed : (w.shape x).isNamed = false := by rw [World.shape_of_shape? hx]; rfl
  have hbelow : ¬ Below erased S w x t := not_below hx rfl
  by_cases hhole : isHole (w.shape t)
  · exact .hole hhole
  by_cases ht : (w.shape t).isNamed
  · obtain ⟨n, h⟩ := (holds_named hS hM hρx hρt ht hnamed hnot).1 h
    match hends : w.ends? t with
    | some (lo, hi) =>
      exact .ends hends (hQ lo (((tells_thirdNamed_ends hS hM hρx hρt hw hends).affirmed_iff.1 h).resolve_right hbelow))
    | none =>
      have hread := readable_of_affirmed hM hρt hw hends h hρx
      rcases (tells_thirdNamed_none hS hM hρx hρt hw hends hread).affirmed_iff.1 h with
        ⟨-, h⟩ | ⟨-, v, h⟩ | ⟨htrait, h⟩ | h
      · exact absurd h (not_isStable_param hx n)
      · exact absurd h (not_isNotNull_inert hx rfl rfl)
      · exact absurd h (not_conformsAsConstructor_headless hw₀ hdecls hx rfl htrait)
      · exact absurd h hbelow
  cases d with
  | var i => exact .var hd (hQ _ ((holds_var_right hS hM hρx hρt hd).1 h))
  | named | path =>
    rw [hshape] at ht
    exact absurd rfl ht
  | refined parent name info =>
    have htells := (holds_of_tells hS hM hρx hρt (by rw [hshape]; rfl) hnot (by rw [hnamed]; rfl)
      fun n => tells_third_refined hS hM hρx hρt hd).1 h
    obtain ⟨hparent, hmember⟩ := htells.resolve_right hbelow
    refine .refined hd (hQ _ hparent) (hmember.imp_right ?_)
    rintro ⟨i, v, hi, hS⟩
    exact ⟨i, v, hi, hfits v i info hS⟩
  | inter a b =>
    have htells := (holds_of_tells hS hM hρx hρt (by rw [hshape]; rfl) hnot (by rw [hnamed]; rfl)
      fun n => tells_third_inter hS hM hρx hρt hd).1 h
    exact .inter hd (hQ a htells.1) (hQ b htells.2)
  | union a b =>
    have htells := (holds_of_tells hS hM hρx hρt (by rw [hshape]; rfl) hnot (by rw [hnamed]; rfl)
      fun n => tells_third_union hS hM hρx hρt hd).1 h
    rcases htells with h | h | h
    · exact .left hd (hQ a h)
    · exact .right hd (hQ b h)
    · exact absurd h hbelow
  | fixed k =>
    have hnot' : intercepts (w.shape t) = false := by
      rw [hshape] at hhole ⊢
      cases k <;> first | rfl | exact absurd rfl hhole
    exact absurd ((holds_of_tells hS hM hρx hρt hnot' hnot (by rw [hnamed]; rfl)
      fun n => tells_third_leaves hS hM hρx hρt hd hx rfl).1 h) hbelow
  | _ =>
    exact absurd ((holds_of_tells hS hM hρx hρt (by rw [hshape]; rfl) hnot (by rw [hnamed]; rfl)
      fun n => tells_third_leaves hS hM hρx hρt hd hx rfl).1 h) hbelow

omit hw in
/-- What a source is asked for by the parameter `x` as the target. -/
theorem below_of_holds (hP : ∀ v u, w ≤ v → S v u x → BelowParam x v u) (h : Holds erased S w t x) : BelowParam x w t := by
  obtain ⟨d, -, hd, -, -⟩ := hM.ty hρt
  have hshape := World.shape_of_shape? hd
  have hnot : intercepts (w.shape x) = false := by rw [World.shape_of_shape? hx]; rfl
  have hnames : ((w.shape t).isNamed && (w.shape x).isNamed) = false := by
    rw [World.shape_of_shape? hx]
    exact Bool.and_false _
  by_cases hhole : isHole (w.shape t)
  · exact .hole hhole
  cases hvar : d.isVar with
  | true =>
    cases d with
    | var i => exact .var hd (hP w _ le_rfl ((holds_var_left hS hM hρt hρx hd hnot).1 h))
    | _ => cases hvar
  | false =>
    have hnot' : intercepts (w.shape t) = false := by
      rw [hshape] at hhole ⊢
      cases d with
      | fixed k => cases k <;> first | rfl | exact absurd rfl hhole
      | var => cases hvar
      | _ => rfl
    have hbelow : Below erased S w t x := (holds_of_tells hS hM hρt hρx hnot hnot' hnames
      fun n => tells_third_leaves hS hM hρt hρx hx hd rfl).1 h
    have hsingle (hsingle : d.isSingleton) : BelowParam x w t := by
      obtain ⟨u, v, hunder, hle⟩ := (grows_underlying t).total w
      exact .single hd hsingle hunder (hP v u hle ((below_single hS hM hρt hρx hd hsingle hunder).1 hbelow))
    cases d with
    | named q s =>
      obtain ⟨hi, v, hupper, hle⟩ := (grows_upperBound t).total w
      rcases (below_named hS hM hρt hρx hd hupper).1 hbelow with rfl | ⟨-, v, hnull⟩ | ⟨hcls, hi⟩
      · exact .nothing hd
      · exact absurd hnull (not_nullConforms_param hx)
      · exact .upper hd hcls hupper (hP v _ hle hi)
    | refined parent name info => exact .refined hd (hP w _ le_rfl ((below_refined hS hM hρt hρx hd).1 hbelow))
    | inter a b =>
      rcases (below_inter hS hM hρt hρx hd).1 hbelow with h | h
      · exact .left hd (hP w a le_rfl h)
      · exact .right hd (hP w b le_rfl h)
    | union a b =>
      obtain ⟨ha, hb⟩ := (below_union hS hM hρt hρx hd).1 hbelow
      exact .union hd (hP w a le_rfl ha) (hP w b le_rfl hb)
    | path | self | literal | skolem | valueParam => exact hsingle rfl
    | _ => exact absurd hbelow (not_below hd rfl)

end Steps

section Characterization

variable {erased : Bool} {ρ : Corr} {w : World} {x t : Ty} {p : Param}

/-- What shows the parameter is met by it. -/
theorem AboveParam.conforms (h : AboveParam erased w x t) (hM : ρ.Matches w w) (hw : w.Standard) (hρx : ρ.ty x x)
    (hρt : ρ.ty t t) (hx : w.shape? x = some (.param p)) : Conforms erased w x t := by
  have hpx : x.present := hw.present hx (by rintro ⟨⟩)
  have hnot : intercepts (w.shape x) = false := by rw [World.shape_of_shape? hx]; rfl
  have hnamed : (w.shape x).isNamed = false := by rw [World.shape_of_shape? hx]; rfl
  have hmeets {t : Ty} {d : Shape} (hρt : ρ.ty t t) (hd : w.shape? t = some d) (hne : d ≠ .fixed .noType)
      (h : Holds erased (Conforms erased) w x t) : Conforms erased w x t :=
    (conforms_iff hM hρx hρt).2 ⟨hpx, hw.present hd hne, .inr h⟩
  induction h with
  | self => exact .refl hpx
  | @hole t hhole =>
    obtain ⟨d, -, hd, -, -⟩ := hM.ty hρt
    refine hmeets hρt hd ?_ (holds_hole_right carried_conforms hM hρx hρt hhole)
    rintro rfl
    rw [World.shape_of_shape? hd] at hhole
    cases hhole
  | var hd _ ih =>
    exact hmeets hρt hd (by rintro ⟨⟩) ((holds_var_right carried_conforms hM hρx hρt hd).2 (ih (hM.held hρt hd)))
  | @ends t lo hi hends _ ih =>
    obtain ⟨d, -, hd, -, -⟩ := hM.ty hρt
    have hnamed' : (w.shape t).isNamed := by
      rw [World.ends?] at hends
      generalize w.shape t = d at hends
      cases d <;> first | rfl | cases hends
    have hlo := ih (ends?_known hM hρt hends).1
    refine hmeets hρt hd ?_ ((holds_named carried_conforms hM hρx hρt hnamed' hnamed hnot).2 ⟨0, ?_⟩)
    · rintro rfl
      rw [World.shape_of_shape? hd] at hnamed'
      cases hnamed'
    · exact (tells_thirdNamed_ends carried_conforms hM hρx hρt hw hends).affirmed_iff.2 (.inl hlo)
  | @refined t parent info name hd _ hfits ih =>
    cases hM.parts hρt hd with | refined hparent _ _ =>
    exact hmeets hρt hd (by rintro ⟨⟩) ((holds_of_tells carried_conforms hM hρx hρt (by rw [World.shape_of_shape? hd]; rfl) hnot
      (by rw [hnamed]; rfl) fun n => tells_third_refined carried_conforms hM hρx hρt hd).2 (.inl ⟨ih hparent, hfits⟩))
  | @inter t a b hd _ _ iha ihb =>
    cases hM.parts hρt hd with | inter ha hb =>
    exact hmeets hρt hd (by rintro ⟨⟩) ((holds_of_tells carried_conforms hM hρx hρt (by rw [World.shape_of_shape? hd]; rfl) hnot
      (by rw [hnamed]; rfl) fun n => tells_third_inter carried_conforms hM hρx hρt hd).2 ⟨iha ha, ihb hb⟩)
  | @left t a b hd _ ih =>
    cases hM.parts hρt hd with | union ha hb =>
    exact hmeets hρt hd (by rintro ⟨⟩) ((holds_of_tells carried_conforms hM hρx hρt (by rw [World.shape_of_shape? hd]; rfl) hnot
      (by rw [hnamed]; rfl) fun n => tells_third_union carried_conforms hM hρx hρt hd).2 (.inl (ih ha)))
  | @right t a b hd _ ih =>
    cases hM.parts hρt hd with | union ha hb =>
    exact hmeets hρt hd (by rintro ⟨⟩) ((holds_of_tells carried_conforms hM hρx hρt (by rw [World.shape_of_shape? hd]; rfl) hnot
      (by rw [hnamed]; rfl) fun n => tells_third_union carried_conforms hM hρx hρt hd).2 (.inr (.inl (ih hb))))

/-- What comes down to the parameter conforms to it. -/
theorem BelowParam.conforms (h : BelowParam x w t) (hM : ρ.Matches w w) (hw : w.Standard) (hρx : ρ.ty x x)
    (hρt : ρ.ty t t) (hx : w.shape? x = some (.param p)) : Conforms erased w t x := by
  have hpx : x.present := hw.present hx nofun
  have hmeets {ρ : Corr} {w : World} {t : Ty} {d : Shape} (hM : ρ.Matches w w) (hw : w.Standard) (hρx : ρ.ty x x)
      (hρt : ρ.ty t t) (hd : w.shape? t = some d) (hne : d ≠ .fixed .noType)
      (h : Holds erased (Conforms erased) w t x) : Conforms erased w t x :=
    (conforms_iff hM hρt hρx).2 ⟨hw.present hd hne, hpx, .inr h⟩
  have hnot {w : World} (hx : w.shape? x = some (.param p)) : intercepts (w.shape x) = false := by
    rw [World.shape_of_shape? hx]
    rfl
  have hbelow {ρ : Corr} {w : World} {t : Ty} {d : Shape} (hM : ρ.Matches w w) (hw : w.Standard) (hρx : ρ.ty x x)
      (hρt : ρ.ty t t) (hx : w.shape? x = some (.param p)) (hd : w.shape? t = some d) (hinert : isInert d = false)
      (h : Below erased (Conforms erased) w t x) : Conforms erased w t x := by
    have hnot' : intercepts (w.shape t) = false := by
      rw [World.shape_of_shape? hd]
      cases d <;> first | rfl | cases hinert
    have hnames : ((w.shape t).isNamed && (w.shape x).isNamed) = false := by
      rw [World.shape_of_shape? hx]
      exact Bool.and_false _
    refine hmeets hM hw hρx hρt hd (by rintro rfl; cases hinert) ?_
    exact (holds_of_tells carried_conforms hM hρt hρx (hnot hx) hnot' hnames
      fun n => tells_third_leaves carried_conforms hM hρt hρx hx hd rfl).2 h
  induction h generalizing ρ with
  | self => exact .refl hpx
  | @hole w t hhole =>
    obtain ⟨d, -, hd, -, -⟩ := hM.ty hρt
    refine hmeets hM hw hρx hρt hd ?_ (holds_hole_left carried_conforms hM hρt hρx hhole (hnot hx))
    rintro rfl
    rw [World.shape_of_shape? hd] at hhole
    cases hhole
  | var hd _ ih =>
    exact hmeets hM hw hρx hρt hd nofun
      ((holds_var_left carried_conforms hM hρt hρx hd (hnot hx)).2 (ih hM hw hρx (hM.held hρt hd) hx))
  | @nothing w t q hd =>
    obtain ⟨hi, v, hupper, -⟩ := (grows_upperBound t).total w
    exact hbelow hM hw hρx hρt hx hd rfl ((below_named carried_conforms hM hρt hρx hd hupper).2 (.inl rfl))
  | @upper w v t q hi s hd hcls hupper _ ih =>
    obtain ⟨u, v', hr, hle⟩ := (grows_upperBound t).total w
    cases hupper.symm.trans hr
    obtain ⟨σ, hσ, hMσ, hρhi⟩ := hM.made (sim_upperBound hρt) hupper
    have hup := ih hMσ (hw.grow hle) (hσ.ty hρx) hρhi (hle.shape hx)
    exact hbelow hM hw hρx hρt hx hd rfl
      ((below_named carried_conforms hM hρt hρx hd hupper).2 (.inr (.inr ⟨hcls, hup⟩)))
  | @single w v t u d hd hsingle hunder _ ih =>
    obtain ⟨u', v', hr, hle⟩ := (grows_underlying t).total w
    cases hunder.symm.trans hr
    obtain ⟨σ, hσ, hMσ, hρu⟩ := hM.made (sim_underlying hρt) hunder
    have hu := ih hMσ (hw.grow hle) (hσ.ty hρx) hρu (hle.shape hx)
    refine hbelow hM hw hρx hρt hx hd ?_ ((below_single carried_conforms hM hρt hρx hd hsingle hunder).2 hu)
    cases d <;> first | rfl | cases hsingle
  | @refined w t parent info name hd _ ih =>
    cases hM.parts hρt hd with | refined hparent _ _ =>
    exact hbelow hM hw hρx hρt hx hd rfl
      ((below_refined carried_conforms hM hρt hρx hd).2 (ih hM hw hρx hparent hx))
  | @left w t a b hd _ ih =>
    cases hM.parts hρt hd with | inter ha hb =>
    exact hbelow hM hw hρx hρt hx hd rfl
      ((below_inter carried_conforms hM hρt hρx hd).2 (.inl (ih hM hw hρx ha hx)))
  | @right w t a b hd _ ih =>
    cases hM.parts hρt hd with | inter ha hb =>
    exact hbelow hM hw hρx hρt hx hd rfl
      ((below_inter carried_conforms hM hρt hρx hd).2 (.inr (ih hM hw hρx hb hx)))
  | @union w t a b hd _ _ iha ihb =>
    cases hM.parts hρt hd with | union ha hb =>
    exact hbelow hM hw hρx hρt hx hd rfl
      ((below_union carried_conforms hM hρt hρx hd).2 ⟨iha hM hw hρx ha hx, ihb hM hw hρx hb hx⟩)

/-- A parameter that is not under inference conforms to what shows it, and to nothing else. -/
theorem conforms_param_iff (hw : w.Built) (hx : w.shape? x = some (.param p)) (ht : w.Has t) :
    Conforms erased w x t ↔ AboveParam erased w x t := by
  have hM := hw.closed.identity_matches
  have hhas : w.Has x := Option.isSome_of_eq_some hx
  refine ⟨fun h => ?_, fun h => h.conforms hM hw.standard ⟨rfl, hhas⟩ ⟨rfl, ht⟩ hx⟩
  -- the members of the parameter are compared in worlds with the same declarations
  have hall : w.Standard → w.decls = w.decls → w.shape? x = some (.param p) → AboveParam erased w x t := by
    refine h.induct (P := fun v a b => v.Standard → v.decls = w.decls → v.shape? a = some (.param p) →
      AboveParam erased v a b) hM ⟨rfl, hhas⟩ ⟨rfl, ht⟩ (fun _ _ _ _ _ _ => .self) ?_
    intro ρ v a b S hS hsub hM ha hb _ _ hholds hv hdecls ha'
    exact above_of_holds hS hM ha hb hv ha' hw hdecls (fun u hu => (hsub v a u hu).2 hv hdecls ha')
      (fun v u u' hu => (hsub v u u' hu).1) hholds
  exact hall hw.standard rfl hx

/-- What comes down to a parameter that is not under inference conforms to it, and nothing else does. -/
theorem conforms_to_param_iff (hw : w.Built) (hx : w.shape? x = some (.param p)) (ht : w.Has t) :
    Conforms erased w t x ↔ BelowParam x w t := by
  have hM := hw.closed.identity_matches
  have hhas : w.Has x := Option.isSome_of_eq_some hx
  refine ⟨fun h => ?_, fun h => h.conforms hM hw.standard ⟨rfl, hhas⟩ ⟨rfl, ht⟩ hx⟩
  have hall : w.shape? x = some (.param p) → BelowParam x w t := by
    refine h.induct (P := fun v a b => v.shape? b = some (.param p) → BelowParam b v a) hM ⟨rfl, ht⟩ ⟨rfl, hhas⟩
      (fun _ _ _ _ => .self) ?_
    intro ρ v a b S hS hsub hM ha hb _ _ hholds hb'
    exact below_of_holds hS hM hb ha hb' (fun v' u hle hu => (hsub v' u b hu).2 (hle.shape hb')) hholds
  exact hall hx

/-- **What a parameter that is not under inference is compared with.** It conforms to the types that show it, and the
types that come down to it conform to it; the ends of its bounds are among them only if they do. -/
theorem isSubType_rigid {answer : Bool} (hw : w.Built) (hx : w.shape? x = some (.param p)) (ht : w.Has t) :
    (w.Returns erased x t answer → (answer = true ↔ AboveParam erased w x t)) ∧
      (w.Returns erased t x answer → (answer = true ↔ BelowParam x w t)) := by
  have hhas : w.Has x := Option.isSome_of_eq_some hx
  refine ⟨fun h => ?_, fun h => ?_⟩
  · exact (h.iff hw.closed hhas ht).trans (conforms_param_iff hw hx ht)
  · exact (h.iff hw.closed ht hhas).trans (conforms_to_param_iff hw hx ht)

end Characterization

/-! ### A parameter with bounds -/

/-- The types `[X >: Int <: AnyVal] X` and `[X >: Int <: AnyVal] AnyVal`, and the union of the first `X` with `String`. -/
def rigidWorld : World :=
  let w := { World.initial with binders := World.initial.binders.push { kind := .universal, names := ["X"] } }
  let w := { w with binders := w.binders.push { kind := .universal, names := ["X"] } }
  let w := { w with types := (w.types.intern (.param ⟨⟨0⟩, 0⟩)).2 }
  let w := { w with types := (w.types.intern (.bounds Builtin.int.type Builtin.anyVal.type)).2 }
  let w := { w with binders := w.binders.modify 0 fun d => { d with infos := [⟨16⟩], result := ⟨15⟩ } }
  let w := { w with binders := w.binders.modify 1 fun d => { d with infos := [⟨16⟩], result := Builtin.anyVal.type } }
  [.universal ⟨0⟩, .universal ⟨1⟩, .union ⟨15⟩ Builtin.string.type].foldl
    (fun w d => { w with types := (w.types.intern d).2 }) w

theorem rigidWorld_built : rigidWorld.Built := by
  have h₁ := World.Built.binder .initial .universal ["X"]
  have h₂ := h₁.binder .universal ["X"]
  have h₃ := h₂.intern (.param ⟨⟨0⟩, 0⟩) (World.mentions_param (by decide) _)
  have h₄ := h₃.intern (.bounds Builtin.int.type Builtin.anyVal.type)
    (World.mentions_bounds (by decide) (by decide))
  have h₅ := h₄.fill ⟨0⟩ [⟨16⟩] ⟨15⟩ (by decide) (by decide)
  have h₆ := h₅.fill ⟨1⟩ [⟨16⟩] Builtin.anyVal.type (by decide) (by decide)
  have h₇ := h₆.intern (.universal ⟨0⟩) (World.mentions_universal (by decide))
  have h₈ := h₇.intern (.universal ⟨1⟩) (World.mentions_universal (by decide))
  exact h₈.intern (.union ⟨15⟩ Builtin.string.type) (.union ⟨rfl, by decide⟩ ⟨rfl, by decide⟩)

/-- The parameter conforms to its union with `String`, and the bottom class conforms to the parameter. -/
theorem isSubType_rigid_union : rigidWorld.Built ∧ rigidWorld.shape? ⟨15⟩ = some (.param ⟨⟨0⟩, 0⟩) ∧
    (∃ answer, rigidWorld.Returns false ⟨15⟩ ⟨19⟩ answer ∧ answer = true) ∧
    ∃ answer, rigidWorld.Returns false Builtin.nothing.type ⟨15⟩ answer ∧ answer = true := by
  have hw := rigidWorld_built
  have hx : rigidWorld.shape? ⟨15⟩ = some (.param ⟨⟨0⟩, 0⟩) := by decide
  have habove : rigidWorld.Returns false ⟨15⟩ ⟨19⟩ true := World.returns_of_run 12 (by decide)
  have hbelow : rigidWorld.Returns false Builtin.nothing.type ⟨15⟩ true := World.returns_of_run 12 (by decide)
  have hunion : rigidWorld.shape? ⟨19⟩ = some (.union ⟨15⟩ Builtin.string.type) := by decide
  refine ⟨hw, hx, ⟨true, habove, ?_⟩, true, hbelow, ?_⟩
  · exact ((isSubType_rigid hw hx (by decide)).1 habove).2 (.left hunion .self)
  · exact ((isSubType_rigid hw hx (by decide)).2 hbelow).2 (.nothing (hw.standard.shape .nothing))

/-- Neither does `Int` conform to a parameter above it nor the parameter to the class `AnyVal` that it is below, although
`AnyVal` is its base type and gives its erased name; and the universal types with the two bodies do not conform. -/
theorem isSubType_rigid_bounds :
    rigidWorld.boundsParts? (rigidWorld.paramInfo ⟨⟨0⟩, 0⟩) = some (Builtin.int.type, Builtin.anyVal.type) ∧
      rigidWorld.Returns false Builtin.int.type ⟨15⟩ false ∧ rigidWorld.Returns false ⟨15⟩ Builtin.anyVal.type false ∧
      rigidWorld.Returns false ⟨17⟩ ⟨18⟩ false ∧
      ((Ty.baseType ⟨15⟩ Builtin.anyVal.symbol rigidWorld).toOption.map (·.1)) = some Builtin.anyVal.type ∧
      ((Ty.erasedName ⟨15⟩ rigidWorld).toOption.map (·.1)) = some "AnyVal" := by
  refine ⟨by decide, World.returns_of_run 12 (by decide),
    World.returns_of_run 12 (by decide), World.returns_of_run 12 (by decide),
    by decide, by decide⟩

end CompareM

end Conformance
