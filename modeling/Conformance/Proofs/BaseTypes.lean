import Conformance.Proofs.ClassLattice
import Conformance.Proofs.Replacement

/-!
# What conforms as its base type does

The base type of a type at a class is found along upper ends, refined parents, operands and parents of classes. A type
conforms to the class if its base type there does, where the clauses for the source lead along the same way
(`World.Screened`): they do not lead through parameters, and classes are left to base types of their own.
-/

namespace Conformance

open CompareM

/-- Each trait of type constructors is static. -/
theorem World.Built.isStatic_trait {w : World} {s : Symbol} (hw : w.Built) (hs : Builtin.isTrait s) :
    w.decls.isStatic s := by
  suffices hflags : (w.decls.get? s).map (·.flags.static) = some true by
    obtain ⟨d, hd, hstatic⟩ := Option.map_eq_some_iff.1 hflags
    simpa [Declarations.isStatic, Declarations.flags, hd] using hstatic
  induction hw with
  | initial =>
    have htraits : ∀ t ∈ Builtin.traits, (World.initial.decls.get? t.2).map (·.flags.static) = some true := by
      decide
    obtain ⟨t, ht, hts⟩ := List.any_eq_true.1 hs
    exact of_decide_eq_true hts ▸ htraits t ht
  | @register w _ d _ _ ih =>
    obtain ⟨e, he, hflags⟩ := Option.map_eq_some_iff.1 ih
    simp only [Declarations.register, Declarations.get?_update, World.get?_push he, Option.map_some]
    split
    · cases d.kind <;> exact congrArg some hflags
    · exact congrArg some hflags
  | parents _ s' parents _ ih =>
    simp only [Declarations.setParents, Declarations.get?_update]
    split
    · rw [Option.map_map]
      exact ih
    · exact ih
  | _ => assumption

namespace World

/-- The clause for the source `t` leads to `x`, which is made in `v`. -/
inductive Offers (w : World) (t : Ty) : World → Ty → Prop
  | var {i : VarId} (shape : w.shape? t = some (.var i)) : Offers w t w (w.varUnderlying i)
  | upper {v : World} {x q : Ty} {s : Symbol} (shape : w.shape? t = some (.named q s)) (plain : ¬ w.decls.isClass s)
    (upper : t.upperBound w = .ok (x, v)) : Offers w t v x
  | single {v : World} {x : Ty} {d : Shape} (shape : w.shape? t = some d) (single : d.isSingleton)
    (underlying : t.underlying w = .ok (x, v)) : Offers w t v x
  | parent {x info : Ty} {name : String} (shape : w.shape? t = some (.refined x name info)) : Offers w t w x
  | meet {a b x : Ty} (shape : w.shape? t = some (.inter a b)) (operand : x = a ∨ x = b) : Offers w t w x
  | join {a b x : Ty} (shape : w.shape? t = some (.union a b)) (operand : x = a ∨ x = b) : Offers w t w x

/-- On the way from `t` to its base type at the class `s`, which `u` names, there is a type that the clauses for the
source do not lead through: a parameter, the info of a class, a class whose own base type there does not conform, or a
chain of variables without an end. A class that is selected from a prefix may also be one that all types conform to. -/
inductive Screened (erased : Bool) (s : Symbol) (u : Ty) : World → Ty → Prop
  | param {w : World} {t : Ty} {p : Param} (shape : w.shape? t = some (.param p)) : Screened erased s u w t
  | info {w : World} {t q : Ty} {c : Symbol} (shape : w.shape? t = some (.classInfo q c)) : Screened erased s u w t
  | parents {w : World} {t q : Ty} {c : Symbol} (shape : w.shape? t = some (.named q c)) (cls : w.decls.isClass c)
    (other : c ≠ s) (lost : ¬ w.BaseFits (Conforms erased) t s u) : Screened erased s u w t
  | apart {w : World} {t : Ty} (apart : w.Apart erased t u) : Screened erased s u w t
  | loops {w : World} {t : Ty} (loops : ¬ w.Unfolds t) : Screened erased s u w t
  | top {w : World} {t : Ty} (selected : w.decls.isStatic s = false) (meets : Conforms erased w Builtin.any.type u) :
    Screened erased s u w t
  | leads {w v : World} {t x : Ty} (step : w.Offers t v x) (screened : Screened erased s u v x) : Screened erased s u w t
  | later {w v : World} {t : Ty} (le : w ≤ v) (screened : Screened erased s u v t) : Screened erased s u w t

/-- Nor is anything of a static symbol selected. -/
theorem not_apart_of_static_source {erased : Bool} {w : World} {t u q : Ty} {s : Symbol}
    (ht : w.shape? t = some (.named q s)) (hs : w.decls.isStatic s) : ¬ w.Apart erased t u := by
  intro h
  induction h with
  | names hleft _ _ hfree =>
    rw [shape_of_shape? ht] at hleft
    cases hleft
    rw [hs] at hfree
    cases hfree
  | source hshape => cases ht.symm.trans hshape
  | target _ _ ih | left _ _ ih | right _ _ ih => exact ih ht

/-- A class is left to base types of its own. -/
theorem not_offers_of_class {w v : World} {s : Symbol} {q x y : Ty} (hx : w.shape? x = some (.named q s))
    (hcls : w.decls.isClass s) : ¬ w.Offers x v y := by
  rintro (h | ⟨h, hplain, -⟩ | ⟨h, hsingle, -⟩ | h | ⟨h, -⟩ | ⟨h, -⟩)
  · cases hx.symm.trans h
  · cases hx.symm.trans h
    exact hplain hcls
  · cases hx.symm.trans h
    cases hsingle
  · cases hx.symm.trans h
  · cases hx.symm.trans h
  · cases hx.symm.trans h

end World

namespace CompareM

section Offering

variable {erased : Bool} {ρ : Corr} {w v : World} {t u x : Ty}

/-- A type that is no union conforms to what a type that its clause leads to conforms to. -/
theorem conforms_of_offers (hM : ρ.Matches w w) (hw : w.Standard) (kt : ρ.ty t t) (ku : ρ.ty u u) (ht : w.Unfolds t)
    (hu : w.Unfolds u) (hstep : w.Offers t v x) (hone : ∀ a b, w.shape? t ≠ some (.union a b))
    (hapart : ¬ w.Apart erased t u) (h : Conforms erased v x u) : Conforms erased w t u := by
  have hbelow {d : Shape} {v : World} {y : Ty} {σ : Corr} (hd : w.shape? t = some d) (hnot : intercepts d = false)
      (hv : w ≤ v) (hσ : ρ ≤ σ) (hMσ : σ.Matches v v) (ky : σ.ty y y) (h : Conforms erased v y u)
      (hbelow : ∀ u, ρ.ty u u → Conforms erased v y u → Below erased (Conforms erased) w t u) : Conforms erased w t u :=
    conforms_of_offer hM ku hw hu ht kt (World.shape_of_shape? hd ▸ hnot) hv hσ hMσ ky hbelow hapart h
  cases hstep with
  | var hshape => exact conforms_of_varUnderlying hM hw hu ku hshape kt h.present.1 h
  | upper hshape hplain hupper =>
    obtain ⟨σ, hσ, hMσ, kx⟩ := hM.made (sim_upperBound kt) hupper
    refine hbelow hshape rfl ((grows_upperBound t).le_of_ok hupper) hσ hMσ kx h fun u ku h => ?_
    exact (below_named carried_conforms hM kt ku hshape hupper).2 (.inr (.inr ⟨hplain, h⟩))
  | @single _ _ d hshape hsingle hunder =>
    obtain ⟨σ, hσ, hMσ, kx⟩ := hM.made (sim_underlying kt) hunder
    refine hbelow hshape ?_ ((grows_underlying t).le_of_ok hunder) hσ hMσ kx h fun u ku h => ?_
    · cases d <;> first | rfl | cases hsingle
    · exact (below_single carried_conforms hM kt ku hshape hsingle hunder).2 h
  | parent hshape =>
    cases hM.parts kt hshape with | refined kp _ _ =>
    exact hbelow hshape rfl le_rfl le_rfl hM kp h fun u ku => (below_refined carried_conforms hM kt ku hshape).2
  | meet hshape hoperand =>
    cases hM.parts kt hshape with | inter ka kb =>
    have kx : ρ.ty x x := by
      rcases hoperand with rfl | rfl
      · exact ka
      · exact kb
    refine hbelow hshape rfl le_rfl le_rfl hM kx h fun u ku h => (below_inter carried_conforms hM kt ku hshape).2 ?_
    rcases hoperand with rfl | rfl
    · exact .inl h
    · exact .inr h
  | join hshape => exact absurd hshape (hone _ _)

omit x in
/-- The bottom class conforms to everything. -/
theorem conforms_nothing {q : Ty} (hM : ρ.Matches w w) (hw : w.Standard) (kt : ρ.ty t t) (ku : ρ.ty u u)
    (ht : w.shape? t = some (.named q Builtin.nothing.symbol)) (hu : w.Unfolds u) : Conforms erased w t u := by
  obtain ⟨y, v, hupper, -⟩ := (grows_upperBound t : Grows False _).total w
  refine conforms_of_source hM hw hu ku (.leaf (hw.present ht nofun) ht rfl nofun) kt
    (by rw [World.shape_of_shape? ht]; rfl) (Q := fun _ => True) (fun _ _ _ _ _ _ _ _ => ⟨trivial, trivial⟩)
    (fun _ _ _ _ _ _ => trivial) (fun u ku _ => ?_) trivial (World.not_apart_of_static_source ht (hw.isStatic .nothing))
  exact (below_named carried_conforms hM kt ku ht hupper).2 (.inl rfl)

end Offering

section Walking

variable {erased : Bool} {ρ : Corr} {w w₀ v : World} {t u x q : Ty} {s : Symbol}

/-- What conforms to a class that is selected from a prefix does so by its own clause, names apart. -/
theorem below_of_selected_class {d : Shape} (hw₀ : w₀.Built) (hdecls : w.decls = w₀.decls) (hM : ρ.Matches w w)
    (hw : w.Standard) (kt : ρ.ty t t) (ku : ρ.ty u u) (hu : w.shape? u = some (.named q s)) (hcls : w.decls.isClass s)
    (hfree : w.decls.isStatic s = false) (ht : w.shape? t = some d) (hnamed : d.isNamed = false)
    (hnot : intercepts d = false) (h : Conforms erased w t u) : Below erased (Conforms erased) w t u := by
  have hne : t ≠ u := by
    rintro rfl
    cases ht.symm.trans hu
    cases hnamed
  have hends := World.ends?_of_isClass hu hcls
  have hsymbol : targetSymbol w u = s := by rw [targetSymbol, World.shape_of_shape? hu]
  have hmarker (b : Builtin) : s ≠ b.symbol := by
    rintro rfl
    rw [hw.isStatic b] at hfree
    cases hfree
  obtain ⟨n, hn⟩ := (holds_named carried_conforms hM kt ku (by rw [World.shape_of_shape? hu]; rfl)
    (World.shape_of_shape? ht ▸ hnamed) (World.shape_of_shape? ht ▸ hnot)).1 (holds_of_conforms hM kt ku hne h)
  have hread := readable_of_affirmed hM ku hw hends hn kt
  rcases (tells_thirdNamed_none carried_conforms hM kt ku hw hends hread).affirmed_iff.1 hn with
    ⟨hs, -⟩ | ⟨hs, -⟩ | ⟨hs, -⟩ | h
  · exact absurd (hsymbol.symm.trans hs) (hmarker .singleton)
  · exact absurd (hsymbol.symm.trans hs) (hmarker .notNull)
  · rw [hdecls, hw₀.isStatic_trait (hsymbol ▸ hs)] at hfree
    cases hfree
  · exact h

/-- A class conforms to what its base type conforms to. -/
theorem conforms_of_baseFits {c : Symbol} {q' : Ty} (hM : ρ.Matches w w) (hw : w.Standard) (kt : ρ.ty t t) (ku : ρ.ty u u)
    (ht : w.shape? t = some (.named q' c)) (hu : w.shape? u = some (.named q s)) (hcls : w.decls.isClass s)
    (hne : c ≠ s) (h : w.BaseFits (Conforms erased) t s u) : Conforms erased w t u := by
  have hd := World.shape_of_shape? ht
  have hd' := World.shape_of_shape? hu
  refine conforms_of_holds hM kt ku (hw.present ht nofun) (hw.present hu nofun) ?_
  refine (holds_names carried_conforms hM kt ku (by rw [hd]; rfl) (by rw [hd']; rfl)).2 ⟨0, ?_⟩
  exact (affirmed_names_other carried_conforms hM kt ku (by rw [hd]; rfl) (by rw [hd']; rfl) hne).2 (.inr (.inl ⟨hcls, h⟩))

theorem conforms_of_static {q' : Ty} (hM : ρ.Matches w w) (hw : w.Standard) (kt : ρ.ty t t) (ku : ρ.ty u u)
    (ht : w.shape? t = some (.named q' s)) (hu : w.shape? u = some (.named q s)) (hs : w.decls.isStatic s) :
    Conforms erased w t u := by
  have hd := World.shape_of_shape? ht
  have hd' := World.shape_of_shape? hu
  refine conforms_of_holds hM kt ku (hw.present ht nofun) (hw.present hu nofun) ?_
  refine (holds_names carried_conforms hM kt ku (by rw [hd]; rfl) (by rw [hd']; rfl)).2 ⟨0, ?_⟩
  exact (tells_names_same carried_conforms hM kt ku (by rw [hd]; rfl) (by rw [hd']; rfl)).affirmed_iff.2 (.inr (.inl hs))

/-- What the walk for a base type answers is known if what it starts with is. -/
theorem known_of_walk {n : ℕ} {g g' : Guard Ty} (hM : ρ.Matches w w) (kt : ρ.ty t t) (hg : Guard.Alike ρ.ty g g)
    (hr : Walk.descend .noType (BaseType.step s) n t g w = .ok ((x, g'), v)) :
    w ≤ v ∧ ∃ σ, ρ ≤ σ ∧ σ.Matches v v ∧ σ.ty x x ∧ Guard.Alike σ.ty g' g' := by
  have hbalanced : Balanced True n (Walk.descend .noType (BaseType.step s) n t) :=
    balanced_descend _ (fun _ _ h => balanced_baseTypeStep h s) n t
  have hwalk : LikewiseWalk False ρ Corr.ty (Walk.descend .noType (BaseType.step s) n)
      (Walk.descend .noType (BaseType.step s) n) :=
    sim_descend (fun _ hσ => hσ.ty hM.noType) upward_ty (sim_baseTypeStep s) n
  have hagree := hwalk ρ le_rfl t t kt ρ g g le_rfl hg ρ w w le_rfl hM
  rw [hr] at hagree
  obtain ⟨σ, hσ, hMσ, hx, hg'⟩ := hagree
  exact ⟨((hbalanced g.bounds g.openKeys g.depth (.inl trivial) g w ⟨rfl, rfl, rfl⟩).ok hr).2, σ, hσ, hMσ, hx, hg'⟩

section Operands

variable {a b m : Ty} (hw₀ : w₀.Built) (hdecls : w.decls = w₀.decls) (hM : ρ.Matches w w) (hw : w.Standard)
  (ka : ρ.ty a a) (ku : ρ.ty u u) (hu : w.shape? u = some (.named q s)) (hcls : w.decls.isClass s)
  (hfree : w.decls.isStatic s = false)
include hw₀ hdecls hM hw ka ku hu hcls hfree

theorem conforms_of_refined_base {name : String} {info : Ty} (ki : ρ.ty info info)
    (hm : Ty.refined a name info w = .ok (m, v)) (h : Conforms erased v m u) : Conforms erased w a u := by
  have hv := (grows_intern _).le_of_ok hm
  obtain ⟨σ, hσ, hMσ, km⟩ := hM.made (sim_intern (.refined ka name ki)) hm
  have hshape : v.shape? m = some (.refined a name info) := by
    cases hm
    exact TypeTable.shape?_intern w.types _
  have hbelow := below_of_selected_class hw₀ (hv.decls.trans hdecls) hMσ (hw.grow hv) km (hσ.ty ku) (hv.shape hu)
    (hv.decls ▸ hcls) (hv.decls ▸ hfree) hshape rfl rfl h
  have hlater := (below_refined carried_conforms hMσ km (hσ.ty ku) hshape).1 hbelow
  exact hlater.transport (hM.grow hv le_rfl) ka ku

variable (kb : ρ.ty b b)
include kb

theorem conforms_of_inter_base (hm : Ty.inter a b w = .ok (m, v)) (h : Conforms erased v m u) :
    Conforms erased w a u ∨ Conforms erased w b u := by
  have hv := (grows_inter a b).le_of_ok hm
  obtain ⟨σ, hσ, hMσ, km⟩ := hM.made (sim_inter ka kb) hm
  have hlater {x : Ty} (kx : ρ.ty x x) (h : Conforms erased v x u) : Conforms erased w x u :=
    h.transport (hM.grow hv le_rfl) kx ku
  obtain ⟨m', v', hm', -, hcases⟩ := Ty.inter_cases a b w
  cases hm.symm.trans hm'
  rcases hcases with ⟨-, rfl⟩ | ⟨-, rfl⟩ | ⟨-, rfl⟩ | ⟨rfl | rfl, rfl⟩ | hshape
  · exact .inl (hlater ka h)
  · exact .inr (hlater kb h)
  · exact .inl (hlater ka h)
  · exact .inl (hlater ka h)
  · exact .inr (hlater kb h)
  · have hbelow := below_of_selected_class hw₀ (hv.decls.trans hdecls) hMσ (hw.grow hv) km (hσ.ty ku) (hv.shape hu)
      (hv.decls ▸ hcls) (hv.decls ▸ hfree) hshape rfl rfl h
    exact ((below_inter carried_conforms hMσ km (hσ.ty ku) hshape).1 hbelow).imp (hlater ka) (hlater kb)

theorem conforms_of_union_base (htop : ¬ Conforms erased w Builtin.any.type u) (hm : Ty.union a b w = .ok (m, v))
    (h : Conforms erased v m u) : Conforms erased w a u ∧ Conforms erased w b u := by
  have hv := (grows_union a b).le_of_ok hm
  obtain ⟨σ, hσ, hMσ, km⟩ := hM.made (sim_union ka kb) hm
  have hlater {x : Ty} (kx : ρ.ty x x) (h : Conforms erased v x u) : Conforms erased w x u :=
    h.transport (hM.grow hv le_rfl) kx ku
  have hnothing : Conforms erased w Builtin.nothing.type u :=
    conforms_nothing hM hw (hM.fixed _ (by decide)) ku (hw.shape .nothing) (.leaf (hw.present hu nofun) hu rfl nofun)
  obtain ⟨m', v', hm', -, hcases⟩ := Ty.union_cases a b w
  cases hm.symm.trans hm'
  rcases hcases with ⟨rfl, rfl⟩ | ⟨rfl, rfl⟩ | ⟨rfl, rfl⟩ | ⟨-, rfl⟩ | hshape
  · exact ⟨hlater ka h, hlater ka h⟩
  · exact ⟨hnothing, hlater kb h⟩
  · exact ⟨hlater ka h, hnothing⟩
  · exact absurd (hlater (hM.fixed _ (by decide)) h) htop
  · have hbelow := below_of_selected_class hw₀ (hv.decls.trans hdecls) hMσ (hw.grow hv) km (hσ.ty ku) (hv.shape hu)
      (hv.decls ▸ hcls) (hv.decls ▸ hfree) hshape rfl rfl h
    exact ((below_union carried_conforms hMσ km (hσ.ty ku) hshape).1 hbelow).imp (hlater ka) (hlater kb)

end Operands

/-- **A type conforms to a class if the base type that a walk finds there does**, or if the class is static and the walk
finds one at all, unless the way is screened. The induction is on the levels of the walk. -/
theorem conforms_of_walk {n : ℕ} {g g' : Guard Ty} {base : Ty} (hw₀ : w₀.Built) (hdecls : w.decls = w₀.decls)
    (hM : ρ.Matches w w) (hw : w.Standard) (kt : ρ.ty t t) (ku : ρ.ty u u) (hu : w.shape? u = some (.named q s))
    (hcls : w.decls.isClass s) (hg : Guard.Alike ρ.ty g g)
    (hr : Walk.descend .noType (BaseType.step s) n t g w = .ok ((base, g'), v)) (hpresent : base.present)
    (hbase : w.decls.isStatic s ∨ Conforms erased v base u) (hfree : ¬ World.Screened erased s u w t) :
    Conforms erased w t u := by
  induction n generalizing ρ w t g base g' v with
  | zero => cases hr
  | succ n ih =>
    have ht : w.Unfolds t := by_contra fun h => hfree (.loops h)
    have hu' : w.Unfolds u := .leaf (hw.present hu (by rintro ⟨⟩)) hu rfl (by rintro _ _ ⟨⟩)
    have hoffer {v : World} {x : Ty} (hstep : w.Offers t v x) (hone : ∀ a b, w.shape? t ≠ some (.union a b))
        (h : Conforms erased v x u) : Conforms erased w t u :=
      conforms_of_offers hM hw kt ku ht hu' hstep hone (fun h => hfree (.apart h)) h
    -- what the walk finds beyond `x` is enough for `x`
    have hgo {τ σ : Corr} {v v₁ v₂ : World} {x base : Ty} {g g' : Guard Ty} (hstep : w.Offers t v x) (hwv : w ≤ v)
        (hτ : ρ ≤ τ) (hMτ : τ.Matches v v) (kx : τ.ty x x) (hv : v ≤ v₁) (hσ : τ ≤ σ) (hMσ : σ.Matches v₁ v₁)
        (hg : Guard.Alike σ.ty g g) (hr : Walk.descend .noType (BaseType.step s) n x g v₁ = .ok ((base, g'), v₂))
        (hpresent : base.present) (hbase : w.decls.isStatic s ∨ Conforms erased v₂ base u) : Conforms erased v x u := by
      have hle := hwv.trans hv
      have hlater : Conforms erased v₁ x u := ih (hle.decls.trans hdecls) hMσ (hw.grow hle) (hσ.ty kx)
        ((hτ.trans hσ).ty ku) (hle.shape hu) (hle.decls ▸ hcls) hg hr hpresent (hle.decls ▸ hbase)
        fun h => hfree (.leads hstep (.later hv h))
      exact hlater.transport (hMτ.grow hv le_rfl) kx (hτ.ty ku)
    rcases inside_run hr with ⟨g₁, g₂, henter, hb, -⟩ | ⟨_, -, -, rfl, -⟩
    swap
    · cases hpresent
    have hg₁ : Guard.Alike ρ.ty g₁ g₁ := by
      have halike := (hg.enter kt fun _ _ h => hM.ty_inj h kt).2
      rwa [henter] at halike
    obtain ⟨d, -, hd, -, -⟩ := hM.ty kt
    rw [BaseType.step, Walk.run_world_bind, World.shape_of_shape? hd] at hb
    have hrest {m : WorldM Ty} (hm : Grows True m) (hsim : Sim False ρ Corr.ty m m)
        (hb : (liftM m >>= Walk.descend .noType (BaseType.step s) n : WalkM Ty) g₁ w = .ok ((base, g₂), v))
        (hstep : ∀ v x, m w = .ok (x, v) → w.Offers t v x) (hone : ∀ a b, w.shape? t ≠ some (.union a b)) :
        Conforms erased w t u := by
      obtain ⟨x, g₃, v₁, hlift, hnext⟩ := run_bind_ok hb
      obtain ⟨hx, rfl⟩ := run_lift_ok hlift
      obtain ⟨σ, hσ, hMσ, kx⟩ := hM.made hsim hx
      have hstep := hstep _ _ hx
      refine hoffer hstep hone ?_
      exact hgo hstep (hm.le_of_ok hx) hσ hMσ kx le_rfl le_rfl hMσ (upward_alike _ _ hσ _ _ hg₁) hnext hpresent hbase
    cases d with
    | named q' c =>
      by_cases hc : c = s
      · subst hc
        dsimp only at hb
        rw [if_pos rfl] at hb
        cases hb
        exact hbase.elim (conforms_of_static hM hw kt ku hd hu) id
      dsimp only at hb
      rw [if_neg hc] at hb
      by_cases hclass : w.decls.isClass c
      · by_contra hnot
        exact hfree (.parents hd hclass hc fun h => hnot (conforms_of_baseFits hM hw kt ku hd hu hcls hc h))
      · rw [if_neg hclass] at hb
        exact hrest (grows_upperBound t) (sim_upperBound kt) hb (fun _ _ => .upper hd hclass) (by rw [hd]; rintro _ _ ⟨⟩)
    | classInfo q' c => exact absurd (.info hd) hfree
    | param p => exact absurd (.param hd) hfree
    | refined parent name info =>
      cases hM.parts kt hd with | refined kp _ ki =>
      obtain ⟨b, g₃, v₁, hnext, hb⟩ := run_bind_ok hb
      obtain ⟨hle₁, σ, hσ, hMσ, kb, -⟩ := known_of_walk hM kp hg₁ hnext
      have hstep : w.Offers t w parent := .parent hd
      refine hoffer hstep (by rw [hd]; rintro _ _ ⟨⟩) ?_
      suffices hfound : b.present ∧ (w.decls.isStatic s ∨ Conforms erased v₁ b u) from
        hgo hstep le_rfl le_rfl hM kp le_rfl le_rfl hM hg₁ hnext hfound.1 hfound.2
      split at hb
      · next hdeclares =>
        refine ⟨(Bool.and_eq_true_iff.1 hdeclares).1, ?_⟩
        by_cases hs : w.decls.isStatic s
        · exact .inl hs
        obtain ⟨hm, -⟩ := run_lift_ok hb
        exact .inr (conforms_of_refined_base hw₀ (hle₁.decls.trans hdecls) hMσ (hw.grow hle₁) kb (hσ.ty ku)
          (hle₁.shape hu) (hle₁.decls ▸ hcls) (hle₁.decls ▸ Bool.eq_false_iff.2 hs) (hσ.ty ki) hm (hbase.resolve_left hs))
      · cases hb
        exact ⟨hpresent, hbase⟩
    | inter a b =>
      cases hM.parts kt hd with | inter ka kb =>
      obtain ⟨l, g₃, v₁, hleft, hb⟩ := run_bind_ok hb
      obtain ⟨r, g₄, v₂, hright, hb⟩ := run_bind_ok hb
      obtain ⟨hle₁, σ, hσ, hMσ, kl, hg₃⟩ := known_of_walk hM ka hg₁ hleft
      obtain ⟨hle₂, τ, hτ, hMτ, kr, -⟩ := known_of_walk hMσ (hσ.ty kb) hg₃ hright
      have hle := hle₁.trans hle₂
      have hstep {x : Ty} (hx : x = a ∨ x = b) : w.Offers t w x := .meet hd hx
      have hone : ∀ a b, w.shape? t ≠ some (.union a b) := by
        rw [hd]
        rintro _ _ ⟨⟩
      suffices hfound : (l.present ∧ (w.decls.isStatic s ∨ Conforms erased v₂ l u)) ∨
          r.present ∧ (w.decls.isStatic s ∨ Conforms erased v₂ r u) by
        rcases hfound with ⟨hpl, hl⟩ | ⟨hpr, hr⟩
        · refine hoffer (hstep (.inl rfl)) hone (hgo (hstep (.inl rfl)) le_rfl le_rfl hM ka le_rfl le_rfl hM hg₁ hleft hpl ?_)
          exact hl.imp_right fun h => h.transport (hMσ.grow hle₂ le_rfl) kl (hσ.ty ku)
        · exact hoffer (hstep (.inr rfl)) hone (hgo (hstep (.inr rfl)) le_rfl le_rfl hM kb hle₁ hσ hMσ hg₃ hright hpr hr)
      split at hb
      · next hboth =>
        rw [Bool.and_eq_true] at hboth
        obtain ⟨hm, -⟩ := run_lift_ok hb
        by_cases hs : w.decls.isStatic s
        · exact .inl ⟨hboth.1, .inl hs⟩
        refine (conforms_of_inter_base hw₀ (hle.decls.trans hdecls) hMτ (hw.grow hle) (hτ.ty kl) ((hσ.trans hτ).ty ku)
          (hle.shape hu) (hle.decls ▸ hcls) (hle.decls ▸ Bool.eq_false_iff.2 hs) kr hm (hbase.resolve_left hs)).imp ?_ ?_
        · exact fun h => ⟨hboth.1, .inr h⟩
        · exact fun h => ⟨hboth.2, .inr h⟩
      · split at hb
        · cases hb
          exact .inl ⟨hpresent, hbase⟩
        · cases hb
          exact .inr ⟨hpresent, hbase⟩
    | union a b =>
      cases hM.parts kt hd with | union ka kb =>
      obtain ⟨l, g₃, v₁, hleft, hb⟩ := run_bind_ok hb
      obtain ⟨r, g₄, v₂, hright, hb⟩ := run_bind_ok hb
      obtain ⟨hle₁, σ, hσ, hMσ, kl, hg₃⟩ := known_of_walk hM ka hg₁ hleft
      obtain ⟨hle₂, τ, hτ, hMτ, kr, -⟩ := known_of_walk hMσ (hσ.ty kb) hg₃ hright
      have hle := hle₁.trans hle₂
      have hstep {x : Ty} (hx : x = a ∨ x = b) : w.Offers t w x := .join hd hx
      split at hb
      swap
      · cases hb
        cases hpresent
      · next hboth =>
        rw [Bool.and_eq_true] at hboth
        obtain ⟨hm, -⟩ := run_lift_ok hb
        have hparts : w.decls.isStatic s ∨ Conforms erased v₂ l u ∧ Conforms erased v₂ r u := by
          by_cases hs : w.decls.isStatic s
          · exact .inl hs
          refine .inr (conforms_of_union_base hw₀ (hle.decls.trans hdecls) hMτ (hw.grow hle) (hτ.ty kl)
            ((hσ.trans hτ).ty ku) (hle.shape hu) (hle.decls ▸ hcls) (hle.decls ▸ Bool.eq_false_iff.2 hs) kr ?_ hm
            (hbase.resolve_left hs))
          exact fun h => hfree (.later hle (.top (hle.decls ▸ Bool.eq_false_iff.2 hs) h))
        have ha := hgo (hstep (.inl rfl)) le_rfl le_rfl hM ka le_rfl le_rfl hM hg₁ hleft hboth.1
          (hparts.imp_right fun h => h.1.transport (hMσ.grow hle₂ le_rfl) kl (hσ.ty ku))
        have hb := hgo (hstep (.inr rfl)) le_rfl le_rfl hM kb hle₁ hσ hMσ hg₃ hright hboth.2 (hparts.imp_right And.right)
        have hunfolds {x : Ty} (hx : x = a ∨ x = b) : w.Unfolds x := by_contra fun h => hfree (.leads (hstep hx) (.loops h))
        exact conforms_union_left hM hw hd (hunfolds (.inl rfl)) (hunfolds (.inr rfl)) hu' kt ku ha hb
    | var i =>
      refine hrest (grows_underlying t) (sim_underlying kt) hb (fun v x hx => ?_) (by rw [hd]; rintro _ _ ⟨⟩)
      rw [Ty.underlying, get_bind_run, World.shape_of_shape? hd] at hx
      cases hx
      exact .var hd
    | path | self | literal | skolem | valueParam =>
      exact hrest (grows_underlying t) (sim_underlying kt) hb (fun _ _ => .single hd rfl) (by rw [hd]; rintro _ _ ⟨⟩)
    | _ =>
      cases hb
      cases hpresent

/-- What the base type of a name is let in for, the upper end of what the name stands for is. -/
theorem upperBound_conforms {p : Ty} {c : Symbol} (hw₀ : w₀.Built) (hdecls : w.decls = w₀.decls)
    (hM : ρ.Matches w w) (hw : w.Standard) (kt : ρ.ty t t) (ku : ρ.ty u u) (ht : w.shape? t = some (.named p c))
    (hplain : ¬ w.decls.isClass c) (hupper : t.upperBound w = .ok (x, v)) (hu : w.shape? u = some (.named q s))
    (hcls : w.decls.isClass s) (h : w.BaseFits (Conforms erased) t s u) (hfree : ¬ World.Screened erased s u v x) :
    Conforms erased v x u := by
  obtain ⟨base, w', hbase, hpresent, -, hfits⟩ := h
  obtain ⟨g, hr⟩ := descend_of_run hbase
  have hguard : Guard.Alike ρ.ty { bounds := .walk } { bounds := .walk } := ⟨rfl, .nil, rfl, rfl⟩
  rcases inside_run hr with ⟨g₁, g₂, henter, hb, -⟩ | ⟨_, -, -, rfl, -⟩
  swap
  · cases hpresent
  have hg₁ : Guard.Alike ρ.ty g₁ g₁ := by
    have halike := (hguard.enter kt fun _ _ h => hM.ty_inj h kt).2
    rwa [henter] at halike
  have hne : c ≠ s := by
    rintro rfl
    exact hplain hcls
  rw [BaseType.step, Walk.run_world_bind, World.shape_of_shape? ht] at hb
  dsimp only at hb
  rw [if_neg hne, if_neg hplain] at hb
  obtain ⟨y, g₃, v₁, hlift, hb⟩ := run_bind_ok hb
  obtain ⟨hy, rfl⟩ := run_lift_ok hlift
  cases hupper.symm.trans hy
  have hv := (grows_upperBound t).le_of_ok hupper
  obtain ⟨σ, hσ, hMσ, kx⟩ := hM.made (sim_upperBound kt) hupper
  exact conforms_of_walk hw₀ (hv.decls.trans hdecls) hMσ (hw.grow hv) kx (hσ.ty ku) (hv.shape hu) (hv.decls ▸ hcls)
    (upward_alike _ _ hσ _ _ hg₁) hb hpresent (.inr hfits) hfree

end Walking

end CompareM

end Conformance
