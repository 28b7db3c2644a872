import Conformance.Proofs.BaseTypes
import Conformance.Proofs.UnionSources

/-!
# Aliases stand for their types

References to an alias are not replaced by what the alias stands for. A type conforms to a reference, as a target,
through its lower end and as a source through its upper end, and both are the aliased type. So the reference compares as
the aliased type does, except where a comparison looks at the reference itself: at a name of the same symbol, which is
compared by prefixes only (`World.Apart`), and where a target asks for a base type or a member of the reference or for
its type parameters (`World.Veiled`).
-/

namespace Conformance

open CompareM

/-- The reference `r` selects the alias `A` of the type `t` from `p`, and no other symbol has the name of `A`. -/
structure World.AliasOf (w : World) (A : Symbol) (p r t : Ty) : Prop where
  shape : w.shape? r = some (.named p A)
  synonym : w.decls.isSynonym A
  info : w.decls.info A = t
  alone : ∀ s, w.decls.name s = w.decls.name A → s = A

namespace World.AliasOf

variable {w v : World} {A : Symbol} {p r t : Ty}

theorem grow (h : w.AliasOf A p r t) (hv : w ≤ v) : v.AliasOf A p r t where
  shape := hv.shape h.shape
  synonym := by rw [hv.decls]; exact h.synonym
  info := by rw [hv.decls]; exact h.info
  alone s := by rw [hv.decls]; exact h.alone s

theorem kind (h : w.AliasOf A p r t) : w.decls.kind? A = some .synonym := by
  simpa [Declarations.isSynonym] using h.synonym

theorem plain (h : w.AliasOf A p r t) : ¬ w.decls.isClass A := by
  simp [Declarations.isClass, h.kind]

/-- Where a reference to the alias stands for itself, the aliased type does. -/
theorem known {ρ : Corr} (h : w.AliasOf A p r t) (hM : ρ.Matches w w) {x q : Ty} (kx : ρ.ty x x)
    (hx : w.shape? x = some (.named q A)) : ρ.ty t t := by
  cases hM.parts kx hx with | named _ hs => exact h.info ▸ hM.info hs

theorem ends (h : w.AliasOf A p r t) {u q : Ty} (hu : w.shape? u = some (.named q A)) : w.ends? u = some (t, t) := by
  rw [World.ends?, World.shape_of_shape? hu]
  dsimp only
  rw [h.kind, h.info]

/-- References to the alias offer the aliased type. -/
theorem offers {ρ : Corr} (h : w.AliasOf A p r t) (hM : ρ.Matches w w) (hw : w.Standard) {x q : Ty} (kx : ρ.ty x x)
    (hx : w.shape? x = some (.named q A)) : ∃ v, w ≤ v ∧ x.upperBound w = .ok (t, v) ∧ w.Offers x v t := by
  obtain ⟨i, v, hinfo, hv⟩ := (grows_infoOf x).total w
  have hends := (boundsParts?_infoOf hw hM kx le_rfl hinfo).trans (h.ends hx)
  have hupper : x.upperBound w = .ok (t, v) := by
    show Except.bind (x.infoOf w) _ = _
    rw [hinfo]
    show Except.ok (((v.boundsParts? i).map (·.2)).getD i, v) = _
    rw [hends]
    rfl
  exact ⟨v, hv, hupper, .upper hx h.plain hupper⟩

end World.AliasOf

namespace CompareM

section Sources

variable {erased : Bool} {ρ : Corr} {w w₀ : World} {A : Symbol} {p q r t u x : Ty}

/-- What the aliased type conforms to, a reference conforms to. -/
theorem conforms_of_aliased (h : w.AliasOf A p r t) (hM : ρ.Matches w w) (hw : w.Standard) (kx : ρ.ty x x)
    (hx : w.shape? x = some (.named q A)) (ku : ρ.ty u u) (hu : w.Unfolds u) (hapart : ¬ w.Apart erased x u)
    (ht : Conforms erased w t u) : Conforms erased w x u := by
  obtain ⟨v, hv, -, hoffers⟩ := h.offers hM hw kx hx
  refine conforms_of_offers hM hw kx ku (.leaf (hw.present hx nofun) hx rfl nofun) hu hoffers (by rw [hx]; exact nofun)
    hapart ?_
  exact ht.transport (hM.grow le_rfl hv) (h.known hM kx hx) ku

/-- What conforms to the aliased type conforms to a reference. -/
theorem conforms_to_alias (h : w.AliasOf A p r t) (hM : ρ.Matches w w) (hw : w.Standard) (kx : ρ.ty x x)
    (hx : w.shape? x = some (.named q A)) (ku : ρ.ty u u) (hu : w.Unfolds u) (hapart : ¬ w.Apart erased u x)
    (ht : Conforms erased w u t) : Conforms erased w u x :=
  conforms_of_lower hM ku kx hw (h.ends hx) hu hapart ht

end Sources

end CompareM

/-- On the way from the source `x` to the reference `r` to an alias of `t`, along what the clauses for sources lead to,
there is a type that `r` lets in and `t` need not: a selection of a symbol that `t` selects too, the null class if it
conforms to `r` only, or a chain of variables without an end. -/
inductive World.Hidden (erased : Bool) (r t : Ty) : World → Ty → Prop
  | apart {w : World} {x : Ty} (apart : w.Apart erased x t) : Hidden erased r t w x
  | loops {w : World} {x : Ty} (loops : ¬ w.Unfolds x) : Hidden erased r t w x
  | null {w v : World} {x q : Ty} (shape : w.shape? x = some (.named q Builtin.null.symbol))
    (fits : nullConforms r w = .ok (true, v)) (lost : ∀ v, nullConforms t w ≠ .ok (true, v)) : Hidden erased r t w x
  | leads {w v : World} {x y : Ty} (step : w.Offers x v y) (meets : Conforms erased v y r)
    (hidden : Hidden erased r t v y) : Hidden erased r t w x

namespace CompareM

section Targets

variable {erased : Bool} {ρ : Corr} {w w₀ : World} {A : Symbol} {p q r t u x : Ty} {d : Shape}

theorem not_nullConforms_headless (hx : w.shape? x = some d) (hd : d.isHeadless) {v : World} :
    nullConforms x w ≠ .ok (true, v) := by
  refine not_nullConforms_unnamed ?_ (typeSymbol?_headless hx hd)
  rw [World.aliased?, World.shape_of_shape? hx]
  cases d <;> first | rfl | cases hd

/-- The null class conforms to what aliases and refinements lead to a class that has `null` from. -/
theorem conforms_null (hM : ρ.Matches w w) (hw : w.Standard) (kx : ρ.ty x x) (ku : ρ.ty u u)
    (hx : w.shape? x = some (.named q Builtin.null.symbol)) (hu : w.Unfolds u)
    (h : ∃ v, nullConforms u w = .ok (true, v)) : Conforms erased w x u := by
  obtain ⟨y, v, hupper, -⟩ := (grows_upperBound x).total w
  refine conforms_of_source hM hw hu ku (.leaf (hw.present hx nofun) hx rfl nofun) kx
    (by rw [World.shape_of_shape? hx]; rfl) (Q := fun u => ∃ v, nullConforms u w = .ok (true, v)) ?_ ?_ ?_ h
    (World.not_apart_of_static_source hx (hw.isStatic .null))
  · exact fun _ _ _ _ hm _ _ h => absurd h.choose_spec (not_nullConforms_headless hm rfl)
  · exact fun _ _ _ hm _ h => absurd h.choose_spec (not_nullConforms_headless hm rfl)
  · exact fun u ku h => (below_named carried_conforms hM kx ku hx hupper).2 (.inr (.inl ⟨rfl, h⟩))

/-- **What conforms to a reference conforms to the aliased type**, unless the reference hides it. The induction is on the
derivation for the reference. -/
theorem conforms_aliased (h : Conforms erased w x r) (hM : ρ.Matches w w) (hw : w.Standard) (kx : ρ.ty x x)
    (kr : ρ.ty r r) (hr : w.AliasOf A p r t) (ht : w.Unfolds t) (hfree : ¬ World.Hidden erased r t w x) :
    Conforms erased w x t := by
  refine h.induct (P := fun w x r => ∀ ρ : Corr, ρ.Matches w w → w.Standard → ρ.ty x x → ρ.ty r r → w.AliasOf A p r t →
    w.Unfolds t → ¬ World.Hidden erased r t w x → Conforms erased w x t) hM kx kr
    (fun w r _ ρ hM hw kr _ hr ht hfree => ?_)
    (fun {_ w x r S} hS hsub _ _ _ hpx hpr hholds ρ hM hw kx kr hr ht hfree => ?_) ρ hM hw kx kr hr ht hfree
  · exact conforms_of_aliased hr hM hw kr hr.shape (hr.known hM kr hr.shape) ht (fun h => hfree (.apart h)) (.refl (ht.present hw))
  · have kt := hr.known hM kr hr.shape
    have hx : w.Unfolds x := by_contra fun h => hfree (.loops h)
    have hapart : ¬ w.Apart erased x t := fun h => hfree (.apart h)
    have hshape := World.shape_of_shape? hr.shape
    have hnot : intercepts (w.shape r) = false := by rw [hshape]; rfl
    have hends := hr.ends hr.shape
    obtain ⟨d, -, hd, -, -⟩ := hM.ty kx
    have hnext {σ : Corr} {v : World} {y : Ty} (hstep : w.Offers x v y) (hv : w ≤ v) (hσ : ρ ≤ σ) (hMσ : σ.Matches v v)
        (ky : σ.ty y y) (h : S v y r) : Conforms erased v y t :=
      (hsub v y r h).2 σ hMσ (hw.grow hv) ky (hσ.ty kr) (hr.grow hv) (ht.grow hv) fun h' =>
        hfree (.leads hstep (hsub v y r h).1 h')
    have hone {v : World} {y : Ty} (hstep : w.Offers x v y) (hunion : ∀ a b, d ≠ .union a b)
        (h : Conforms erased v y t) : Conforms erased w x t :=
      conforms_of_offers hM hw kx kt hx ht hstep (fun a b hab => hunion a b (Option.some.inj (hd.symm.trans hab))) hapart h
    by_cases hhole : isHole (w.shape x)
    · exact conforms_hole_left hM hw kx hpx hhole ht kt
    by_cases hvar : ∃ i, d = .var i
    · obtain ⟨i, rfl⟩ := hvar
      have hi := (holds_var_left hS hM kx kr hd hnot).1 hholds
      exact hone (.var hd) (by rintro _ _ ⟨⟩) (hnext (.var hd) le_rfl le_rfl hM (hM.held kx hd) hi)
    have hnot' : intercepts (w.shape x) = false := by
      refine intercepts_leaf hd ?_ (Bool.eq_false_iff.2 hhole)
      cases d <;> first | rfl | exact absurd ⟨_, rfl⟩ hvar
    -- names of the alias itself are compared by prefixes, other types meet the reference through its lower end
    have hthird : Conforms erased w x t ∨ ∃ n, Affirmed erased w (thirdNamed n (asking S) x r) := by
      by_cases hnamed : (w.shape x).isNamed
      swap
      · exact .inr ((holds_named hS hM kx kr (by rw [hshape]; rfl) (Bool.eq_false_iff.2 hnamed) hnot').1 hholds)
      obtain ⟨q, s, k, hparts⟩ := nameParts?_of_isNamed hnamed
      by_cases hs : s = A
      · subst hs
        rw [World.shape_of_shape? hd] at hparts
        cases d with
        | named => 
          cases hparts
          exact .inl (conforms_of_aliased hr hM hw kx hd kt ht hapart (.refl (ht.present hw)))
        | path =>
          cases hparts
          have hunder : x.underlying w = .ok (t, w) := by
            rw [Ty.underlying, get_bind_run, World.shape_of_shape? hd, ← hr.info]
            rfl
          exact .inl (hone (.single hd rfl hunder) (by rintro _ _ ⟨⟩) (.refl (ht.present hw)))
        | _ => cases hparts
      · obtain ⟨n, hn⟩ := (holds_names hS hM kx kr hnamed (by rw [hshape]; rfl)).1 hholds
        rcases (affirmed_names_other hS hM kx kr hparts (by rw [hshape]; rfl) hs).1 hn with ⟨⟨-, hname⟩, -⟩ | ⟨hcls, -⟩ | h
        · exact absurd (hr.alone s hname) hs
        · exact absurd hcls hr.plain
        · exact .inr ⟨n, h⟩
    rcases hthird with h | ⟨n, hn⟩
    · exact h
    rcases (tells_thirdNamed_ends hS hM kx kr hw hends).affirmed_iff.1 hn with h | hbelow
    · exact (hsub w x t h).1
    have hsingle (hsingle : d.isSingleton) (hunion : ∀ a b, d ≠ .union a b) : Conforms erased w x t := by
      obtain ⟨y, v, hunder, hv⟩ := (grows_underlying x).total w
      obtain ⟨σ, hσ, hMσ, ky⟩ := hM.made (sim_underlying kx) hunder
      have hy := (below_single hS hM kx kr hd hsingle hunder).1 hbelow
      exact hone (.single hd hsingle hunder) hunion (hnext (.single hd hsingle hunder) hv hσ hMσ ky hy)
    cases d with
    | named q s =>
      obtain ⟨y, v, hupper, hv⟩ := (grows_upperBound x).total w
      obtain ⟨σ, hσ, hMσ, ky⟩ := hM.made (sim_upperBound kx) hupper
      rcases (below_named hS hM kx kr hd hupper).1 hbelow with rfl | ⟨rfl, v, hnull⟩ | ⟨hplain, hy⟩
      · exact conforms_nothing hM hw kx kt hd ht
      · refine conforms_null hM hw kx kt hd ht ?_
        by_contra hlost
        exact hfree (.null hd hnull (not_exists.1 hlost))
      · exact hone (.upper hd hplain hupper) (by rintro _ _ ⟨⟩) (hnext (.upper hd hplain hupper) hv hσ hMσ ky hy)
    | refined parent name info =>
      cases hM.parts kx hd with | refined kp _ _ =>
      have hp := (below_refined hS hM kx kr hd).1 hbelow
      exact hone (.parent hd) (by rintro _ _ ⟨⟩) (hnext (.parent hd) le_rfl le_rfl hM kp hp)
    | inter a b =>
      cases hM.parts kx hd with | inter ka kb =>
      rcases (below_inter hS hM kx kr hd).1 hbelow with ha | hb
      · exact hone (.meet hd (.inl rfl)) (by rintro _ _ ⟨⟩) (hnext (.meet hd (.inl rfl)) le_rfl le_rfl hM ka ha)
      · exact hone (.meet hd (.inr rfl)) (by rintro _ _ ⟨⟩) (hnext (.meet hd (.inr rfl)) le_rfl le_rfl hM kb hb)
    | union a b =>
      cases hM.parts kx hd with | union ka kb =>
      obtain ⟨ha, hb⟩ := (below_union hS hM kx kr hd).1 hbelow
      have hunfolds {y : Ty} (hy : y = a ∨ y = b) (h : S w y r) : w.Unfolds y :=
        by_contra fun h' => hfree (.leads (.join hd hy) (hsub w y r h).1 (.loops h'))
      exact conforms_union_left hM hw hd (hunfolds (.inl rfl) ha) (hunfolds (.inr rfl) hb) ht kx kt
        (hnext (.join hd (.inl rfl)) le_rfl le_rfl hM ka ha) (hnext (.join hd (.inr rfl)) le_rfl le_rfl hM kb hb)
    | path | self | literal | skolem | valueParam => exact hsingle rfl (by rintro _ _ ⟨⟩)
    | _ => exact absurd hbelow (not_below hd rfl)

end Targets

end CompareM

/-- On the way from the target `u`, through lower ends, variables, refined parents and operands that let the reference `r`
to the alias `A` in, `r` is looked at itself where its type `x` does not look the same: `x` and the target select one
symbol, the target takes the alias or a class for a value, the base type of `r` is let in but the way to it from `x` is
screened, `r` fits as a type constructor and `x` does not, or `x` has another type as a member. -/
inductive World.Veiled (erased : Bool) (A : Symbol) (r : Ty) (w : World) : Ty → Ty → Prop
  | apart {x u : Ty} (apart : w.Apart erased x u) : Veiled erased A r w x u
  | value {x u q : Ty} {s : Symbol} (shape : w.shape? u = some (.path q s)) (misplaced : s = A ∨ w.decls.isClass s) :
    Veiled erased A r w x u
  | base {x u q : Ty} {s : Symbol} (shape : w.shape? u = some (.named q s)) (cls : w.decls.isClass s)
    (fits : w.BaseFits (Conforms erased) r s u) (screened : Screened erased s u w x) : Veiled erased A r w x u
  | trait {n : ℕ} {x u : Ty} (trait : Builtin.isTrait (targetSymbol w u))
    (fits : Affirmed erased w (conformsAsConstructor n (asking (Conforms erased)) r u))
    (lost : ∀ n, ¬ Affirmed erased w (conformsAsConstructor n (asking (Conforms erased)) x u)) : Veiled erased A r w x u
  | member {w₁ w₂ : World} {x u parent info i l : Ty} {name : String}
    (shape : w.shape? u = some (.refined parent name info)) (member : r.member name w = .ok (i, w₁))
    (meets : Conforms erased w₁ i info) (member' : x.member name w₁ = .ok (l, w₂)) (lost : l ≠ i) :
    Veiled erased A r w x u
  | source {x u : Ty} {i : VarId} (shape : w.shape? x = some (.var i)) (veiled : Veiled erased A r w (w.varUnderlying i) u) :
    Veiled erased A r w x u
  | through {x u v : Ty} (step : w.Through u v) (meets : Conforms erased w r v) (veiled : Veiled erased A r w x v) :
    Veiled erased A r w x u

namespace CompareM

section Replaced

variable {erased : Bool} {ρ : Corr} {w w₀ : World} {A : Symbol} {p q r t u x : Ty} {n : ℕ}

theorem shape?_of_nameParts {s : Symbol} {k : Bool} (h : nameParts? (w.shape u) = some (q, s, k)) :
    w.shape? u = some (if k then .named q s else .path q s) := by
  cases hd : w.shape u with
  | named | path =>
    rw [hd] at h
    cases h
    exact World.shape?_of_shape hd nofun
  | _ =>
    rw [hd] at h
    cases h

/-- A reference excludes `null` where the aliased type does. -/
theorem conforms_notNull_aliased {v : World} (h : w.AliasOf A p r t) (hM : ρ.Matches w w) (hw : w.Standard) (kr : ρ.ty r r)
    (ku : ρ.ty u u) (hu : w.shape? u = some (.named q Builtin.notNull.symbol)) (hr : r.isNotNull w = .ok (true, v)) :
    Conforms erased w t u := by
  have hstep (n : ℕ) : Ensures w (Walk.descend false Nullability.step (n + 1) r) fun answer =>
      answer = true → Conforms erased w t u := by
    refine ensures_inside nofun (.world_bind fun v hv => ?_)
    rw [World.shape_of_shape? (hv.shape h.shape)]
    dsimp only
    rw [if_neg (h.grow hv).plain]
    refine .lift_bind (grows_upperBound r) fun x v₁ v₂ hle hupper => ?_
    have hlater := h.grow hle
    obtain ⟨v₂', hv₂, hupper', -⟩ := hlater.offers (hM.grow hle hle) (hw.grow hle) kr hlater.shape
    cases hupper.symm.trans hupper'
    have hle := hle.trans hv₂
    have kt := h.known hM kr h.shape
    have hall : Ensures v₂ (Walk.descend false Nullability.step n t) fun answer => answer = true → Conforms erased v₂ t u :=
      ensures_notNull (hM.grow hle hle) (hw.grow hle) kt ku (hle.shape hu) n
    exact hall.mono fun _ h ha => (h ha).transport (hM.grow hle le_rfl) kt ku
  exact ensures_run (hstep _) le_rfl hr rfl

/-- What fits a trait of type constructors conforms to it. -/
theorem conforms_of_constructor (hw₀ : w₀.Built) (hdecls : w.decls = w₀.decls) (hM : ρ.Matches w w) (hw : w.Standard)
    (kx : ρ.ty x x) (ku : ρ.ty u u) (hx : w.Unfolds x) (htrait : Builtin.isTrait (targetSymbol w u))
    (hapart : ¬ w.Apart erased x u)
    (h : Affirmed erased w (conformsAsConstructor n (asking (Conforms erased)) x u)) : Conforms erased w x u := by
  have hnone : ¬ Builtin.isTrait .absent := by decide
  obtain ⟨q, hu⟩ := named_of_targetSymbol (w := w) (t := u) fun h => hnone (h ▸ htrait)
  have hcls : w.decls.isClass (targetSymbol w u) := hdecls ▸ hw₀.isClass_trait htrait
  have hends := World.ends?_of_isClass hu hcls
  obtain ⟨d, -, hd, -, -⟩ := hM.ty kx
  have hnot : intercepts (w.shape x) = false := by
    rw [World.shape_of_shape? hd]
    refine Bool.eq_false_iff.2 fun hd' => not_conformsAsConstructor_headless hw₀ hdecls hd ?_ htrait h
    cases d <;> first | rfl | cases hd'
  have hread : Readable n w x u := by
    obtain ⟨c, c', v, -, hr⟩ := h
    exact ⟨fun hs => absurd hs (ne_markers htrait).1, fun _ => readings_of_conformsAsConstructor hr⟩
  have hthird : Affirmed erased w (thirdNamed n (asking (Conforms erased)) x u) :=
    (tells_thirdNamed_none carried_conforms hM kx ku hw hends hread).affirmed_iff.2 (.inr (.inr (.inl ⟨htrait, h⟩)))
  refine conforms_of_holds hM kx ku (hx.present hw) (hw.present hu nofun) ?_
  exact holds_of_thirdNamed hM kx ku (by rw [World.shape_of_shape? hu]; rfl) hnot hapart hthird

/-- **What a reference conforms to, the aliased type conforms to**, unless the reference is asked itself. The induction is
on the derivation for the reference. -/
theorem conforms_of_alias (hw₀ : w₀.Built) (h : Conforms erased w r u) (hM : ρ.Matches w w) (hw : w.Standard)
    (hdecls : w.decls = w₀.decls) (kr : ρ.ty r r) (ku : ρ.ty u u) (hr : w.AliasOf A p r t) (ht : w.Unfolds t)
    (hfree : ¬ w.Veiled erased A r t u) : Conforms erased w t u := by
  refine h.induct (P := fun w r u => ∀ ρ : Corr, ρ.Matches w w → w.Standard → w.decls = w₀.decls → ρ.ty r r → ρ.ty u u →
    w.AliasOf A p r t → w.Unfolds t → ¬ w.Veiled erased A r t u → Conforms erased w t u) hM kr ku
    (fun w r _ ρ hM hw _ kr _ hr ht hfree => ?_)
    (fun {_ w r u S} hS hsub _ _ _ hpr hpu hholds ρ hM hw hdecls kr ku hr ht hfree => ?_)
    ρ hM hw hdecls kr ku hr ht hfree
  · exact conforms_to_alias hr hM hw kr hr.shape (hr.known hM kr hr.shape) ht (fun h => hfree (.apart h)) (.refl (ht.present hw))
  · have kt := hr.known hM kr hr.shape
    have hapart : ¬ w.Apart erased t u := fun h => hfree (.apart h)
    have hS' : Carried S (Conforms erased) := fun _ _ v _ a' _ b' hM ha hb h =>
      (hsub _ _ _ h).1.transport hM ha hb
    obtain ⟨v, hv, hupper, -⟩ := hr.offers hM hw kr hr.shape
    obtain ⟨σ, hσ, hMσ, -⟩ := hM.made (sim_upperBound kr) hupper
    have hnow (h : Conforms erased v t u) : Conforms erased w t u := h.transport (hM.grow hv le_rfl) kt ku
    refine conforms_of_replaced hS hM hw kr kt ku hr.shape rfl hpu ht (fun y hstep h => ?_) (fun hbelow => ?_)
      (fun _ _ _ _ => hapart) (fun _ hnamed n hn => ?_) (fun q' v' hu h => ?_) (fun n htrait h => ?_)
      (fun parent name info hu _ hparent hfits => ?_) (fun _ _ _ _ _ hb => nomatch hr.shape.symm.trans hb) hholds
    · exact (hsub w r y h).2 ρ hM hw hdecls kr (hstep.known hM ku) hr ht fun h' =>
        hfree (.through hstep (hsub w r y h).1 h')
    · rcases (below_named hS hM kr ku hr.shape hupper).1 hbelow with rfl | ⟨rfl, -⟩ | ⟨-, h⟩
      · exact absurd (hw.isClass .nothing) hr.plain
      · exact absurd (hw.isClass .null) hr.plain
      · exact hnow (hsub v t u h).1
    · obtain ⟨q, s, k, hparts⟩ := nameParts?_of_isNamed hnamed
      have hshape := shape?_of_nameParts hparts
      have hname (hs : s = A ∨ w.decls.isClass s) : w.shape? u = some (.named q s) := by
        cases k with
        | true => exact hshape
        | false => exact absurd (.value hshape hs) hfree
      by_cases hs : A = s
      · subst hs
        exact .inl (conforms_to_alias hr hM hw ku (hname (.inl rfl)) kt ht hapart (.refl (ht.present hw)))
      rcases (affirmed_names_other hS hM kr ku (by rw [World.shape_of_shape? hr.shape]; rfl) hparts hs).1 hn with
        ⟨⟨-, hsame⟩, -⟩ | ⟨hcls, base, w', hbase, hpresent, hne, hfits⟩ | h
      · exact absurd (hr.alone s hsame.symm).symm hs
      · have hu := hname (.inr hcls)
        have hfits : w.BaseFits (Conforms erased) r s u := ⟨base, w', hbase, hpresent, hne, (hsub w' base u hfits).1⟩
        refine .inl (hnow (upperBound_conforms hw₀ hdecls hM hw kr ku hr.shape hr.plain hupper hu hcls hfits ?_))
        exact fun h => hfree (.base hu hcls hfits (.later hv h))
      · exact .inr h
    · exact conforms_notNull_aliased hr hM hw kr ku hu h
    · have hfits : Affirmed erased w (conformsAsConstructor n (asking (Conforms erased)) r u) :=
        h.follows (follows_conformsAsConstructor hS' kr ku) hM
      have hfits' : ∃ n, Affirmed erased w (conformsAsConstructor n (asking (Conforms erased)) t u) := by
        by_contra hlost
        exact hfree (.trait htrait hfits (not_exists.1 hlost))
      obtain ⟨n', hn'⟩ := hfits'
      exact conforms_of_constructor hw₀ hdecls hM hw kt ku ht htrait hapart hn'
    · cases hM.parts ku hu with | refined kp _ ki =>
      refine conforms_refined (P := fun y => ¬ w.Veiled erased A r y u) hM hw hu ht kt ku
        (fun y ky _ _ hfree _ => hfits.imp_right fun hfits => ?_) (fun y i _ hi hfree h => hfree (.source hi h)) hfree hparent
      refine memberFits_of_replaced hS hM kr ky ki hfits fun {_ w₁ w₂ i l} hi hmeets hl _ _ _ _ _ hlater => ?_
      obtain rfl : l = i := by
        by_contra hlost
        exact hfree (.member hu hi (hsub w₁ i info hmeets).1 hl hlost)
      exact (hsub w₂ l info hlater).1

end Replaced

end CompareM

/-- No answer to the first comparison differs from one to the second, and there is an answer that both come to if they keep
to finitely many pairs. -/
def World.Agree (w : World) (erased : Bool) (a b c d : Ty) : Prop :=
  (∀ x y, w.Returns erased a b x → w.Returns erased c d y → x = y) ∧
    (w.Founded → Confined erased w a b → Confined erased w c d →
      ∃ x, w.Returns erased a b x ∧ w.Returns erased c d x)

theorem World.Built.agree {w : World} {erased : Bool} {a b c d : Ty} (hw : w.Built) (ha : w.Has a) (hb : w.Has b)
    (hc : w.Has c) (hd : w.Has d) (h : Conforms erased w a b ↔ Conforms erased w c d) : w.Agree erased a b c d := by
  have hall (x y : Bool) (hx : w.Returns erased a b x) (hy : w.Returns erased c d y) : x = y := by
    rw [Bool.eq_iff_iff, hx.iff hw.closed ha hb, hy.iff hw.closed hc hd]
    exact h
  refine ⟨hall, fun hfounded hab hcd => ?_⟩
  obtain ⟨x, hx⟩ := hab.returns hfounded ha hb
  obtain ⟨y, hy⟩ := hcd.returns hfounded hc hd
  exact ⟨x, hx, hall x y hx hy ▸ hy⟩

namespace CompareM

/-- **A reference to an alias compares as the aliased type does**, as the source unless the target asks the reference
itself, and as the target unless it hides the source. Two references to one alias compare as their prefixes do, unless
the alias is static or types are erased. -/
theorem isSubType_alias {erased : Bool} {w : World} {A : Symbol} {p r t u : Ty} (hw : w.Built) (hr : w.AliasOf A p r t)
    (ht : w.Unfolds t) (hu : w.Unfolds u) :
    (¬ w.Apart erased r u → ¬ w.Veiled erased A r t u → w.Agree erased r u t u) ∧
    (¬ w.Apart erased u r → ¬ World.Hidden erased r t w u → w.Agree erased u r u t) ∧
    ∀ q, w.shape? u = some (.named q A) → ∀ x, w.Returns erased r u x →
      (x = true ↔ r = u ∨ erased = true ∨ w.decls.isStatic A ∨ Conforms erased w p q) := by
  have hM := hw.closed.identity_matches
  have hstd := hw.standard
  have known {x : Ty} (hx : w.Has x) : (Corr.identity w).ty x x := ⟨rfl, hx⟩
  have hhas : w.Has r := Option.isSome_of_eq_some hr.shape
  have kr := known hhas
  have ku := known hu.has
  refine ⟨fun hapart hfree => ?_, fun hapart hfree => ?_, fun q hq x hx => ?_⟩
  · refine hw.agree hhas hu.has ht.has hu.has ⟨fun h => ?_, fun h => ?_⟩
    · exact conforms_of_alias hw h hM hstd rfl kr ku hr ht hfree
    · exact conforms_of_aliased hr hM hstd kr hr.shape ku hu hapart h
  · refine hw.agree hu.has hhas hu.has ht.has ⟨fun h => ?_, fun h => ?_⟩
    · exact conforms_aliased h hM hstd ku kr hr ht hfree
    · exact conforms_to_alias hr hM hstd kr hr.shape ku hu hapart h
  · have hd := World.shape_of_shape? hr.shape
    have hd' := World.shape_of_shape? hq
    have hpr : r.present := hstd.present hr.shape nofun
    have hpu : u.present := hstd.present hq nofun
    have hnames : Holds erased (Conforms erased) w r u ↔
        erased = true ∨ w.decls.isStatic A ∨ Conforms erased w p q := by
      rw [holds_names carried_conforms hM kr ku (by rw [hd]; rfl) (by rw [hd']; rfl)]
      have htells (n : ℕ) : Tells erased w (names n (asking (Conforms erased)) r u)
          (erased = true ∨ w.decls.isStatic A ∨ Conforms erased w p q) :=
        tells_names_same carried_conforms hM kr ku (by rw [hd]; rfl) (by rw [hd']; rfl)
      exact ⟨fun ⟨n, h⟩ => (htells n).affirmed_iff.1 h, fun h => ⟨0, (htells 0).affirmed_iff.2 h⟩⟩
    rw [hx.iff hw.closed hhas hu.has, conforms_iff hM kr ku, hnames]
    exact ⟨fun h => h.2.2, fun h => ⟨hpr, hpu, h⟩⟩

end CompareM

/-! ### A selection of an alias of a class -/

namespace World

variable {erased : Bool} {w : World} {A s : Symbol} {q r t u x : Ty}

/-- A static class is its own base type. -/
theorem not_screened_of_class (hx : w.shape? x = some (.named q s)) (hpx : x.present) (hcls : w.decls.isClass s)
    (hs : w.decls.isStatic s) : ¬ Screened erased s u w x := by
  intro h
  induction h with
  | param h | info h => cases hx.symm.trans h
  | parents h _ hne =>
    cases hx.symm.trans h
    exact hne rfl
  | apart h => exact not_apart_of_static_source hx hs h
  | loops h => exact h (.leaf hpx hx rfl nofun)
  | top h =>
    rw [hs] at h
    cases h
  | leads h => exact not_offers_of_class hx hcls h
  | later hv _ ih => exact ih (hv.shape hx) hpx (hv.decls ▸ hcls) (hv.decls ▸ hs)

/-- A static class gets past references to aliases. -/
theorem not_hidden_of_class (hx : w.shape? x = some (.named q s)) (hpx : x.present) (hcls : w.decls.isClass s)
    (hs : w.decls.isStatic s) (hnull : s ≠ Builtin.null.symbol) : ¬ Hidden erased r t w x := by
  rintro (h | h | ⟨h, -, -⟩ | ⟨h, -, -⟩)
  · exact not_apart_of_static_source hx hs h
  · exact h (.leaf hpx hx rfl nofun)
  · cases hx.symm.trans h
    exact hnull rfl
  · exact not_offers_of_class hx hcls h

/-- A reference to an alias of a static class is not asked itself by the class. -/
theorem not_veiled_of_class (hx : w.shape? x = some (.named q s)) (hpx : x.present) (hcls : w.decls.isClass s)
    (hs : w.decls.isStatic s) (htrait : Builtin.isTrait s = false) : ¬ w.Veiled erased A r x x := by
  have hends := ends?_of_isClass hx hcls
  have hsymbol : targetSymbol w x = s := by rw [targetSymbol, shape_of_shape? hx]
  rintro (h | ⟨h, -⟩ | ⟨h, -, -, hscreened⟩ | ⟨h, -, -⟩ | ⟨h, -, -, -, -⟩ | ⟨h, -⟩ | ⟨h, -, -⟩)
  · exact not_apart_of_static_source hx hs h
  · cases hx.symm.trans h
  · cases hx.symm.trans h
    exact not_screened_of_class hx hpx hcls hs hscreened
  · rw [hsymbol, htrait] at h
    cases h
  · cases hx.symm.trans h
  · cases hx.symm.trans h
  · cases h with
    | lower h => cases hends.symm.trans h
    | var h | parent h | meet h | join h => cases hx.symm.trans h

end World

namespace CompareM

theorem selection_aliases : selectionWorld.AliasOf ⟨45⟩ ⟨16⟩ ⟨18⟩ Builtin.int.type ∧
    selectionWorld.AliasOf ⟨46⟩ ⟨17⟩ ⟨20⟩ Builtin.int.type :=
  ⟨⟨by decide, by decide, by decide,
      Declarations.alone_of_declared (by decide) (by decide)⟩,
    ⟨by decide, by decide, by decide,
      Declarations.alone_of_declared (by decide) (by decide)⟩⟩

/-- What the comparison of `Int` with `q.B` compares. -/
def aliasedPairs : Finset (Ty × Ty) := {(Builtin.int.type, ⟨20⟩), (Builtin.int.type, Builtin.int.type)}

set_option maxRecDepth 1000 in
theorem aliased_run (n : ℕ) : ((isSubTypeOn aliasedPairs (n + 2) Builtin.int.type ⟨20⟩ (.vacant false)
    selectionWorld).map fun _ => ()) = .ok () := by
  cbv

theorem keepsTo_aliased : KeepsTo aliasedPairs Builtin.int.type ⟨20⟩ (.vacant false) selectionWorld :=
  keepsTo_of_run aliased_run (by decide)

/-- `p.A` stands for `Int` in the comparisons with `q.B`, which stands for `Int` as well. -/
theorem isSubType_alias_selection : selectionWorld.Built ∧
    selectionWorld.AliasOf ⟨45⟩ ⟨16⟩ ⟨18⟩ Builtin.int.type ∧ selectionWorld.shape? ⟨20⟩ = some (.named ⟨17⟩ ⟨46⟩) ∧
    (∃ x y, selectionWorld.Returns false ⟨18⟩ ⟨20⟩ x ∧ selectionWorld.Returns false Builtin.int.type ⟨20⟩ y ∧ x = y) ∧
    (∃ x y, selectionWorld.Returns false ⟨20⟩ ⟨18⟩ x ∧ selectionWorld.Returns false ⟨20⟩ Builtin.int.type y ∧ x = y) ∧
    selectionWorld.Founded ∧ Confined false selectionWorld ⟨18⟩ ⟨20⟩ ∧
    Confined false selectionWorld Builtin.int.type ⟨20⟩ ∧
    ∃ x, selectionWorld.Returns false ⟨18⟩ ⟨20⟩ x ∧ selectionWorld.Returns false Builtin.int.type ⟨20⟩ x := by
  have hw := selectionWorld_built
  obtain ⟨hr, hr'⟩ := selection_aliases
  have hu := hr'.shape
  have hint := hw.standard.shape .int
  have hpint : Builtin.int.type.present := by decide
  have hcls := hw.standard.isClass .int
  have hstatic := hw.standard.isStatic .int
  have hends := hr'.ends hu
  have hveiled : ¬ selectionWorld.Veiled false ⟨45⟩ ⟨18⟩ Builtin.int.type ⟨20⟩ := by
    rintro (h | ⟨h, -⟩ | ⟨h, hb, -, -⟩ | ⟨h, -, -⟩ | ⟨h, -, -, -, -⟩ | ⟨h, -⟩ | ⟨h, -, hrest⟩)
    · exact World.not_apart_of_static_source hint hstatic h
    · cases hu.symm.trans h
    · cases hu.symm.trans h
      exact hr'.plain hb
    · revert h
      decide
    · cases hu.symm.trans h
    · cases hint.symm.trans h
    · cases h with
      | lower h =>
        cases hends.symm.trans h
        exact World.not_veiled_of_class hint hpint hcls hstatic (by decide) hrest
      | var h | parent h | meet h | join h => cases hu.symm.trans h
  have hhidden : ¬ World.Hidden false ⟨18⟩ Builtin.int.type selectionWorld ⟨20⟩ := by
    rintro (h | h | ⟨h, -, -⟩ | ⟨hstep, -, hrest⟩)
    · exact World.not_apart_of_static hint hstatic h
    · exact h (.leaf rfl hu rfl nofun)
    · cases hu.symm.trans h
    · cases hstep with
      | upper h _ hupper =>
        have hM := hw.closed.identity_matches
        obtain ⟨v, hv, hupper', -⟩ := hr'.offers hM hw.standard ⟨rfl, Option.isSome_of_eq_some hu⟩ hu
        cases hupper.symm.trans hupper'
        exact World.not_hidden_of_class (hv.shape hint) hpint (hv.decls ▸ hcls) (hv.decls ▸ hstatic) (by decide) hrest
      | var h | parent h | meet h | join h => cases hu.symm.trans h
      | single h hsingle =>
        cases hu.symm.trans h
        cases hsingle
  have hleft : ¬ selectionWorld.Apart false ⟨18⟩ ⟨20⟩ := fun h => absurd (h.symbol_eq hr.shape hu) (by decide)
  have hright : ¬ selectionWorld.Apart false ⟨20⟩ ⟨18⟩ := fun h => absurd (h.symbol_eq hu hr.shape) (by decide)
  have hfounded : selectionWorld.Founded := World.founded_of_orderly (by decide +kernel)
  have hconfined : Confined false selectionWorld ⟨18⟩ ⟨20⟩ :=
    ⟨.vacant false, selectionPairs, Comparer.atRest_vacant _, rfl, by decide, keepsTo_selection⟩
  have hconfined' : Confined false selectionWorld Builtin.int.type ⟨20⟩ :=
    ⟨.vacant false, aliasedPairs, Comparer.atRest_vacant _, rfl, by decide, keepsTo_aliased⟩
  obtain ⟨hsource, htarget, -⟩ := @isSubType_alias false _ _ _ _ _ ⟨20⟩ hw hr (.leaf hpint hint rfl nofun)
    (.leaf rfl hu rfl nofun)
  have hx : selectionWorld.Returns false ⟨20⟩ ⟨18⟩ true := World.returns_of_run 12 (by decide)
  have hy : selectionWorld.Returns false ⟨20⟩ Builtin.int.type true := World.returns_of_run 12 (by decide)
  obtain ⟨x, hxr, hxt⟩ := (hsource hleft hveiled).2 hfounded hconfined hconfined'
  exact ⟨hw, hr, hu, ⟨x, x, hxr, hxt, (hsource hleft hveiled).1 x x hxr hxt⟩,
    ⟨true, true, hx, hy, (htarget hright hhidden).1 true true hx hy⟩, hfounded, hconfined, hconfined', x, hxr, hxt⟩

/-- Both `p.A` and `q.A` stand for `Int`, which conforms to `q.A` and which `p.A` conforms to. Neither conforms to the other:
a name is compared with a name of the same symbol by its prefix only. -/
theorem isSubType_alias_same_symbol : selectionWorld.AliasOf ⟨45⟩ ⟨16⟩ ⟨18⟩ Builtin.int.type ∧
    selectionWorld.AliasOf ⟨45⟩ ⟨17⟩ ⟨19⟩ Builtin.int.type ∧
    selectionWorld.Returns false Builtin.int.type ⟨19⟩ true ∧ selectionWorld.Returns false ⟨18⟩ Builtin.int.type true ∧
    selectionWorld.Returns false ⟨18⟩ ⟨19⟩ false ∧ selectionWorld.Returns false ⟨19⟩ ⟨18⟩ false := by
  obtain ⟨hr, -⟩ := selection_aliases
  exact ⟨hr, ⟨by decide, hr.synonym, hr.info, hr.alone⟩, World.returns_of_run 12 (by decide),
    World.returns_of_run 12 (by decide), World.returns_of_run 12 (by decide),
    World.returns_of_run 12 (by decide)⟩

end CompareM

end Conformance
