import Conformance.Proofs.BaseTypes
import Conformance.Proofs.Bearing

/-!
# Types that have a base type at a static class

A type that has a base type at a static class conforms to the class. What the search went through to find the base type,
the comparison goes through again clause by clause, except that at a reference to another class it starts a search of its
own. Where these searches do not use up the entries that a walk may attempt, and neither parameters nor the info of a
class are on the way (`World.Impeded`), the answer is positive (`isSubType_of_baseType`). The comparison may turn back at
a pair that is pending, but along a reason of least height no pair comes round.
-/

namespace Conformance

open CompareM

/-- What one computation makes is paired with what the other makes. -/
theorem Sim.made {α β : Type} {A : Corr → α → β → Prop} {ρ : Corr} {w₁ w₂ v : World} {m₁ : WorldM α} {m₂ : WorldM β}
    {x : α} (hsim : Sim False ρ A m₁ m₂) (hM : ρ.Matches w₁ w₂) (hm : m₁ w₁ = .ok (x, v)) :
    ∃ y v' σ, m₂ w₂ = .ok (y, v') ∧ ρ ≤ σ ∧ σ.Matches v v' ∧ A σ x y := by
  have h := hsim ρ w₁ w₂ le_rfl hM
  rw [hm] at h
  cases hm₂ : m₂ w₂ with
  | error e =>
    rw [hm₂] at h
    exact h.elim
  | ok r =>
    rw [hm₂] at h
    obtain ⟨σ, hσ, hMσ, hxy⟩ := h
    exact ⟨r.1, r.2, σ, rfl, hσ, hMσ, hxy⟩

namespace World

variable {w v w₁ w₂ : World} {cls : Symbol} {t t₁ t₂ u x : Ty} {ρ : Corr}

/-- On the way from `t` to its base type at `cls` there is a parameter, the info of a class, or a reference to another
class from which the search for `cls` overruns. -/
inductive Impeded : World → Symbol → Ty → Prop
  | param {w : World} {cls : Symbol} {t : Ty} {p : Param} (shape : w.shape? t = some (.param p)) : Impeded w cls t
  | info {w : World} {cls c : Symbol} {t q : Ty} (shape : w.shape? t = some (.classInfo q c)) : Impeded w cls t
  | overruns {w : World} {cls c : Symbol} {t q : Ty} (shape : w.shape? t = some (.named q c)) (isClass : w.decls.isClass c)
    (other : c ≠ cls) (overruns : w.Overruns cls t) : Impeded w cls t
  | leads {w v : World} {cls : Symbol} {t x : Ty} (step : w.Offers t v x) (impeded : Impeded v cls x) : Impeded w cls t

/-- Paired types have paired parts. -/
theorem Offers.transport (h : w₁.Offers t₁ v x) (hM : ρ.Matches w₁ w₂) (ht : ρ.ty t₁ t₂) :
    ∃ v' y σ, w₂.Offers t₂ v' y ∧ ρ ≤ σ ∧ σ.Matches v v' ∧ σ.ty x y := by
  obtain ⟨d₁, d₂, hd₁, hd₂, hd⟩ := hM.ty ht
  cases h with
  | var hshape =>
    cases hd₁.symm.trans hshape
    cases hd with | var hv =>
    exact ⟨w₂, _, ρ, .var hd₂, le_rfl, hM, hM.varUnderlying hv⟩
  | upper hshape hplain hupper =>
    cases hd₁.symm.trans hshape
    cases hd
    obtain ⟨y, v', σ, hupper', hσ, hMσ, hxy⟩ := (sim_upperBound ht).made hM hupper
    exact ⟨v', y, σ, .upper hd₂ (hM.decls ▸ hplain) hupper', hσ, hMσ, hxy⟩
  | single hshape hsingle hunder =>
    cases hd₁.symm.trans hshape
    obtain ⟨y, v', σ, hunder', hσ, hMσ, hxy⟩ := (sim_underlying ht).made hM hunder
    refine ⟨v', y, σ, .single hd₂ ?_ hunder', hσ, hMσ, hxy⟩
    cases hd <;> exact hsingle
  | parent hshape =>
    cases hd₁.symm.trans hshape
    cases hd with | refined hp _ _ =>
    exact ⟨w₂, _, ρ, .parent hd₂, le_rfl, hM, hp⟩
  | meet hshape hx =>
    cases hd₁.symm.trans hshape
    cases hd with | inter ha hb =>
    rcases hx with rfl | rfl
    · exact ⟨w₂, _, ρ, .meet hd₂ (.inl rfl), le_rfl, hM, ha⟩
    · exact ⟨w₂, _, ρ, .meet hd₂ (.inr rfl), le_rfl, hM, hb⟩
  | join hshape hx =>
    cases hd₁.symm.trans hshape
    cases hd with | union ha hb =>
    rcases hx with rfl | rfl
    · exact ⟨w₂, _, ρ, .join hd₂ (.inl rfl), le_rfl, hM, ha⟩
    · exact ⟨w₂, _, ρ, .join hd₂ (.inr rfl), le_rfl, hM, hb⟩

theorem Overruns.transport (h : w₁.Overruns cls t₁) (hM : ρ.Matches w₁ w₂) (ht : ρ.ty t₁ t₂) : w₂.Overruns cls t₂ := by
  obtain ⟨base, g, v, hr, hspent⟩ := h
  have hwalk : LikewiseWalk False ρ Corr.ty (Walk.descend .noType (BaseType.step cls) (Limits.walkDepth.toNat + 1))
      (Walk.descend .noType (BaseType.step cls) (Limits.walkDepth.toNat + 1)) :=
    sim_descend (fun _ hσ => hσ.ty hM.noType) upward_ty (sim_baseTypeStep cls) _
  have hguard : Guard.Alike ρ.ty { bounds := .walk } { bounds := .walk } := ⟨rfl, .nil, rfl, rfl⟩
  obtain ⟨⟨base', g'⟩, v', σ, hr', -, -, -, hg⟩ := (hwalk ρ le_rfl t₁ t₂ ht ρ _ _ le_rfl hguard).made hM hr
  exact ⟨base', g', v', hr', by rwa [Spent, ← hg.entries]⟩

/-- Paired types are impeded alike. -/
theorem Impeded.transport (h : w₁.Impeded cls t₁) (hM : ρ.Matches w₁ w₂) (ht : ρ.ty t₁ t₂) : w₂.Impeded cls t₂ := by
  induction h generalizing ρ w₂ t₂ with
  | param hshape =>
    obtain ⟨d₁, d₂, hd₁, hd₂, hd⟩ := hM.ty ht
    cases hd₁.symm.trans hshape
    cases hd
    exact .param hd₂
  | info hshape =>
    obtain ⟨d₁, d₂, hd₁, hd₂, hd⟩ := hM.ty ht
    cases hd₁.symm.trans hshape
    cases hd
    exact .info hd₂
  | overruns hshape hclass hother hover =>
    obtain ⟨d₁, d₂, hd₁, hd₂, hd⟩ := hM.ty ht
    cases hd₁.symm.trans hshape
    cases hd
    exact .overruns hd₂ (hM.decls ▸ hclass) hother (hover.transport hM ht)
  | leads hstep _ ih =>
    obtain ⟨v', y, σ, hstep', -, hMσ, hxy⟩ := hstep.transport hM ht
    exact .leads hstep' (ih hMσ hxy)

/-! ### What is not impeded -/

theorem not_overruns {e : Nat} (h : (Walk.descend .noType (BaseType.step cls) (Limits.walkDepth.toNat + 1) t
    { bounds := .walk } w).toOption.map (·.1.2.entries) = some e) (he : e ≤ 100000) : ¬ w.Overruns cls t := by
  rintro ⟨base, g, v, hr, hspent⟩
  have hlimit : Limits.walkEntries.toNat = 100000 := rfl
  have hentries : some g.entries = some e := by rwa [hr] at h
  cases hentries
  unfold Spent at hspent
  omega

/-- A reference to a class leads nowhere, so all that counts is the search from it. -/
theorem not_impeded_of_class {q : Ty} {c : Symbol} (ht : w.shape? t = some (.named q c)) (hc : w.decls.isClass c)
    (h : ¬ w.Overruns cls t) : ¬ w.Impeded cls t := by
  intro himpeded
  cases himpeded with
  | param hd | info hd => cases ht.symm.trans hd
  | overruns _ _ _ hover => exact h hover
  | leads hstep _ => exact not_offers_of_class ht hc hstep

end World

namespace CompareM

/-! ## Answers that can only be positive -/

section Granting

variable {p : Place} {w v : World} {x y : CompareM Bool}

/-- Whatever answer the computation comes to from `p` with nothing under inference, in `w` or later, it is positive. -/
def Grants (p : Place) (w : World) (m : CompareM Bool) : Prop :=
  ∀ ⦃c v answer c' v'⦄, Vacant p c → w ≤ v → m c v = .ok ((answer, c'), v') → answer = true

namespace Grants

theorem later (h : Grants p w x) (hv : w ≤ v) : Grants p v x := fun _ _ _ _ _ hc hle => h hc (hv.trans hle)

theorem yes : Grants p w (return true) := by
  intro c v answer c' v' _ _ hr
  cases hr
  rfl

theorem orElse_left (hx : Grants p w x) (y : CompareM Bool) : Grants p w (x <||> y) := by
  intro c v answer c' v' hc hv hr
  obtain ⟨b, c₁, v₁, hb, hr⟩ := run_bind_ok hr
  obtain rfl := hx hc hv hb
  cases hr
  rfl

theorem orElse_right (hx : Keeps (Vacant p) x) (hy : Grants p w y) : Grants p w (x <||> y) := by
  intro c v answer c' v' hc hv hr
  obtain ⟨b, c₁, v₁, hb, hr⟩ := run_bind_ok hr
  obtain ⟨hc₁, hv₁⟩ := (hx c v hc).ok hb
  cases b with
  | true =>
    cases hr
    rfl
  | false => exact hy hc₁ (hv.trans hv₁) hr

theorem andThen (hx : Grants p w x) (hkeeps : Keeps (Vacant p) x) (hy : Grants p w y) : Grants p w (x <&&> y) := by
  intro c v answer c' v' hc hv hr
  obtain ⟨b, c₁, v₁, hb, hr⟩ := run_bind_ok hr
  obtain ⟨hc₁, hv₁⟩ := (hkeeps c v hc).ok hb
  obtain rfl := hx hc hv hb
  exact hy hc₁ (hv.trans hv₁) hr

theorem ite {q : Prop} [Decidable q] (hx : q → Grants p w x) (hy : ¬ q → Grants p w y) :
    Grants p w (if q then x else y) := by
  split
  · exact hx ‹_›
  · exact hy ‹_›

theorem world_bind {f : World → CompareM Bool} (hf : ∀ v, w ≤ v → Grants p v (f v)) : Grants p w (world >>= f) := by
  intro c v answer c' v' hc hv hr
  exact hf v hv hc le_rfl hr

/-- What a computation on the world alone makes is used where it was made. -/
theorem lift_bind {α : Type} {m : WorldM α} {f : α → CompareM Bool}
    (hf : ∀ v a v', w ≤ v → m v = .ok (a, v') → Grants p v' (f a)) : Grants p w (liftM m >>= f) := by
  intro c v answer c' v' hc hv hr
  obtain ⟨a, c₁, v₁, hlift, hnext⟩ := run_bind_ok hr
  obtain ⟨ha, rfl⟩ := run_lift_ok hlift
  exact hf v a v₁ hv ha hc le_rfl hnext

theorem congr (h : Grants p w x) (hxy : ∀ c v, Vacant p c → w ≤ v → y c v = x c v) : Grants p w y := by
  intro c v answer c' v' hc hv hr
  exact h hc hv (hxy c v hc hv ▸ hr)

end Grants

end Granting

/-! ### The clause for the source -/

section Source

variable {p : Place} {w : World} {u t a b q : Ty} {s : Symbol} {d : Shape} {sub : Ty → Ty → CompareM Bool}

theorem grants_fourth_refined {info : Ty} {name : String} (ht : w.shape? t = some (.refined a name info))
    (h : Grants p w (sub a u)) : Grants p w (fourth sub t u) := by
  refine .world_bind fun v hv => ?_
  rw [World.shape_of_shape? (hv.shape ht)]
  exact h.later hv

theorem grants_fourth_single (ht : w.shape? t = some d) (hd : d.isSingleton)
    (h : ∀ v x v', w ≤ v → t.underlying v = .ok (x, v') → Grants p v' (sub x u)) : Grants p w (fourth sub t u) := by
  refine .world_bind fun v hv => ?_
  rw [World.shape_of_shape? (hv.shape ht)]
  have hrest : Grants p v (do sub (← t.underlying) u) :=
    .lift_bind fun v₁ x v₂ hv₁ hx => h v₁ x v₂ (hv.trans hv₁) hx
  cases d <;> first | exact hrest | cases hd

theorem grants_fourth_inter (ht : w.shape? t = some (.inter a b)) (hsub : Keeps (Vacant p) (sub a u))
    (h : Grants p w (sub a u) ∨ Grants p w (sub b u)) :
    Grants p w (fourth sub t u) := by
  refine .world_bind fun v hv => ?_
  rw [World.shape_of_shape? (hv.shape ht)]
  rcases h with h | h
  · exact (h.later hv).orElse_left _
  · exact .orElse_right hsub (h.later hv)

theorem grants_fourth_union (ht : w.shape? t = some (.union a b)) (hsub : Keeps (Vacant p) (sub a u))
    (ha : Grants p w (sub a u)) (hb : Grants p w (sub b u)) : Grants p w (fourth sub t u) := by
  refine .world_bind fun v hv => ?_
  rw [World.shape_of_shape? (hv.shape ht)]
  exact (ha.later hv).andThen hsub (hb.later hv)

theorem grants_fourth_name (ht : w.shape? t = some (.named q s)) (hplain : ¬ w.decls.isClass s)
    (h : ∀ v x v', w ≤ v → t.upperBound v = .ok (x, v') → Grants p v' (sub x u)) : Grants p w (fourth sub t u) := by
  refine .world_bind fun v hv => ?_
  rw [World.shape_of_shape? (hv.shape ht)]
  refine .ite (fun _ => .yes) fun _ => .orElse_right (.ite (.lift (grows_nullConforms u)) (.pure _)) ?_
  rw [hv.decls, if_neg hplain]
  exact .lift_bind fun v₁ x v₂ hv₁ hx => h v₁ x v₂ (hv.trans hv₁) hx

end Source

/-! ## A static class as the target -/

/-- The type `u` names the static class `cls`. -/
structure Targets (w : World) (u : Ty) (cls : Symbol) : Prop where
  standard : w.Standard
  known : ∃ ρ : Corr, ρ.Matches w w ∧ ρ.ty u u
  shape : ∃ q, w.shape? u = some (.named q cls)
  isClass : w.decls.isClass cls
  isStatic : w.decls.isStatic cls

section Clauses

variable {p : Place} {w v : World} {u t a b x q : Ty} {cls s : Symbol} {d : Shape} {n : Nat}
  {sub : Ty → Ty → CompareM Bool}

theorem Targets.grow (h : Targets w u cls) (hv : w ≤ v) : Targets v u cls where
  standard := h.standard.grow hv
  known := by
    obtain ⟨ρ, hM, ku⟩ := h.known
    exact ⟨ρ, hM.grow hv hv, ku⟩
  shape := by
    obtain ⟨q, hq⟩ := h.shape
    exact ⟨q, hv.shape hq⟩
  isClass := hv.decls ▸ h.isClass
  isStatic := hv.decls ▸ h.isStatic

theorem Targets.present (h : Targets w u cls) : u.present := by
  obtain ⟨q, hq⟩ := h.shape
  exact h.standard.present hq (by rintro ⟨⟩)

variable (hu : Targets w u cls) (hsub : ∀ a b, Keeps (Vacant p) (sub a b))
include hu hsub

/-- What the clause for the source grants, a class grants. -/
theorem grants_thirdNamed (h : Grants p w (fourth sub t u)) : Grants p w (thirdNamed n sub t u) := by
  obtain ⟨ρ, hM, ku⟩ := hu.known
  obtain ⟨q, hq⟩ := hu.shape
  intro c v answer c' v' hc hv hr
  obtain ⟨v₁, hv₁, hrun⟩ := thirdNamed_run hu.standard n sub t c hM ku hv
  rw [hrun, World.ends?_of_isClass hq hu.isClass] at hr
  refine Grants.orElse_right ?_ (.orElse_right ?_ (.orElse_right ?_ h)) hc (hv.trans hv₁) hr
  · exact .ite (.lift (grows_reading fun w => starves_isStable w n t)) (.pure _)
  · exact .ite (.lift (grows_isNotNull t)) (.pure _)
  · exact .ite (keeps_conformsAsConstructor hsub t u) (.pure _)

/-- A name that is no reference to the class is met by its base type or as other types are. -/
theorem grants_names (ht : w.shape? t = some d) (hd : d.isNamed)
    (h : (∀ q k, nameParts? d ≠ some (q, cls, k)) → Grants p w ((do
        let base ← t.baseType cls
        if base.present && base ≠ t then sub base u else return false) <||> thirdNamed n sub t u)) :
    Grants p w (names n sub t u) := by
  obtain ⟨q, hq⟩ := hu.shape
  obtain ⟨q', s, k, hparts⟩ : ∃ q s k, nameParts? d = some (q, s, k) := by
    cases d <;> first | exact ⟨_, _, _, rfl⟩ | cases hd
  refine .world_bind fun v hv => ?_
  rw [World.shape_of_shape? (hv.shape ht), World.shape_of_shape? (hv.shape hq), hparts]
  refine .ite (fun hs => ?_) fun hs => ?_
  · intro c v' answer c' v₁ hc hv' hr
    rw [run_get_bind, hs, hv.decls, hu.isStatic, Bool.or_true, if_pos rfl] at hr
    cases hr
    rfl
  · rw [hv.decls, if_pos hu.isClass]
    refine .orElse_right (.ite (hsub _ _) (.pure _)) (.later (h ?_) hv)
    rintro q'' k' heq
    cases hparts.symm.trans heq
    exact hs rfl

/-- What the clause for the source grants, the cascade grants, unless the source is a hole or a variable. -/
theorem grants_first (ht : w.shape? t = some d) (hd : intercepts d = false) (h : Grants p w (fourth sub t u)) :
    Grants p w (first n sub t u) := by
  obtain ⟨q, hq⟩ := hu.shape
  have hthird : Grants p w (thirdNamed n sub t u) := grants_thirdNamed hu hsub h
  cases hnamed : d.isNamed with
  | true =>
    refine (grants_names hu hsub ht hnamed fun _ => .orElse_right ?_ hthird).congr fun c v hc hv => ?_
    · exact .bind (.lift (grows_baseType t cls)) fun _ => .ite (hsub _ _) (.pure _)
    · exact first_run_names (by rw [World.shape_of_shape? (hv.shape ht), hnamed])
        (by rw [World.shape_of_shape? (hv.shape hq)]; rfl)
  | false =>
    refine hthird.congr fun c v hc hv => ?_
    have hd' := World.shape_of_shape? (hv.shape ht)
    have hq' := World.shape_of_shape? (hv.shape hq)
    rw [first_run_second hc (by rw [hq']; rfl) (by rw [hd', hnamed]; rfl), second_run_third hc (hd' ▸ hd), third,
      run_world_bind, hq']

/-- A reference to the class is met as it is, and one to another class by its base type. -/
theorem grants_class (ht : w.shape? t = some (.named q s))
    (h : s ≠ cls → Grants p w (do
      let base ← t.baseType cls
      if base.present && base ≠ t then sub base u else return false)) : Grants p w (first n sub t u) := by
  obtain ⟨q', hq⟩ := hu.shape
  have hnames : Grants p w (names n sub t u) := by
    refine grants_names hu hsub ht rfl fun hne => .orElse_left (h ?_) _
    rintro rfl
    exact hne q true rfl
  refine hnames.congr fun c v hc hv => ?_
  exact first_run_names (by rw [World.shape_of_shape? (hv.shape ht)]; rfl)
    (by rw [World.shape_of_shape? (hv.shape hq)]; rfl)

omit hsub in
/-- A variable is met by what it stands for. -/
theorem grants_var {i : VarId} (ht : w.shape? t = some (.var i)) (h : Grants p w (sub (w.varUnderlying i) u)) :
    Grants p w (first n sub t u) := by
  obtain ⟨q, hq⟩ := hu.shape
  refine h.congr fun c v hc hv => ?_
  have hd := World.shape_of_shape? (hv.shape ht)
  have hq' := World.shape_of_shape? (hv.shape hq)
  rw [first_run_second hc (by rw [hq']; rfl) (by rw [hd]; rfl), second, run_world_bind, hd]
  exact congrArg (fun x => sub x u c v) (World.varUnderlying_later hv i)

end Clauses

/-! ## Whole comparisons -/

section Comparisons

variable {p : Place} {w w₀ v : World} {u t a b x q : Ty} {cls s : Symbol} {levels n k : Nat} {N : World.Site} {ρ : Corr}

/-- A comparison of a pair that is not pending grants what the cascade grants. -/
theorem grants_isSubTypeWithin (ht : t.present) (hu : u.present) (hroom : HasRoom p levels) (hbounds : p.bounds = .none)
    (hnew : (t, u) ∉ p.pending) (h : ∀ levels' n' p', levels = levels' + 1 → n = n' + 1 → Opens p (t, u) p' →
      Grants p' w (first n' (isSubTypeWithin levels' n') t u)) : Grants p w (isSubTypeWithin levels n t u) := by
  intro c v answer c' v' hc hv hr
  rcases isSubTypeWithin_cases hr with ⟨habsent | habsent, -⟩ | ⟨-, -, hr⟩ | ⟨-, -, -, levels', n', rfl, rfl, hrun⟩
  · rw [ht] at habsent
    cases habsent
  · rw [hu] at habsent
    cases habsent
  · cases hr
    rfl
  · rcases framed_vacant hc hroom.level hbounds n' t u with ⟨p', c₁, hopens, hc₁, hframed⟩ | ⟨-, hrefused, -⟩
    · obtain ⟨c₂, hfirst⟩ := Framed.of_ok (hrun ▸ hframed v)
      exact h levels' n' p' rfl rfl hopens hc₁ hv hfirst
    · exact absurd (hroom.pending_of_refused hrefused) hnew

/-- What is rooted in references to the class conforms to it. The induction is on the allowance; what is pending is
rooted higher up. -/
theorem grants_of_rooted (n : Nat) : ∀ {levels : Nat} {p : Place} {t : Ty} {k : Nat}, Targets w u cls → HasRoom p levels →
    p.bounds = .none → w.Rooted cls k t → (∀ y, (y, u) ∈ p.pending → ¬ w.Rooted cls k y) →
      Grants p w (isSubTypeWithin levels n t u) := by
  induction n with
  | zero =>
    intro levels p t k _ _ _ _ _ c v answer c' v' _ _ hr
    cases levels <;> cases hr
  | succ n ih =>
    intro levels p t k hu hroom hbounds hrooted hpending
    have ht : t.present := by
      cases hrooted with
      | named hd | refined hd | inter hd | union hd => exact hu.standard.present hd (by rintro ⟨⟩)
    refine grants_isSubTypeWithin ht hu.present hroom hbounds (fun hmem => hpending t hmem hrooted) ?_
    rintro levels n' p' rfl ⟨⟩ hopens
    obtain ⟨j, hj, hrooted, hleast⟩ := hrooted.least
    have hroom' := hroom.opens hopens
    have hsub (a b : Ty) : Keeps (Vacant p') (isSubTypeWithin levels n a b) := keeps_vacant n levels p' hroom'.level a b
    have hgoes {x : Ty} {i : Nat} (hi : i < j) (hx : w.Rooted cls i x) : Grants p' w (isSubTypeWithin levels n x u) := by
      refine ih hu hroom' (hopens.bounds_eq.trans hbounds) hx fun y hy hrooted => ?_
      rcases hopens.pending_cases hy with heq | hy
      · cases heq
        exact hleast i hi hrooted
      · exact hpending y hy (hrooted.mono (by omega))
    cases hrooted with
    | named hd => exact grants_class hu hsub hd fun hne => absurd rfl hne
    | refined hd h => exact grants_first hu hsub hd rfl (grants_fourth_refined hd (hgoes (Nat.lt_succ_self _) h))
    | inter hd ha _ =>
      exact grants_first hu hsub hd rfl (grants_fourth_inter hd (hsub _ _) (.inl (hgoes (Nat.lt_succ_self _) ha)))
    | union hd ha hb =>
      exact grants_first hu hsub hd rfl
        (grants_fourth_union hd (hsub _ _) (hgoes (Nat.lt_succ_self _) ha) (hgoes (Nat.lt_succ_self _) hb))

/-- A type that a comparison may be in the middle of: it has no reason of at most `k` levels, and is not rooted. -/
structure Aside (w₀ : World) (cls : Symbol) (k : Nat) (w : World) (y : Ty) : Prop where
  site : ∃ M, w.IsSite y M ∧ ¬ w₀.Bears cls k M
  rooted : ∀ v, w ≤ v → ¬ v.IsRooted cls y

theorem Aside.grow {y : Ty} (h : Aside w₀ cls k w y) (hv : w ≤ v) : Aside w₀ cls k v y where
  site := by
    obtain ⟨M, hM, hnot⟩ := h.site
    exact ⟨M, hM.grow hv, hnot⟩
  rooted v' hv' := h.rooted v' (hv.trans hv')

/-- **What the class lies above conforms to it**, if nothing on the way is impeded. The induction is on the allowance;
what is pending has no reason as low as the one at hand. -/
theorem grants_of_bears (hw₀ : w₀.Closed) (hstd₀ : w₀.Standard) (n : Nat) : ∀ {levels : Nat} {p : Place} {w : World}
    {ρ : Corr} {t : Ty} {N : World.Site} {k : Nat}, w₀ ≤ w → Targets w u cls → ρ.Matches w w → ρ.ty t t →
    ¬ w.Impeded cls t → w.IsSite t N → w₀.Knows N → w₀.Bears cls k N → k ≤ 64 → HasRoom p levels → p.bounds = .none →
    (∀ y, (y, u) ∈ p.pending → Aside w₀ cls k w y) → Grants p w (isSubTypeWithin levels n t u) := by
  induction n with
  | zero =>
    intro levels p w ρ t N k _ _ _ _ _ _ _ _ _ _ _ _ c v answer c' v' _ _ hr
    cases levels <;> cases hr
  | succ n ih =>
    intro levels p w ρ t N k hle hu hM kt hfree ht hN hbears hk hroom hbounds hpending
    by_cases hrooted : w.IsRooted cls t
    · obtain ⟨m, h⟩ := hrooted
      exact grants_of_rooted (n + 1) hu hroom hbounds h fun y hy hy' => (hpending y hy).rooted w le_rfl ⟨m, hy'⟩
    obtain ⟨k', hlt, h, hleast⟩ := hbears.least
    have hpresent : t.present := by
      obtain ⟨d, hd, rfl⟩ := ht
      refine hu.standard.present hd ?_
      rintro rfl
      obtain ⟨e, he⟩ := Option.isSome_iff_exists.1 hN
      obtain rfl := Option.some.inj ((hle.shape he).symm.trans hd)
      simp only [World.Site.of, World.Bears, World.move, World.shape_of_shape? he] at h
      exact h
    have hnew : (t, u) ∉ p.pending := by
      intro hmem
      obtain ⟨M, hM, hnot⟩ := (hpending t hmem).site
      exact hnot (hM.unique ht ▸ hbears)
    refine grants_isSubTypeWithin hpresent hu.present hroom hbounds hnew ?_
    rintro levels n' p' rfl ⟨⟩ hopens
    have hroom' := hroom.opens hopens
    have hbounds' := hopens.bounds_eq.trans hbounds
    have hsub (a b : Ty) : Keeps (Vacant p') (isSubTypeWithin levels n a b) := keeps_vacant n levels p' hroom'.level a b
    have hlater {v : World} (hv : w ≤ v) : ¬ v.IsRooted cls t := by
      rintro ⟨m, h⟩
      exact hrooted ⟨m, h.known hM kt hv⟩
    have haside (y : Ty) (hy : (y, u) ∈ p'.pending) : Aside w₀ cls k' w y := by
      rcases hopens.pending_cases hy with heq | hy
      · cases heq
        exact ⟨⟨N, ht, hleast⟩, fun v hv => hlater hv⟩
      · obtain ⟨⟨M, hM, hnot⟩, h⟩ := hpending y hy
        exact ⟨⟨M, hM, fun h => hnot (h.mono (by omega))⟩, h⟩
    have hfree' {v : World} (hv : w ≤ v) : ¬ v.Impeded cls t := fun h => hfree (h.transport (hM.grow hv le_rfl) kt)
    have hgoes {v v' : World} {x : Ty} {M : World.Site} {σ : Corr} (hv : w ≤ v) (hv' : v ≤ v') (hstep : v.Offers t v' x)
        (hMσ : σ.Matches v' v') (kx : σ.ty x x) (hx : v'.IsSite x M) (hM : w₀.Knows M) (h : w₀.Bears cls k' M) :
        Grants p' v' (isSubTypeWithin levels n x u) :=
      have hwv := hv.trans hv'
      ih (hle.trans hwv) (hu.grow hwv) hMσ kx (fun h => hfree' hv (.leads hstep h)) hx hM h (by omega) hroom' hbounds'
        fun y hy => (haside y hy).grow hwv
    cases N with
    | name s =>
      obtain ⟨q, hd⟩ := ht.name
      have hs : s ≠ cls := by
        rintro rfl
        exact hrooted ⟨0, .named hd⟩
      have hwins := h
      simp only [World.Bears, World.move, if_neg hs] at hwins
      by_cases hclass : w₀.decls.isClass s
      · refine grants_class hu hsub hd fun _ => .lift_bind fun v base v' hv hbase => ?_
        have hv' := (grows_baseType t cls).le_of_ok hbase
        have hpresent : base.present := by
          refine World.baseType_of_bears hw₀ hstd₀ (hle.trans hv) (ht.grow hv) trivial h (by omega) (fun hover => ?_) hbase
          exact hfree' hv (.overruns (hv.shape hd) ((hle.trans hv).decls ▸ hclass) hs hover)
        have hroot := World.rooted_of_baseType hbase hpresent
        refine .ite (fun _ => ?_) fun hnot => absurd ?_ hnot
        · exact grants_of_rooted n (hu.grow (hv.trans hv')) hroom' hbounds' hroot fun y hy h =>
            (haside y hy).rooted v' (hv.trans hv') ⟨_, h⟩
        · rw [hpresent, Bool.true_and, decide_eq_true_iff]
          rintro rfl
          exact hlater (hv.trans hv') ⟨_, hroot⟩
      · rw [if_neg hclass] at hwins
        refine grants_first hu hsub hd rfl (grants_fourth_name hd (hle.decls ▸ hclass) fun v x v' hv hx => ?_)
        obtain ⟨σ, -, hMσ, kx⟩ := (hM.grow hv hv).made (sim_upperBound kt) hx
        refine hgoes hv ((grows_upperBound t).le_of_ok hx) (.upper (hv.shape hd) ?_ hx) hMσ kx ?_ ?_ hwins
        · exact (hle.trans hv).decls ▸ hclass
        · exact World.site_of_upperBound hw₀.identity_matches trivial hstd₀ (hle.trans hv) (hv.shape hd) hclass hx
        · exact World.knows_site (hw₀.has_upperOf s)
    | ty y =>
      obtain ⟨rfl, e, he, hnot⟩ := ht.ty
      obtain ⟨d, hd₀⟩ := Option.isSome_iff_exists.1 hN
      have hd := hle.shape hd₀
      obtain rfl := Option.some.inj (hd.symm.trans he)
      have hwins : (w₀.moveFrom d).Wins w₀ (w₀.Bears cls k') := by
        rwa [World.Bears, World.move, World.shape_of_shape? hd₀] at h
      have hpart {x : Ty} (hx : w₀.Has x) (kx : ρ.ty x x) (hstep : w.Offers y w x) (h : w₀.Bears cls k' (w₀.site x)) :
          Grants p' w (isSubTypeWithin levels n x u) :=
        hgoes le_rfl le_rfl hstep hM kx ((World.isSite_of_has hx).grow hle) (World.knows_site hx) h
      cases d with
      | named q s => exact absurd rfl (hnot q s)
      | classInfo q s => exact absurd (.info hd) hfree
      | param i => exact absurd (.param hd) hfree
      | refined parent name info =>
        cases hM.parts kt hd with | refined kp _ _ =>
        cases hw₀.shape hd₀ with | refined hp _ _ =>
        exact grants_first hu hsub hd rfl (grants_fourth_refined hd (hpart hp.2 kp (.parent hd) hwins))
      | inter a b =>
        cases hM.parts kt hd with | inter ka kb =>
        cases hw₀.shape hd₀ with | inter ha hb =>
        refine grants_first hu hsub hd rfl (grants_fourth_inter hd (hsub _ _) (hwins.imp ?_ ?_))
        · exact hpart ha.2 ka (.meet hd (.inl rfl))
        · exact hpart hb.2 kb (.meet hd (.inr rfl))
      | union a b =>
        cases hM.parts kt hd with | union ka kb =>
        cases hw₀.shape hd₀ with | union ha hb =>
        refine grants_first hu hsub hd rfl (grants_fourth_union hd (hsub _ _) ?_ ?_)
        · exact hpart ha.2 ka (.join hd (.inl rfl)) hwins.1
        · exact hpart hb.2 kb (.join hd (.inr rfl)) hwins.2
      | var i =>
        have hsame := World.varUnderlying_later hle i
        have hinst := hw₀.identity_matches.varUnderlying (v := i) trivial
        refine grants_var hu hd ?_
        exact hpart (hsame ▸ hinst.2) (hM.held kt hd) (.var hd) (hsame ▸ hwins)
      | path | self | literal | skolem | valueParam =>
        refine grants_first hu hsub hd rfl (grants_fourth_single hd rfl fun v x v' hv hx => ?_)
        obtain ⟨σ, -, hMσ, kx⟩ := (hM.grow hv hv).made (sim_underlying kt) hx
        obtain ⟨M, hmove, hMM, hxM⟩ :=
          World.site_of_underlying hw₀.identity_matches ⟨rfl, hN⟩ (hle.trans hv) hd₀ (.inl rfl) hx
        rw [hmove] at hwins
        exact hgoes hv ((grows_underlying y).le_of_ok hx) (.single (hv.shape hd) rfl hx) hMσ kx hxM hMM.knows hwins
      | _ => exact hwins.elim

/-- **A type that has a base type at a static class conforms to the class**, whenever the comparison comes to an answer,
if nothing on the way to the base type is impeded. -/
theorem isSubType_of_baseType {erased answer : Bool} {w v : World} {cls : Symbol} {t u q base : Ty} (hw : w.Built)
    (hcls : w.decls.isClass cls) (hstatic : w.decls.isStatic cls) (hu : w.shape? u = some (.named q cls)) (ht : w.Has t)
    (hbase : t.baseType cls w = .ok (base, v)) (hpresent : base.present) (hfree : ¬ w.Impeded cls t)
    (hr : w.Returns erased t u answer) : answer = true := by
  obtain ⟨fuel, c, c', v₁, v', hv, hc, -, hrun⟩ := hr
  have hM := hw.closed.identity_matches
  have htarget : Targets w u cls := ⟨hw.standard, ⟨_, hM, rfl, by rw [hu]; rfl⟩, ⟨q, hu⟩, hcls, hstatic⟩
  have hbears := World.bears_of_baseType hw.closed hw.standard ht hbase hpresent
  have hgrants : Grants c.place w (isSubTypeWithin Limits.unlimited.toNat fuel t u) := by
    refine grants_of_bears hw.closed hw.standard fuel le_rfl htarget hM ⟨rfl, ht⟩ hfree (World.isSite_of_has ht)
      (World.knows_site ht) hbears (Nat.le_refl 64) (hasRoom_of_atRest hc (Nat.le_refl _)) hc.bounds fun y hy => ?_
    have hnone : (y, u) ∈ c.pending.openKeys := hy
    rw [hc.pending] at hnone
    cases hnone
  exact hgrants (vacant_of_atRest hc) hv (run_within (uniform_apply t u) hc.level hrun)

end Comparisons

/-- The world to start from, and at `15` the union of `Int` and `Boolean`. -/
def unionWorld : World := { World.initial with
  types := (World.initial.types.intern (.union Builtin.int.type Builtin.boolean.type)).2 }

theorem unionWorld_built : unionWorld.Built :=
  World.Built.initial.intern (.union Builtin.int.type Builtin.boolean.type)
    (.union ⟨rfl, rfl⟩ ⟨rfl, rfl⟩)

theorem unionWorld_not_impeded : ¬ unionWorld.Impeded Builtin.anyVal.symbol ⟨15⟩ := by
  have hw := unionWorld_built.standard
  have hshape : unionWorld.shape? ⟨15⟩ = some (.union Builtin.int.type Builtin.boolean.type) := rfl
  have hclass (b : Builtin) (h : ¬ unionWorld.Overruns Builtin.anyVal.symbol b.type) :
      ¬ unionWorld.Impeded Builtin.anyVal.symbol b.type := World.not_impeded_of_class (hw.shape b) (hw.isClass b) h
  have hfew : 2 ≤ 100000 := by decide
  have hint := hclass .int (World.not_overruns rfl hfew)
  have hboolean := hclass .boolean (World.not_overruns rfl hfew)
  intro h
  cases h with
  | param hd | info hd | overruns hd => cases hshape.symm.trans hd
  | leads hstep h =>
    cases hstep with
    | var hd | parent hd | meet hd | upper hd => cases hshape.symm.trans hd
    | single hd hsingle =>
      cases hshape.symm.trans hd
      cases hsingle
    | join hd hx =>
      cases hshape.symm.trans hd
      rcases hx with rfl | rfl
      · exact hint h
      · exact hboolean h

/-- The union of `Int` and `Boolean` has a base type at `AnyVal`, and conforms to it. -/
theorem isSubType_of_baseType_union : unionWorld.Built ∧ unionWorld.decls.isClass Builtin.anyVal.symbol ∧
    unionWorld.decls.isStatic Builtin.anyVal.symbol ∧ unionWorld.Has ⟨15⟩ ∧
    (∃ base v, Ty.baseType ⟨15⟩ Builtin.anyVal.symbol unionWorld = .ok (base, v) ∧ base.present) ∧
    ¬ unionWorld.Impeded Builtin.anyVal.symbol ⟨15⟩ ∧
    ∃ answer, unionWorld.Returns false ⟨15⟩ Builtin.anyVal.type answer ∧ answer = true := by
  have hw := unionWorld_built
  have hcls := hw.standard.isClass .anyVal
  have hstatic := hw.standard.isStatic .anyVal
  have hhas : unionWorld.Has ⟨15⟩ := rfl
  have hfound : (Ty.baseType ⟨15⟩ Builtin.anyVal.symbol unionWorld).toOption.map (·.1.present) = some true := by
    decide +kernel
  obtain ⟨⟨base, v⟩, hbase, hpresent⟩ := exists_of_map hfound
  have hr : unionWorld.Returns false ⟨15⟩ Builtin.anyVal.type true := World.returns_of_run 8 (by decide +kernel)
  exact ⟨hw, hcls, hstatic, hhas, ⟨base, v, hbase, hpresent⟩, unionWorld_not_impeded, true, hr,
    isSubType_of_baseType hw hcls hstatic (hw.standard.shape .anyVal) hhas hbase hpresent unionWorld_not_impeded hr⟩

/-! ### A search that overruns -/

/-- The classes `F`, at `15`, with 300 times the parent `Any`, `E`, at `16`, with 300 times the parent `F`, `C`, at `17`,
and `D`, at `23`, with the parents `A`, `A` and `C`. The abstract type `A`, at `22`, is bounded from above by the
intersection at `20` of a variable, at `19`, and `E`; the variable is settled to `D`. -/
def crowdedWorld : World :=
  let declare (w : World) (d : Declaration) : World := { w with decls := (w.decls.register d).2 }
  let intern (w : World) (d : Shape) : World := { w with types := (w.types.intern d).2 }
  let w := declare .initial { kind := .cls, name := "F", owner := .absent, flags := { static := true },
                              parents := List.replicate 300 Builtin.any.type }
  let w := intern w (.named .noPrefix ⟨44⟩)
  let w := declare w { kind := .cls, name := "E", owner := .absent, flags := { static := true },
                       parents := List.replicate 300 ⟨15⟩ }
  let w := intern w (.named .noPrefix ⟨45⟩)
  let w := declare w { kind := .cls, name := "C", owner := .absent, flags := { static := true },
                       parents := [Builtin.object.type] }
  let w := intern w (.named .noPrefix ⟨46⟩)
  let w := { w with binders := w.binders.push { kind := .universal, names := ["X"] } }
  let w := intern w (.param ⟨⟨0⟩, 0⟩)
  let w := { w with binders := w.binders.modify 0 fun d => { d with infos := [⟨14⟩], result := ⟨18⟩ } }
  let w := { w with vars := w.vars.push { origin := ⟨18⟩ } }
  let w := [.var ⟨0⟩, .inter ⟨19⟩ ⟨16⟩, .bounds Builtin.nothing.type ⟨20⟩].foldl intern w
  let w := declare w { kind := .abstractType, name := "A", owner := .absent, flags := { static := true }, info := ⟨21⟩ }
  let w := intern w (.named .noPrefix ⟨47⟩)
  let w := declare w { kind := .cls, name := "D", owner := .absent, flags := { static := true },
                       parents := [⟨22⟩, ⟨22⟩, ⟨17⟩] }
  let w := intern w (.named .noPrefix ⟨48⟩)
  { w with vars := w.vars.setIfInBounds 0 { origin := ⟨18⟩, inst := some ⟨23⟩ } }

theorem crowdedWorld_built : crowdedWorld.Built := by
  have h₁ := World.Built.register .initial { kind := .cls, name := "F", owner := .absent, flags := { static := true },
                                             parents := List.replicate 300 Builtin.any.type } (by decide)
    fun t ht => List.eq_of_mem_replicate ht ▸ (by decide)
  have h₂ := h₁.intern (.named .noPrefix ⟨44⟩) (World.mentions_named (by decide) _)
  have h₃ := h₂.register { kind := .cls, name := "E", owner := .absent, flags := { static := true },
                           parents := List.replicate 300 ⟨15⟩ } (by decide)
    fun t ht => List.eq_of_mem_replicate ht ▸ (by decide)
  have h₄ := h₃.intern (.named .noPrefix ⟨45⟩) (World.mentions_named (by decide) _)
  have h₅ := h₄.register { kind := .cls, name := "C", owner := .absent, flags := { static := true },
                           parents := [Builtin.object.type] } (by decide) (by decide)
  have h₆ := h₅.intern (.named .noPrefix ⟨46⟩) (World.mentions_named (by decide) _)
  have h₇ := h₆.binder .universal ["X"]
  have h₈ := h₇.intern (.param ⟨⟨0⟩, 0⟩) (World.mentions_param (by decide) _)
  have h₉ := h₈.fill ⟨0⟩ [⟨14⟩] ⟨18⟩ (by decide) (by decide)
  have h₁₀ := h₉.var ⟨18⟩ (by decide)
  have h₁₁ := h₁₀.intern (.var ⟨0⟩) (.var trivial)
  have h₁₂ := h₁₁.intern (.inter ⟨19⟩ ⟨16⟩) (.inter ⟨rfl, by decide⟩ ⟨rfl, by decide⟩)
  have h₁₃ := h₁₂.intern (.bounds Builtin.nothing.type ⟨20⟩)
    (World.mentions_bounds (by decide) (by decide))
  have h₁₄ := h₁₃.register { kind := .abstractType, name := "A", owner := .absent, flags := { static := true },
                             info := ⟨21⟩ } (by decide) (by decide)
  have h₁₅ := h₁₄.intern (.named .noPrefix ⟨47⟩) (World.mentions_named (by decide) _)
  have h₁₆ := h₁₅.register { kind := .cls, name := "D", owner := .absent, flags := { static := true },
                             parents := [⟨22⟩, ⟨22⟩, ⟨17⟩] } (by decide) (by decide)
  have h₁₇ := h₁₆.intern (.named .noPrefix ⟨48⟩) (World.mentions_named (by decide) _)
  exact h₁₇.instantiate 0 { origin := ⟨18⟩ } Array.mem_push_self ⟨23⟩ (by decide)

section Crowded

theorem crowdedWorld_names : crowdedWorld.shape? ⟨15⟩ = some (.named .noPrefix ⟨44⟩) ∧
    crowdedWorld.shape? ⟨16⟩ = some (.named .noPrefix ⟨45⟩) ∧ crowdedWorld.shape? ⟨17⟩ = some (.named .noPrefix ⟨46⟩) ∧
    crowdedWorld.shape? ⟨22⟩ = some (.named .noPrefix ⟨47⟩) ∧ crowdedWorld.shape? ⟨23⟩ = some (.named .noPrefix ⟨48⟩) :=
  ⟨rfl, rfl, rfl, rfl, rfl⟩

theorem crowdedWorld_parts : crowdedWorld.shape? ⟨19⟩ = some (.var ⟨0⟩) ∧
    crowdedWorld.shape? ⟨20⟩ = some (.inter ⟨19⟩ ⟨16⟩) ∧
    crowdedWorld.shape? ⟨21⟩ = some (.bounds Builtin.nothing.type ⟨20⟩) ∧ crowdedWorld.varUnderlying ⟨0⟩ = ⟨23⟩ :=
  ⟨rfl, rfl, rfl, rfl⟩

theorem crowdedWorld_classes : (∀ s ∈ [44, 45, 46, 48], crowdedWorld.decls.isClass ⟨s⟩) ∧
    crowdedWorld.decls.isStatic ⟨46⟩ ∧ crowdedWorld.decls.name ⟨45⟩ = "E" ∧ crowdedWorld.decls.name ⟨46⟩ = "C" ∧
    crowdedWorld.decls.name ⟨48⟩ = "D" ∧ crowdedWorld.decls.kind? ⟨47⟩ = some .abstractType ∧
    crowdedWorld.decls.info ⟨47⟩ = ⟨21⟩ := by
  refine ⟨fun s hs => ?_, rfl, rfl, rfl, rfl, rfl, rfl⟩
  simp only [List.mem_cons, List.not_mem_nil, or_false] at hs
  rcases hs with rfl | rfl | rfl | rfl <;> rfl

theorem crowdedWorld_parents : crowdedWorld.decls.parents ⟨44⟩ = List.replicate 300 Builtin.any.type ∧
    crowdedWorld.decls.parents ⟨45⟩ = List.replicate 300 ⟨15⟩ ∧ crowdedWorld.decls.parents ⟨48⟩ = [⟨22⟩, ⟨22⟩, ⟨17⟩] ∧
    crowdedWorld.decls.parents Builtin.any.symbol = [] :=
  ⟨rfl, rfl, rfl, rfl⟩

/-- The search for `C` above `E` is long and comes to nothing. -/
theorem crowdedWorld_fruitless (ks : List Ty) (hE : ⟨16⟩ ∉ ks) (hF : ⟨15⟩ ∉ ks) (hAny : Builtin.any.type ∉ ks)
    (hks : ks.length < 62) (n : Nat) :
    World.Fruitless ks 90301 crowdedWorld (Walk.descend .noType (BaseType.step ⟨46⟩) (n + 3) ⟨16⟩) := by
  obtain ⟨hshapeF, hshapeE, -⟩ := crowdedWorld_names
  obtain ⟨hFAny, hEF, -, hnone⟩ := crowdedWorld_parents
  have hcls := crowdedWorld_classes.1
  have hstd := crowdedWorld_built.standard
  have hFks : ⟨15⟩ ∉ (⟨16⟩ :: ks : List Ty) := List.not_mem_cons_of_ne_of_not_mem (by decide) hF
  have hAnyks : Builtin.any.type ∉ (⟨15⟩ :: ⟨16⟩ :: ks : List Ty) :=
    List.not_mem_cons_of_ne_of_not_mem (by decide) (List.not_mem_cons_of_ne_of_not_mem (by decide) hAny)
  have hlength₁ : (⟨16⟩ :: ks : List Ty).length < 64 := by rw [List.length_cons]; omega
  have hlength₂ : (⟨15⟩ :: ⟨16⟩ :: ks : List Ty).length < 64 := by rw [List.length_cons, List.length_cons]; omega
  have hcount : 90301 = 300 * (300 * (0 * 0 + 1) + 1) + 1 := rfl
  rw [hcount]
  refine World.fruitless_class hE (by omega) hshapeE (hcls 45 (by decide)) (by decide) hEF fun _ => ?_
  refine World.fruitless_class hFks hlength₁ hshapeF (hcls 44 (by decide)) (by decide) hFAny fun _ => ?_
  exact World.fruitless_class (x := .noType) hAnyks hlength₂ (hstd.shape .any) (hstd.isClass .any) (by decide) hnone
    (absurd rfl)

/-- What stands for a type that nothing is built for. -/
theorem crowdedWorld_upper {v : World} (hv : crowdedWorld ≤ v) : Ty.upperBound ⟨22⟩ v = .ok (⟨20⟩, v) := by
  obtain ⟨-, -, -, hshape, -⟩ := crowdedWorld_names
  obtain ⟨-, -, hbounds, -⟩ := crowdedWorld_parts
  obtain ⟨-, -, -, -, -, hkind, hinfo⟩ := crowdedWorld_classes
  have hrun : Ty.infoOf ⟨22⟩ v = .ok (⟨21⟩, v) := by
    rw [Ty.infoOf, get_bind_run, World.shape_of_shape? (hv.shape hshape), hv.decls]
    dsimp only
    rw [hkind, hinfo]
    rfl
  rw [Ty.upperBound, bind_run hrun, get_bind_run, World.boundsParts?, hv.shape hbounds]
  rfl

/-- The search for `C` that starts at `D` passes `E` twice and comes to nothing. -/
theorem crowdedWorld_baseType {v : World} (hv : crowdedWorld ≤ v) : Ty.baseType ⟨23⟩ ⟨46⟩ v = .ok (.noType, v) := by
  obtain ⟨-, -, -, hshapeA, hshapeD⟩ := crowdedWorld_names
  obtain ⟨hshapeV, hshape, -, hinst⟩ := crowdedWorld_parts
  obtain ⟨hcls, -, -, -, -, hkind, -⟩ := crowdedWorld_classes
  have hnotcls : ¬ crowdedWorld.decls.isClass ⟨47⟩ := by
    rw [Declarations.isClass, hkind]
    decide
  have hparents := crowdedWorld_parents.2.2.1
  have hA {k : Nat} (hE : World.Fruitless [⟨20⟩, ⟨22⟩, ⟨23⟩] k crowdedWorld
      (Walk.descend .noType (BaseType.step ⟨46⟩) 62 ⟨16⟩)) : World.Fruitless [⟨23⟩] (1 + 1 + k + 1 + 1) crowdedWorld
      (Walk.descend .noType (BaseType.step ⟨46⟩) 64 ⟨22⟩) := by
    refine .inside (by decide) (by decide) ?_
    refine World.fruitless_upper hshapeA hnotcls (by decide) (fun v hv => crowdedWorld_upper hv) ?_
    refine .inside (by decide) (by decide) (World.fruitless_inter hshape ?_ hE)
    refine .inside (by decide) (by decide) (World.fruitless_var hshapeV ?_)
    rw [hinst]
    exact World.fruitless_open (by decide) (by decide)
  have hA := hA (crowdedWorld_fruitless _ (by decide) (by decide) (by decide) (by decide) 59)
  -- after the second `A` the entries are used up, and `C` is not let in
  have hstart : Counted [] 0 { bounds := .walk } := ⟨rfl, rfl, rfl, rfl⟩
  obtain ⟨g₁, henter, hg₁⟩ := hstart.enter (t := ⟨23⟩) (by decide) (by decide) (by decide)
  obtain ⟨g₂, hfirst, hg₂, -⟩ := hA hv hg₁
  obtain ⟨g₃, hsecond, hg₃, -⟩ := hA hv hg₂
  obtain ⟨entry, g₄, hrefuse, hne, hg₄⟩ := hg₃.refuse (t := ⟨17⟩) (.inl (by omega))
  obtain ⟨g₅, hleave, -⟩ := hg₄.leave
  refine run_of_descend (inside_entered henter ?_ hleave)
  have hthird : Walk.descend .noType (BaseType.step ⟨46⟩) 64 ⟨17⟩ g₃ v = .ok ((.noType, g₄), v) :=
    inside_refused hrefuse hne
  have habsent : ¬ Ty.noType.present := by decide
  rw [BaseType.step, Walk.run_world_bind, World.shape_of_shape? (hv.shape hshapeD), hv.decls]
  dsimp only
  rw [if_neg (by decide), if_pos (hcls 48 (by decide)), hparents, Walk.firstPresent, run_bind hfirst, if_neg habsent,
    Walk.firstPresent, run_bind hsecond, if_neg habsent, Walk.firstPresent, run_bind hthird, if_neg habsent]
  rfl

/-- The search for `C` that starts at the intersection finds it in the variable and then passes `E` once. -/
theorem crowdedWorld_walk : ∃ g v, Walk.descend .noType (BaseType.step ⟨46⟩) (Limits.walkDepth.toNat + 1) ⟨20⟩
    { bounds := .walk } crowdedWorld = .ok ((⟨17⟩, g), v) ∧ g.exceeded = false := by
  obtain ⟨-, hshape, -, -⟩ := crowdedWorld_parts
  have henter : ({ bounds := .walk } : Guard Ty).enter ⟨20⟩ =
      (.entered, { bounds := .walk, openKeys := [⟨20⟩], depth := 1, entries := 1 }) := rfl
  have hleft : (Walk.descend .noType (BaseType.step ⟨46⟩) 64 ⟨19⟩
      { bounds := .walk, openKeys := [⟨20⟩], depth := 1, entries := 1 } crowdedWorld).toOption.map (fun r =>
        (r.1.1, r.1.2.bounds, r.1.2.openKeys, r.1.2.depth, r.1.2.entries, r.1.2.exceeded)) =
          some (⟨17⟩, .walk, [⟨20⟩], 1, 8, false) := by
    decide +kernel
  obtain ⟨⟨⟨l, g₁⟩, v⟩, hleft, heq⟩ := exists_of_map hleft
  simp only [Prod.mk.injEq] at heq
  obtain ⟨rfl, hbounds, hopen, hdepth, hentries, hexceeded⟩ := heq
  have hv : crowdedWorld ≤ v := World.grows_search 64 ⟨19⟩ le_rfl hleft
  have hg₁ : Counted [⟨20⟩] 8 g₁ := ⟨hbounds, hopen, hdepth, by rw [hentries]; rfl⟩
  obtain ⟨g₂, hright, hg₂, hsame⟩ :=
    crowdedWorld_fruitless [⟨20⟩] (by decide) (by decide) (by decide) (by decide) 61 hv hg₁
  obtain ⟨g₃, hleave, -⟩ := hg₂.leave
  refine ⟨g₃, v, inside_entered henter ?_ hleave, ?_⟩
  · rw [BaseType.step, Walk.run_world_bind, World.shape_of_shape? hshape]
    dsimp only
    rw [run_bind hleft, run_bind hright]
    rfl
  · rw [Guard.exceeded_leave hleave, hsame (by decide), hexceeded]

/-- Classes that no base type is found for do not conform to `C`. -/
theorem crowdedWorld_decides_class {p : Place} {σ : ConstraintStore} {v : World} {x : Ty} {s : Symbol} {n r : Nat}
    (hv : crowdedWorld ≤ v) (hx : crowdedWorld.shape? x = some (.named .noPrefix s)) (hs : crowdedWorld.decls.isClass s)
    (hname : crowdedWorld.decls.name s ≠ "C") (hnothing : s ≠ Builtin.nothing.symbol) (hnull : s ≠ Builtin.null.symbol)
    (hbase : ∀ v, crowdedWorld ≤ v → x.baseType ⟨46⟩ v = .ok (.noType, v)) (hroom : HasRoom p (r + 1))
    (hbounds : p.bounds = .none) (hfree : (x, ⟨17⟩) ∉ p.pending) :
    Decides p σ v (isSubType (n + 1) x ⟨17⟩) false := by
  obtain ⟨-, -, hC, -⟩ := crowdedWorld_names
  obtain ⟨hcls, -, -, hCname, -⟩ := crowdedWorld_classes
  have hCcls := hcls 46 (by decide)
  have hsC : s ≠ ⟨46⟩ := fun h => hname (h ▸ hCname)
  have hpresent : x.present := crowdedWorld_built.standard.present hx (by simp)
  have hne : x ≠ ⟨17⟩ := World.ne_of_shape hx hC fun h => hsC (Shape.named.inj h).2
  refine decides_isSubType hpresent (by decide) hne hroom hbounds hfree fun p' _ => ?_
  refine yields_first_names (hv.shape hx) (hv.shape hC) hsC (hv.decls ▸ hCcls) ?_
  rw [hv.decls, if_neg (hCname ▸ hname)]
  refine .orElse decides_pure fun v' hv' => .orElse ?_ fun v'' hv'' => ?_
  · refine .bind (yields_run (hbase v' (hv.trans hv')) le_rfl) ?_
    rintro base σ' u - ⟨rfl, rfl, rfl⟩
    exact decides_pure
  · have hle := (hv.trans hv').trans hv''
    refine yields_thirdNamed (hle.shape hC) (hle.decls ▸ hCcls) (by decide) (by decide) rfl fun u hu => ?_
    have hle := hle.trans hu
    exact decides_fourth_class (hle.shape hx) (hle.decls ▸ hs) hnothing hnull

/-- The intersection does not conform to `C`: no base type is found for `D` and for `E`. -/
theorem crowdedWorld_returns : crowdedWorld.Returns false ⟨20⟩ ⟨17⟩ false := by
  obtain ⟨-, hshapeE, hC, -, hshapeD⟩ := crowdedWorld_names
  obtain ⟨hshapeV, hshape, -, hinst⟩ := crowdedWorld_parts
  obtain ⟨hcls, -, hnameE, -, hnameD, -⟩ := crowdedWorld_classes
  have hbaseE {v : World} (hv : crowdedWorld ≤ v) : Ty.baseType ⟨16⟩ ⟨46⟩ v = .ok (.noType, v) := by
    have hstart : Counted [] 0 { bounds := .walk } := ⟨rfl, rfl, rfl, rfl⟩
    obtain ⟨g, hrun, -⟩ := crowdedWorld_fruitless [] (by decide) (by decide) (by decide) (by decide) 62 hv hstart
    exact run_of_descend hrun
  have hrun : Decides (Comparer.vacant false).place ⟨{}, 0⟩ crowdedWorld (isSubType 4 ⟨20⟩ ⟨17⟩) false := by
    have hroom : HasRoom (Comparer.vacant false).place 4 := .of_idle ⟨rfl, rfl, rfl, rfl⟩ (by decide)
    refine decides_isSubType (by decide) (by decide) (by decide) hroom rfl (by decide) fun p₁ h₁ => ?_
    have hroom₁ := hroom.opens h₁
    cases h₁ with
    | monitored hmode _ => cases hmode
    | direct _ => ?_
    have hM := World.shape_of_shape? hshape
    refine yields_first_named (by rw [hM]; rfl) (by rw [hM]; rfl) hC ?_
    refine yields_thirdNamed hC (hcls 46 (by decide)) (by decide) (by decide) rfl fun v hv => ?_
    refine yields_fourth_inter (hv.shape hshape) (.orElse ?_ fun v' hv' => ?_)
    · refine decides_isSubType (by decide) (by decide) (by decide) hroom₁ rfl (by decide) fun p₂ h₂ => ?_
      have hroom₂ := hroom₁.opens h₂
      cases h₂ with
      | monitored hmode _ => cases hmode
      | direct _ => ?_
      have hV := World.shape_of_shape? (hv.shape hshapeV)
      refine yields_first_second (by rw [hV]; rfl) (hv.shape hC) (.world_bind ?_)
      rw [hV]
      dsimp only
      rw [World.varUnderlying_later hv, hinst]
      exact crowdedWorld_decides_class hv hshapeD (hcls 48 (by decide)) (by rw [hnameD]; decide) (by decide) (by decide)
        (fun _ => crowdedWorld_baseType) hroom₂ rfl (by decide)
    · exact crowdedWorld_decides_class (hv.trans hv') hshapeE (hcls 45 (by decide)) (by rw [hnameE]; decide) (by decide)
        (by decide) (fun _ => hbaseE) hroom₁ rfl (by decide)
  obtain ⟨_, c, v, hrun, -, -, rfl, -⟩ := hrun (.vacant false) ⟨rfl, rfl⟩
  refine World.returns_of_run 4 ?_
  rw [hrun]
  rfl

/-- The sites that the search for `C` from the intersection comes to. -/
def crowdedSites : List World.Site :=
  [.ty ⟨20⟩, .ty ⟨19⟩, .name ⟨45⟩, .name ⟨48⟩, .name ⟨47⟩, .name ⟨46⟩, .name ⟨44⟩, .name Builtin.any.symbol]

set_option maxRecDepth 8000 in
theorem crowdedWorld_comesTo {N : World.Site} (h : crowdedWorld.ComesTo ⟨46⟩ (crowdedWorld.site ⟨20⟩) N) :
    N ∈ crowdedSites := by
  have hclosed : crowdedWorld.site ⟨20⟩ ∈ crowdedSites ∧
      ∀ N ∈ crowdedSites, ∀ M ∈ (crowdedWorld.move ⟨46⟩ N).sites crowdedWorld, M ∈ crowdedSites := by
    decide
  induction h with
  | refl => exact hclosed.1
  | tail _ hstep ih => exact hclosed.2 _ ih _ hstep

/-- The search for the static class `C` that starts at the intersection comes to no parameter and no info of a class,
reaches no limit and finds `C`; and yet the intersection does not conform to `C`. The comparison searches again at `D`,
from where the search comes to `E` twice and uses up the entries that a walk may attempt before it comes to `C`. -/
theorem isSubType_of_baseType_overrun : crowdedWorld.Built ∧ crowdedWorld.decls.isClass ⟨46⟩ ∧
    crowdedWorld.decls.isStatic ⟨46⟩ ∧ crowdedWorld.shape? ⟨17⟩ = some (.named .noPrefix ⟨46⟩) ∧ crowdedWorld.Has ⟨20⟩ ∧
    (∀ t, crowdedWorld.ComesTo ⟨46⟩ (crowdedWorld.site ⟨20⟩) (.ty t) →
      (∀ p, crowdedWorld.shape t ≠ .param p) ∧ ∀ q c, crowdedWorld.shape t ≠ .classInfo q c) ∧
    (∃ g v, Walk.descend .noType (BaseType.step ⟨46⟩) (Limits.walkDepth.toNat + 1) ⟨20⟩ { bounds := .walk } crowdedWorld =
      .ok ((⟨17⟩, g), v) ∧ g.exceeded = false ∧ Ty.baseType ⟨20⟩ ⟨46⟩ crowdedWorld = .ok (⟨17⟩, v)) ∧
    crowdedWorld.Returns false ⟨20⟩ ⟨17⟩ false := by
  obtain ⟨-, -, hC, -⟩ := crowdedWorld_names
  obtain ⟨hshapeV, hshape, -, -⟩ := crowdedWorld_parts
  obtain ⟨hcls, hstatic, -⟩ := crowdedWorld_classes
  refine ⟨crowdedWorld_built, hcls 46 (by decide), hstatic, hC, Option.isSome_of_eq_some hshape, fun t ht => ?_, ?_,
    crowdedWorld_returns⟩
  · have hmem := crowdedWorld_comesTo ht
    simp only [crowdedSites, List.mem_cons, World.Site.ty.injEq, List.not_mem_nil, reduceCtorEq, or_false] at hmem
    rcases hmem with rfl | rfl
    · rw [World.shape_of_shape? hshape]
      exact ⟨fun _ h => Shape.noConfusion h, fun _ _ h => Shape.noConfusion h⟩
    · rw [World.shape_of_shape? hshapeV]
      exact ⟨fun _ h => Shape.noConfusion h, fun _ _ h => Shape.noConfusion h⟩
  · obtain ⟨g, v, hrun, hwithin⟩ := crowdedWorld_walk
    exact ⟨g, v, hrun, hwithin, run_of_descend hrun⟩

end Crowded

end CompareM

end Conformance
