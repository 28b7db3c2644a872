import Conformance.Proofs.Bottom
import Conformance.Proofs.InterSource
import Conformance.Proofs.Derivability
import Conformance.Proofs.Termination
import Conformance.Proofs.TypeArguments

/-!
# Traits with free parameters

As declared at the start, the parameters of a trait lie between the bottom and the top type. To fit such a trait, the
lower ends of a constructor's parameters are compared with the bottom class and their upper ends with the top class. Both
comparisons come to an end, however the declarations go round: on the way there are types of the world, and now and then
a reference that is made for a current instance (`ends_extremes`). So the rule for traits comes to an end at every place
with room for that (`ends_conformsAsConstructor_free`).
-/

namespace Conformance

open CompareM

namespace World

variable {w v v' : World} {name : String} {t x y : Ty} {c q : Symbol} {g g' : Guard Ty} {k n : Nat}

/-! ## Members that no refinement has fixed -/

/-- On the way from `t` to its class there is no refinement of the name, so the look-up of the member comes to what the
class declares under it, if it is not given up. -/
theorem Locates.member_open {found : Option Symbol} (h : w.Locates g t found g') (hs : found = some c)
    (hseeks : ∃ k, w.Seeks name k t none) (hc : w.decls.isClass c) (hq : w.decls.member? c name .type = some q) :
    ∀ {n v v' g₀ g₁ a}, w ≤ v → Walk.descend .noType (Member.step name) n t g₀ v = .ok ((a, g₁), v') →
      a = .noType ∨ ∃ v₁, w ≤ v₁ ∧ (do (← q.ref).infoOf : WorldM Ty) v₁ = .ok (a, v') := by
  induction h with
  | refused => cases hs
  | @stops g g₁ t r he ht =>
    subst hs
    intro n v v' g₀ g₂ a hv hrun
    cases n with
    | zero => cases hrun
    | succ n =>
      obtain ⟨g₃, g₄, -, hstep, -⟩ | ⟨-, -, -, ha, -⟩ := inside_run hrun
      · right
        have hlater := (towards_later hv (t := t) (by rw [ht]; simp)).1
        rw [memberStep_class (hlater.trans ht) (hv.decls ▸ hc), Member.ofClass, Walk.run_world_bind, hv.decls, hq] at hstep
        exact ⟨v, hv, (run_lift_ok hstep).1⟩
      · exact .inl ha
  | @follows g g₁ g' t next found he ht hrest ih =>
    intro n v v' g₀ g₂ a hv hrun
    cases n with
    | zero => cases hrun
    | succ n =>
      obtain ⟨g₃, g₄, -, hstep, -⟩ | ⟨-, -, -, ha, -⟩ := inside_run hrun
      · have hlater := towards_later hv (t := t) (by rw [ht]; simp)
        obtain ⟨k, hk⟩ := hseeks
        obtain hgoes | ⟨parent, info, -, hfound⟩ | ⟨rfl, -⟩ := towardsRefinement_of_follows name ht
        · cases hk with
          | stops ht' => cases hgoes.symm.trans ht'
          | follows ht' hk =>
            cases hgoes.symm.trans ht'
            obtain ⟨v₁, hv₁, hnext⟩ := memberStep_follows (g := g₃) (f := Walk.descend .noType (Member.step name) n)
              (hlater.1.trans ht) ((hlater.2 name).trans hgoes)
            exact ih hs ⟨_, hk⟩ (hv.trans hv₁) (hnext ▸ hstep)
        · cases hk with
          | stops ht' => cases hfound.symm.trans ht'
          | follows ht' => cases hfound.symm.trans ht'
        · -- an alias of itself is open when the search comes back to it
          have hopen : next ∈ g₁.openKeys := (stands_of_enter he).openKeys ▸ List.mem_cons_self
          cases (hrest.eq_none_of_open hopen).symm.trans hs
      · exact .inl ha

/-- So a member of an opaque instance of `t` is what the class of `t` declares, where no refinement has fixed it. -/
theorem member_skolem {base : Ty} {i : SkolemId} (hs : w.typeSymbol? t = some c) (hopen : ∃ k, w.Seeks name k t none)
    (hc : w.decls.isClass c) (hq : w.decls.member? c name .type = some q) (hv : w ≤ v)
    (hbase : v.shape? base = some (.skolem i t)) {a : Ty} (hrun : base.member name v = .ok (a, v')) :
    a = .noType ∨ ∃ v₁, w ≤ v₁ ∧ (do (← q.ref).infoOf : WorldM Ty) v₁ = .ok (a, v') := by
  obtain ⟨g, hlocates, -⟩ := w.exists_locates t
  obtain ⟨g₁, hdescend⟩ := descend_of_run hrun
  obtain ⟨g₂, g₃, -, hstep, -⟩ | ⟨-, -, -, ha, -⟩ := inside_run hdescend
  · rw [Member.step, Walk.run_world_bind, shape_of_shape? hbase] at hstep
    have hunderlying : base.underlying v = .ok (t, v) := by
      rw [Ty.underlying, get_bind_run, shape_of_shape? hbase]
      rfl
    change (do Walk.descend .noType (Member.step name) 64 (← (liftM base.underlying : WalkM Ty)) : WalkM Ty) g₂ v = _
      at hstep
    rw [run_bind (run_lift hunderlying g₂)] at hstep
    exact hlocates.member_open hs hopen hc hq hv hstep
  · exact .inl ha

/-- The bottom class and the parameters of the traits are as they were declared at the start. -/
structure KeepsTraits (w : World) : Prop where
  parents : w.decls.parents Builtin.nothing.symbol = []
  typeParams : w.decls.typeParams Builtin.nothing.symbol = []
  members : ∀ name space, w.decls.member? Builtin.nothing.symbol name space = none
  free : ∀ cls p, Builtin.isTrait cls → p ∈ w.decls.typeParams cls →
    w.shape? (w.decls.info p) = some (.bounds Builtin.nothing.type Builtin.any.type)

theorem KeepsTraits.barren (h : w.KeepsTraits) (hw : w.Built) : w.Barren Builtin.nothing.type :=
  barren_bottom hw h.parents h.typeParams h.members

/-- The type is one of `w`, or a class seen from its declaration. -/
def Near (w v : World) (x : Ty) : Prop := w.Has x ∨ ∃ pre cls, v.shape? x = some (.classInfo pre cls)

/-- Bounds whose ends are near, or no type. -/
def Spans (w v : World) (b : Ty) : Prop :=
  b = .noType ∨ ∃ lo hi, v.shape? b = some (.bounds lo hi) ∧ w.Near v lo ∧ w.Near v hi

theorem Near.grow (h : w.Near v x) (hv : v ≤ v') : w.Near v' x :=
  h.imp id fun ⟨pre, cls, hshape⟩ => ⟨pre, cls, hv.shape hshape⟩

/-- Bounds of the world span types of the world. -/
theorem ends_of_has (hw : w.Closed) (hv : w ≤ v) (ht : w.Has t) (hshape : v.shape? t = some (.bounds x y)) :
    w.Has x ∧ w.Has y := by
  obtain ⟨d, hd⟩ := Option.isSome_iff_exists.1 ht
  cases (hv.shape hd).symm.trans hshape
  cases hw.shape hd with | bounds hx hy =>
  exact ⟨hx.2, hy.2⟩

/-- The info of a declaration: that of the world, the bounds that leave an alias, or a class. -/
theorem near_declared (hw : w.Closed) (hv : w ≤ v) {a : Ty}
    (ha : (do (← q.ref).infoOf : WorldM Ty) v = .ok (a, v')) :
    a = .noType ∨ w.Near v' a ∨ ∃ z, w.Has z ∧ v'.shape? a = some (.bounds z z) := by
  obtain ⟨r, v₁, hr, hinfo⟩ := bind_ok ha
  have hv₁ : w ≤ v₁ := hv.trans ((grows_ref q).le_of_ok hr)
  have hshape : v₁.shape? r = some (.named .noPrefix q) := by
    cases hr
    exact TypeTable.shape?_intern v.types _
  have hhas : w.Has (v₁.decls.info q) := hv₁.decls ▸ hw.has_info q
  rw [Ty.infoOf, get_bind_run, shape_of_shape? hshape] at hinfo
  dsimp only at hinfo
  cases hkind : v₁.decls.kind? q with
  | none =>
    rw [hkind] at hinfo
    cases hinfo
    exact .inl rfl
  | some kind =>
    rw [hkind] at hinfo
    cases kind with
    | cls =>
      cases hinfo
      exact .inr (.inl (.inr ⟨.noPrefix, q, TypeTable.shape?_intern _ _⟩))
    | synonym =>
      cases hinfo
      exact .inr (.inr ⟨_, hhas, TypeTable.shape?_intern _ _⟩)
    | abstractType | typeParam =>
      cases hinfo
      exact .inr (.inl (.inl hhas))
    | value =>
      cases hinfo
      exact .inl rfl

theorem asBounds_run (h : v.shape? t = some (.bounds x y)) : t.asBounds v = .ok (t, v) := by
  change (if t.present && (v.boundsParts? t).isNone then t.aliasBounds else pure t : WorldM Ty) v = _
  rw [boundsParts?_eq_some_iff.2 h, Option.isNone_some, Bool.and_false]
  rfl

/-- What a class declares, made bounds. -/
theorem spans_declared (hw : w.Closed) (hv : w ≤ v) {a b : Ty} {v'' : World}
    (ha : (do (← q.ref).infoOf : WorldM Ty) v = .ok (a, v')) (hb : a.asBounds v' = .ok (b, v'')) : w.Spans v'' b := by
  have hle : w ≤ v' := hv.trans ((Grows.bind (grows_ref q) fun _ => grows_infoOf _).le_of_ok ha)
  have hle' : v' ≤ v'' := (grows_asBounds a).le_of_ok hb
  have hends {lo hi : Ty} (hshape : v'.shape? a = some (.bounds lo hi)) (hlo : w.Has lo) (hhi : w.Has hi) :
      w.Spans v'' b := by
    cases (asBounds_run hshape).symm.trans hb
    exact .inr ⟨lo, hi, hshape, .inl hlo, .inl hhi⟩
  obtain rfl | hnear | ⟨z, hz, hshape⟩ := near_declared hw hv ha
  · cases hb
    exact .inl rfl
  · change (if a.present && (v'.boundsParts? a).isNone then a.aliasBounds else pure a : WorldM Ty) v' = _ at hb
    split at hb
    · cases hb
      exact .inr ⟨a, a, TypeTable.shape?_intern v'.types _, hnear.grow hle', hnear.grow hle'⟩
    · next hnone =>
      by_cases hpresent : a.present
      · obtain ⟨⟨lo, hi⟩, hparts⟩ : ∃ ends, v'.boundsParts? a = some ends := by
          rw [hpresent, Bool.true_and, Option.isNone_iff_eq_none] at hnone
          exact Option.ne_none_iff_exists'.1 hnone
        have hshape := boundsParts?_eq_some_iff.1 hparts
        obtain hhas | ⟨pre, cls, hcls⟩ := hnear
        · obtain ⟨hlo, hhi⟩ := ends_of_has hw hle hhas hshape
          exact hends hshape hlo hhi
        · cases hshape.symm.trans hcls
      · cases hb
        exact .inl (Ty.present_eq_false_iff.1 (Bool.eq_false_iff.2 hpresent))
  · exact hends hshape hz hz

/-- Whether a rooted type is a stable path is found out in as many levels as it has. -/
theorem Rooted.isStable {m : Nat} (h : w.Rooted cls n t) (hm : n < m) : ∃ b, w.isStable m t = .ok b := by
  obtain ⟨m, rfl⟩ := Nat.exists_eq_add_of_le' (Nat.lt_of_le_of_lt (Nat.zero_le n) hm)
  induction h generalizing m with
  | named shape | refined shape | union shape =>
    rw [World.isStable, shape_of_shape? shape]
    exact ⟨false, rfl⟩
  | inter shape _ _ iha ihb =>
    obtain ⟨m, rfl⟩ := Nat.exists_eq_add_of_le' (show 1 ≤ m by omega)
    obtain ⟨a, ha⟩ := iha m (by omega)
    obtain ⟨b, hb⟩ := ihb m (by omega)
    rw [World.isStable, shape_of_shape? shape]
    dsimp only
    rw [ha, hb]
    cases a <;> exact ⟨_, rfl⟩

/-- The types of the world. -/
def handles (w : World) : Finset Ty := (Finset.range w.types.size).image Ty.mk

theorem mem_handles : t ∈ w.handles ↔ w.Has t := by
  obtain ⟨i⟩ := t
  have hsize : w.Has ⟨i⟩ ↔ i < w.types.size :=
    ⟨id_lt_of_has, fun h => Option.isSome_of_eq_some (Array.getElem?_eq_some_iff.2 ⟨h, rfl⟩)⟩
  simp [handles, hsize]

theorem card_handles_le (w : World) : w.handles.card ≤ w.types.size :=
  Finset.card_image_le.trans_eq (Finset.card_range _)

/-- The types of the world against the top class, the bottom class against them, and both ways with the absent prefix. -/
def extremes (w : World) : Finset (Ty × Ty) :=
  w.handles ×ˢ {Builtin.any.type, .noPrefix} ∪ {Builtin.nothing.type, .noPrefix} ×ˢ w.handles

theorem Has.extreme_right (h : w.Has t) (hu : y = Builtin.any.type ∨ y = .noPrefix) : (t, y) ∈ w.extremes :=
  Finset.mem_union_left _ (Finset.mem_product.2 ⟨mem_handles.2 h, by simpa using hu⟩)

theorem Has.extreme_left (h : w.Has t) (hx : x = Builtin.nothing.type ∨ x = .noPrefix) : (x, t) ∈ w.extremes :=
  Finset.mem_union_right _ (Finset.mem_product.2 ⟨by simpa using hx, mem_handles.2 h⟩)

theorem extremes_cases (h : (x, y) ∈ w.extremes) :
    (w.Has x ∧ (y = Builtin.any.type ∨ y = .noPrefix)) ∨ (w.Has y ∧ (x = Builtin.nothing.type ∨ x = .noPrefix)) := by
  obtain h | h := Finset.mem_union.1 h
  · obtain ⟨hx, hy⟩ := Finset.mem_product.1 h
    exact .inl ⟨mem_handles.1 hx, by simpa using hy⟩
  · obtain ⟨hx, hy⟩ := Finset.mem_product.1 h
    exact .inr ⟨mem_handles.1 hy, by simpa using hx⟩

theorem card_extremes_le (w : World) : w.extremes.card ≤ 4 * w.types.size := by
  have hhandles := w.card_handles_le
  refine (Finset.card_union_le _ _).trans ?_
  rw [Finset.card_product, Finset.card_product]
  have hright := Nat.mul_le_mul hhandles (Finset.card_le_two (a := Builtin.any.type) (b := Ty.noPrefix))
  have hleft := Nat.mul_le_mul (Finset.card_le_two (a := Builtin.nothing.type) (b := Ty.noPrefix)) hhandles
  omega

end World

/-- How deep comparisons may nest in the place, if they go from each pair of `F` to another one in at most two steps:
circles are left at the threshold, and from there on no pair comes twice. -/
def Place.reach (F : Finset (Ty × Ty)) (p : Place) : Nat :=
  max p.level p.threshold.toNat + 2 * (F \ p.pending.toFinset).card

theorem Place.level_le_reach (F : Finset (Ty × Ty)) (p : Place) : p.level ≤ p.reach F :=
  (Nat.le_max_left _ _).trans (Nat.le_add_right _ _)

namespace CompareM

variable {p p' : Place} {s : ConstraintStore} {w v : World} {n k : Nat} {sub : Ty → Ty → CompareM Bool} {t u x y q : Ty}
  {c cls : Symbol} {F : Finset (Ty × Ty)}

/-! ## Room -/

section Reach

variable {pair pair' : Ty × Ty} {p'' : Place}

theorem Opens.threshold_eq (h : Opens p pair p') : p'.threshold = p.threshold := by
  cases h <;> rfl

theorem Opens.left_le (h : Opens p pair p') : (F \ p'.pending.toFinset).card ≤ (F \ p.pending.toFinset).card := by
  cases h with
  | direct => exact Nat.le_refl _
  | monitored =>
    exact Finset.card_le_card (Finset.sdiff_subset_sdiff (Finset.Subset.refl F) (by simp [Place.entering, Place.deeper]))

theorem Opens.reach_le (h : Opens p pair p') : p'.reach F ≤ p.reach F + 1 := by
  have hleft := h.left_le (F := F)
  rw [Place.reach, Place.reach, h.level_eq, h.threshold_eq]
  omega

/-- A step below the threshold is paid for by the threshold. -/
theorem Opens.reach_direct (h : Opens p pair p') (hlevel : p.level < p.threshold.toNat) : p'.reach F ≤ p.reach F := by
  have hleft := h.left_le (F := F)
  rw [Place.reach, Place.reach, h.level_eq, h.threshold_eq]
  omega

/-- A pair of `F` is either entered below the threshold or pays for two steps. -/
theorem Opens.reach_mem (h : Opens p pair p') (hpair : pair ∈ F) :
    p'.reach F ≤ p.reach F ∧ p'.level < p'.threshold.toNat ∨ p'.reach F + 1 ≤ p.reach F := by
  have hleft := h.left_le (F := F)
  have hless := h.remaining_lt hpair
  rw [Place.remaining, Place.remaining, h.level_eq, h.threshold_eq] at hless
  rw [Place.reach, Place.reach, h.level_eq, h.threshold_eq]
  omega

end Reach

/-- An allowance of `n` and the counters are enough for the comparisons that may nest, and for `k` more levels. -/
structure Spare (F : Finset (Ty × Ty)) (k n : Nat) (p : Place) : Prop where
  bounds : p.bounds = .none
  room : p.reach F + k ≤ Limits.unlimited.toNat
  fuel : p.reach F + k ≤ n + p.level

section Spare

variable {pair pair' : Ty × Ty} {p'' : Place}

theorem Spare.le (h : Spare F k n p) : k ≤ n := by
  have hreach := p.level_le_reach F
  have hfuel := h.fuel
  omega

theorem Spare.level_add_le (h : Spare F k n p) : p.level + k ≤ Limits.unlimited.toNat :=
  (Nat.add_le_add_right (p.level_le_reach F) k).trans h.room

theorem Spare.opens (h : Spare F (k + 1) (n + 1) p) (hopens : Opens p pair p') : Spare F k n p' := by
  have hreach := hopens.reach_le (F := F)
  have hlevel := hopens.level_eq
  have hroom := h.room
  have hfuel := h.fuel
  exact ⟨hopens.bounds_eq.trans h.bounds, by omega, by omega⟩

/-- What is left besides is left for the next pair of `F`, even if that comes with the second step only. -/
theorem Spare.opens_mem (h : Spare F k (n + 1) p) (hopens : Opens p pair p') (hpair : pair ∈ F) : Spare F k n p' := by
  have hreach := hopens.reach_mem hpair
  have hlevel := hopens.level_eq
  have hroom := h.room
  have hfuel := h.fuel
  exact ⟨hopens.bounds_eq.trans h.bounds, by omega, by omega⟩

theorem Spare.opens_twice (h : Spare F k (n + 2) p) (hopens : Opens p pair p') (hpair : pair ∈ F)
    (hopens' : Opens p' pair' p'') : Spare F k n p'' := by
  have hreach : p''.reach F ≤ p.reach F := by
    obtain ⟨hreach, hlevel⟩ | hreach := hopens.reach_mem hpair
    · exact (hopens'.reach_direct hlevel).trans hreach
    · exact hopens'.reach_le.trans hreach
  have hlevel := hopens.level_eq
  have hlevel' := hopens'.level_eq
  have hroom := h.room
  have hfuel := h.fuel
  exact ⟨hopens'.bounds_eq.trans (hopens.bounds_eq.trans h.bounds), by omega, by omega⟩

end Spare

/-- `A` holds of the place, and of the places that nested comparisons open, up to `k` levels below. -/
def Within (A : Place → Prop) : Nat → Place → Prop
  | 0, p => A p
  | k + 1, p => A p ∧ ∀ pair p', Opens p pair p' → Within A k p'

section Within

variable {A : Place → Prop}

theorem Within.here : ∀ {k : Nat}, Within A k p → A p
  | 0, h => h
  | _ + 1, h => h.1

theorem Within.opens {pair : Ty × Ty} (h : Within A (k + 1) p) (hopens : Opens p pair p') : Within A k p' :=
  h.2 pair p' hopens

theorem Within.mono : ∀ {k j : Nat} {p : Place}, Within A k p → j ≤ k → Within A j p
  | _, 0, _, h, _ => h.here
  | _ + 1, _ + 1, _, h, hj => ⟨h.1, fun _ _ hopens => (h.opens hopens).mono (Nat.le_of_succ_le_succ hj)⟩

/-- Room for `k` levels is used up level by level. -/
theorem Within.of {B : Nat → Place → Prop} (hA : ∀ k p, B k p → A p)
    (hB : ∀ k p pair p', B (k + 1) p → Opens p pair p' → B k p') : ∀ k p, B k p → Within A k p
  | 0, p, h => hA 0 p h
  | k + 1, p, h => ⟨hA _ p h, fun pair p' hopens => Within.of hA hB k p' (hB k p pair p' h hopens)⟩

end Within

/-! ## Steps that come to an end -/

theorem ends_second (hs : s.slots.entries = []) (hvar : ∀ i, w.shape t = .var i → Ends p s w (sub (w.varUnderlying i) u))
    (hthird : Ends p s w (third n sub t u)) : Ends p s w (second n sub t u) := by
  refine .world_bind ?_
  split
  · exact ends_pure _
  · exact ends_pure _
  · next i hi => exact hvar i hi
  · next x _ =>
    refine Yields.bind (yields_currentBounds_vacant hs x) fun r s' v _ ⟨hr, hs', hv⟩ => ?_
    subst hr hs' hv
    exact hthird
  · exact hthird

theorem ends_first (hs : s.slots.entries = []) (hvar : ∀ i, w.shape u = .var i → Ends p s w (sub t (w.varUnderlying i)))
    (hnames : (w.shape t).isNamed → (w.shape u).isNamed → Ends p s w (names n sub t u))
    (hsecond : Ends p s w (second n sub t u)) : Ends p s w (first n sub t u) := by
  refine .world_bind ?_
  cases hu : w.shape u with
  | named | path => exact .ite (fun ht => hnames ht (by rw [hu]; rfl)) fun _ => hsecond
  | fixed k => cases k <;> first | exact ends_pure _ | exact hsecond
  | var i => exact hvar i hu
  | param x =>
    refine Yields.bind (yields_currentBounds_vacant hs x) fun r s' v _ ⟨hr, hs', hv⟩ => ?_
    subst hr hs' hv
    exact hsecond
  | _ => exact hsecond

/-- The search for a base type comes to an end, and what it comes to is rooted in the class. -/
theorem ends_baseType (h : ∀ base v, w ≤ v → v.Rooted cls (Limits.walkDepth.toNat + 1) base → Ends p s v (sub base u)) :
    Ends p s w (do
      let base ← Ty.baseType t cls
      if base.present && base ≠ t then sub base u else return false) := by
  refine Yields.bind (.lift (grows_baseType t cls)) fun base s' v hv ⟨hs, hrun⟩ => ?_
  subst hs
  refine .ite (fun hbase => ?_) fun _ => ends_pure _
  exact h base v hv (World.rooted_of_baseType hrun (Bool.and_eq_true_iff.1 hbase).1)

/-! ## Types that are rooted in a class -/

/-- At the place a comparison can be started, and if `cls` is a trait, the rule for traits comes to an end there with an
allowance that leads to level `m`. -/
structure Ready (s : ConstraintStore) (w : World) (u : Ty) (cls : Symbol) (m : Nat) (p : Place) : Prop where
  bounds : p.bounds = .none
  level : p.level < Limits.unlimited.toNat
  fits : Builtin.isTrait cls → ∀ v t n, w ≤ v → m ≤ n + p.level → Ends p s v (conformsAsConstructor n (isSubType n) t u)

/-- For a class that is no trait the counter has to count on. -/
theorem ready_plain {m : Nat} (htrait : Builtin.isTrait cls = false) (hbounds : p.bounds = .none)
    (hlevel : p.level + k + 1 ≤ Limits.unlimited.toNat) : Within (Ready s w u cls m) k p := by
  refine Within.of (B := fun k p => p.bounds = .none ∧ p.level + k + 1 ≤ Limits.unlimited.toNat) (fun k p h => ?_)
    (fun k p pair p' h hopens => ?_) k p ⟨hbounds, hlevel⟩
  · exact ⟨h.1, by omega, fun h => absurd h (by simp [htrait])⟩
  · exact ⟨hopens.bounds_eq.trans h.1, by rw [hopens.level_eq]; omega⟩

/-- **What is rooted in references to a static class is compared with the class to an end.** -/
theorem ends_rooted {m : Nat} (hu : w.shape? u = some (.named q cls)) (hcls : w.decls.isClass cls)
    (hstatic : w.decls.isStatic cls) : ∀ {k n : Nat} {p : Place} {v : World} {t : Ty}, w ≤ v → v.Rooted cls k t →
      Within (Ready s w u cls m) (k + 1) p → k + 1 ≤ n → m ≤ n + 1 + p.level → Ends p s v (isSubType (n + 1) t u) := by
  intro k
  induction k with
  | zero =>
    intro n p v t hv hroot hp hn hm
    cases hroot with | named ht =>
    refine ends_isSubType hp.here.level hp.here.bounds fun p' _ => ?_
    exact (decides_first_static ht rfl (hv.shape hu) (hv.decls ▸ hstatic)).ends
  | succ k ih =>
    intro n p v t hv hroot hp hn hm
    obtain ⟨n, rfl⟩ := Nat.exists_eq_add_of_le' (show 1 ≤ n by omega)
    refine ends_isSubType hp.here.level hp.here.bounds fun p' hopens => ?_
    have hp' := hp.opens hopens
    have hlevel := hopens.level_eq
    have hthird (hfourth : ∀ v', v ≤ v' → Ends p' s v' (fourth (isSubType (n + 1)) t u)) :
        Ends p' s v (thirdNamed (n + 1) (isSubType (n + 1)) t u) := by
      refine (decidesIf_thirdNamed (P := False) (hv.shape hu) (hv.decls ▸ hcls) (fun v' hv' => ?_) (fun htrait v' hv' => ?_)
        fun v' hv' => (hfourth v' hv').decidesIf id).ends
      · exact (hroot.grow hv').isStable (by omega)
      · exact hp'.here.fits htrait v' t _ (hv.trans hv') (by omega)
    have hpart {x : Ty} (hx : v.Rooted cls k x) {v' : World} (hv' : v ≤ v') : Ends p' s v' (isSubType (n + 1) x u) :=
      ih (hv.trans hv') (hx.grow hv') hp' (by omega) (by omega)
    cases hroot with
    | named ht => exact (decides_first_static ht rfl (hv.shape hu) (hv.decls ▸ hstatic)).ends
    | refined ht h =>
      have hplain := World.shape_of_shape? ht
      refine yields_first_named (by rw [hplain]; rfl) (by rw [hplain]; rfl) (hv.shape hu) (hthird fun v' hv' => ?_)
      exact yields_fourth_refined (hv'.shape ht) (hpart h hv')
    | inter ht ha hb =>
      have hplain := World.shape_of_shape? ht
      refine yields_first_named (by rw [hplain]; rfl) (by rw [hplain]; rfl) (hv.shape hu) (hthird fun v' hv' => ?_)
      refine yields_fourth_inter (hv'.shape ht) (Ends.orElse (hpart ha hv') fun v'' hv'' => ?_)
      exact hpart hb (hv'.trans hv'')
    | union ht ha hb =>
      have hplain := World.shape_of_shape? ht
      refine yields_first_named (by rw [hplain]; rfl) (by rw [hplain]; rfl) (hv.shape hu) (hthird fun v' hv' => ?_)
      refine yields_fourth_union (hv'.shape ht) (Ends.andThen (hpart ha hv') fun v'' hv'' => ?_)
      exact hpart hb (hv'.trans hv'')

/-! ## Sources of the world -/

section Sources

variable (hw : w.Built) (hv : w ≤ v)
include hw hv

/-- A name goes on to its upper end, which is a type of the world, even if the name itself was made later. -/
theorem ends_fourth_named (ht : v.shape? t = some (.named q c))
    (h : ∀ y v', v ≤ v' → w.Has y → Ends p s v' (sub y u)) : Ends p s v (fourth sub t u) := by
  refine .world_bind ?_
  rw [World.shape_of_shape? ht]
  refine .ite (fun _ => ends_pure _) fun _ => Ends.orElse ?_ fun v₁ hv₁ => .ite (fun _ => ends_pure _) fun hcls => ?_
  · exact .ite (fun _ => ends_lift (grows_nullConforms u)) fun _ => ends_pure _
  · have hshape := World.shape_of_shape? (hv₁.shape ht)
    obtain ⟨v₂, hv₂, hrun, -⟩ := World.upperBound_run (hw.standard.grow (hv.trans hv₁)) hshape (hv₁.decls ▸ hcls)
    rw [hw.closed.upperOf_later (hv.trans hv₁)] at hrun
    refine Yields.bind (yields_run hrun hv₂) fun y s' v₃ _ ⟨hy, hs, hv₃⟩ => ?_
    subst hy hs hv₃
    exact h _ _ (hv₁.trans hv₂) (hw.closed.has_upperOf c)

/-- What a single value stands for is a type of the world or a reference that is made for the current instance. -/
theorem has_of_underlying {d : Shape} {v' : World} (ht : w.shape? t = some d) (hd : d.isSingleton)
    (hrun : t.underlying v = .ok (y, v')) : w.Has y ∨ ∃ c, v'.shape? y = some (.named .noPrefix c) := by
  have hM := hw.closed.identity_matches
  rw [Ty.underlying, get_bind_run, World.shape_of_shape? (hv.shape ht)] at hrun
  cases d with
  | path q c =>
    cases hrun
    exact .inl (hv.decls ▸ hw.closed.has_info c)
  | self c =>
    cases hrun
    exact .inr ⟨c, TypeTable.shape?_intern v.types _⟩
  | literal l => cases l <;> cases hrun <;> exact .inl (Option.isSome_of_eq_some (hw.standard.shape _))
  | skolem k z =>
    cases hrun
    cases hw.closed.shape ht with | skolem _ hz =>
    exact .inl hz.2
  | valueParam x =>
    cases hrun
    cases hM.parts ⟨rfl, Option.isSome_of_eq_some ht⟩ ht with | @valueParam b _ hb i =>
    obtain ⟨e, -, he, -⟩ := hM.scope hb
    have hinfo : v.paramInfo ⟨b, i⟩ = w.paramInfo ⟨b, i⟩ := by rw [World.paramInfo, World.paramInfo, he, hv.binder he]
    exact .inl (hinfo ▸ (hM.paramInfo hb i).2)
  | _ => cases hd

variable (ht : w.Has t)
include ht

/-- A type of the world goes on to types of the world, and to references that are made for current instances. -/
theorem ends_fourth_of_has (h : ∀ y v', v ≤ v' → w.Has y → Ends p s v' (sub y u))
    (href : ∀ y v' c, v ≤ v' → v'.shape? y = some (.named .noPrefix c) → Ends p s v' (sub y u)) :
    Ends p s v (fourth sub t u) := by
  obtain ⟨d, hd⟩ := Option.isSome_iff_exists.1 ht
  have hsingle (hs : d.isSingleton) : Ends p s v (do sub (← t.underlying) u) := by
    refine Yields.bind (.lift (grows_underlying t)) fun y s' v' hv' ⟨hs', hrun⟩ => ?_
    subst hs'
    obtain hy | ⟨c, hy⟩ := has_of_underlying hw hv hd hs hrun
    · exact h y v' hv' hy
    · exact href y v' c hv' hy
  cases d with
  | named q c => exact ends_fourth_named hw hv (hv.shape hd) h
  | refined parent name info =>
    cases hw.closed.shape hd with | refined hp _ _ =>
    exact yields_fourth_refined (hv.shape hd) (h _ _ le_rfl hp.2)
  | inter a b =>
    cases hw.closed.shape hd with | inter ha hb =>
    exact yields_fourth_inter (hv.shape hd) (Ends.orElse (h _ _ le_rfl ha.2) fun v' hv' => h _ _ hv' hb.2)
  | union a b =>
    cases hw.closed.shape hd with | union ha hb =>
    exact yields_fourth_union (hv.shape hd) (Ends.andThen (h _ _ le_rfl ha.2) fun v' hv' => h _ _ hv' hb.2)
  | _ =>
    refine .world_bind ?_
    rw [World.shape_of_shape? (hv.shape hd)]
    first | exact hsingle rfl | exact ends_pure _

end Sources

/-! ## The top class and the absent prefix -/

section Top

variable (hs : s.slots.entries = [])
include hs

theorem ends_first_noPrefix (hpre : v.shape? .noPrefix = some (.fixed .noPrefix))
    (hvar : ∀ i, v.shape t = .var i → Ends p s v (sub (v.varUnderlying i) .noPrefix))
    (hfourth : Ends p s v (fourth sub t .noPrefix)) : Ends p s v (first n sub t .noPrefix) := by
  have hshape := World.shape_of_shape? hpre
  refine ends_first hs (fun i hi => ?_) (fun _ hnamed => ?_) (ends_second hs hvar (.world_bind ?_))
  · cases hshape.symm.trans hi
  · rw [hshape] at hnamed
    cases hnamed
  · rw [hshape]
    exact hfourth

/-- The top class is neither a marker nor a trait, and of its names and its base types the prefixes and what is rooted in
it are left. -/
theorem ends_first_top {d : Shape} (hstd : v.Standard) (ht : v.shape? t = some d)
    (hvar : ∀ i, v.shape t = .var i → Ends p s v (sub (v.varUnderlying i) Builtin.any.type))
    (hname : ∀ q c k, nameParts? d = some (q, c, k) → Ends p s v (sub q .noPrefix))
    (hbase : ∀ base v', v ≤ v' → v'.Rooted Builtin.any.symbol (Limits.walkDepth.toNat + 1) base →
      Ends p s v' (sub base Builtin.any.type))
    (hfourth : ∀ v', v ≤ v' → Ends p s v' (fourth sub t Builtin.any.type)) :
    Ends p s v (first n sub t Builtin.any.type) := by
  have hu := hstd.shape .any
  have hthird {v' : World} (hv' : v ≤ v') : Ends p s v' (thirdNamed n sub t Builtin.any.type) :=
    yields_thirdNamed (hv'.shape hu) (hv'.decls ▸ hstd.isClass .any) (by decide) (by decide) (by decide)
      fun v'' hv'' => hfourth v'' (hv'.trans hv'')
  by_cases hnamed : d.isNamed
  · obtain ⟨q, c, k, hparts⟩ := nameParts?_of_isNamed hnamed
    refine (decidesIf_first_parts (P := False) ht hparts hu (hstd.isClass .any) (hstd.isStatic .any) (hname q c k hparts)
      (fun v' hv' => ends_baseType fun base v'' hv'' => hbase base v'' (hv'.trans hv'')) fun v' hv' => ?_).ends
    exact (hthird hv').decidesIf id
  · rw [Bool.not_eq_true] at hnamed
    refine yields_first_second (by rw [World.shape_of_shape? ht, hnamed]) hu (ends_second hs hvar (.world_bind ?_))
    rw [World.shape_of_shape? hu]
    exact hthird le_rfl

end Top

/-! ## Between the extremes -/

theorem gaveOut_vacant (hs : s.slots.entries = []) : w.GaveOut s := by
  intro b slots hslots
  rw [ConstraintStore.slots?, InsertionMap.find?, hs] at hslots
  cases hslots

section Extremes

variable (hw : w.Built) (hs : s.slots.entries = [])
include hw hs

omit hs in
theorem has_of_nameParts {d : Shape} {b : Bool} (hd : w.shape? t = some d) (hparts : nameParts? d = some (q, c, b)) :
    w.Has q := by
  cases d with
  | named | path =>
    cases hparts
    cases hw.closed.shape hd
    next h => exact h.2
  | _ => cases hparts

/-- A reference that was made on the way goes on to a type of the world. -/
theorem ends_first_reference {m : Nat}
    (hp : Within (Ready s w Builtin.any.type Builtin.any.symbol 0) (Limits.walkDepth.toNat + 2) p) (hv : w ≤ v)
    (ht : v.shape? t = some (.named .noPrefix c)) (hu : u = Builtin.any.type ∨ u = .noPrefix)
    (h : ∀ y v', w ≤ v' → w.Has y → Ends p s v' (isSubType (m + 1) y u)) (hm : Limits.walkDepth.toNat + 2 ≤ m) :
    Ends p s v (first n (isSubType (m + 1)) t u) := by
  have hfourth (v' : World) (hv' : v ≤ v') : Ends p s v' (fourth (isSubType (m + 1)) t u) :=
    ends_fourth_named hw (hv.trans hv') (hv'.shape ht) fun y v'' hv'' => h y v'' ((hv.trans hv').trans hv'')
  have hvar (i : VarId) (hi : v.shape t = .var i) : Ends p s v (isSubType (m + 1) (v.varUnderlying i) u) := by
    cases (World.shape_of_shape? ht).symm.trans hi
  obtain rfl | rfl := hu
  · refine ends_first_top hs (hw.standard.grow hv) ht hvar (fun q' c' b hparts => ?_) (fun base v' hv' hroot => ?_) hfourth
    · cases hparts
      exact (decides_self rfl).ends
    · exact ends_rooted (hw.standard.shape .any) (hw.standard.isClass .any) (hw.standard.isStatic .any) (hv.trans hv') hroot
        hp (by omega) (Nat.zero_le _)
  · exact ends_first_noPrefix hs (hv.shape hw.shape_noPrefix) hvar (hfourth v le_rfl)

/-- A type of the world against the top class or the absent prefix. -/
theorem ends_first_right {m : Nat}
    (hp : Within (Ready s w Builtin.any.type Builtin.any.symbol 0) (Limits.walkDepth.toNat + 2) p) (hv : w ≤ v) (ht : w.Has t)
    (hu : u = Builtin.any.type ∨ u = .noPrefix)
    (h : ∀ x y v', w ≤ v' → (x, y) ∈ w.extremes → Ends p s v' (isSubType (m + 1) x y))
    (href : ∀ y c v', w ≤ v' → v'.shape? y = some (.named .noPrefix c) → Ends p s v' (isSubType (m + 1) y u))
    (hm : Limits.walkDepth.toNat + 2 ≤ m) : Ends p s v (first n (isSubType (m + 1)) t u) := by
  obtain ⟨d, hd⟩ := Option.isSome_iff_exists.1 ht
  have hfourth (v' : World) (hv' : v ≤ v') : Ends p s v' (fourth (isSubType (m + 1)) t u) :=
    have hle := hv.trans hv'
    ends_fourth_of_has hw hle ht (fun y v'' hv'' hy => h y u v'' (hle.trans hv'') (hy.extreme_right hu))
      fun y v'' c hv'' => href y c v'' (hle.trans hv'')
  have hvar (i : VarId) (_ : v.shape t = .var i) : Ends p s v (isSubType (m + 1) (v.varUnderlying i) u) := by
    rw [World.varUnderlying_later hv]
    exact h _ u v hv (World.Has.extreme_right (hw.closed.identity_matches.varUnderlying (v := i) trivial).2 hu)
  obtain rfl | rfl := hu
  · refine ends_first_top hs (hw.standard.grow hv) (hv.shape hd) hvar (fun q c b hparts => ?_)
      (fun base v' hv' hroot => ?_) hfourth
    · exact h q _ v hv ((has_of_nameParts hw hd hparts).extreme_right (.inr rfl))
    · exact ends_rooted (hw.standard.shape .any) (hw.standard.isClass .any) (hw.standard.isStatic .any) (hv.trans hv') hroot
        hp (by omega) (Nat.zero_le _)
  · exact ends_first_noPrefix hs (hv.shape hw.shape_noPrefix) hvar (hfourth v le_rfl)

/-- The bottom class or the absent prefix against a type of the world. -/
theorem ends_first_left {m : Nat} (hparents : w.decls.parents Builtin.nothing.symbol = [])
    (hbarren : w.Barren Builtin.nothing.type) (hv : w ≤ v) (ht : t = Builtin.nothing.type ∨ t = .noPrefix) (hu : w.Has u)
    (h : ∀ x y v', w ≤ v' → (x, y) ∈ w.extremes → Ends p s v' (isSubType (m + 1) x y))
    (hn : Limits.walkDepth.toNat + 1 ≤ n) : Ends p s v (first n (isSubType (m + 1)) t u) := by
  obtain ⟨d, hd⟩ := Option.isSome_iff_exists.1 hu
  have hlater : v.shape u = w.shape u := by rw [World.shape_of_shape? hd, World.shape_of_shape? (hv.shape hd)]
  have hlower (x : Ty) (v' : World) (hv' : w ≤ v') (hx : w.HandsOn s u x) :
      DecidesIf p s v' (isSubType (m + 1) t x) False :=
    (h t x v' hv' ((hx.has_right hw (gaveOut_vacant hs)).extreme_left ht)).decidesIf id
  have ht' : w.Barren t := by
    obtain rfl | rfl := ht
    · exact hbarren
    · exact World.barren_noPrefix hw
  have hfourth (v' : World) (hv' : w ≤ v') : DecidesIf p s v' (fourth (isSubType (m + 1)) t u) False := by
    obtain rfl | rfl := ht
    · exact (decides_fourth_bottom hw hv').decidesIf
    · refine .world_bind ?_
      rw [World.shape_of_shape? (hv'.shape hw.shape_noPrefix)]
      exact .pure ⟨False.elim, rfl⟩
  refine ends_first hs (fun i hi => ?_) (fun hnamed hnamed' => ?_)
    (decidesIf_second_barren ht' hv hw hn hu hfourth hlower fun x v' => decides_pure).ends
  · rw [World.varUnderlying_later hv]
    rw [hlater, World.shape_of_shape? hd] at hi
    exact (hlower _ v hv (.var (hd.trans (congrArg some hi)))).ends
  · obtain rfl | rfl := ht
    · refine (decidesIf_names_bottom hw hv hparents hbarren hn hu (hlater ▸ hnamed') ?_ hlower).ends
      intro q c b hparts _ _ v' hv'
      rw [World.shape_of_shape? hd] at hparts
      exact h _ q v' hv' ((has_of_nameParts hw hd hparts).extreme_left (.inr rfl))
    · rw [World.shape_of_shape? (hv.shape hw.shape_noPrefix)] at hnamed
      cases hnamed

/-- **Comparisons with the extremes come to an end.** The induction is on the allowance, which the room that is left
bounds: on the way there are types of the world, now and then a reference that is made for a current instance, and what
is rooted in the top class. -/
theorem ends_extremes (hparents : w.decls.parents Builtin.nothing.symbol = [])
    (hbarren : w.Barren Builtin.nothing.type) (n : Nat) : ∀ {p : Place} {v : World} {t u : Ty},
      Spare w.extremes (Limits.walkDepth.toNat + 6) n p → w ≤ v → (t, u) ∈ w.extremes → Ends p s v (isSubType n t u) := by
  induction n using Nat.strongRecOn with | ind n ih => ?_
  intro p v t u hp hv htu
  have hn := hp.le
  obtain ⟨n, rfl⟩ := Nat.exists_eq_add_of_le' (show 3 ≤ n by omega)
  have hlevel := hp.level_add_le
  refine ends_isSubType (by omega) hp.bounds fun p' hopens => ?_
  have hp' : Spare w.extremes (Limits.walkDepth.toNat + 6) (n + 2) p' := hp.opens_mem hopens htu
  have hlevel' := hp'.level_add_le
  have hpair (x y : Ty) (v' : World) (hv' : w ≤ v') (hxy : (x, y) ∈ w.extremes) : Ends p' s v' (isSubType (n + 2) x y) :=
    ih (n + 2) (by omega) hp' hv' hxy
  obtain ⟨ht, hu⟩ | ⟨hu, ht⟩ := World.extremes_cases htu
  · refine ends_first_right hw hs (ready_plain (by decide) hp'.bounds (by omega)) hv ht hu hpair
      (fun y c v' hv' hy => ends_isSubType (by omega) hp'.bounds fun p'' hopens' => ?_) (by omega)
    have hp'' : Spare w.extremes (Limits.walkDepth.toNat + 6) (n + 1) p'' := hp.opens_twice hopens htu hopens'
    have hlevel'' := hp''.level_add_le
    refine ends_first_reference hw hs (ready_plain (by decide) hp''.bounds (by omega)) hv' hy hu
      (fun z v'' hv'' hz => ?_) (by omega)
    exact ih (n + 1) (by omega) hp'' hv'' (hz.extreme_right hu)
  · exact ends_first_left hw hs hparents hbarren hv ht hu hpair (by omega)

omit hs in
/-- A class seen from its declaration lies above the bottom class and is no type. -/
theorem ends_classInfo (hv : w ≤ v) (hx : v.shape? x = some (.classInfo q c)) (hbounds : p.bounds = .none)
    (hlevel : p.level < Limits.unlimited.toNat) :
    Ends p s v (isSubType (n + 1) Builtin.nothing.type x) ∧ Ends p s v (isSubType (n + 1) x Builtin.any.type) := by
  have hshape := World.shape_of_shape? hx
  have hbot := World.shape_of_shape? (hv.shape (hw.standard.shape .nothing))
  have hstd := hw.standard.grow hv
  refine ⟨ends_isSubType hlevel hbounds fun p' _ => ?_, ends_isSubType hlevel hbounds fun p' _ => ?_⟩
  · refine yields_first (by rw [hbot]; rfl) (by rw [hshape]; rfl) (by rw [hshape]; rfl) (.world_bind ?_)
    rw [hbot, hshape]
    exact (decides_fourth_bottom hw hv).ends
  · refine yields_first_named (by rw [hshape]; rfl) (by rw [hshape]; rfl) (hstd.shape .any) ?_
    refine yields_thirdNamed (hstd.shape .any) (hstd.isClass .any) (by decide) (by decide) (by decide) ?_
    refine fun v' hv' => .world_bind ?_
    rw [World.shape_of_shape? (hv'.shape hx)]
    exact ends_pure _

/-- Whether bounds that span types of the world lie within free ones is found out. -/
theorem ends_free {b free : Ty} (hparents : w.decls.parents Builtin.nothing.symbol = [])
    (hbarren : w.Barren Builtin.nothing.type) (hv : w ≤ v) (hp : Spare w.extremes (Limits.walkDepth.toNat + 7) n p)
    (hb : w.Spans v b) (hfree : v.shape? free = some (.bounds Builtin.nothing.type Builtin.any.type)) :
    Ends p s v (isSubType n b free) := by
  have hn := hp.le
  obtain ⟨n, rfl⟩ := Nat.exists_eq_add_of_le' (show 2 ≤ n by omega)
  obtain rfl | ⟨lo, hi, hshape, hlo, hhi⟩ := hb
  · exact ends_pure _
  have hlevel := hp.level_add_le
  refine ends_isSubType (by omega) hp.bounds fun p' hopens => ?_
  have hp' : Spare w.extremes (Limits.walkDepth.toNat + 6) (n + 1) p' := hp.opens hopens
  have hlevel' := hp'.level_add_le
  refine yields_first (by rw [World.shape_of_shape? hshape]; rfl) (by rw [World.shape_of_shape? hfree]; rfl)
    (by rw [World.shape_of_shape? hfree]; rfl) (yields_third_bounds hshape hfree (Ends.andThen ?_ fun v' hv' => ?_))
  · obtain hlo | ⟨q, c, hlo⟩ := hlo
    · exact ends_extremes hw hs hparents hbarren _ hp' hv (hlo.extreme_left (.inl rfl))
    · exact (ends_classInfo hw hv hlo hp'.bounds (by omega)).1
  · obtain hhi | ⟨q, c, hhi⟩ := hhi
    · exact ends_extremes hw hs hparents hbarren _ hp' (hv.trans hv') (hhi.extreme_right (.inl rfl))
    · exact (ends_classInfo hw (hv.trans hv') (hv'.shape hhi) hp'.bounds (by omega)).2

end Extremes

/-! ## The rule for traits -/

/-- The parameters of `t` that no refinement has fixed are some of those of its class. -/
theorem mem_openTypeParams {params : List Symbol} (hn : Limits.walkDepth.toNat ≤ n) (h : w.openTypeParams n t = .ok params)
    (hx : c ∈ params) :
    ∃ cls, w.typeSymbol? t = some cls ∧ c ∈ w.decls.typeParams cls ∧ ∃ k, w.Seeks (w.decls.name c) k t none := by
  cases ht : w.typeSymbol? t with
  | none =>
    rw [World.openTypeParams, ht] at h
    cases h
    cases hx
  | some cls =>
    obtain ⟨info, hseeks, hinfo⟩ := World.exists_refinements ht
    cases (World.openTypeParams_of_refinements ht (hinfo n hn)).symm.trans h
    obtain ⟨hmem, hnone⟩ := List.mem_filter.1 hx
    obtain ⟨k, hk⟩ := hseeks (w.decls.name c)
    exact ⟨cls, rfl, hmem, k, Option.isNone_iff_eq_none.1 hnone ▸ hk⟩

/-- **The rule for traits comes to an end**, whatever the declarations say, if the parameters of the trait are free. -/
theorem ends_conformsAsConstructor_free (hw : w.Built) (hkept : w.KeepsTraits) (hparam : w.decls.Parametric)
    (hs : s.slots.entries = []) (htrait : Builtin.isTrait cls) (hu : w.shape? u = some (.named q cls))
    (hcls : w.decls.isClass cls) (hp : Spare w.extremes (Limits.walkDepth.toNat + 7) n p) (hv : w ≤ v) :
    Ends p s v (conformsAsConstructor n (isSubType n) t u) := by
  have hn := hp.le
  obtain ⟨n, rfl⟩ := Nat.exists_eq_add_of_le' (show 1 ≤ n by omega)
  obtain ⟨params, hparams⟩ := v.openTypeParams_finishes t
  have hparams := hparams (n + 1) (by omega)
  refine ends_conformsAsConstructor hparams (typeArgs_class (hv.shape hu) (hv.decls ▸ hcls)) ?_
  intro base k v₁ hv₁ hbase x hx arg harg
  obtain ⟨c, hc, hxc, hseeks⟩ := mem_openTypeParams (by omega) hparams hx
  obtain ⟨hclass, -, hmember⟩ := (hv.decls ▸ hparam : v.decls.Parametric) hxc
  obtain ⟨m, hm⟩ := Option.isSome_iff_exists.1 hmember
  obtain ⟨z, hz, rfl⟩ := List.mem_map.1 harg
  refine Yields.bind (.lift (grows_member base _)) fun info s₁ v₂ hv₂ ⟨hs₁, hinfo⟩ => ?_
  subst hs₁
  refine Yields.bind (.lift (grows_asBounds info)) fun b s₂ v₃ hv₃ ⟨hs₂, hb⟩ => ?_
  subst hs₂
  refine Yields.bind (.lift (grows_asBounds _)) fun free s₃ v₄ hv₄ ⟨hs₃, hfree⟩ => ?_
  subst hs₃
  have hspans : w.Spans v₃ b := by
    rw [hv₁.decls] at hinfo
    obtain rfl | ⟨v', hv', hdeclared⟩ := World.member_skolem hc hseeks hclass hm hv₁ hbase hinfo
    · cases hb
      exact .inl rfl
    · exact World.spans_declared hw.closed (hv.trans hv') hdeclared hb
  have hle := hv.trans (hv₁.trans (hv₂.trans hv₃))
  have hshape : v₃.shape? (v.decls.info z) = some (.bounds Builtin.nothing.type Builtin.any.type) := by
    rw [hv.decls] at hz ⊢
    exact hle.shape (hkept.free cls z htrait hz)
  cases (World.asBounds_run hshape).symm.trans hfree
  exact ends_free hw hs hkept.parents (hkept.barren hw) hle hp hspans hshape

/-- For a trait with free parameters there has to be room for the comparisons that may nest. -/
theorem ready_free {m : Nat} (hw : w.Built) (hkept : w.KeepsTraits) (hparam : w.decls.Parametric)
    (hs : s.slots.entries = []) (htrait : Builtin.isTrait cls) (hu : w.shape? u = some (.named q cls))
    (hcls : w.decls.isClass cls) (hbounds : p.bounds = .none)
    (hroom : p.reach w.extremes + k + (Limits.walkDepth.toNat + 7) ≤ m) (hm : m ≤ Limits.unlimited.toNat) :
    Within (Ready s w u cls m) k p := by
  refine Within.of (B := fun k p => p.bounds = .none ∧ p.reach w.extremes + k + (Limits.walkDepth.toNat + 7) ≤ m)
    (fun k p h => ?_) (fun k p pair p' h hopens => ?_) k p ⟨hbounds, hroom⟩
  · obtain ⟨hbounds, hroom⟩ := h
    have hlevel := p.level_le_reach w.extremes
    refine ⟨hbounds, by omega, fun _ v t n hv hn => ?_⟩
    exact ends_conformsAsConstructor_free hw hkept hparam hs htrait hu hcls ⟨hbounds, by omega, by omega⟩ hv
  · have hreach := hopens.reach_le (F := w.extremes)
    exact ⟨hopens.bounds_eq.trans h.1, by omega⟩

end CompareM

end Conformance
