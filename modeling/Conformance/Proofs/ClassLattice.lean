import Conformance.Proofs.Closure
import Conformance.Proofs.FreeLattice
import Conformance.Proofs.Hierarchy

/-!
# Conformance on a hierarchy is a lattice order

Types built from references to classes by intersections and unions denote terms of the free lattice over the classes
(`World.Denotes`), and the comparison of two such types decides the order of that lattice
(`World.Hierarchy.decides_le`), although it tries the rules in one order and does not come back to an earlier one. The
building of an intersection gives a meet and that of a union a join, also where operands collapse (`Denotes.meet`,
`Denotes.join`). So comparisons are a lattice order: `isSubType_lattice`.
-/

namespace Conformance

open CompareM

namespace World

/-- The type is built in the way of the term, with `refs` as the references to classes. -/
inductive Denotes (w : World) (refs : Ty → Symbol → Prop) : Ty → ClassTerm → Prop
  | ref {t : Ty} {s : Symbol} (h : refs t s) : Denotes w refs t (.ref s)
  | inter {t a b : Ty} {e f : ClassTerm} (h : w.shape? t = some (.inter a b)) (ha : Denotes w refs a e)
    (hb : Denotes w refs b f) : Denotes w refs t (.inter e f)
  | union {t a b : Ty} {e f : ClassTerm} (h : w.shape? t = some (.union a b)) (ha : Denotes w refs a e)
    (hb : Denotes w refs b f) : Denotes w refs t (.union e f)

/-- The order between classes: the bottom class is below all, any other below its ancestors. -/
def Below (w : World) (s s' : Symbol) : Prop :=
  s = Builtin.nothing.symbol ∨ s' ≠ Builtin.nothing.symbol ∧ w.Derives s s'

variable {w v : World} {refs : Ty → Symbol → Prop} {t u : Ty} {e f : ClassTerm}

theorem below_refl (s : Symbol) : w.Below s s := by
  by_cases hs : s = Builtin.nothing.symbol
  · exact .inl hs
  · exact .inr ⟨hs, .refl⟩

theorem below_trans {s s' s'' : Symbol} (h : w.Below s s') (h' : w.Below s' s'') : w.Below s s'' := by
  rcases h with h | ⟨hs', h⟩
  · exact .inl h
  · obtain ⟨hs'', h'⟩ := h'.resolve_left hs'
    exact .inr ⟨hs'', h.trans h'⟩

theorem le_term_refl (e : ClassTerm) : ClassTerm.Le w.Below e e := .refl below_refl e

theorem le_term_trans {x y z : ClassTerm} (h : ClassTerm.Le w.Below x y) (h' : ClassTerm.Le w.Below y z) :
    ClassTerm.Le w.Below x z :=
  .trans (r := w.Below) below_trans h h'

theorem nothing_le_term (e : ClassTerm) : ClassTerm.Le w.Below (.ref Builtin.nothing.symbol) e :=
  .bot (fun _ => .inl rfl) e

/-! ## Terms -/

namespace Denotes

theorem grow (ht : w.Denotes refs t e) (hv : w ≤ v) : v.Denotes refs t e := by
  induction ht with
  | ref h => exact .ref h
  | inter h _ _ iha ihb => exact .inter (hv.shape h) iha ihb
  | union h _ _ iha ihb => exact .union (hv.shape h) iha ihb

theorem isPlain (h : w.Hierarchy refs) (hv : w ≤ v) (ht : v.Denotes refs t e) : isPlain (v.shape t) := by
  cases ht with
  | ref hs =>
    obtain ⟨q, hq⟩ := h.shape hs
    rw [shape_of_shape? (hv.shape hq)]
    rfl
  | inter ht => rw [shape_of_shape? ht]; rfl
  | union ht => rw [shape_of_shape? ht]; rfl

/-- A term as the target leaves a source that is no name to the second step. -/
theorem yields_first_second {p : Place} {s : ConstraintStore} {n : Nat} {sub : Ty → Ty → CompareM Bool} {t : Ty}
    {C : Bool → ConstraintStore → World → Prop} (hu : v.Denotes refs u e) (h : w.Hierarchy refs) (hv : w ≤ v)
    (hnamed : (v.shape t).isNamed = false) (hsecond : Yields p s v (second n sub t u) C) :
    Yields p s v (first n sub t u) C := by
  cases hu with
  | ref hs =>
    obtain ⟨q, hq⟩ := h.shape hs
    exact CompareM.yields_first_second hnamed (hv.shape hq) hsecond
  | inter hu =>
    refine .world_bind ?_
    rw [shape_of_shape? hu]
    exact hsecond
  | union hu =>
    refine .world_bind ?_
    rw [shape_of_shape? hu]
    exact hsecond

theorem present (h : w.Hierarchy refs) (hs : w.Standard) (hv : w ≤ v) (ht : v.Denotes refs t e) : t.present := by
  cases ht with
  | ref ht =>
    obtain ⟨q, hq⟩ := h.shape ht
    exact hs.present hq (by simp)
  | inter ht => exact (hs.grow hv).present ht (by simp)
  | union ht => exact (hs.grow hv).present ht (by simp)

/-- A type is built in one way. -/
theorem unique (h : w.Hierarchy refs) (hv : w ≤ v) (ht : v.Denotes refs t e) :
    ∀ {f : ClassTerm}, v.Denotes refs t f → e = f := by
  induction ht with
  | ref hs =>
    intro f hf
    obtain ⟨q, hq⟩ := h.shape hs
    cases hf with
    | ref hs' => rw [h.unique hs hs']
    | inter ht' => cases (hv.shape hq).symm.trans ht'
    | union ht' => cases (hv.shape hq).symm.trans ht'
  | inter ht _ _ iha ihb =>
    intro f hf
    cases hf with
    | ref hs =>
      obtain ⟨q, hq⟩ := h.shape hs
      cases (hv.shape hq).symm.trans ht
    | inter ht' ha hb =>
      cases ht.symm.trans ht'
      rw [iha ha, ihb hb]
    | union ht' => cases ht.symm.trans ht'
  | union ht _ _ iha ihb =>
    intro f hf
    cases hf with
    | ref hs =>
      obtain ⟨q, hq⟩ := h.shape hs
      cases (hv.shape hq).symm.trans ht
    | inter ht' => cases ht.symm.trans ht'
    | union ht' ha hb =>
      cases ht.symm.trans ht'
      rw [iha ha, ihb hb]

/-- Every term is below the top class. -/
theorem le_any (h : w.Hierarchy refs) (ht : v.Denotes refs t e) :
    ClassTerm.Le w.Below e (.ref Builtin.any.symbol) := by
  induction ht with
  | @ref t s hs =>
    refine .ref ?_
    by_cases hnothing : s = Builtin.nothing.symbol
    · exact .inl hnothing
    · exact .inr ⟨by decide, h.any hs hnothing⟩
  | inter _ _ _ iha _ => exact .interLeft _ iha
  | union _ _ _ iha ihb => exact .union iha ihb

end Denotes

end World

namespace ClassTerm

/-- What the rules for the left term alone say. -/
def LeLeft (r : Symbol → Symbol → Prop) : ClassTerm → ClassTerm → Prop
  | .ref s, _ => s = Builtin.nothing.symbol
  | .inter a b, f => Le r a f ∨ Le r b f
  | .union a b, f => Le r a f ∧ Le r b f

variable {w : World} {e f g : ClassTerm}

theorem le_union_iff : Le w.Below e (.union f g) ↔
    Le w.Below e f ∨ Le w.Below e g ∨ LeLeft w.Below e (.union f g) := by
  cases e with
  | ref s =>
    rw [ref_le_union_iff]
    refine ⟨Or.imp_right .inl, ?_⟩
    rintro (h | h | hs)
    · exact .inl h
    · exact .inr h
    · exact .inl (hs ▸ World.nothing_le_term f)
  | inter a b => exact inter_le_union_iff
  | union a b =>
    simp only [LeLeft, union_le_iff]
    constructor
    · exact fun h => .inr (.inr h)
    · rintro (⟨ha, hb⟩ | ⟨ha, hb⟩ | h)
      · exact ⟨.unionLeft g ha, .unionLeft g hb⟩
      · exact ⟨.unionRight f ha, .unionRight f hb⟩
      · exact h

end ClassTerm

/-! ## Comparisons -/

/-- There is room for the comparison of terms that together are nested `d` deep, and what is pending is no pair of
terms, now or later, or one that is nested deeper. -/
structure Place.Ready (refs : Ty → Symbol → Prop) (p : Place) (w : World) (d : Nat) : Prop where
  bounds : p.bounds = .none
  room : HasRoom p (d + 2)
  pending : ∀ x ∈ p.pending, ∀ v e f, w ≤ v → v.Denotes refs x.1 e → v.Denotes refs x.2 f → d < e.depth + f.depth

namespace CompareM

theorem HasRoom.mono {p : Place} {r r' : Nat} (h : HasRoom p r) (hr : r' ≤ r) : HasRoom p r' := by
  obtain ⟨hlevel, hdepth, hpending⟩ := h
  exact ⟨by omega, by omega, by omega⟩

theorem Opens.pending_cases {p p' : Place} {pair x : Ty × Ty} (h : Opens p pair p') (hx : x ∈ p'.pending) :
    x = pair ∨ x ∈ p.pending := by
  cases h with
  | direct => exact .inr hx
  | monitored => exact List.mem_cons.1 hx

end CompareM

theorem Place.Idle.ready {refs : Ty → Symbol → Prop} {p : Place} (hp : p.Idle) {w : World} {d : Nat}
    (hroom : d + 2 ≤ Limits.unlimited.toNat) : p.Ready refs w d :=
  ⟨hp.bounds, .of_idle hp hroom, fun x hx => absurd hx (hp.free x)⟩

namespace Place.Ready

variable {w v : World} {refs : Ty → Symbol → Prop} {t u : Ty} {e f : ClassTerm} {p p' : Place} {d d' : Nat}

theorem grow (hp : p.Ready refs w d) (hv : w ≤ v) : p.Ready refs v d :=
  ⟨hp.bounds, hp.room, fun x hx v' e f hv' => hp.pending x hx v' e f (hv.trans hv')⟩

theorem mono (hp : p.Ready refs w d) (hd : d' ≤ d) : p.Ready refs w d' :=
  ⟨hp.bounds, hp.room.mono (by omega),
    fun x hx v e f hv he hf => Nat.lt_of_le_of_lt hd (hp.pending x hx v e f hv he hf)⟩

/-- A pair of terms that is not nested deeper is not pending. -/
theorem free (hp : p.Ready refs v d) (ht : v.Denotes refs t e) (hu : v.Denotes refs u f) (hd : e.depth + f.depth ≤ d) :
    (t, u) ∉ p.pending := by
  intro hpending
  have := hp.pending _ hpending v e f le_rfl ht hu
  omega

/-- Inside the comparison of two terms all is ready for those that are nested less deep. -/
theorem opens (hp : p.Ready refs v (e.depth + f.depth)) (h : w.Hierarchy refs) (hv : w ≤ v) (ht : v.Denotes refs t e)
    (hu : v.Denotes refs u f) (hopens : Opens p (t, u) p') (hd : d' < e.depth + f.depth) : p'.Ready refs v d' := by
  refine ⟨hopens.bounds_eq.trans hp.bounds, (hp.room.opens hopens).mono (by omega), ?_⟩
  intro x hx v' e' f' hv' he' hf'
  rcases hopens.pending_cases hx with rfl | hx
  · rw [he'.unique h (hv.trans hv') (ht.grow hv'), hf'.unique h (hv.trans hv') (hu.grow hv')]
    exact hd
  · exact Nat.lt_trans hd (hp.pending x hx v' e' f' hv' he' hf')

/-- Inside the comparison of types that are no two terms. -/
theorem opens_other (hp : p.Ready refs v (d + 1)) (hopens : Opens p (t, u) p')
    (hother : ∀ v' e f, v ≤ v' → v'.Denotes refs t e → ¬ v'.Denotes refs u f) : p'.Ready refs v d := by
  refine ⟨hopens.bounds_eq.trans hp.bounds, hp.room.opens hopens, fun x hx v' e f hv' he hf => ?_⟩
  rcases hopens.pending_cases hx with rfl | hx
  · exact absurd hf (hother v' e f hv' he)
  · exact Nat.lt_of_succ_lt (hp.pending x hx v' e f hv' he hf)

end Place.Ready

namespace World.Hierarchy

variable {w v : World} {refs : Ty → Symbol → Prop} {t u : Ty} {e f : ClassTerm} {p p' : Place} {n : Nat}
  {σ : ConstraintStore} {sub : Ty → Ty → CompareM Bool} {s s' : Symbol}
  (h : w.Hierarchy refs) (hw : w.Closed) (hstd : w.Standard)

include h in
/-- The source of a comparison decides by the rules for it, if its operands are decided. -/
theorem decides_fourth (hv : w ≤ v) (ht : v.Denotes refs t e)
    (hsub : ∀ a e', e'.depth < e.depth → ∀ v', v ≤ v' → v'.Denotes refs a e' →
      DecidesIff p σ v' (sub a u) (ClassTerm.Le w.Below e' f)) :
    DecidesIff p σ v (fourth sub t u) (ClassTerm.LeLeft w.Below e f) := by
  cases ht with
  | @ref t s hs =>
    obtain ⟨q, hq⟩ := h.shape hs
    by_cases hnothing : s = Builtin.nothing.symbol
    · subst hnothing
      exact (decides_fourth_nothing (hv.shape hq)).decidesIff_true rfl
    · have hcls : v.decls.isClass s := by
        rw [hv.decls]
        exact h.isClass hs
      exact (decides_fourth_class (hv.shape hq) hcls hnothing (h.null hs)).decidesIff_false hnothing
  | @inter t a b e₁ e₂ ht ha hb =>
    have hd₁ : e₁.depth < (ClassTerm.inter e₁ e₂).depth := by simp only [ClassTerm.depth]; omega
    have hd₂ : e₂.depth < (ClassTerm.inter e₁ e₂).depth := by simp only [ClassTerm.depth]; omega
    refine yields_fourth_inter ht ((hsub a e₁ hd₁ v le_rfl ha).orElse fun v' hv' => ?_)
    exact hsub b e₂ hd₂ v' hv' (hb.grow hv')
  | @union t a b e₁ e₂ ht ha hb =>
    have hd₁ : e₁.depth < (ClassTerm.union e₁ e₂).depth := by simp only [ClassTerm.depth]; omega
    have hd₂ : e₂.depth < (ClassTerm.union e₁ e₂).depth := by simp only [ClassTerm.depth]; omega
    refine yields_fourth_union ht ((hsub a e₁ hd₁ v le_rfl ha).andThen fun v' hv' => ?_)
    exact hsub b e₂ hd₂ v' hv' (hb.grow hv')

include h in
/-- A target class is met by the rules for the source. -/
theorem decides_thirdNamed (hv : w ≤ v) (ht : v.Denotes refs t e) (hu : refs u s')
    (hsub : ∀ a e', e'.depth < e.depth → ∀ v', v ≤ v' → v'.Denotes refs a e' →
      DecidesIff p σ v' (sub a u) (ClassTerm.Le w.Below e' (.ref s'))) :
    DecidesIff p σ v (thirdNamed n sub t u) (ClassTerm.LeLeft w.Below e (.ref s')) := by
  obtain ⟨q, hq⟩ := h.shape hu
  have hcls : v.decls.isClass s' := by
    rw [hv.decls]
    exact h.isClass hu
  refine yields_thirdNamed (hv.shape hq) hcls (h.markers hu).1 (h.markers hu).2 (h.traits hu) fun v₁ hv₁ => ?_
  exact h.decides_fourth (hv.trans hv₁) (ht.grow hv₁) fun a e' he' v' hv' => hsub a e' he' v' (hv₁.trans hv')

include h hw in
/-- References to classes are compared by the order between classes. -/
theorem decides_names (hv : w ≤ v) (ht : refs t s) (hu : refs u s')
    (hsub : ∀ base v', v ≤ v' → base ≠ t → refs base s' → Decides p σ v' (sub base u) true) :
    DecidesIff p σ v (first n sub t u) (w.Below s s') := by
  obtain ⟨q, hq⟩ := h.shape ht
  obtain ⟨q', hq'⟩ := h.shape hu
  by_cases hss : s = s'
  · subst hss
    have hstatic : v.decls.isStatic s := by
      rw [hv.decls]
      exact h.isStatic ht
    exact (decides_first_static (hv.shape hq) rfl (hv.shape hq') hstatic).decidesIff_true (below_refl s)
  · have hcls : v.decls.isClass s' := by
      rw [hv.decls]
      exact h.isClass hu
    have hname : v.decls.name s ≠ v.decls.name s' := by
      rw [hv.decls]
      exact fun hname => hss (h.name ht hu hname)
    have hbase : ∀ v₁, v ≤ v₁ → DecidesIff p σ v₁ (do
        let base ← Ty.baseType t s'
        if base.present && base ≠ t then sub base u else return false) (w.Derives s s') := by
      intro v₁ hv₁
      obtain ⟨base, v₂, hr, hpresent, href⟩ := h.baseType_run hw ht s' (hv.trans hv₁)
      refine .bind (.lift (grows_baseType t s')) fun base' σ' v' hv' ⟨hσ, hr'⟩ => ?_
      subst hσ
      rw [hr] at hr'
      cases hr'
      by_cases hderives : w.Derives s s'
      · have hb := hpresent.2 hderives
        have hne : base ≠ t := by
          rintro rfl
          exact hss (h.unique ht (href hb))
        rw [if_pos (by simpa [hne] using hb)]
        exact (hsub base v₂ (hv₁.trans hv') hne (href hb)).decidesIff_true hderives
      · rw [if_neg (by rw [Bool.and_eq_true, hpresent]; exact fun hb => hderives hb.1)]
        exact decides_pure.decidesIff_false hderives
    have hlast : ∀ v₁, v ≤ v₁ → DecidesIff p σ v₁ (thirdNamed n sub t u) (s = Builtin.nothing.symbol) := fun v₁ hv₁ =>
      h.decides_thirdNamed (hv.trans hv₁) (.ref ht) hu fun _ e' he' => absurd he' (Nat.not_lt_zero _)
    refine yields_first_names (hv.shape hq) (hv.shape hq') hss hcls ?_
    rw [if_neg hname]
    refine Yields.orElse decides_pure fun v₁ hv₁ => ?_
    refine ((hbase v₁ hv₁).orElse fun v₂ hv₂ => hlast v₂ (hv₁.trans hv₂)).congr ?_
    rw [Below, or_comm]
    refine or_congr_right' fun hs => (and_iff_right_of_imp fun hderives hs' => ?_).symm
    exact h.nothing ht hs (hs' ▸ hderives)

include h hstd in
/-- Two references to one class. -/
theorem decides_refs (hv : w ≤ v) (ht : refs t s) (hu : refs u s) (hroom : HasRoom p 1) (hbounds : p.bounds = .none)
    (hfree : (t, u) ∉ p.pending) : Decides p σ v (isSubType (n + 1) t u) true := by
  obtain ⟨q, hq⟩ := h.shape ht
  obtain ⟨q', hq'⟩ := h.shape hu
  have htp := Denotes.present h hstd hv (.ref ht)
  have hup := Denotes.present h hstd hv (.ref hu)
  have hstatic : v.decls.isStatic s := by
    rw [hv.decls]
    exact h.isStatic hu
  exact decides_static (hv.shape hq) (hv.shape hq') hstatic htp hup hroom hbounds hfree

include h hw hstd in
/-- **Comparisons of terms decide the order of the free lattice.** The induction is on the allowance: each nested
comparison is one of terms that together are nested less deep, or of two references to one class. -/
theorem decides_le (n : Nat) : ∀ {p : Place} {v : World} {t u : Ty} {e f : ClassTerm}, w ≤ v →
    v.Denotes refs t e → v.Denotes refs u f → p.Ready refs v (e.depth + f.depth) → e.depth + f.depth + 2 ≤ n →
    DecidesIff p σ v (isSubType n t u) (ClassTerm.Le w.Below e f) := by
  induction n with
  | zero => intro p v t u e f _ _ _ _ hn; omega
  | succ n ih =>
    intro p v t u e f hv ht hu hp hn
    have htp := ht.present h hstd hv
    have hup := hu.present h hstd hv
    by_cases htu : t = u
    · subst htu
      rw [ht.unique h hv hu]
      exact (decides_self htp).decidesIff_true (le_term_refl f)
    have hnested : ∀ p', Opens p (t, u) p' → ∀ t' u' e' f' v', e'.depth + f'.depth < e.depth + f.depth → v ≤ v' →
        v'.Denotes refs t' e' → v'.Denotes refs u' f' →
        DecidesIff p' σ v' (isSubType n t' u') (ClassTerm.Le w.Below e' f') :=
      fun p' hp' t' u' e' f' v' hd hv' ht' hu' =>
        ih (hv.trans hv') ht' hu' ((hp.opens h hv ht hu hp' hd).grow hv') (by omega)
    refine decidesIff_isSubType htp hup htu hp.room hp.bounds (hp.free ht hu (Nat.le_refl _)) fun p' hp' => ?_
    have hnested := hnested p' hp'
    have hplain := ht.isPlain h hv
    cases hu with
    | @ref u s' hs' =>
      have hleft : ∀ a e', e'.depth < e.depth → ∀ v', v ≤ v' → v'.Denotes refs a e' →
          DecidesIff p' σ v' (isSubType n a u) (ClassTerm.Le w.Below e' (.ref s')) :=
        fun a e' he' v' hv' ha => hnested a u e' (.ref s') v' (by omega) hv' ha (.ref hs')
      obtain ⟨q', hq'⟩ := h.shape hs'
      have hthird := h.decides_thirdNamed (n := n) hv ht hs' hleft
      cases ht with
      | @ref t s hs =>
        refine (h.decides_names hw hv hs hs' fun base v' hv' hne hbase => ?_).congr ClassTerm.ref_le_ref_iff.symm
        obtain ⟨m, rfl⟩ : ∃ m, n = m + 1 := ⟨n - 1, by omega⟩
        have hfree : (base, u) ∉ p'.pending := by
          intro hpending
          rcases hp'.pending_cases hpending with heq | hpending
          · exact hne (congrArg Prod.fst heq)
          · exact (hp.grow hv').free (.ref hbase) (.ref hs') (Nat.le_refl _) hpending
        exact h.decides_refs hstd (hv.trans hv') hbase hs' ((hp.room.opens hp').mono (by omega))
          (hp'.bounds_eq.trans hp.bounds) hfree
      | inter hshape =>
        refine yields_first_named hplain (by rw [shape_of_shape? hshape]; rfl) (hv.shape hq') (hthird.congr ?_)
        exact ClassTerm.inter_le_ref_iff.symm
      | union hshape =>
        refine yields_first_named hplain (by rw [shape_of_shape? hshape]; rfl) (hv.shape hq') (hthird.congr ?_)
        exact ClassTerm.union_le_iff.symm
    | @inter u a b f₁ f₂ hshape ha hb =>
      have hd₁ : e.depth + f₁.depth < e.depth + (ClassTerm.inter f₁ f₂).depth := by simp only [ClassTerm.depth]; omega
      have hd₂ : e.depth + f₂.depth < e.depth + (ClassTerm.inter f₁ f₂).depth := by simp only [ClassTerm.depth]; omega
      refine yields_first hplain (by rw [shape_of_shape? hshape]; rfl) (by rw [shape_of_shape? hshape]; rfl)
        (yields_third_inter hshape ?_)
      refine ((hnested t a e f₁ v hd₁ le_rfl ht ha).andThen fun v' hv' => ?_).congr ClassTerm.le_inter_iff.symm
      exact hnested t b e f₂ v' hd₂ hv' (ht.grow hv') (hb.grow hv')
    | @union u a b f₁ f₂ hshape ha hb =>
      have hd₁ : e.depth + f₁.depth < e.depth + (ClassTerm.union f₁ f₂).depth := by simp only [ClassTerm.depth]; omega
      have hd₂ : e.depth + f₂.depth < e.depth + (ClassTerm.union f₁ f₂).depth := by simp only [ClassTerm.depth]; omega
      refine yields_first hplain (by rw [shape_of_shape? hshape]; rfl) (by rw [shape_of_shape? hshape]; rfl)
        (yields_third_union hshape ?_)
      refine DecidesIff.congr ?_ ClassTerm.le_union_iff.symm
      refine (hnested t a e f₁ v hd₁ le_rfl ht ha).orElse fun v₁ hv₁ => ?_
      refine (hnested t b e f₂ v₁ hd₂ hv₁ (ht.grow hv₁) (hb.grow hv₁)).orElse fun v₂ hv₂ => ?_
      refine h.decides_fourth (hv.trans (hv₁.trans hv₂)) (ht.grow (hv₁.trans hv₂)) fun a' e' he' v' hv' ha' => ?_
      have hv' := hv₁.trans (hv₂.trans hv')
      exact hnested a' u e' (.union f₁ f₂) v' (by omega) hv' ha' (.union (hv'.shape hshape) (ha.grow hv') (hb.grow hv'))

end World.Hierarchy

/-! ## Meets and joins -/

theorem Ty.inter_cases (a b : Ty) (w : World) : ∃ m v, Ty.inter a b w = .ok (m, v) ∧ w ≤ v ∧
    (a = b ∧ m = a ∨ a = Builtin.any.type ∧ m = b ∨ b = Builtin.any.type ∧ m = a ∨
      (a = Builtin.nothing.type ∨ b = Builtin.nothing.type) ∧ m = Builtin.nothing.type ∨
      v.shape? m = some (.inter a b)) := by
  unfold Ty.inter
  split
  · next h => exact ⟨a, w, rfl, le_rfl, .inl ⟨h, rfl⟩⟩
  split
  · next h => exact ⟨b, w, rfl, le_rfl, .inr (.inl ⟨h, rfl⟩)⟩
  split
  · next h => exact ⟨a, w, rfl, le_rfl, .inr (.inr (.inl ⟨h, rfl⟩))⟩
  split
  · next h => exact ⟨_, w, rfl, le_rfl, .inr (.inr (.inr (.inl ⟨h, rfl⟩)))⟩
  · exact ⟨_, _, rfl, le_intern _ w, .inr (.inr (.inr (.inr (TypeTable.shape?_intern w.types _))))⟩

theorem Ty.union_cases (a b : Ty) (w : World) : ∃ j v, Ty.union a b w = .ok (j, v) ∧ w ≤ v ∧
    (a = b ∧ j = a ∨ a = Builtin.nothing.type ∧ j = b ∨ b = Builtin.nothing.type ∧ j = a ∨
      (a = Builtin.any.type ∨ b = Builtin.any.type) ∧ j = Builtin.any.type ∨
      v.shape? j = some (.union a b)) := by
  unfold Ty.union
  split
  · next h => exact ⟨a, w, rfl, le_rfl, .inl ⟨h, rfl⟩⟩
  split
  · next h => exact ⟨b, w, rfl, le_rfl, .inr (.inl ⟨h, rfl⟩)⟩
  split
  · next h => exact ⟨a, w, rfl, le_rfl, .inr (.inr (.inl ⟨h, rfl⟩))⟩
  split
  · next h => exact ⟨_, w, rfl, le_rfl, .inr (.inr (.inr (.inl ⟨h, rfl⟩)))⟩
  · exact ⟨_, _, rfl, le_intern _ w, .inr (.inr (.inr (.inr (TypeTable.shape?_intern w.types _))))⟩

namespace World.Denotes

variable {w v : World} {refs : Ty → Symbol → Prop} {a b : Ty} {e f : ClassTerm}

theorem builtin (hstd : w.Standard) (h : w.Hierarchy refs) (hv : w ≤ v) {c : Builtin} (ht : v.Denotes refs c.type e) :
    e = .ref c.symbol := by
  have hshape := (hstd.grow hv).shape c
  cases ht with
  | ref hs =>
    obtain ⟨q, hq⟩ := h.shape hs
    cases (hv.shape hq).symm.trans hshape
    rfl
  | inter ht => cases hshape.symm.trans ht
  | union ht => cases hshape.symm.trans ht

/-- The intersection of two terms is their meet, also where it collapses. -/
theorem meet (hstd : w.Standard) (h : w.Hierarchy refs) (hv : w ≤ v) (ha : v.Denotes refs a e)
    (hb : v.Denotes refs b f) : ∃ m v' g, Ty.inter a b v = .ok (m, v') ∧ v ≤ v' ∧ v'.Denotes refs m g ∧
      g.depth ≤ max e.depth f.depth + 1 ∧
      ClassTerm.IsMeet w.Below e f g := by
  obtain ⟨m, v', hr, hv', hcases⟩ := Ty.inter_cases a b v
  refine ⟨m, v', ?_⟩
  rcases hcases with ⟨rfl, rfl⟩ | ⟨rfl, rfl⟩ | ⟨rfl, rfl⟩ | ⟨hnothing, rfl⟩ | hshape
  · obtain rfl := ha.unique h hv hb
    exact ⟨e, hr, hv', ha.grow hv', by omega, fun x => (and_self_iff).symm⟩
  · obtain rfl := ha.builtin hstd h hv
    exact ⟨f, hr, hv', hb.grow hv', by omega,
      fun x => (and_iff_right_of_imp fun hx => le_term_trans hx (hb.le_any h)).symm⟩
  · obtain rfl := hb.builtin hstd h hv
    exact ⟨e, hr, hv', ha.grow hv', by omega,
      fun x => (and_iff_left_of_imp fun hx => le_term_trans hx (ha.le_any h)).symm⟩
  · rcases hnothing with rfl | rfl
    · obtain rfl := ha.builtin hstd h hv
      exact ⟨_, hr, hv', ha.grow hv', by omega,
        fun x => (and_iff_left_of_imp fun hx => le_term_trans hx (nothing_le_term f)).symm⟩
    · obtain rfl := hb.builtin hstd h hv
      exact ⟨_, hr, hv', hb.grow hv', by omega,
        fun x => (and_iff_right_of_imp fun hx => le_term_trans hx (nothing_le_term e)).symm⟩
  · exact ⟨.inter e f, hr, hv', .inter hshape (ha.grow hv') (hb.grow hv'), Nat.le_refl _,
      fun x => ClassTerm.le_inter_iff⟩

/-- The union of two terms is their join, also where it collapses. -/
theorem join (hstd : w.Standard) (h : w.Hierarchy refs) (hv : w ≤ v) (ha : v.Denotes refs a e)
    (hb : v.Denotes refs b f) : ∃ j v' g, Ty.union a b v = .ok (j, v') ∧ v ≤ v' ∧ v'.Denotes refs j g ∧
      g.depth ≤ max e.depth f.depth + 1 ∧
      ClassTerm.IsJoin w.Below e f g := by
  obtain ⟨j, v', hr, hv', hcases⟩ := Ty.union_cases a b v
  refine ⟨j, v', ?_⟩
  rcases hcases with ⟨rfl, rfl⟩ | ⟨rfl, rfl⟩ | ⟨rfl, rfl⟩ | ⟨hany, rfl⟩ | hshape
  · obtain rfl := ha.unique h hv hb
    exact ⟨e, hr, hv', ha.grow hv', by omega, fun x => (and_self_iff).symm⟩
  · obtain rfl := ha.builtin hstd h hv
    exact ⟨f, hr, hv', hb.grow hv', by omega, fun x => (and_iff_right (nothing_le_term x)).symm⟩
  · obtain rfl := hb.builtin hstd h hv
    exact ⟨e, hr, hv', ha.grow hv', by omega, fun x => (and_iff_left (nothing_le_term x)).symm⟩
  · rcases hany with rfl | rfl
    · obtain rfl := ha.builtin hstd h hv
      exact ⟨_, hr, hv', ha.grow hv', by omega,
        fun x => (and_iff_left_of_imp fun hx => le_term_trans (hb.le_any h) hx).symm⟩
    · obtain rfl := hb.builtin hstd h hv
      exact ⟨_, hr, hv', hb.grow hv', by omega,
        fun x => (and_iff_right_of_imp fun hx => le_term_trans (ha.le_any h) hx).symm⟩
  · exact ⟨.union e f, hr, hv', .union hshape (ha.grow hv') (hb.grow hv'), Nat.le_refl _,
      fun x => ClassTerm.union_le_iff⟩

end World.Denotes

/-! ## The order -/

namespace World

/-- The type is built from the references by intersections and unions that are nested at most `k` deep. -/
def LatticeType (w : World) (refs : Ty → Symbol → Prop) (k : Nat) (t : Ty) : Prop :=
  ∃ e, w.Denotes refs t e ∧ e.depth ≤ k

/-- With nothing under inference the comparison of `a` and `b` comes to the answer, whatever the options, and whatever
the allowance once it is large enough. -/
def Answers (w : World) (a b : Ty) (answer : Bool) : Prop :=
  ∃ enough, ∀ n, enough ≤ n → ∀ c : Comparer, c.AtRest → ∃ c' w', isSubType n a b c w = .ok ((answer, c'), w')

variable {w v : World} {refs : Ty → Symbol → Prop} {a b : Ty} {e f : ClassTerm} {k : Nat}

theorem LatticeType.grow (ha : w.LatticeType refs k a) (hv : w ≤ v) : v.LatticeType refs k a := by
  obtain ⟨e, he, hk⟩ := ha
  exact ⟨e, he.grow hv, hk⟩

theorem Hierarchy.answers_iff (h : w.Hierarchy refs) (hw : w.Closed) (hstd : w.Standard) (hv : w ≤ v)
    (ha : v.Denotes refs a e) (hb : v.Denotes refs b f) (hroom : e.depth + f.depth + 2 ≤ Limits.unlimited.toNat)
    {answer : Bool} : v.Answers a b answer ↔ (answer = true ↔ ClassTerm.Le w.Below e f) := by
  have hrun : ∀ n, e.depth + f.depth + 2 ≤ n → ∀ c : Comparer, c.AtRest → ∃ answer c' w',
      isSubType n a b c v = .ok ((answer, c'), w') ∧ (answer = true ↔ ClassTerm.Le w.Below e f) := by
    intro n hn c hc
    have hdecides := h.decides_le hw hstd (σ := c.constraint) n hv ha hb (hc.idle.ready hroom) hn
    obtain ⟨answer, c', w', hr, -, -, hanswer, -⟩ := hdecides c ⟨rfl, rfl⟩
    exact ⟨answer, c', w', hr, hanswer⟩
  constructor
  · rintro ⟨enough, hanswer⟩
    have hc := Comparer.atRest_vacant false
    obtain ⟨c', w', hr⟩ := hanswer _ (Nat.le_max_left enough (e.depth + f.depth + 2)) _ hc
    obtain ⟨answer', c'', w'', hr', hiff⟩ := hrun _ (Nat.le_max_right enough (e.depth + f.depth + 2)) _ hc
    cases hr.symm.trans hr'
    exact hiff
  · intro hiff
    refine ⟨e.depth + f.depth + 2, fun n hn c hc => ?_⟩
    obtain ⟨answer', c', w', hr, hiff'⟩ := hrun n hn c hc
    obtain rfl : answer = answer' := Bool.eq_iff_iff.2 (hiff.trans hiff'.symm)
    exact ⟨c', w', hr⟩

theorem Hierarchy.accepts_iff (h : w.Hierarchy refs) (hw : w.Built) (hv : w ≤ v) (ha : v.Denotes refs a e)
    (hb : v.Denotes refs b f) (hroom : e.depth + f.depth + 2 ≤ Limits.unlimited.toNat) :
    v.Answers a b true ↔ ClassTerm.Le w.Below e f := by
  rw [h.answers_iff hw.closed hw.standard hv ha hb hroom, eq_self, true_iff]

end World

namespace CompareM

/-- **On a hierarchy conformance is a lattice order.** With nothing under inference every two types that are built from
its references by intersections and unions come to an answer; the answers are reflexive and transitive, the
intersection of two types is their greatest lower bound and the union their least upper bound. -/
theorem isSubType_lattice {w : World} {refs : Ty → Symbol → Prop} {k : Nat} {a b c : Ty} (hw : w.Built)
    (h : w.Hierarchy refs) (hroom : 2 * k + 3 ≤ Limits.unlimited.toNat) (ha : w.LatticeType refs k a)
    (hb : w.LatticeType refs k b) (hc : w.LatticeType refs k c) :
    (∃ answer, w.Answers a b answer) ∧ w.Answers a a true ∧
      (w.Answers a b true → w.Answers b c true → w.Answers a c true) ∧
      (∃ m v, Ty.inter a b w = .ok (m, v) ∧ v.Answers m a true ∧ v.Answers m b true ∧
        ∀ d, v.LatticeType refs k d → v.Answers d a true → v.Answers d b true → v.Answers d m true) ∧
      ∃ j v, Ty.union a b w = .ok (j, v) ∧ v.Answers a j true ∧ v.Answers b j true ∧
        ∀ d, v.LatticeType refs k d → v.Answers a d true → v.Answers b d true → v.Answers j d true := by
  obtain ⟨e, he, hek⟩ := ha
  obtain ⟨f, hf, hfk⟩ := hb
  obtain ⟨g, hg, hgk⟩ := hc
  have hanswers : ∀ {v a b e f}, w ≤ v → v.Denotes refs a e → v.Denotes refs b f → e.depth + f.depth ≤ 2 * k + 1 →
      (v.Answers a b true ↔ ClassTerm.Le w.Below e f) :=
    fun hv ha hb hd => h.accepts_iff hw hv ha hb (by omega)
  refine ⟨?_, ?_, ?_, ?_, ?_⟩
  · by_cases hle : ClassTerm.Le w.Below e f
    · exact ⟨true, (hanswers le_rfl he hf (by omega)).2 hle⟩
    · exact ⟨false, (h.answers_iff hw.closed hw.standard le_rfl he hf (by omega)).2 (iff_of_false nofun hle)⟩
  · exact (hanswers le_rfl he he (by omega)).2 (World.le_term_refl e)
  · rw [hanswers le_rfl he hf (by omega), hanswers le_rfl hf hg (by omega), hanswers le_rfl he hg (by omega)]
    exact World.le_term_trans
  · obtain ⟨m, v, e', hr, hv, hm, hd, hmeet⟩ := he.meet hw.standard h le_rfl hf
    obtain ⟨hle, hle'⟩ := (hmeet e').1 (World.le_term_refl e')
    refine ⟨m, v, hr, (hanswers hv hm (he.grow hv) (by omega)).2 hle,
      (hanswers hv hm (hf.grow hv) (by omega)).2 hle', ?_⟩
    rintro d ⟨x, hx, hxk⟩ hda hdb
    have hxe := (hanswers hv hx (he.grow hv) (by omega)).1 hda
    have hxf := (hanswers hv hx (hf.grow hv) (by omega)).1 hdb
    exact (hanswers hv hx hm (by omega)).2 ((hmeet x).2 ⟨hxe, hxf⟩)
  · obtain ⟨j, v, e', hr, hv, hj, hd, hjoin⟩ := he.join hw.standard h le_rfl hf
    obtain ⟨hle, hle'⟩ := (hjoin e').1 (World.le_term_refl e')
    refine ⟨j, v, hr, (hanswers hv (he.grow hv) hj (by omega)).2 hle,
      (hanswers hv (hf.grow hv) hj (by omega)).2 hle', ?_⟩
    rintro d ⟨x, hx, hxk⟩ had hbd
    have hex := (hanswers hv (he.grow hv) hx (by omega)).1 had
    have hfx := (hanswers hv (hf.grow hv) hx (by omega)).1 hbd
    exact (hanswers hv hj hx (by omega)).2 ((hjoin x).2 ⟨hex, hfx⟩)

/-- `Int | String` and `AnyVal` among the built-in classes: their intersection is a greatest lower bound. -/
theorem isSubType_lattice_builtin :
    let either := World.initial.types.intern (.union Builtin.int.type Builtin.string.type)
    let w := { World.initial with types := either.2 }
    w.Built ∧ w.Hierarchy World.BuiltinRef ∧ w.LatticeType World.BuiltinRef 1 either.1 ∧
      w.LatticeType World.BuiltinRef 1 Builtin.anyVal.type ∧
      ∃ m v, Ty.inter either.1 Builtin.anyVal.type w = .ok (m, v) ∧ v.Answers m either.1 true ∧
        v.Answers m Builtin.anyVal.type true ∧
        ∀ d, v.LatticeType World.BuiltinRef 1 d → v.Answers d either.1 true → v.Answers d Builtin.anyVal.type true →
          v.Answers d m true := by
  intro either w
  have hle : World.initial ≤ w := le_intern _ _
  have href : ∀ b : Builtin, b ∉ [.null, .singleton, .notNull] → w.Denotes World.BuiltinRef b.type (.ref b.symbol) :=
    fun b hb => .ref ⟨b, hb, rfl, rfl⟩
  have hw : w.Built := .intern .initial _ (.union ⟨rfl, by decide⟩ ⟨rfl, by decide⟩)
  have h : w.Hierarchy World.BuiltinRef := World.hierarchy_initial.grow World.closed_initial hle
  have heither : w.LatticeType World.BuiltinRef 1 either.1 :=
    ⟨_, .union (TypeTable.shape?_intern _ _) (href .int (by decide)) (href .string (by decide)), Nat.le_refl 1⟩
  have hval : w.LatticeType World.BuiltinRef 1 Builtin.anyVal.type := ⟨_, href .anyVal (by decide), Nat.zero_le 1⟩
  have hlattice := isSubType_lattice hw h (by decide) heither hval hval
  exact ⟨hw, h, heither, hval, hlattice.2.2.2.1⟩

end CompareM

end Conformance
