import Conformance.Proofs.ClassLattice

/-!
# Parameters between two terms

A parameter under inference whose bounds are terms of a hierarchy, compared with a term. A comparison from below answers
whether the term is below the upper end, and raises the lower end to the join with the term unless it was above the term
already (`World.Hierarchy.raises`). A comparison from above does the same the other way round
(`World.Hierarchy.lowers`).
-/

namespace Conformance

open CompareM

namespace World

/-- The slot of `x` holds bounds whose ends are the terms `e` and `f`. -/
def Ranges (w : World) (refs : Ty → Symbol → Prop) (s : ConstraintStore) (x : Param) (e f : ClassTerm) : Prop :=
  ∃ b lo hi, Slot s x b ∧ w.shape? b = some (.bounds lo hi) ∧ w.Denotes refs lo e ∧ w.Denotes refs hi f

/-- The constraints `s'` hold in the slot of `x` bounds whose ends are the terms `e` and `f`, and otherwise what `s`
holds. -/
def Narrows (w : World) (refs : Ty → Symbol → Prop) (s : ConstraintStore) (x : Param) (e f : ClassTerm)
    (s' : ConstraintStore) : Prop :=
  ∃ b lo hi, Assigned s x b s' ∧ w.shape? b = some (.bounds lo hi) ∧ w.Denotes refs lo e ∧ w.Denotes refs hi f

/-- The constraints of a parameter between `e` and `f` after it was asked to be above `g`. -/
def Raised (w : World) (refs : Ty → Symbol → Prop) (s : ConstraintStore) (x : Param) (e f g : ClassTerm)
    (s' : ConstraintStore) (v : World) : Prop :=
  (ClassTerm.Le w.Below g e → s' = s) ∧ (¬ ClassTerm.Le w.Below g e →
    ∃ e', ClassTerm.IsJoin w.Below e g e' ∧ e'.depth ≤ max e.depth g.depth + 1 ∧ v.Narrows refs s x e' f s')

/-- The constraints of a parameter between `e` and `f` after it was asked to be below `g`. -/
def Lowered (w : World) (refs : Ty → Symbol → Prop) (s : ConstraintStore) (x : Param) (e f g : ClassTerm)
    (s' : ConstraintStore) (v : World) : Prop :=
  (ClassTerm.Le w.Below f g → s' = s) ∧ (¬ ClassTerm.Le w.Below f g →
    ∃ f', ClassTerm.IsMeet w.Below f g f' ∧ f'.depth ≤ max f.depth g.depth + 1 ∧ v.Narrows refs s x e f' s')

variable {w v : World} {refs : Ty → Symbol → Prop} {s s' : ConstraintStore} {x : Param} {e f g : ClassTerm}

theorem Ranges.grow (h : w.Ranges refs s x e f) (hv : w ≤ v) : v.Ranges refs s x e f := by
  obtain ⟨b, lo, hi, hslot, hb, hlo, hhi⟩ := h
  exact ⟨b, lo, hi, hslot, hv.shape hb, hlo.grow hv, hhi.grow hv⟩

theorem Narrows.ranges (h : w.Narrows refs s x e f s') : w.Ranges refs s' x e f := by
  obtain ⟨b, lo, hi, hs, hb, hlo, hhi⟩ := h
  exact ⟨b, lo, hi, hs.slot, hb, hlo, hhi⟩

/-- A parameter is no term. -/
theorem Hierarchy.not_denotes_param (h : w.Hierarchy refs) (hv : w ≤ v) {t : Ty} (ht : v.shape? t = some (.param x))
    (e : ClassTerm) : ¬ v.Denotes refs t e := by
  intro he
  cases he with
  | ref hs =>
    obtain ⟨q, hq⟩ := h.shape hs
    cases (hv.shape hq).symm.trans ht
  | inter ht' => cases ht'.symm.trans ht
  | union ht' => cases ht'.symm.trans ht

namespace Hierarchy

variable {t u : Ty} {p : Place} {n d : Nat} (h : w.Hierarchy refs) (hw : w.Built)

include h hw

/-- Terms as in `decides_le`, at a place with more room than is needed. -/
theorem decides_le_of_ready (hv : w ≤ v) (ht : v.Denotes refs t e) (hu : v.Denotes refs u f) (hp : p.Ready refs v d)
    (hd : e.depth + f.depth ≤ d) (hn : d + 2 ≤ n) :
    DecidesIff p s v (isSubType n t u) (ClassTerm.Le w.Below e f) :=
  h.decides_le hw.closed hw.standard n hv ht hu (hp.mono hd) (by omega)

/-- **From below.** The parameter is the target. -/
theorem raises (hv : w ≤ v) (hu : v.shape? u = some (.param x)) (hrange : v.Ranges refs s x e f)
    (hle : ClassTerm.Le w.Below e f) (ht : v.Denotes refs t g) (hp : p.Ready refs v (d + 1))
    (hfree : (t, u) ∉ p.pending) (hd : g.depth + e.depth ≤ d) (hd' : max e.depth g.depth + 1 + f.depth ≤ d) (hn : d + 2 ≤ n) :
    Yields p s v (isSubType (n + 1) t u) (Settles s (ClassTerm.Le w.Below g f) (w.Raised refs s x e f g)) := by
  obtain ⟨b, lo, hi, hslot, hb, hlo, hhi⟩ := hrange
  have hstd := hw.standard.grow hv
  have htu : t ≠ u := by
    rintro rfl
    exact h.not_denotes_param hv hu g ht
  refine settles_isSubType (ht.present h hw.standard hv) (hstd.present hu (by simp)) htu hp.room hp.bounds hfree
    fun p' hp' => yields_first_param hstd hu hslot hb ?_
  have hready := hp.opens_other hp' fun v' _ e hv' _ => h.not_denotes_param (hv.trans hv') (hv'.shape hu) e
  have hlow := h.decides_le_of_ready hw (s := s) hv ht hlo hready hd hn
  by_cases hge : ClassTerm.Le w.Below g e
  · refine Yields.orElse_true ((hlow.decides hge).mono fun a s' v' _ ⟨ha, hs'⟩ => ⟨ha, ?_⟩)
    exact ⟨iff_of_true rfl (le_term_trans hge hle), fun _ => ⟨fun _ => hs', fun hnot => absurd hge hnot⟩⟩
  refine Yields.orElse (hlow.decides_false hge) fun v₁ hv₁ => ?_
  refine .bind (yields_intern (.bounds t Builtin.any.type)) fun b₁ s₁ v₂ hv₂ ⟨hs₁, hb₁⟩ => ?_
  subst hs₁
  have hv₂ := hv₁.trans hv₂
  refine yields_narrow (hstd.grow hv₂) hslot (hv₂.shape hb) hb₁ fun l u₁ r u₂ b₂ v₃ s₂ hl hr hv₃ hu₂ hb₂ hassigned => ?_
  obtain ⟨l', u₁', e', hl', -, hle', hdepth, hjoin⟩ :=
    (hlo.grow hv₂).join hw.standard h (hv.trans hv₂) (ht.grow hv₂)
  cases hl.symm.trans hl'
  rw [inter_any_right] at hr
  cases hr
  have hv₃ := hv₂.trans hv₃
  have hl₃ : v₃.Denotes refs l e' := hle'.grow hu₂
  refine (h.decides_le_of_ready hw (hv.trans hv₃) hl₃ (hhi.grow hv₃) (hready.grow hv₃) (by omega) hn).mono
    fun a s' v' hv' ⟨ha, hs'⟩ =>
      ⟨ha.trans ((hjoin f).trans (and_iff_right hle)), fun _ => ⟨fun hnot => absurd hnot hge, ?_⟩⟩
  subst hs'
  exact fun _ => ⟨e', hjoin, hdepth, b₂, l, hi, hassigned, hv'.shape hb₂, hl₃.grow hv', hhi.grow (hv₃.trans hv')⟩

/-- **From above.** The parameter is the source. -/
theorem lowers (hv : w ≤ v) (ht : v.shape? t = some (.param x)) (hrange : v.Ranges refs s x e f)
    (hle : ClassTerm.Le w.Below e f) (hu : v.Denotes refs u g) (hp : p.Ready refs v (d + 1))
    (hfree : (t, u) ∉ p.pending) (hd : f.depth + g.depth ≤ d) (hd' : e.depth + (max f.depth g.depth + 1) ≤ d) (hn : d + 2 ≤ n) :
    Yields p s v (isSubType (n + 1) t u) (Settles s (ClassTerm.Le w.Below e g) (w.Lowered refs s x e f g)) := by
  obtain ⟨b, lo, hi, hslot, hb, hlo, hhi⟩ := hrange
  have hstd := hw.standard.grow hv
  have htu : t ≠ u := by
    rintro rfl
    exact h.not_denotes_param hv ht g hu
  have hnamed : (v.shape t).isNamed = false := by
    rw [shape_of_shape? ht]
    rfl
  refine settles_isSubType (hstd.present ht (by simp)) (hu.present h hw.standard hv) htu hp.room hp.bounds hfree
    fun p' hp' => hu.yields_first_second h hv hnamed (yields_second_param hstd ht hslot hb ?_)
  have hready := hp.opens_other hp' fun v' e _ hv' he => absurd he (h.not_denotes_param (hv.trans hv') (hv'.shape ht) e)
  have hhigh := h.decides_le_of_ready hw (s := s) hv hhi hu hready hd hn
  by_cases hge : ClassTerm.Le w.Below f g
  · refine Yields.orElse_true ((hhigh.decides hge).mono fun a s' v' _ ⟨ha, hs'⟩ => ⟨ha, ?_⟩)
    exact ⟨iff_of_true rfl (le_term_trans hle hge), fun _ => ⟨fun _ => hs', fun hnot => absurd hge hnot⟩⟩
  refine Yields.orElse (hhigh.decides_false hge) fun v₁ hv₁ => ?_
  refine .bind (yields_intern (.bounds Builtin.nothing.type u)) fun b₁ s₁ v₂ hv₂ ⟨hs₁, hb₁⟩ => ?_
  subst hs₁
  have hv₂ := hv₁.trans hv₂
  refine yields_narrow (hstd.grow hv₂) hslot (hv₂.shape hb) hb₁ fun l u₁ r u₂ b₂ v₃ s₂ hl hr hv₃ hu₂ hb₂ hassigned => ?_
  rw [union_nothing_right] at hl
  cases hl
  obtain ⟨r', u₂', f', hr', -, hrf, hdepth, hmeet⟩ :=
    (hhi.grow hv₂).meet hw.standard h (hv.trans hv₂) (hu.grow hv₂)
  cases hr.symm.trans hr'
  have hv₃ := hv₂.trans hv₃
  have hr₃ : v₃.Denotes refs r f' := hrf.grow hu₂
  refine (h.decides_le_of_ready hw (hv.trans hv₃) (hlo.grow hv₃) hr₃ (hready.grow hv₃) (by omega) hn).mono
    fun a s' v' hv' ⟨ha, hs'⟩ =>
      ⟨ha.trans ((hmeet e).trans (and_iff_right hle)), fun _ => ⟨fun hnot => absurd hnot hge, ?_⟩⟩
  subst hs'
  exact fun _ => ⟨f', hmeet, hdepth, b₂, lo, r, hassigned, hv'.shape hb₂, hlo.grow (hv₃.trans hv'), hr₃.grow hv'⟩

end Hierarchy

end World

end Conformance
