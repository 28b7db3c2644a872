import Conformance.Proofs.ClassInference

/-!
# A parameter against its own unions and intersections

Whatever is chosen for a parameter `X`, it conforms to every union that it is an operand of, and every intersection that
it is an operand of conforms to it. With `X` under inference the comparisons are accepted, but the bounds of `X` are
looked at before `X` itself is found among the operands, so they are asked more than has to hold. A union asks `X` to be
above its upper end, which leaves only that end to be chosen (`World.Pinned`). An intersection asks `X` to be below
terms that are above its lower end, one for each operand of the lower end that the other operand does not meet
(`World.Hierarchy.meets`). Where the bounds leave no choice to begin with, and only there for `X <: X | T`, nothing
changes: `isSubType_own_operand`.
-/

namespace Conformance

open CompareM

/-! ## One slot at a time -/

/-- All slots but that of `x` hold in `s'` what they hold in `s`. -/
def Spares (x : Param) (s s' : ConstraintStore) : Prop := ∀ y, y ≠ x → ∀ t, Slot s' y t ↔ Slot s y t

section Slots

variable {x : Param} {b : Ty} {s s' s'' : ConstraintStore}

theorem Spares.refl (x : Param) (s : ConstraintStore) : Spares x s s := fun _ _ _ => .rfl

theorem Spares.trans (h : Spares x s s') (h' : Spares x s' s'') : Spares x s s'' :=
  fun y hy t => (h' y hy t).trans (h y hy t)

theorem CompareM.Assigned.spares (h : Assigned s x b s') : Spares x s s' := by
  intro y hy t
  obtain ⟨slots, hslots, -, ⟨-, rfl⟩ | hs'⟩ := h
  · rfl
  unfold Slot
  rw [ConstraintStore.slots?, hs', InsertionMap.find?_insert]
  by_cases hbinder : y.binder = x.binder
  · have hindex : x.index ≠ y.index := fun hindex => hy (by cases x; cases y; simp_all)
    simp [hbinder, hslots, List.getElem?_set_ne hindex]
  · rw [if_neg hbinder]
    rfl

end Slots

namespace ClassTerm

/-- How many references to classes a term is built from. -/
def leaves : ClassTerm → Nat
  | .ref _ => 1
  | .inter a b | .union a b => a.leaves + b.leaves

theorem depth_lt_leaves (e : ClassTerm) : e.depth < e.leaves := by
  induction e with
  | ref s => exact Nat.zero_lt_one
  | inter a b iha ihb | union a b iha ihb => simp only [depth, leaves]; omega

end ClassTerm

/-! ## Trying -/

namespace CompareM

/-- How a comparison ends that is accepted at least if `P` holds: with `D` if it is accepted, and else with the
constraints before. -/
def Tries (s : ConstraintStore) (P : Prop) (D : ConstraintStore → World → Prop) :
    Bool → ConstraintStore → World → Prop
  | true, s', v => D s' v
  | false, s', _ => ¬ P ∧ s' = s

variable {p : Place} {s : ConstraintStore} {w : World} {n r : Nat} {t u : Ty} {P Q : Prop} {a b : CompareM Bool}
  {D : ConstraintStore → World → Prop}

theorem Yields.tries_orElse (ha : Yields p s w a (Tries s P D)) (hb : ∀ v, w ≤ v → Yields p s v b (Tries s Q D)) :
    Yields p s w (a <||> b) (Tries s (P ∨ Q) D) := by
  refine .bind ha fun answer s' v hv htries => ?_
  cases answer with
  | true => exact .pure htries
  | false =>
    obtain ⟨hP, rfl⟩ := htries
    refine (hb v hv).mono fun answer s'' v' _ htries => ?_
    cases answer with
    | true => exact htries
    | false => exact ⟨not_or.2 ⟨hP, htries.1⟩, htries.2⟩

theorem Yields.tries_imp {E : ConstraintStore → World → Prop} (ha : Yields p s w a (Tries s P D)) (hPQ : Q → P)
    (hD : ∀ s' v, D s' v → E s' v) : Yields p s w a (Tries s Q E) := by
  refine ha.mono fun answer s' v _ htries => ?_
  cases answer with
  | true => exact hD s' v htries
  | false => exact ⟨mt hPQ htries.1, htries.2⟩

/-- A comparison that changes nothing is tried without a promise. -/
theorem DecidesIff.tries (ha : DecidesIff p s w a Q) (hD : ∀ v, w ≤ v → D s v) : Yields p s w a (Tries s False D) := by
  refine ha.mono fun answer s' v hv ⟨_, hs⟩ => ?_
  subst hs
  cases answer with
  | true => exact hD v hv
  | false => exact ⟨id, rfl⟩

/-- Two comparisons that both have to be accepted. -/
theorem Yields.tries_andThen {E : ConstraintStore → World → Prop} (ha : Yields p s w a (Tries s P E))
    (hb : ∀ s' v, w ≤ v → E s' v → Yields p s' v b (Tries s' Q D)) :
    Yields p s w (a <&&> b) fun answer s' v => (P ∧ Q → answer = true) ∧ (answer = true → D s' v) := by
  refine .bind ha fun answer s' v hv htries => ?_
  cases answer with
  | true =>
    refine (hb s' v hv htries).mono fun answer s'' v' _ htries => ?_
    cases answer with
    | true => exact ⟨fun _ => rfl, fun _ => htries⟩
    | false => exact ⟨fun hPQ => absurd hPQ.2 htries.1, nofun⟩
  | false => exact .pure ⟨fun hPQ => absurd hPQ.1 htries.1, nofun⟩

theorem tries_isSubType (ht : t.present) (hu : u.present) (htu : t ≠ u) (hroom : HasRoom p (r + 1))
    (hbounds : p.bounds = .none) (hfree : (t, u) ∉ p.pending)
    (h : ∀ p', Opens p (t, u) p' →
      Yields p' s w (first n (isSubType n) t u) fun a s' v => (P → a = true) ∧ (a = true → D s' v)) :
    Yields p s w (isSubType (n + 1) t u) (Tries s P D) := by
  refine (yields_isSubType ht hu htu hroom hbounds hfree h).mono fun a s' v _ hsettled => ?_
  cases a with
  | true => exact hsettled.2 rfl
  | false =>
    obtain ⟨hs, _, hfalse, -⟩ := hsettled
    exact ⟨mt hfalse Bool.false_ne_true, hs⟩

theorem Yields.accepted {c : Comparer} (h : Yields c.place c.constraint w a fun answer s' v => answer = true ∧ D s' v) :
    ∃ c' v, a c w = .ok ((true, c'), v) ∧ D c'.constraint v := by
  obtain ⟨answer, c', v, hr, -, -, rfl, hD⟩ := h c ⟨rfl, rfl⟩
  exact ⟨c', v, hr, hD⟩

theorem Yields.of_tries (ha : Yields p s w a (Tries s P D)) :
    Yields p s w a fun answer s' v => (P → answer = true) ∧ (answer = true → D s' v) := by
  refine ha.mono fun answer s' v _ htries => ?_
  cases answer with
  | true => exact ⟨fun _ => rfl, fun _ => htries⟩
  | false => exact ⟨fun hP => absurd hP htries.1, nofun⟩

end CompareM

namespace World

/-! ## Asked to be above the upper end -/

/-- The constraints of a parameter between `e` and `f` of which only the upper end is left. -/
def Pinned (w : World) (refs : Ty → Symbol → Prop) (s : ConstraintStore) (x : Param) (e f : ClassTerm)
    (s' : ConstraintStore) (v : World) : Prop :=
  (ClassTerm.Le w.Below f e → s' = s) ∧ (¬ ClassTerm.Le w.Below f e →
    ∃ e', ClassTerm.Le w.Below e' f ∧ ClassTerm.Le w.Below f e' ∧ v.Narrows refs s x e' f s')

/-- The constraints of a parameter between `e` and `f` that was asked to be below terms above `e`: the lower end stays,
and the upper end stays above it. -/
structure Squeezed (w : World) (refs : Ty → Symbol → Prop) (s : ConstraintStore) (x : Param) (e f : ClassTerm) (d : Nat)
    (s' : ConstraintStore) (v : World) : Prop where
  spares : Spares x s s'
  unchanged : ClassTerm.Le w.Below f e → s' = s
  ranges : ∃ f', v.Ranges refs s' x e f' ∧ ClassTerm.Le w.Below e f' ∧ ClassTerm.Le w.Below f' f ∧ f'.depth ≤ d

variable {w v v' : World} {refs : Ty → Symbol → Prop} {s s' s'' : ConstraintStore} {x : Param} {e f g : ClassTerm}
  {d d' : Nat}

theorem Narrows.spares (h : w.Narrows refs s x e f s') : Spares x s s' := by
  obtain ⟨b, lo, hi, hs, -⟩ := h
  exact hs.spares

theorem Raised.pinned (h : w.Raised refs s x e f f s' v) (hle : ClassTerm.Le w.Below e f) :
    w.Pinned refs s x e f s' v := by
  refine ⟨h.1, fun hnot => ?_⟩
  obtain ⟨e', hjoin, -, hnarrows⟩ := h.2 hnot
  exact ⟨e', (hjoin f).2 ⟨hle, le_term_refl f⟩, ((hjoin e').1 (le_term_refl e')).2, hnarrows⟩

namespace Squeezed

theorem refl (hrange : v.Ranges refs s x e f) (hle : ClassTerm.Le w.Below e f) (hd : f.depth ≤ d) :
    w.Squeezed refs s x e f d s v :=
  ⟨.refl x s, fun _ => rfl, f, hrange, hle, le_term_refl f, hd⟩

theorem mono (h : w.Squeezed refs s x e f d s' v) (hd : d ≤ d') : w.Squeezed refs s x e f d' s' v := by
  obtain ⟨f', hrange, hle, hle', hdepth⟩ := h.ranges
  exact ⟨h.spares, h.unchanged, f', hrange, hle, hle', Nat.le_trans hdepth hd⟩

/-- What is asked next finds the bounds that were left. -/
theorem trans {f' : ClassTerm} (h : w.Squeezed refs s x e f d s' v) (hf : ClassTerm.Le w.Below f' f)
    (h' : w.Squeezed refs s' x e f' d' s'' v') : w.Squeezed refs s x e f d' s'' v' := by
  obtain ⟨f'', hrange, hle, hle', hdepth⟩ := h'.ranges
  refine ⟨h.spares.trans h'.spares, fun hfe => ?_, f'', hrange, hle, le_term_trans hle' hf, hdepth⟩
  exact (h'.unchanged (le_term_trans hf hfe)).trans (h.unchanged hfe)

end Squeezed

/-- `t` is the parameter `x`, and `m` an intersection of it with the term `g`, in either order. -/
structure OwnInter (w : World) (refs : Ty → Symbol → Prop) (x : Param) (g : ClassTerm) (t m : Ty) : Prop where
  param : w.shape? t = some (.param x)
  inter : ∃ a b, w.shape? m = some (.inter a b) ∧ (a = t ∧ w.Denotes refs b g ∨ b = t ∧ w.Denotes refs a g)

end World

/-- What is pending has another source than the parameter `t`; and if it has the source `m`, its target is no term that
is nested `d` deep or less. -/
def Place.Apart (refs : Ty → Symbol → Prop) (p : Place) (w : World) (t m : Ty) (d : Nat) : Prop :=
  ∀ x ∈ p.pending, x.1 ≠ t ∧ (x.1 = m → ∀ v e, w ≤ v → v.Denotes refs x.2 e → d < e.depth)

namespace World.Hierarchy

variable {w v : World} {refs : Ty → Symbol → Prop} {s : ConstraintStore} {x : Param} {e f g : ClassTerm} {t m u : Ty}
  {p p' : Place} {n d k K F : Nat} (h : w.Hierarchy refs) (hw : w.Built)

include h hw

/-- A parameter that is asked to be below a term above its lower end. -/
theorem squeezes (hv : w ≤ v) (ht : v.shape? t = some (.param x)) (hrange : v.Ranges refs s x e f)
    (hle : ClassTerm.Le w.Below e f) (hu : v.Denotes refs u g) (hp : p.Ready refs v (d + 1))
    (hfree : (t, u) ∉ p.pending) (hd : f.depth + g.depth ≤ d) (hd' : e.depth + (max f.depth g.depth + 1) ≤ d) (hn : d + 2 ≤ n) :
    Yields p s v (isSubType (n + 1) t u)
      (Tries s (ClassTerm.Le w.Below e g) (w.Squeezed refs s x e f (max f.depth g.depth + 1))) := by
  refine (h.lowers hw hv ht hrange hle hu hp hfree hd hd' hn).mono fun a s' v' hv' hsettles => ?_
  cases a with
  | false => exact hsettles
  | true =>
    obtain ⟨heg, hkept, hlowered⟩ := hsettles
    by_cases hfg : ClassTerm.Le w.Below f g
    · rw [hkept hfg]
      exact .refl (hrange.grow hv') hle (by omega)
    · obtain ⟨f', hmeet, hdepth, hnarrows⟩ := hlowered hfg
      refine ⟨hnarrows.spares, fun hfe => absurd (le_term_trans hfe heg) hfg, f', hnarrows.ranges, ?_, ?_, hdepth⟩
      · exact (hmeet e).2 ⟨hle, heg⟩
      · exact ((hmeet f').1 (le_term_refl f')).1

omit hw in
/-- The intersection is no term. -/
theorem not_denotes_own (hown : w.OwnInter refs x g t m) (hv : w ≤ v) (e : ClassTerm) : ¬ v.Denotes refs m e := by
  intro he
  obtain ⟨a, b, hm, hoperands⟩ := hown.inter
  cases he with
  | ref hs =>
    obtain ⟨q, hq⟩ := h.shape hs
    cases hq.symm.trans hm
  | union hm' => cases (hv.shape hm).symm.trans hm'
  | inter hm' ha hb =>
    cases (hv.shape hm).symm.trans hm'
    rcases hoperands with ⟨rfl, -⟩ | ⟨rfl, -⟩
    · exact h.not_denotes_param hv (hv.shape hown.param) _ ha
    · exact h.not_denotes_param hv (hv.shape hown.param) _ hb

omit hw in
/-- A comparison of the intersection opens a place for those with the operands of its target. -/
theorem apart_opens {c : ClassTerm} (hv : w ≤ v) (hown : w.OwnInter refs x g t m) (hu : v.Denotes refs u c)
    (hp : p.Apart refs v t m c.depth) (hopens : Opens p (m, u) p') (hd : d < c.depth) : p'.Apart refs v t m d := by
  intro pair hpair
  obtain ⟨a, b, hm, -⟩ := hown.inter
  rcases hopens.pending_cases hpair with rfl | hpair
  · refine ⟨?_, fun _ v' c' hv' hc' => ?_⟩
    · rintro rfl
      cases hm.symm.trans hown.param
    · rwa [hc'.unique h (hv.trans hv') (hu.grow hv')]
  · obtain ⟨hne, hdeep⟩ := hp pair hpair
    exact ⟨hne, fun hsource v' c' hv' hc' => Nat.lt_trans hd (hdeep hsource v' c' hv' hc')⟩

/-- The source of a comparison of the intersection is taken apart. -/
theorem tries_fourth {c : ClassTerm} (hown : w.OwnInter refs x g t m) (hek : e.depth ≤ K) (hgk : g.depth ≤ K)
    (hv : w ≤ v) (hu : v.Denotes refs u c) (hrange : v.Ranges refs s x e f) (hle : ClassTerm.Le w.Below e f)
    (hck : c.depth ≤ K) (hF : max f.depth K + 1 ≤ F) (hp : p.Ready refs v (F + K + 1)) (hfree : (t, u) ∉ p.pending)
    (hn : F + K + 3 ≤ n) : Yields p s v (fourth (isSubType n) m u)
      (Tries s (ClassTerm.Le w.Below e c) (w.Squeezed refs s x e f (max f.depth K + 1))) := by
  obtain ⟨n, rfl⟩ : ∃ n', n = n' + 1 := ⟨n - 1, by omega⟩
  have hparam : ∀ v₁, v ≤ v₁ → Yields p s v₁ (isSubType (n + 1) t u)
      (Tries s (ClassTerm.Le w.Below e c) (w.Squeezed refs s x e f (max f.depth K + 1))) := by
    intro v₁ hv₁
    have hv' := hv.trans hv₁
    exact (h.squeezes hw (d := F + K) hv' (hv'.shape hown.param) (hrange.grow hv₁) hle (hu.grow hv₁) (hp.grow hv₁) hfree
      (by omega) (by omega) (by omega)).tries_imp id fun s' v' hsqueezed => hsqueezed.mono (by omega)
  have hterm : ∀ r v₁, v ≤ v₁ → w.Denotes refs r g → Yields p s v₁ (isSubType (n + 1) r u)
      (Tries s False (w.Squeezed refs s x e f (max f.depth K + 1))) := by
    intro r v₁ hv₁ hr
    have hv' := hv.trans hv₁
    refine (h.decides_le_of_ready hw hv' (hr.grow hv') (hu.grow hv₁) (hp.grow hv₁) (by omega) (by omega)).tries
      fun v₂ hv₂ => ?_
    exact .refl (hrange.grow (hv₁.trans hv₂)) hle (by omega)
  obtain ⟨a, b, hm, ⟨rfl, hb⟩ | ⟨rfl, ha⟩⟩ := hown.inter
  · refine yields_fourth_inter (hv.shape hm) ?_
    exact ((hparam v le_rfl).tries_orElse fun v₁ hv₁ => hterm b v₁ hv₁ hb).tries_imp .inl fun _ _ hsqueezed => hsqueezed
  · refine yields_fourth_inter (hv.shape hm) ?_
    exact ((hterm a v le_rfl ha).tries_orElse fun v₁ hv₁ => hparam v₁ hv₁).tries_imp .inr fun _ _ hsqueezed => hsqueezed

/-- **An intersection of the parameter against a term.** It is accepted at least if the lower end of the parameter is
below the term. The induction is on the allowance; the comparison descends along the term, and each of its references
may narrow the parameter once. -/
theorem meets (hown : w.OwnInter refs x g t m) (hek : e.depth ≤ K) (hgk : g.depth ≤ K) (n : Nat) :
    ∀ {p : Place} {v : World} {u : Ty} {c : ClassTerm} {s : ConstraintStore} {f : ClassTerm}, w ≤ v →
    v.Denotes refs u c → v.Ranges refs s x e f → ClassTerm.Le w.Below e f → c.depth ≤ K →
    max f.depth K + c.leaves ≤ F → p.Ready refs v (F + K + c.depth + 2) → p.Apart refs v t m c.depth →
    F + K + c.depth + 4 ≤ n → Yields p s v (isSubType n m u)
      (Tries s (ClassTerm.Le w.Below e c) (w.Squeezed refs s x e f (max f.depth K + c.leaves))) := by
  induction n with
  | zero => intro p v u c s f _ _ _ _ _ _ _ _ hn; omega
  | succ n ih =>
    intro p v u c s f hv hu hrange hle hck hF hp hapart hn
    have hstd := hw.standard.grow hv
    obtain ⟨a, b, hm, -⟩ := hown.inter
    have hno : ∀ v' e, w ≤ v' → ¬ v'.Denotes refs m e := fun v' e hv' => h.not_denotes_own hown hv' e
    have hmu : m ≠ u := fun hmu => hno v c hv (hmu ▸ hu)
    have hfree : (m, u) ∉ p.pending := fun hpending =>
      Nat.lt_irrefl _ ((hapart _ hpending).2 rfl v c le_rfl hu)
    refine tries_isSubType (hstd.present (hv.shape hm) (by simp)) (hu.present h hw.standard hv) hmu hp.room hp.bounds
      hfree fun p' hp' => ?_
    have hready := hp.opens_other hp' fun v' e' _ hv' he' => absurd he' (hno v' e' (hv.trans hv'))
    have hleaves := c.depth_lt_leaves
    have hparam : (t, u) ∉ p'.pending := by
      intro hpending
      rcases hp'.pending_cases hpending with heq | hpending
      · cases heq
        cases hown.param.symm.trans hm
      · exact (hapart _ hpending).1 rfl
    have hfourth : ∀ v₁, v ≤ v₁ → Yields p' s v₁ (fourth (isSubType n) m u)
        (Tries s (ClassTerm.Le w.Below e c) (w.Squeezed refs s x e f (max f.depth K + c.leaves))) := by
      intro v₁ hv₁
      refine (h.tries_fourth hw hown hek hgk (F := F) (hv.trans hv₁) (hu.grow hv₁) (hrange.grow hv₁) hle hck (by omega)
        ((hready.grow hv₁).mono (by omega)) hparam (by omega)).tries_imp id fun s' v' hsqueezed => ?_
      exact hsqueezed.mono (by omega)
    -- an operand of the target, with the bounds that the operands before it left
    have hoperand : ∀ {u' c' s' f' v'}, c'.depth < c.depth → v ≤ v' → v'.Denotes refs u' c' →
        v'.Ranges refs s' x e f' → ClassTerm.Le w.Below e f' → max f'.depth K + c'.leaves ≤ F →
        Yields p' s' v' (isSubType n m u') (Tries s' (ClassTerm.Le w.Below e c')
          (w.Squeezed refs s' x e f' (max f'.depth K + c'.leaves))) := by
      intro u' c' s' f' v' hd hv' hu' hrange' hle' hF'
      refine ih (hv.trans hv') hu' hrange' hle' (by omega) hF' ((hready.grow hv').mono (by omega)) ?_ (by omega)
      exact fun pair hpair =>
        let ⟨hne, hdeep⟩ := h.apart_opens hv hown hu hapart hp' hd pair hpair
        ⟨hne, fun hsource v'' c'' hv'' => hdeep hsource v'' c'' (hv'.trans hv'')⟩
    have hplain : isPlain (v.shape m) := by rw [shape_of_shape? (hv.shape hm)]; rfl
    cases hu with
    | @ref u cls hs =>
      obtain ⟨q, hq⟩ := h.shape hs
      have hcls : v.decls.isClass cls := by
        rw [hv.decls]
        exact h.isClass hs
      refine (yields_first_named hplain (by rw [shape_of_shape? (hv.shape hm)]; rfl) (hv.shape hq) ?_).of_tries
      exact yields_thirdNamed (hv.shape hq) hcls (h.markers hs).1 (h.markers hs).2 (h.traits hs) hfourth
    | @inter u u₁ u₂ c₁ c₂ hshape h₁ h₂ =>
      have hd₁ : c₁.depth < (ClassTerm.inter c₁ c₂).depth := by simp only [ClassTerm.depth]; omega
      have hd₂ : c₂.depth < (ClassTerm.inter c₁ c₂).depth := by simp only [ClassTerm.depth]; omega
      simp only [ClassTerm.leaves] at hF ⊢
      refine yields_first hplain (by rw [shape_of_shape? hshape]; rfl) (by rw [shape_of_shape? hshape]; rfl)
        (yields_third_inter hshape ?_)
      refine ((hoperand hd₁ le_rfl h₁ hrange hle (by omega)).tries_andThen fun s₁ v₁ hv₁ hsqueezed => ?_).mono
        fun answer s' v' _ hand => ⟨fun hec => hand.1 (ClassTerm.le_inter_iff.1 hec), hand.2⟩
      obtain ⟨f₁, hrange₁, hle₁, hf₁, hdepth₁⟩ := hsqueezed.ranges
      refine (hoperand hd₂ hv₁ (h₂.grow hv₁) hrange₁ hle₁ (by omega)).tries_imp id fun s' v' hsqueezed' => ?_
      exact (hsqueezed.trans hf₁ hsqueezed').mono (by omega)
    | @union u u₁ u₂ c₁ c₂ hshape h₁ h₂ =>
      have hd₁ : c₁.depth < (ClassTerm.union c₁ c₂).depth := by simp only [ClassTerm.depth]; omega
      have hd₂ : c₂.depth < (ClassTerm.union c₁ c₂).depth := by simp only [ClassTerm.depth]; omega
      simp only [ClassTerm.leaves] at hF ⊢
      refine yields_first hplain (by rw [shape_of_shape? hshape]; rfl) (by rw [shape_of_shape? hshape]; rfl)
        (yields_third_union hshape ?_)
      have hleft : Yields p' s v (isSubType n m u₁) (Tries s False
          (w.Squeezed refs s x e f (max f.depth K + (c₁.leaves + c₂.leaves)))) :=
        (hoperand hd₁ le_rfl h₁ hrange hle (by omega)).tries_imp False.elim fun _ _ hs => hs.mono (by omega)
      have hright : ∀ v₁, v ≤ v₁ → Yields p' s v₁ (isSubType n m u₂) (Tries s False
          (w.Squeezed refs s x e f (max f.depth K + (c₁.leaves + c₂.leaves)))) := fun v₁ hv₁ =>
        (hoperand hd₂ hv₁ (h₂.grow hv₁) (hrange.grow hv₁) hle (by omega)).tries_imp False.elim
          fun _ _ hs => hs.mono (by omega)
      have halternatives := hleft.tries_orElse fun v₁ hv₁ =>
        (hright v₁ hv₁).tries_orElse fun v₂ hv₂ => hfourth v₂ (hv₁.trans hv₂)
      exact (halternatives.tries_imp (fun hec => .inr (.inr hec)) fun _ _ hs => hs).of_tries

omit hw in
/-- A union of the parameter is no term. -/
theorem not_denotes_union {a b : Ty} (hv : w ≤ v) (ht : v.shape? t = some (.param x))
    (hu : v.shape? u = some (.union a b)) (hab : a = t ∨ b = t) (e : ClassTerm) : ¬ v.Denotes refs u e := by
  intro he
  cases he with
  | ref hs =>
    obtain ⟨q, hq⟩ := h.shape hs
    cases (hv.shape hq).symm.trans hu
  | inter hu' => cases hu.symm.trans hu'
  | union hu' ha hb =>
    cases hu.symm.trans hu'
    rcases hab with rfl | rfl
    · exact h.not_denotes_param hv ht _ ha
    · exact h.not_denotes_param hv ht _ hb

/-- **The parameter against a union of it.** The upper end of the bounds is compared with the operands, in a place where
the comparison of that end with the parameter can narrow the parameter. -/
theorem joins {a b : Ty} {D : ConstraintStore → World → Prop} (ht : w.shape? t = some (.param x))
    (hu : w.shape? u = some (.union a b)) (hab : a = t ∨ b = t) (hrange : w.Ranges refs s x e f) (hp : p.Idle)
    (hroom : d + 4 ≤ Limits.unlimited.toNat)
    (hrun : ∀ hi p', w.Denotes refs hi f → p'.Ready refs w d → (hi, t) ∉ p'.pending → Yields p' s w
      (isSubType n hi a <||> isSubType n hi b <||> fourth (isSubType n) hi u) fun r s' v => r = true ∧ D s' v) :
    Yields p s w (isSubType (n + 2) t u) fun r s' v => r = true ∧ D s' v := by
  have hstd := hw.standard
  obtain ⟨bounds, lo, hi, hslot, hbounds, -, hhi⟩ := hrange
  have hno : ∀ v e, w ≤ v → ¬ v.Denotes refs u e := fun v e hv =>
    h.not_denotes_union hv (hv.shape ht) (hv.shape hu) hab e
  have hno' : ∀ v e, w ≤ v → ¬ v.Denotes refs t e := fun v e hv => h.not_denotes_param hv (hv.shape ht) e
  have htu : t ≠ u := by
    rintro rfl
    cases ht.symm.trans hu
  have hhiu : hi ≠ u := fun hhiu => hno w f le_rfl (hhiu ▸ hhi)
  have hhit : hi ≠ t := fun hhit => hno' w f le_rfl (hhit ▸ hhi)
  have hready : p.Ready refs w (d + 2) := hp.ready hroom
  refine holds_isSubType (hstd.present ht (by simp)) (hstd.present hu (by simp)) htu hready.room hready.bounds
    (hp.free _) fun p₁ hp₁ => ?_
  have hready₁ : p₁.Ready refs w (d + 1) := hready.opens_other hp₁ fun v e _ hv he => absurd he (hno' v e hv)
  have hfree₁ : ∀ pair ∈ p₁.pending, pair = (t, u) := fun pair hpair =>
    (hp₁.pending_cases hpair).resolve_right (hp.free pair)
  have hsecond : Yields p₁ s w (second (n + 1) (isSubType (n + 1)) t u) fun r s' v => r = true ∧ D s' v := by
    refine yields_second_param hstd ht hslot hbounds (.orElse_true ?_)
    have hnot : (hi, u) ∉ p₁.pending := fun hpair => hhit (congrArg Prod.fst (hfree₁ _ hpair))
    refine (holds_isSubType (hhi.present h hstd le_rfl) (hstd.present hu (by simp)) hhiu hready₁.room hready₁.bounds
      hnot fun p₂ hp₂ => ?_).mono fun r s' v _ hr => ⟨hr.1, rfl, hr.2⟩
    refine yields_first (hhi.isPlain h le_rfl) (by rw [shape_of_shape? hu]; rfl) (by rw [shape_of_shape? hu]; rfl)
      (yields_third_union hu (hrun hi p₂ hhi ?_ fun hpair => ?_))
    · exact hready₁.opens_other hp₂ fun v _ e hv _ => hno v e hv
    · rcases hp₂.pending_cases hpair with heq | hpair
      · exact htu (congrArg Prod.snd heq)
      · exact hhit (congrArg Prod.fst (hfree₁ _ hpair))
  refine .world_bind ?_
  rw [shape_of_shape? hu]
  exact hsecond

/-- The upper end against the parameter. -/
theorem pins {hi : Ty} (hv : w ≤ v) (ht : w.shape? t = some (.param x)) (hrange : w.Ranges refs s x e f)
    (hle : ClassTerm.Le w.Below e f) (hhi : w.Denotes refs hi f) (hp : p.Ready refs w (2 * K + 2))
    (hfree : (hi, t) ∉ p.pending) (he : e.depth ≤ K) (hf : f.depth ≤ K) (hn : 2 * K + 3 ≤ n) :
    Yields p s v (isSubType (n + 1) hi t) fun r s' v' => r = true ∧ w.Pinned refs s x e f s' v' := by
  refine (h.raises hw (d := 2 * K + 1) hv (hv.shape ht) (hrange.grow hv) hle (hhi.grow hv) (hp.grow hv) hfree
    (by omega) (by omega) hn).mono fun r s' v' _ hsettles => ?_
  cases r with
  | true => exact ⟨rfl, hsettles.2.pinned hle⟩
  | false => exact absurd (le_term_refl f) hsettles.1

/-- The parameter against a union of it and anything else. -/
theorem accepts_union_left {b : Ty} (ht : w.shape? t = some (.param x)) (hu : w.shape? u = some (.union t b))
    (hrange : w.Ranges refs s x e f) (hle : ClassTerm.Le w.Below e f) (hp : p.Idle) (he : e.depth ≤ K)
    (hf : f.depth ≤ K) (hroom : 2 * K + 6 ≤ Limits.unlimited.toNat) (hn : 2 * K + 3 ≤ n) :
    Yields p s w (isSubType (n + 3) t u) fun r s' v => r = true ∧ w.Pinned refs s x e f s' v := by
  refine h.joins hw (d := 2 * K + 2) ht hu (.inl rfl) hrange hp hroom fun hi p' hhi hready hfree => ?_
  have hpins := h.pins hw le_rfl ht hrange hle hhi hready hfree he hf hn
  exact .orElse_true (hpins.mono fun _ _ _ _ hr => ⟨hr.1, rfl, hr.2⟩)

/-- The parameter against a union of a term and it. -/
theorem accepts_union_right {a : Ty} (ht : w.shape? t = some (.param x)) (hu : w.shape? u = some (.union a t))
    (ha : w.Denotes refs a g) (hrange : w.Ranges refs s x e f) (hle : ClassTerm.Le w.Below e f) (hp : p.Idle)
    (he : e.depth ≤ K) (hf : f.depth ≤ K) (hg : g.depth ≤ K) (hroom : 2 * K + 6 ≤ Limits.unlimited.toNat)
    (hn : 2 * K + 3 ≤ n) : Yields p s w (isSubType (n + 3) t u) fun r s' v => r = true ∧
      (ClassTerm.Le w.Below f g → s' = s) ∧ (¬ ClassTerm.Le w.Below f g → w.Pinned refs s x e f s' v) := by
  refine h.joins hw (d := 2 * K + 2) ht hu (.inr rfl) hrange hp hroom fun hi p' hhi hready hfree => ?_
  have hterm := h.decides_le_of_ready hw (s := s) (n := n + 1) le_rfl hhi ha hready (by omega) (by omega)
  by_cases hfg : ClassTerm.Le w.Below f g
  · refine .orElse_true ((hterm.decides hfg).mono fun r s' v _ ⟨hr, hs⟩ => ⟨hr, rfl, fun _ => hs, ?_⟩)
    exact fun hnot => absurd hfg hnot
  · refine .orElse (hterm.decides_false hfg) fun v hv => .orElse_true ?_
    have hpins := h.pins hw hv ht hrange hle hhi hready hfree he hf hn
    refine hpins.mono fun r s' v' _ hr => ⟨hr.1, rfl, ?_, fun _ => hr.2⟩
    exact fun hnot => absurd hnot hfg

/-- An intersection of the parameter and a term against the parameter. -/
theorem accepts_inter (hown : w.OwnInter refs x g t m) (hrange : w.Ranges refs s x e f)
    (hle : ClassTerm.Le w.Below e f) (hp : p.Idle) (he : e.depth ≤ K) (hf : f.depth ≤ K) (hg : g.depth ≤ K)
    (hroom : 3 * K + e.leaves + 5 ≤ Limits.unlimited.toNat) (hn : 3 * K + e.leaves + 4 ≤ n) :
    Yields p s w (isSubType (n + 1) m t) fun r s' v => r = true ∧ w.Squeezed refs s x e f (K + e.leaves) s' v := by
  have hstd := hw.standard
  obtain ⟨bounds, lo, hi, hslot, hbounds, hlo, -⟩ := id hrange
  obtain ⟨a, b, hm, -⟩ := hown.inter
  have hmt : m ≠ t := by
    rintro rfl
    cases hm.symm.trans hown.param
  have hready : p.Ready refs w (3 * K + e.leaves + 3) := hp.ready (by omega)
  refine holds_isSubType (hstd.present hm (by simp)) (hstd.present hown.param (by simp)) hmt hready.room hready.bounds
    (hp.free _) fun p' hp' => yields_first_param hstd hown.param hslot hbounds (.orElse_true ?_)
  have hready' := hready.opens_other hp' fun v e' _ hv he' => absurd he' (h.not_denotes_own hown hv e')
  have hapart : p'.Apart refs w t m e.depth := by
    intro pair hpair
    obtain rfl := (hp'.pending_cases hpair).resolve_right (hp.free pair)
    exact ⟨hmt, fun _ v e' hv he' => absurd he' (h.not_denotes_param hv (hv.shape hown.param) e')⟩
  have hmeets := h.meets hw hown he hg n (F := K + e.leaves) le_rfl hlo hrange hle he (by omega)
    (hready'.mono (by omega)) hapart (by omega)
  refine hmeets.mono fun r s' v _ htries => ?_
  cases r with
  | true => exact ⟨rfl, rfl, htries.mono (by omega)⟩
  | false => exact absurd (le_term_refl e) htries.1

end World.Hierarchy

namespace CompareM

variable {n K : Nat} {w : World} {refs : Ty → Symbol → Prop} {c : Comparer} {x : Param} {e f g : ClassTerm} {t u : Ty}

/-- **A parameter against its own unions and intersections.** A parameter is under inference, its bounds are terms of a
hierarchy, one below the other, and no comparison is in progress. The parameter conforms to its union with any type, and
only its upper end is left to be chosen, unless a term that the upper end is below stands in front. Its intersection
with a term, in either order, conforms to it; the lower end stays, and the upper end stays above it. The slots of other
parameters are spared, and nothing changes where the bounds leave no choice. -/
theorem isSubType_own_operand (hw : w.Built) (h : w.Hierarchy refs) (ht : w.shape? t = some (.param x))
    (hrange : w.Ranges refs c.constraint x e f) (hle : ClassTerm.Le w.Below e f) (hu : w.Denotes refs u g)
    (hK : e.depth ≤ K ∧ f.depth ≤ K ∧ g.depth ≤ K) (hroom : 3 * K + e.leaves + 5 ≤ Limits.unlimited.toNat)
    (hn : 3 * K + e.leaves + 5 ≤ n) (hc : c.place.Idle) :
    (∀ r b, w.shape? r = some (.union t b) → ∃ c' v, isSubType n t r c w = .ok ((true, c'), v) ∧
      w.Pinned refs c.constraint x e f c'.constraint v) ∧
    (∀ r, w.shape? r = some (.union u t) → ∃ c' v, isSubType n t r c w = .ok ((true, c'), v) ∧
      (ClassTerm.Le w.Below f g → c'.constraint = c.constraint) ∧
      (¬ ClassTerm.Le w.Below f g → w.Pinned refs c.constraint x e f c'.constraint v)) ∧
    ∀ r, w.shape? r = some (.inter t u) ∨ w.shape? r = some (.inter u t) → ∃ c' v,
      isSubType n r t c w = .ok ((true, c'), v) ∧
      w.Squeezed refs c.constraint x e f (K + e.leaves) c'.constraint v := by
  obtain ⟨he, hf, hg⟩ := hK
  have hleaves := e.depth_lt_leaves
  obtain ⟨n, rfl⟩ : ∃ n', n = n' + 3 := ⟨n - 3, by omega⟩
  refine ⟨fun r b hr => ?_, fun r hr => ?_, fun r hr => ?_⟩
  · exact (h.accepts_union_left hw ht hr hrange hle hc he hf (by omega) (by omega)).accepted
  · exact (h.accepts_union_right hw ht hr hu hrange hle hc he hf hg (by omega) (by omega)).accepted (D := fun s' v =>
      (ClassTerm.Le w.Below f g → s' = c.constraint) ∧
        (¬ ClassTerm.Le w.Below f g → w.Pinned refs c.constraint x e f s' v))
  · have hown : w.OwnInter refs x g t r := by
      rcases hr with hr | hr
      · exact ⟨ht, t, u, hr, .inl ⟨rfl, hu⟩⟩
      · exact ⟨ht, u, t, hr, .inr ⟨rfl, hu⟩⟩
    exact (h.accepts_inter hw hown hrange hle hc he hf hg hroom (by omega)).accepted

/-! ### The least scene -/

/-- The types `[X] X`, `X | Int` and `X & Int`. -/
def ownWorld : World :=
  let w := { SoleParam.leastWorld with
    types := (SoleParam.leastWorld.types.intern (.union SoleParam.least.x Builtin.int.type)).2 }
  { w with types := (w.types.intern (.inter SoleParam.least.x Builtin.int.type)).2 }

theorem ownWorld_built : ownWorld.Built ∧ World.initial ≤ ownWorld := by
  obtain ⟨hw, hle⟩ := SoleParam.leastWorld_built
  refine ⟨?_, hle.trans ((le_intern _ _).trans (le_intern _ _))⟩
  exact .intern (.intern hw _ (.union ⟨rfl, by decide⟩ ⟨rfl, by decide⟩)) _
    (.inter ⟨rfl, by decide⟩ ⟨rfl, by decide⟩)

/-- The unbounded `X` conforms to `X | Int`, and `X & Int` conforms to it. -/
theorem isSubType_own_operand_least : ownWorld.Built ∧ ownWorld.Hierarchy World.BuiltinRef ∧
    ownWorld.Ranges World.BuiltinRef SoleParam.leastComparer.constraint ⟨⟨0⟩, 0⟩ (.ref Builtin.nothing.symbol)
      (.ref Builtin.any.symbol) ∧ SoleParam.leastComparer.place.Idle ∧
    (∃ c' v, isSubType 6 SoleParam.least.x ⟨17⟩ SoleParam.leastComparer ownWorld = .ok ((true, c'), v) ∧
      ownWorld.Pinned World.BuiltinRef SoleParam.leastComparer.constraint ⟨⟨0⟩, 0⟩ (.ref Builtin.nothing.symbol)
        (.ref Builtin.any.symbol) c'.constraint v) ∧
    ∃ c' v, isSubType 6 ⟨18⟩ SoleParam.least.x SoleParam.leastComparer ownWorld = .ok ((true, c'), v) ∧
      ownWorld.Squeezed World.BuiltinRef SoleParam.leastComparer.constraint ⟨⟨0⟩, 0⟩ (.ref Builtin.nothing.symbol)
        (.ref Builtin.any.symbol) 1 c'.constraint v := by
  obtain ⟨hw, hle⟩ := ownWorld_built
  have h : ownWorld.Hierarchy World.BuiltinRef := World.hierarchy_initial.grow World.closed_initial hle
  have href : ∀ b : Builtin, b ∉ [.null, .singleton, .notNull] →
      ownWorld.Denotes World.BuiltinRef b.type (.ref b.symbol) := fun b hb => .ref ⟨b, hb, rfl, rfl⟩
  have hrange : ownWorld.Ranges World.BuiltinRef SoleParam.leastComparer.constraint ⟨⟨0⟩, 0⟩
      (.ref Builtin.nothing.symbol) (.ref Builtin.any.symbol) :=
    ⟨SoleParam.least.bounds, _, _, ⟨_, rfl, rfl⟩, by decide, href .nothing (by decide), href .any (by decide)⟩
  have hc : SoleParam.leastComparer.place.Idle := ⟨rfl, rfl, rfl, rfl⟩
  have hx : ownWorld.shape? SoleParam.least.x = some (.param ⟨⟨0⟩, 0⟩) := by decide
  have hunionShape : ownWorld.shape? ⟨17⟩ = some (.union SoleParam.least.x Builtin.int.type) := by decide
  have hinterShape : ownWorld.shape? ⟨18⟩ = some (.inter SoleParam.least.x Builtin.int.type) := by decide
  obtain ⟨hunion, -, hinter⟩ := isSubType_own_operand (n := 6) (K := 0) hw h hx hrange
    (World.nothing_le_term _) (href .int (by decide)) ⟨Nat.le_refl 0, Nat.le_refl 0, Nat.le_refl 0⟩ (by decide)
    (by decide) hc
  exact ⟨hw, h, hrange, hc, hunion ⟨17⟩ _ hunionShape, hinter ⟨18⟩ (.inl hinterShape)⟩

/-- In the least scene nothing but the upper end is left of `X` after `X <: X | Int`, and nothing but the lower end
after `X & Int <: X`. -/
theorem isSubType_own_operand_narrowed :
    ownWorld.Built ∧ SoleParam.leastComparer.place.Idle ∧
    SoleParam.leastComparer.constraint.bounds? ⟨⟨0⟩, 0⟩ = some SoleParam.least.bounds ∧
    ownWorld.boundsParts? SoleParam.least.bounds = some (Builtin.nothing.type, Builtin.any.type) ∧
    ((isSubType 6 SoleParam.least.x ⟨17⟩ SoleParam.leastComparer ownWorld).toOption.map fun ⟨⟨answer, c⟩, v⟩ =>
      (answer, (c.constraint.bounds? ⟨⟨0⟩, 0⟩).bind v.boundsParts?)) =
        some (true, some (Builtin.any.type, Builtin.any.type)) ∧
    ((isSubType 6 ⟨18⟩ SoleParam.least.x SoleParam.leastComparer ownWorld).toOption.map fun ⟨⟨answer, c⟩, v⟩ =>
      (answer, (c.constraint.bounds? ⟨⟨0⟩, 0⟩).bind v.boundsParts?)) =
        some (true, some (Builtin.nothing.type, Builtin.nothing.type)) := by
  refine ⟨ownWorld_built.1, ⟨rfl, rfl, rfl, rfl⟩, ?_, ?_, ?_, ?_⟩ <;> decide +kernel

end CompareM

end Conformance
