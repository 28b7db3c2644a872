import Conformance.Proofs.Frames
import Conformance.Proofs.Simulation

/-!
# The cascade up to the choice of handles

With nothing under inference, the functions of the cascade answer alike in worlds that match, as long as the nested
comparisons do: `sim_first`. Answers alike are equal answers; where `loose` holds, the second run may also be positive
where the first one is negative, since no function of the cascade turns a positive nested answer into a negative one.
-/

namespace Conformance

namespace CompareM

/-- The comparer stands at `p` and has nothing under inference. -/
abbrev Vacant (p : Place) : Comparer → Prop := Stands (·.slots.entries = []) p

theorem Vacant.tolerant (p : Place) : Tolerant (Vacant p) := by
  refine Stands.tolerant (fun {store b slots} hs hslots => ?_) p
  rw [ConstraintStore.slots?, InsertionMap.find?, hs] at hslots
  cases hslots

/-- Both comparers stand where they are said to and have nothing under inference. -/
abbrev Vacants (p q : Place) : Corr → Comparer → Comparer → Prop := fun _ c d => Vacant p c ∧ Vacant q d

/-- The answers are equal; with `loose`, the second one may also be positive where the first one is negative. -/
def Answers (loose : Prop) : Corr → Bool → Bool → Prop := fun _ b c => b = c ∨ loose ∧ b = false ∧ c = true

/-- The comparison `m₂` answers what `m₁` does, up to the choice of handles. -/
abbrev SimCompare (loose : Prop) (p q : Place) (ρ : Corr) (m₁ m₂ : CompareM Bool) : Prop :=
  SimState loose (Vacants p q) (Vacants p q) ρ (Answers loose) m₁ m₂

section Cascade

variable {loose : Prop} {p q : Place} {ρ σ : Corr}

theorem upward_vacants : Upward (Vacants p q) := fun _ _ _ _ _ => id

theorem sim_answer (b : Bool) : SimCompare loose p q ρ (return b) (return b) := .pure upward_vacants fun _ _ => .inl rfl

theorem sim_of_equal {m₁ m₂ : CompareM Bool} (h : SimState loose (Vacants p q) (Vacants p q) ρ Corr.equal m₁ m₂) :
    SimCompare loose p q ρ m₁ m₂ := by
  have hbind : SimCompare loose p q ρ (m₁ >>= fun b => return b) (m₂ >>= fun b => return b) :=
    .bind_eq h fun _ _ b => sim_answer b
  simpa using hbind

/-- The first comparison goes on alone once the second one has answered positively. -/
theorem sim_alone_left (hloose : loose) {m : CompareM Bool} (hm : Keeps (Vacant p) m) :
    SimCompare loose p q ρ m (return true) := by
  intro σ c d hσ ⟨hc, hd⟩ τ w₁ w₂ hτ hM
  match hr : m c w₁, hm c w₁ hc with
  | .error _, _ => exact trivial
  | .ok ((b, c'), w₁'), ⟨hc', hle⟩ =>
    refine ⟨τ, le_rfl, hM.grow hle le_rfl, ?_, hc', hd⟩
    cases b
    · exact .inr ⟨hloose, rfl, rfl⟩
    · exact .inl rfl

/-- The second comparison goes on alone once the first one has answered negatively. -/
theorem sim_alone_right (hloose : loose) {m : CompareM Bool} (hm : Keeps (Vacant q) m) :
    SimCompare loose p q ρ (return false) m := by
  intro σ c d hσ ⟨hc, hd⟩ τ w₁ w₂ hτ hM
  show Agree loose τ _ (.ok ((false, c), w₁)) (m d w₂)
  match m d w₂, hm d w₂ hd with
  | .error _, _ => exact hloose
  | .ok ((b, d'), w₂'), ⟨hd', hle⟩ =>
    refine ⟨τ, le_rfl, hM.grow le_rfl hle, ?_, hc, hd'⟩
    cases b
    · exact .inl rfl
    · exact .inr ⟨hloose, rfl, rfl⟩

variable {x₁ x₂ y₁ y₂ : CompareM Bool}

theorem sim_orElse (hx : SimCompare loose p q ρ x₁ x₂) (hy : SimCompare loose p q ρ y₁ y₂) (hk : Keeps (Vacant p) y₁) :
    SimCompare loose p q ρ (x₁ <||> y₁) (x₂ <||> y₂) := by
  refine .bind hx fun σ hσ b c hbc => ?_
  rcases hbc with rfl | ⟨hloose, rfl, rfl⟩
  · cases b
    · exact hy.mono hσ
    · exact sim_answer true
  · exact sim_alone_left hloose hk

theorem sim_andThen (hx : SimCompare loose p q ρ x₁ x₂) (hy : SimCompare loose p q ρ y₁ y₂) (hk : Keeps (Vacant q) y₂) :
    SimCompare loose p q ρ (x₁ <&&> y₁) (x₂ <&&> y₂) := by
  refine .bind hx fun σ hσ b c hbc => ?_
  rcases hbc with rfl | ⟨hloose, rfl, rfl⟩
  · cases b
    · exact sim_answer false
    · exact hy.mono hσ
  · exact sim_alone_right hloose hk

theorem sim_allM {α β : Type} {R : Corr → α → β → Prop} (hR : Upward R) {f₁ : α → CompareM Bool}
    {f₂ : β → CompareM Bool} (hf : ∀ σ, ρ ≤ σ → ∀ a b, R σ a b → SimCompare loose p q σ (f₁ a) (f₂ b))
    (hk : ∀ b, Keeps (Vacant q) (f₂ b))
    (l₁ : List α) : ∀ {σ l₂}, ρ ≤ σ → List.Forall₂ (R σ) l₁ l₂ → SimCompare loose p q σ (l₁.allM f₁) (l₂.allM f₂) := by
  induction l₁ with
  | nil =>
    rintro σ _ _ ⟨⟩
    exact sim_answer true
  | cons a l₁ ih =>
    rintro σ _ hσ (_ | @⟨_, b, _, l₂, hab, hl⟩)
    refine .bind (hf σ hσ a b hab) fun τ hτ x y hxy => ?_
    rcases hxy with rfl | ⟨hloose, rfl, rfl⟩
    · cases x
      · exact sim_answer false
      · exact ih (hσ.trans hτ) (hl.imp fun _ _ => hR _ _ hτ _ _)
    · exact sim_alone_right hloose (.allM hk _)

theorem sim_atomically {m₁ m₂ : CompareM Bool} (h : SimCompare loose p q ρ m₁ m₂) :
    SimCompare loose p q ρ (atomically m₁) (atomically m₂) := by
  show SimCompare loose p q ρ (get >>= fun c₀ => _) (get >>= fun d₀ => _)
  refine .get_bind fun σ c₀ d₀ hσ h₀ => .bind (h.mono hσ) fun τ hτ b c hbc => ?_
  intro υ c' d' hυ h'
  have hc := (Vacant.tolerant p).restore h'.1 h₀.1
  have hd := (Vacant.tolerant q).restore h'.2 h₀.2
  rcases hbc with rfl | ⟨hloose, rfl, rfl⟩
  · cases b
    · exact Sim.pure (a := (false, _)) (b := (false, _)) fun _ _ => ⟨.inl rfl, hc, hd⟩
    · exact Sim.pure (a := (true, c')) (b := (true, d')) fun _ _ => ⟨.inl rfl, h'⟩
  · exact Sim.pure (a := (false, _)) (b := (true, d')) fun _ _ => ⟨.inr ⟨hloose, rfl, rfl⟩, hc, h'.2⟩

/-- Nested comparisons that answer alike, whichever handles they are given; binders are opened on both sides. -/
structure Related (loose : Prop) (p q : Place) (ρ : Corr) (sub₁ sub₂ : Ty → Ty → CompareM Bool) : Prop where
  opens : ρ.opens
  keeps₁ : ∀ a b, Keeps (Vacant p) (sub₁ a b)
  keeps₂ : ∀ a b, Keeps (Vacant q) (sub₂ a b)
  sim : ∀ σ, ρ ≤ σ → ∀ {a a' b b'}, σ.ty a a' → σ.ty b b' → SimCompare loose p q σ (sub₁ a b) (sub₂ a' b')

theorem Related.mono {sub₁ sub₂ : Ty → Ty → CompareM Bool} (h : Related loose p q ρ sub₁ sub₂) (hσ : ρ ≤ σ) :
    Related loose p q σ sub₁ sub₂ :=
  ⟨hσ.opens h.opens, h.keeps₁, h.keeps₂, fun τ hτ => h.sim τ (hσ.trans hτ)⟩

variable {n m : Nat} {sub₁ sub₂ : Ty → Ty → CompareM Bool} {t₁ t₂ u₁ u₂ : Ty}

/-- Nothing is under inference, so no parameter has current bounds. -/
theorem sim_currentBounds (a b : Param) :
    SimState loose (Vacants p q) (Vacants p q) ρ (fun _ x y => x = none ∧ y = none) (currentBounds a)
      (currentBounds b) := by
  have hnone : ∀ {p c}, Vacant p c → ∀ (a : Param) w, currentBounds a c w = .ok ((none, c), w) := by
    intro p c hc a w
    have hbounds : c.constraint.bounds? a = none := by
      rw [ConstraintStore.bounds?, ConstraintStore.slots?, InsertionMap.find?, hc.store]
      rfl
    rw [currentBounds_run, hbounds]
    rfl
  rintro σ c d hσ ⟨hc, hd⟩ τ w₁ w₂ hτ hM
  rw [hnone hc, hnone hd]
  exact ⟨τ, le_rfl, hM, ⟨rfl, rfl⟩, hc, hd⟩

theorem sim_same (h : Related loose p q ρ sub₁ sub₂) (ht : ρ.ty t₁ t₂) (hu : ρ.ty u₁ u₂) :
    SimCompare loose p q ρ (same sub₁ t₁ u₁) (same sub₂ t₂ u₂) := by
  refine .of_matches upward_vacants fun σ w₁ w₂ hσ hM => ?_
  have ht := hσ.ty ht
  have hu := hσ.ty hu
  have h := h.mono hσ
  unfold same
  rw [hM.present ht, hM.present hu]
  refine .ite Iff.rfl (sim_answer _) (.ite (hM.ty_inj ht hu) (sim_answer _) (sim_atomically ?_))
  exact sim_andThen (h.sim σ le_rfl ht hu) (h.sim σ le_rfl hu ht) (h.keeps₂ _ _)

theorem sim_sameParams (h : Related loose p q ρ sub₁ sub₂) {l₁ l₂ k₁ k₂ : List Ty} (hl : ρ.tys l₁ l₂)
    (hk : ρ.tys k₁ k₂) (x y : Bool) :
    SimCompare loose p q ρ (sameParams sub₁ l₁ k₁ x y) (sameParams sub₂ l₂ k₂ x y) := by
  unfold sameParams
  refine .ite (by rw [hl.length_eq, hk.length_eq]) (sim_answer _) ?_
  refine sim_allM upward_pairs (fun σ hσ a b hab => ?_) (fun b => ?_) _ le_rfl (Corr.pairs_zip hl hk)
  · refine sim_orElse (sim_same (h.mono hσ) hab.1 hab.2) (.of_matches upward_vacants fun τ w₁ w₂ hτ hM => ?_) (.pure _)
    have htop : isTopPair a.1 a.2 = isTopPair b.1 b.2 := by
      have hobject := fun {a b : Ty} (h : τ.ty a b) => hM.eq_iff h (t := Builtin.object.type) (by decide)
      have hany := fun {a b : Ty} (h : τ.ty a b) => hM.eq_iff h (t := Builtin.any.type) (by decide)
      simp only [isTopPair, hobject (hτ.ty hab.1), hobject (hτ.ty hab.2), hany (hτ.ty hab.1), hany (hτ.ty hab.2)]
    rw [htop]
    exact sim_answer _
  · exact .orElse (keeps_same (Vacant.tolerant q) h.keeps₂ _ _) (.pure _)

theorem sim_infosUnder (ho : ρ.opens) (hnm : loose ∨ n ≤ m) {b c b' c' : BinderId} (hb : ρ.binder b b') (hc : ρ.binder c c')
    {d d' : Binder} (hd : ρ.Binders d d') :
    SimState loose (Vacants p q) (Vacants p q) ρ Corr.tys (infosUnder n b c d) (infosUnder m b' c' d') :=
  .mapM_ty upward_vacants upward_ty (fun _ hσ _ _ hi => .lift upward_vacants
    (sim_renamed (hσ.opens ho) hnm (hσ.binder hb) (hσ.binder hc) hi)) _ le_rfl hd.infos

theorem sim_conformsAsConstructor (hnm : loose ∨ n ≤ m) (h : Related loose p q ρ sub₁ sub₂) (ht : ρ.ty t₁ t₂)
    (hu : ρ.ty u₁ u₂) :
    SimCompare loose p q ρ (conformsAsConstructor n sub₁ t₁ u₁) (conformsAsConstructor m sub₂ t₂ u₂) := by
  have hparams : Sim loose ρ Corr.equal (WorldM.reading (·.openTypeParams n t₁))
      (WorldM.reading (·.openTypeParams m t₂)) :=
    sim_reading fun σ w₁ w₂ hσ hM => simRead_openTypeParams hM hnm (hσ.ty ht)
  have hargs : Sim loose ρ Corr.tys (WorldM.reading (·.typeArgs n u₁)) (WorldM.reading (·.typeArgs m u₂)) :=
    sim_reading fun σ w₁ w₂ hσ hM => simRead_typeArgs hM hnm (hσ.ty hu)
  refine .bind_eq (.lift upward_vacants hparams) fun σ hσ params => ?_
  refine .bind (.lift upward_vacants (hargs.mono hσ)) fun τ hτ args₁ args₂ hargs => ?_
  rw [hargs.length_eq]
  refine .ite Iff.rfl (sim_answer _) ?_
  have hρτ := hσ.trans hτ
  refine .bind (.lift upward_vacants (sim_skolem (hρτ.ty ht))) fun υ hυ base₁ base₂ hbase => ?_
  have hρυ := hρτ.trans hυ
  let R : Corr → Symbol × Ty → Symbol × Ty → Prop := fun σ a b => a.1 = b.1 ∧ σ.ty a.2 b.2
  have hR : Upward R := fun _ _ hσ _ _ h => ⟨h.1, hσ.ty h.2⟩
  have hzip : List.Forall₂ (R υ) (params.zip args₁) (params.zip args₂) := by
    have hargs := Corr.tys_mono hυ hargs
    clear * - hargs
    induction hargs generalizing params with
    | nil => rw [List.zip_nil_right]; exact .nil
    | cons hab _ ih => cases params with
      | nil => exact .nil
      | cons s params => exact .cons ⟨rfl, hab⟩ (ih params)
  refine .bind (sim_allM hR (fun φ hφ a b hab => ?_) (fun b => ?_) _ le_rfl hzip) fun φ hφ x y hxy => ?_
  · obtain ⟨s, i⟩ := a
    obtain ⟨s', j⟩ := b
    obtain ⟨rfl, hij⟩ : s = s' ∧ φ.ty i j := hab
    refine .world_bind upward_vacants fun χ w₁ w₂ hχ hM => ?_
    rw [hM.decls]
    refine .bind (.lift upward_vacants (sim_member ((hφ.trans hχ).ty hbase) _)) fun ψ hψ i₁ i₂ hi => ?_
    refine .bind (.lift upward_vacants (sim_asBounds hi)) fun ω hω x₁ x₂ hx => ?_
    have hij : ω.ty i j := (hχ.trans (hψ.trans hω)).ty hij
    refine .bind (.lift upward_vacants (sim_asBounds hij)) fun ξ hξ y₁ y₂ hy => ?_
    exact h.sim ξ (hρυ.trans (hφ.trans (hχ.trans (hψ.trans (hω.trans hξ))))) (hξ.ty hx) hy
  · refine .bind .world fun w => .bind (.lift (grows_member base₂ _)) fun info => ?_
    exact .bind (.lift (grows_asBounds info)) fun _ => .bind (.lift (grows_asBounds _)) fun _ => h.keeps₂ _ _
  · refine .world_bind upward_vacants fun χ w₁ w₂ hχ hM => ?_
    rw [hM.decls, typeSymbol?_eq hM ((hρυ.trans (hφ.trans hχ)).ty hu)]
    refine .pure upward_vacants fun _ _ => ?_
    rcases hxy with rfl | ⟨hloose, rfl, rfl⟩
    · exact .inl rfl
    · rw [Bool.false_and, Bool.true_and]
      generalize List.all _ _ = b
      cases b
      · exact .inl rfl
      · exact .inr ⟨hloose, rfl, rfl⟩

theorem sim_nullConforms (ht : ρ.ty t₁ t₂) : Sim loose ρ Corr.equal (nullConforms t₁) (nullConforms t₂) := by
  refine .get_bind fun σ w₁ w₂ hσ hM => ?_
  have hcls := dealias_related hM (hσ.ty ht)
  rw [← typeSymbol?_eq hM hcls]
  split
  next hs => exact sim_isReferenceClass (sym_of_typeSymbol? hM hcls hs)
  next => exact .pure_eq _

theorem sim_fourth (h : Related loose p q ρ sub₁ sub₂) (ht : ρ.ty t₁ t₂) (hu : ρ.ty u₁ u₂) :
    SimCompare loose p q ρ (fourth sub₁ t₁ u₁) (fourth sub₂ t₂ u₂) := by
  refine .world_bind upward_vacants fun σ w₁ w₂ hσ hM => ?_
  have hshape := hM.shape (hσ.ty ht)
  have ht := hσ.ty ht
  have hu := hσ.ty hu
  have h := h.mono hσ
  have hrest : SimCompare loose p q σ (do sub₁ (← t₁.underlying) u₁) (do sub₂ (← t₂.underlying) u₂) :=
    .bind (.lift upward_vacants (sim_underlying ht)) fun τ hτ a b hab => h.sim τ hτ hab (hτ.ty hu)
  simp only [hM.decls]
  generalize w₁.shape t₁ = d₁, w₂.shape t₂ = d₂ at hshape ⊢
  cases hshape with
  | named hp s =>
    have hupper : Keeps (Vacant p) (do sub₁ (← t₁.upperBound) u₁) :=
      .bind (.lift (grows_upperBound t₁)) fun _ => h.keeps₁ _ _
    refine .ite Iff.rfl (sim_answer _) (sim_orElse (.ite Iff.rfl ?_ (sim_answer _)) (.ite Iff.rfl (sim_answer _) ?_)
      (.ite (.pure _) hupper))
    · exact sim_of_equal (.lift upward_vacants (sim_nullConforms hu))
    · exact .bind (.lift upward_vacants (sim_upperBound ht)) fun τ hτ a b hab => h.sim τ hτ hab (hτ.ty hu)
  | refined hp n hi => exact h.sim σ le_rfl hp hu
  | inter ha hb => exact sim_orElse (h.sim σ le_rfl ha hu) (h.sim σ le_rfl hb hu) (h.keeps₁ _ _)
  | union ha hb => exact sim_andThen (h.sim σ le_rfl ha hu) (h.sim σ le_rfl hb hu) (h.keeps₂ _ _)
  | path | self | literal | skolem | valueParam => exact hrest
  | fixed | var | param | method | universal | byName | bounds | classInfo => exact sim_answer _

theorem sim_thirdNamed (hnm : loose ∨ n ≤ m) (h : Related loose p q ρ sub₁ sub₂) (ht : ρ.ty t₁ t₂)
    (hu : ρ.ty u₁ u₂) : SimCompare loose p q ρ (thirdNamed n sub₁ t₁ u₁) (thirdNamed m sub₂ t₂ u₂) := by
  refine .bind (.lift upward_vacants (sim_infoOf hu)) fun σ hσ i₁ i₂ hi => ?_
  refine .world_bind upward_vacants fun τ w₁ w₂ hτ hM => ?_
  have hρτ := hσ.trans hτ
  have ht := hρτ.ty ht
  have hu := hρτ.ty hu
  have h := h.mono hρτ
  have hends := hM.boundsParts? (hτ.ty hi)
  generalize w₁.boundsParts? i₁ = x, w₂.boundsParts? i₂ = y at hends ⊢
  cases hends with
  | some hlo => exact sim_orElse (h.sim τ le_rfl ht hlo.1) (sim_fourth h ht hu) (keeps_fourth h.keeps₁ _ _)
  | none =>
    have hstable : Sim loose τ Corr.equal (WorldM.reading (·.isStable n t₁)) (WorldM.reading (·.isStable m t₂)) :=
      sim_reading fun υ w₁ w₂ hυ hM => simRead_isStable hM hnm (hυ.ty ht)
    have hkeeps : Keeps (Vacant p) (fourth sub₁ t₁ u₁) := keeps_fourth h.keeps₁ _ _
    have hkeeps' : Keeps (Vacant p) (conformsAsConstructor n sub₁ t₁ u₁) := keeps_conformsAsConstructor h.keeps₁ _ _
    have hmarkers : ∀ s₂ : Symbol, SimCompare loose p q τ
        ((if s₂ = Builtin.singleton.symbol then WorldM.reading (·.isStable n t₁) else return false) <||>
          (if s₂ = Builtin.notNull.symbol then (t₁.isNotNull : WorldM Bool) else return false) <||>
          (if Builtin.isTrait s₂ then conformsAsConstructor n sub₁ t₁ u₁ else return false) <||> fourth sub₁ t₁ u₁)
        ((if s₂ = Builtin.singleton.symbol then WorldM.reading (·.isStable m t₂) else return false) <||>
          (if s₂ = Builtin.notNull.symbol then (t₂.isNotNull : WorldM Bool) else return false) <||>
          (if Builtin.isTrait s₂ then conformsAsConstructor m sub₂ t₂ u₂ else return false) <||>
          fourth sub₂ t₂ u₂) := by
      intro s₂
      refine sim_orElse (.ite Iff.rfl (sim_of_equal (.lift upward_vacants hstable)) (sim_answer _)) ?_ ?_
      · refine sim_orElse (.ite Iff.rfl (sim_of_equal (.lift upward_vacants (sim_isNotNull ht))) (sim_answer _)) ?_ ?_
        · refine sim_orElse (.ite Iff.rfl ?_ (sim_answer _)) (sim_fourth h ht hu) hkeeps
          exact sim_conformsAsConstructor hnm h ht hu
        · exact .orElse (.ite hkeeps' (.pure _)) hkeeps
      · exact .orElse (.ite (.lift (grows_isNotNull t₁)) (.pure _)) (.orElse (.ite hkeeps' (.pure _)) hkeeps)
    have hshape := hM.shape hu
    generalize w₁.shape u₁ = d₁, w₂.shape u₂ = d₂ at hshape ⊢
    cases hshape with
    | @named _ _ _ s _ => exact hmarkers s
    | _ => exact hmarkers .absent

theorem sim_methods (hnm : loose ∨ n ≤ m) (h : Related loose p q ρ sub₁ sub₂) (ht : ρ.ty t₁ t₂) (hu : ρ.ty u₁ u₂)
    {b c b' c' : BinderId} (hb : ρ.binder b b') (hc : ρ.binder c c') :
    SimCompare loose p q ρ (methods n sub₁ t₁ b u₁ c) (methods m sub₂ t₂ b' u₂ c') := by
  refine .world_bind upward_vacants fun σ w₁ w₂ hσ hM => ?_
  have ho : σ.opens := hσ.opens h.opens
  obtain ⟨d, d', hd₁, hd₂, hd⟩ := hM.binder ho (hσ.binder hb)
  obtain ⟨e, e', he₁, he₂, he⟩ := hM.binder ho (hσ.binder hc)
  simp only [hd₁, hd₂, he₁, he₂]
  have hflags : d'.flags = d.flags := by simp only [Binder.flags, hd.kind]
  have hflags' : e'.flags = e.flags := by simp only [Binder.flags, he.kind]
  rw [hflags, hflags']
  refine .bind (sim_infosUnder ho hnm (hσ.binder hc) (hσ.binder hb) he) fun τ hτ k₁ k₂ hk => ?_
  have hρτ := hσ.trans hτ
  refine .bind_eq (.lift upward_vacants (sim_signature (hρτ.opens h.opens) hnm (hρτ.ty ht))) fun υ hυ sig₁ => ?_
  have hρυ := hρτ.trans hυ
  refine .bind_eq (.lift upward_vacants (sim_signature (hρυ.opens h.opens) hnm (hρυ.ty hu))) fun φ hφ sig₂ => ?_
  have hρφ := hρυ.trans hφ
  refine .ite Iff.rfl (sim_answer _) (sim_andThen ?_ (.ite Iff.rfl (sim_answer _) ?_) (.ite (.pure _) ?_))
  · exact sim_sameParams (h.mono hρφ) (hd.infos.imp fun _ _ => (hτ.trans (hυ.trans hφ)).ty)
      (Corr.tys_mono (hυ.trans hφ) hk) _ _
  · have hresult := (hτ.trans (hυ.trans hφ)).ty he.result
    have hsubst := sim_renamed (hρφ.opens h.opens) hnm (hρφ.binder hc) (hρφ.binder hb) hresult
    refine .bind (.lift upward_vacants hsubst) fun χ hχ x y hxy => ?_
    exact h.sim χ (hρφ.trans hχ) ((hτ.trans (hυ.trans (hφ.trans hχ))).ty hd.result) hxy
  · exact .bind (.lift (grows_substBinder _ _ _ _)) fun _ => h.keeps₂ _ _

theorem sim_universals (hnm : loose ∨ n ≤ m) (h : Related loose p q ρ sub₁ sub₂) (ht : ρ.ty t₁ t₂) (hu : ρ.ty u₁ u₂)
    {b c b' c' : BinderId} (hb : ρ.binder b b') (hc : ρ.binder c c') :
    SimCompare loose p q ρ (universals n sub₁ t₁ b u₁ c) (universals m sub₂ t₂ b' u₂ c') := by
  refine .world_bind upward_vacants fun σ w₁ w₂ hσ hM => ?_
  have ho : σ.opens := hσ.opens h.opens
  obtain ⟨d, d', hd₁, hd₂, hd⟩ := hM.binder ho (hσ.binder hb)
  obtain ⟨e, e', he₁, he₂, he⟩ := hM.binder ho (hσ.binder hc)
  simp only [hd₁, hd₂, he₁, he₂]
  have harity : d'.arity = d.arity := by simp only [Binder.arity, hd.names]
  have harity' : e'.arity = e.arity := by simp only [Binder.arity, he.names]
  rw [harity, harity']
  refine .bind_eq (.lift upward_vacants (sim_signature ho hnm (hσ.ty ht))) fun τ hτ sig₁ => ?_
  have hρτ := hσ.trans hτ
  refine .bind_eq (.lift upward_vacants (sim_signature (hρτ.opens h.opens) hnm (hρτ.ty hu))) fun υ hυ sig₂ => ?_
  have hρυ := hρτ.trans hυ
  have hd := hd.mono (hτ.trans hυ)
  have he := he.mono (hτ.trans hυ)
  have hsubst : ∀ φ, υ ≤ φ → ∀ {x y}, φ.ty x y →
      Sim loose φ Corr.ty (Ty.substBinder n c b x) (Ty.substBinder m c' b' y) := fun φ hφ _ _ hxy =>
    sim_renamed ((hρυ.trans hφ).opens h.opens) hnm ((hρυ.trans hφ).binder hc) ((hρυ.trans hφ).binder hb) hxy
  refine .ite Iff.rfl (sim_answer _) (sim_andThen ?_ ?_ ?_)
  · refine sim_allM upward_pairs (fun φ hφ x y hxy => ?_) (fun y => ?_) _ le_rfl (Corr.pairs_zip hd.infos he.infos)
    · refine .bind (.lift upward_vacants (hsubst φ hφ hxy.2)) fun χ hχ i j hij => ?_
      exact sim_same (h.mono (hρυ.trans (hφ.trans hχ))) (hχ.ty hxy.1) hij
    · exact .bind (.lift (grows_substBinder _ _ _ _)) fun _ => keeps_same (Vacant.tolerant q) h.keeps₂ _ _
  · refine .bind (.lift upward_vacants (hsubst υ le_rfl he.result)) fun φ hφ i j hij => ?_
    exact h.sim φ (hρυ.trans hφ) (hφ.ty hd.result) hij
  · exact .bind (.lift (grows_substBinder _ _ _ _)) fun _ => h.keeps₂ _ _

theorem sim_third (hnm : loose ∨ n ≤ m) (h : Related loose p q ρ sub₁ sub₂) (ht : ρ.ty t₁ t₂) (hu : ρ.ty u₁ u₂) :
    SimCompare loose p q ρ (third n sub₁ t₁ u₁) (third m sub₂ t₂ u₂) := by
  refine .world_bind upward_vacants fun σ w₁ w₂ hσ hM => ?_
  have ht := hσ.ty ht
  have hu := hσ.ty hu
  have h := h.mono hσ
  have hnamed := sim_thirdNamed hnm h ht hu
  have hfourth := sim_fourth h ht hu
  have hkeeps : Keeps (Vacant p) (fourth sub₁ t₁ u₁) := keeps_fourth h.keeps₁ _ _
  have hshape := hM.shape ht
  have hshape' := hM.shape hu
  generalize w₁.shape t₁ = d₁, w₂.shape t₂ = d₂, w₁.shape u₁ = e₁, w₂.shape u₂ = e₂ at hshape hshape' ⊢
  cases hshape' with
  | named => exact hnamed
  | path => exact hnamed
  | refined hp name hi =>
    refine sim_orElse (sim_andThen (h.sim σ le_rfl ht hp) (.ite Iff.rfl (sim_answer _) ?_) (.ite (.pure _) ?_))
      hfourth hkeeps
    · refine .bind (.lift upward_vacants (sim_member ht name)) fun τ hτ i j hij => ?_
      exact h.sim τ hτ hij (hτ.ty hi)
    · exact .bind (.lift (grows_member t₂ _)) fun _ => h.keeps₂ _ _
  | inter ha hb => exact sim_andThen (h.sim σ le_rfl ht ha) (h.sim σ le_rfl ht hb) (h.keeps₂ _ _)
  | union ha hb =>
    refine sim_orElse (h.sim σ le_rfl ht ha) (sim_orElse (h.sim σ le_rfl ht hb) hfourth hkeeps) ?_
    exact .orElse (h.keeps₁ _ _) hkeeps
  | method hc =>
    cases hshape with
    | method hb => exact sim_methods hnm h ht hu hb hc
    | _ => exact hfourth
  | universal hc =>
    cases hshape with
    | universal hb => exact sim_universals hnm h ht hu hb hc
    | _ => exact hfourth
  | byName hr' =>
    cases hshape with
    | byName hr => exact h.sim σ le_rfl hr hr'
    | _ => exact hfourth
  | bounds hlo' hhi' =>
    cases hshape with
    | bounds hlo hhi => exact sim_andThen (h.sim σ le_rfl hlo' hlo) (h.sim σ le_rfl hhi hhi') (h.keeps₂ _ _)
    | classInfo hp c =>
      refine .bind (.lift upward_vacants (sim_named hp c)) fun τ hτ x y hxy => ?_
      exact sim_andThen (h.sim τ hτ (hτ.ty hlo') hxy) (h.sim τ hτ hxy (hτ.ty hhi')) (h.keeps₂ _ _)
    | _ => exact hfourth
  | _ => exact hfourth

theorem sim_second (hnm : loose ∨ n ≤ m) (h : Related loose p q ρ sub₁ sub₂) (ht : ρ.ty t₁ t₂) (hu : ρ.ty u₁ u₂) :
    SimCompare loose p q ρ (second n sub₁ t₁ u₁) (second m sub₂ t₂ u₂) := by
  refine .world_bind upward_vacants fun σ w₁ w₂ hσ hM => ?_
  have hu := hσ.ty hu
  have h := h.mono hσ
  have hthird := sim_third hnm h (hσ.ty ht) hu
  have hshape := hM.shape (hσ.ty ht)
  have hvar := fun {v} => hM.varUnderlying (v := v)
  generalize w₁.shape t₁ = d₁, w₂.shape t₂ = d₂ at hshape ⊢
  cases hshape with
  | fixed k =>
    cases k with
    | wildcard => exact sim_answer _
    | error => exact sim_answer _
    | noType => exact hthird
    | noPrefix => exact hthird
  | var hv => exact h.sim σ le_rfl (hvar hv) hu
  | param hb i =>
    refine .bind (sim_currentBounds _ _) fun τ hτ x y hxy => ?_
    obtain ⟨rfl, rfl⟩ := hxy
    exact hthird.mono hτ
  | _ => exact hthird

theorem nameParts?_related {d₁ d₂ : Shape} (h : ρ.Shapes d₁ d₂) :
    Option.Rel (fun a b => ρ.ty a.1 b.1 ∧ a.2 = b.2) (nameParts? d₁) (nameParts? d₂) := by
  cases h with
  | named hp s => exact .some ⟨hp, rfl⟩
  | path hp s => exact .some ⟨hp, rfl⟩
  | _ => exact .none

theorem sim_names (hopt : p.options.erasedTypes = q.options.erasedTypes) (hnm : loose ∨ n ≤ m)
    (h : Related loose p q ρ sub₁ sub₂) (ht : ρ.ty t₁ t₂) (hu : ρ.ty u₁ u₂) :
    SimCompare loose p q ρ (names n sub₁ t₁ u₁) (names m sub₂ t₂ u₂) := by
  refine .world_bind upward_vacants fun σ w₁ w₂ hσ hM => ?_
  have ht := hσ.ty ht
  have hu := hσ.ty hu
  have h := h.mono hσ
  have hparts := nameParts?_related (hM.shape ht)
  have hparts' := nameParts?_related (hM.shape hu)
  simp only [hM.decls]
  generalize nameParts? (w₁.shape t₁) = x₁, nameParts? (w₂.shape t₂) = x₂, nameParts? (w₁.shape u₁) = y₁,
    nameParts? (w₂.shape u₂) = y₂ at hparts hparts' ⊢
  cases hparts with
  | none => exact sim_answer _
  | @some x x' hx =>
    cases hparts' with
    | none => exact sim_answer _
    | @some y y' hy =>
      obtain ⟨pre₁, s₁, k₁⟩ := x
      obtain ⟨pre₁', s₁', k₁'⟩ := x'
      obtain ⟨pre₂, s₂, k₂⟩ := y
      obtain ⟨pre₂', s₂', k₂'⟩ := y'
      obtain ⟨hpre₁, heq₁⟩ := hx
      obtain ⟨hpre₂, heq₂⟩ := hy
      obtain ⟨rfl, rfl⟩ := Prod.mk.inj heq₁
      obtain ⟨rfl, rfl⟩ := Prod.mk.inj heq₂
      have hpre := h.sim σ le_rfl hpre₁ hpre₂
      have hbase : Keeps (Vacant p) (do
          let base ← Ty.baseType t₁ s₂
          if base.present && base ≠ t₁ then sub₁ base u₁ else return false) :=
        .bind (.lift (grows_baseType t₁ _)) fun _ => .ite (h.keeps₁ _ _) (.pure _)
      have hthird : Keeps (Vacant p) (thirdNamed n sub₁ t₁ u₁) := keeps_thirdNamed h.keeps₁ _ _
      refine .ite Iff.rfl (.get_bind fun τ c d hτ hcd => ?_) (sim_orElse (.ite Iff.rfl hpre (sim_answer _)) ?_ ?_)
      · rw [show c.options = p.options from congrArg Place.options hcd.1.place,
          show d.options = q.options from congrArg Place.options hcd.2.place, hopt]
        exact .ite Iff.rfl (sim_answer _) (hpre.mono hτ)
      · refine sim_orElse (.ite Iff.rfl ?_ (sim_answer _)) (sim_thirdNamed hnm h ht hu) hthird
        refine .bind (.lift upward_vacants (sim_baseType ht s₂)) fun τ hτ b b' hb => ?_
        refine .of_matches upward_vacants fun υ w₁ w₂ hυ hM => ?_
        have hb := hυ.ty hb
        have hcond : (b.present && decide (b ≠ t₁)) = (b'.present && decide (b' ≠ t₂)) := by
          simp only [hM.present hb, ne_eq, hM.ty_inj hb ((hτ.trans hυ).ty ht)]
        rw [hcond]
        exact .ite Iff.rfl (h.sim υ (hτ.trans hυ) hb ((hτ.trans hυ).ty hu)) (sim_answer _)
      · exact .orElse (.ite hbase (.pure _)) hthird

/-- **The cascade does not depend on handles**: related nested comparisons give related comparisons. -/
theorem sim_first (hopt : p.options.erasedTypes = q.options.erasedTypes) (hnm : loose ∨ n ≤ m)
    (h : Related loose p q ρ sub₁ sub₂) (ht : ρ.ty t₁ t₂) (hu : ρ.ty u₁ u₂) :
    SimCompare loose p q ρ (first n sub₁ t₁ u₁) (first m sub₂ t₂ u₂) := by
  refine .world_bind upward_vacants fun σ w₁ w₂ hσ hM => ?_
  have ht := hσ.ty ht
  have hu := hσ.ty hu
  have h := h.mono hσ
  have hsecond := sim_second hnm h ht hu
  have hnames := sim_names hopt hnm h ht hu
  have hshape := hM.shape hu
  have hvar := fun {v} => hM.varUnderlying (v := v)
  rw [(hM.shape ht).isNamed]
  generalize w₁.shape u₁ = d₁, w₂.shape u₂ = d₂ at hshape ⊢
  cases hshape with
  | named => exact .ite Iff.rfl hnames hsecond
  | path => exact .ite Iff.rfl hnames hsecond
  | fixed k =>
    cases k with
    | wildcard => exact sim_answer _
    | error => exact sim_answer _
    | noType => exact hsecond
    | noPrefix => exact hsecond
  | var hv => exact h.sim σ le_rfl ht (hvar hv)
  | param hb i =>
    refine .bind (sim_currentBounds _ _) fun τ hτ x y hxy => ?_
    obtain ⟨rfl, rfl⟩ := hxy
    exact hsecond.mono hτ
  | _ => exact hsecond

end Cascade

end CompareM

end Conformance
