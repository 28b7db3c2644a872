import Conformance.Proofs.Correspondence

/-!
# Computations up to the choice of handles

`Sim loose ρ A m₁ m₂`: started in worlds that match, `m₂` comes to an end whenever `m₁` does, the worlds match again and
the results are related by `A`; with `loose`, `m₂` may also run out of fuel. Everything that the cascade calls is
related to itself in this way: it does the same with other handles. `SimState` says it of computations that carry a
state.
-/

namespace Conformance

/-! ## Computations on the world -/

section Worlds

variable {α β α' β' : Type} {loose : Prop} {ρ σ : Corr}

/-- How two runs from matching worlds may end. -/
def Agree (loose : Prop) (ρ : Corr) (A : Corr → α → β → Prop) :
    Except Halt (α × World) → Except Halt (β × World) → Prop
  | .error _, _ => True
  | .ok _, .error _ => loose
  | .ok (a, w₁), .ok (b, w₂) => ∃ σ, ρ ≤ σ ∧ σ.Matches w₁ w₂ ∧ A σ a b

/-- Where the first run ends, so does the second one. -/
theorem Agree.ends {A : Corr → α → β → Prop} {x : Except Halt (α × World)} {y : Except Halt (β × World)} {a : α}
    {w₁ : World} (h : Agree False ρ A x y) (hx : x = .ok (a, w₁)) :
    ∃ b w₂ σ, y = .ok (b, w₂) ∧ ρ ≤ σ ∧ σ.Matches w₁ w₂ ∧ A σ a b := by
  subst hx
  match y, h with
  | .ok (b, w₂), ⟨σ, hσ, hM, hab⟩ => exact ⟨b, w₂, σ, rfl, hσ, hM, hab⟩

/-- From worlds that match, `m₂` ends as `m₁` does, in worlds that match; with `loose` it may also give no answer. -/
def Sim (loose : Prop) (ρ : Corr) (A : Corr → α → β → Prop) (m₁ : WorldM α) (m₂ : WorldM β) : Prop :=
  ∀ σ w₁ w₂, ρ ≤ σ → σ.Matches w₁ w₂ → Agree loose σ A (m₁ w₁) (m₂ w₂)

/-- What holds up to `ρ` holds up to every extension. -/
def Upward (A : Corr → α → β → Prop) : Prop := ∀ ρ σ, ρ ≤ σ → ∀ a b, A ρ a b → A σ a b

theorem upward_ty : Upward Corr.ty := fun _ _ h _ _ => h.ty

/-- The results are equal. -/
abbrev Corr.equal : Corr → α → α → Prop := fun _ a b => a = b

theorem upward_equal : Upward (Corr.equal : Corr → α → α → Prop) := fun _ _ _ _ _ => id

/-- The results are lists of paired types. -/
abbrev Corr.tys (ρ : Corr) : List Ty → List Ty → Prop := List.Forall₂ ρ.ty

/-- Paired types in both places. -/
def Corr.pairs (ρ : Corr) (a b : Ty × Ty) : Prop := ρ.ty a.1 b.1 ∧ ρ.ty a.2 b.2

theorem upward_pairs : Upward Corr.pairs := fun _ _ h _ _ hab => ⟨h.ty hab.1, h.ty hab.2⟩

theorem Corr.pairs_zip {l₁ l₂ k₁ k₂ : List Ty} (hl : ρ.tys l₁ l₂) (hk : ρ.tys k₁ k₂) :
    List.Forall₂ ρ.pairs (l₁.zip k₁) (l₂.zip k₂) := by
  induction hl generalizing k₁ k₂ with
  | nil => exact .nil
  | cons hab _ ih =>
    rcases hk with _ | ⟨hcd, hk⟩
    · exact .nil
    · exact .cons ⟨hab, hcd⟩ (ih hk)

theorem Corr.tys_mono (h : ρ ≤ σ) {l₁ l₂ : List Ty} (hl : ρ.tys l₁ l₂) : σ.tys l₁ l₂ := hl.imp fun _ _ => h.ty

variable {A : Corr → α → β → Prop} {B : Corr → α' → β' → Prop}

theorem Sim.mono {m₁ : WorldM α} {m₂ : WorldM β} (h : Sim loose ρ A m₁ m₂) (hσ : ρ ≤ σ) : Sim loose σ A m₁ m₂ :=
  fun τ w₁ w₂ hτ => h τ w₁ w₂ (hσ.trans hτ)

theorem Sim.pure {a : α} {b : β} (h : ∀ σ, ρ ≤ σ → A σ a b) : Sim loose ρ A (pure a) (pure b) :=
  fun σ _ _ hσ hM => ⟨σ, le_rfl, hM, h σ hσ⟩

theorem Sim.pure_ty {a b : Ty} (h : ρ.ty a b) : Sim loose ρ Corr.ty (Pure.pure a) (Pure.pure b) :=
  .pure fun _ hσ => hσ.ty h

theorem Sim.pure_eq (a : α) : Sim loose ρ Corr.equal (Pure.pure a) (Pure.pure a) := .pure fun _ _ => rfl

theorem Sim.bind {m₁ : WorldM α} {m₂ : WorldM β} {f₁ : α → WorldM α'} {f₂ : β → WorldM β'} (hm : Sim loose ρ A m₁ m₂)
    (hf : ∀ σ, ρ ≤ σ → ∀ a b, A σ a b → Sim loose σ B (f₁ a) (f₂ b)) : Sim loose ρ B (m₁ >>= f₁) (m₂ >>= f₂) := by
  intro σ w₁ w₂ hσ hM
  show Agree loose σ B (Except.bind (m₁ w₁) fun p => f₁ p.1 p.2) (Except.bind (m₂ w₂) fun p => f₂ p.1 p.2)
  match m₁ w₁, m₂ w₂, hm σ w₁ w₂ hσ hM with
  | .error _, _, _ => exact trivial
  | .ok (a, w₁'), .error _, hloose =>
    show Agree loose σ B (f₁ a w₁') (.error _)
    cases f₁ a w₁' with
    | error e => exact trivial
    | ok r => exact hloose
  | .ok (a, w₁'), .ok (b, w₂'), ⟨τ, hτ, hM', hab⟩ =>
    show Agree loose σ B (f₁ a w₁') (f₂ b w₂')
    match f₁ a w₁', f₂ b w₂', hf τ (hσ.trans hτ) a b hab τ w₁' w₂' le_rfl hM' with
    | .error _, _, _ => exact trivial
    | .ok _, .error _, hloose => exact hloose
    | .ok _, .ok _, ⟨υ, hυ, hend⟩ => exact ⟨υ, hτ.trans hυ, hend⟩

/-- What is made of the results at once needs to hold up to the correspondence of that moment only. -/
theorem Sim.map {m₁ : WorldM α} {m₂ : WorldM β} {f₁ : α → α'} {f₂ : β → β'} (hm : Sim loose ρ A m₁ m₂)
    (hf : ∀ σ, ρ ≤ σ → ∀ a b, A σ a b → B σ (f₁ a) (f₂ b)) :
    Sim loose ρ B (m₁ >>= fun a => Pure.pure (f₁ a)) (m₂ >>= fun b => Pure.pure (f₂ b)) := by
  intro σ w₁ w₂ hσ hM
  show Agree loose σ B (Except.bind (m₁ w₁) fun p => .ok (f₁ p.1, p.2)) (Except.bind (m₂ w₂) fun p => .ok (f₂ p.1, p.2))
  match m₁ w₁, m₂ w₂, hm σ w₁ w₂ hσ hM with
  | .error _, _, _ => exact trivial
  | .ok _, .error _, hloose => exact hloose
  | .ok (a, w₁'), .ok (b, w₂'), ⟨τ, hτ, hM', hab⟩ => exact ⟨τ, hτ, hM', hf τ (hσ.trans hτ) a b hab⟩

theorem Sim.bind_eq {m₁ m₂ : WorldM α} {f₁ : α → WorldM α'} {f₂ : α → WorldM β'} (hm : Sim loose ρ Corr.equal m₁ m₂)
    (hf : ∀ σ, ρ ≤ σ → ∀ a, Sim loose σ B (f₁ a) (f₂ a)) : Sim loose ρ B (m₁ >>= f₁) (m₂ >>= f₂) := by
  refine .bind hm fun σ hσ a b hab => ?_
  obtain rfl : a = b := hab
  exact hf σ hσ a

theorem Sim.get_bind {f₁ : World → WorldM α'} {f₂ : World → WorldM β'}
    (hf : ∀ σ w₁ w₂, ρ ≤ σ → σ.Matches w₁ w₂ → Sim loose σ B (f₁ w₁) (f₂ w₂)) :
    Sim loose ρ B (get >>= f₁) (get >>= f₂) :=
  fun σ w₁ w₂ hσ hM => hf σ w₁ w₂ hσ hM σ w₁ w₂ le_rfl hM

/-- Whatever follows from the worlds matching may be used from the start. -/
theorem Sim.of_matches {m₁ : WorldM α} {m₂ : WorldM β}
    (h : ∀ σ w₁ w₂, ρ ≤ σ → σ.Matches w₁ w₂ → Sim loose σ A m₁ m₂) : Sim loose ρ A m₁ m₂ :=
  fun σ w₁ w₂ hσ hM => h σ w₁ w₂ hσ hM σ w₁ w₂ le_rfl hM

theorem Sim.ite {p q : Prop} [Decidable p] [Decidable q] (hpq : p ↔ q) {m₁ m₁' : WorldM α} {m₂ m₂' : WorldM β}
    (h : Sim loose ρ A m₁ m₂) (h' : Sim loose ρ A m₁' m₂') :
    Sim loose ρ A (if p then m₁ else m₁') (if q then m₂ else m₂') := by
  by_cases hp : p
  · rw [if_pos hp, if_pos (hpq.1 hp)]; exact h
  · rw [if_neg hp, if_neg (mt hpq.2 hp)]; exact h'

/-- Lack of fuel on the first side asks nothing of the second. -/
theorem Sim.halt (e : Halt) {m₂ : WorldM β} : Sim loose ρ A (throw e) m₂ := fun _ _ _ _ _ => trivial

/-- Lack of fuel on the second side needs `loose`. -/
theorem Sim.halt_right (hloose : loose) (e : Halt) {m₁ : WorldM α} : Sim loose ρ A m₁ (throw e) := by
  intro σ w₁ w₂ _ _
  show Agree loose σ A (m₁ w₁) (.error e)
  cases m₁ w₁ with
  | error e => exact trivial
  | ok r => exact hloose

theorem Sim.mapM {γ δ : Type} {R : Corr → γ → δ → Prop} (hR : Upward R) (hA : Upward A) {f₁ : γ → WorldM α}
    {f₂ : δ → WorldM β} (hf : ∀ σ, ρ ≤ σ → ∀ a b, R σ a b → Sim loose σ A (f₁ a) (f₂ b)) (l₁ : List γ) :
    ∀ {ρ' : Corr} {l₂ : List δ}, ρ ≤ ρ' → List.Forall₂ (R ρ') l₁ l₂ →
      Sim loose ρ' (fun τ => List.Forall₂ (A τ)) (l₁.mapM f₁) (l₂.mapM f₂) := by
  induction l₁ with
  | nil =>
    rintro ρ' _ _ ⟨⟩
    simp only [List.mapM_nil]
    exact .pure fun _ _ => .nil
  | cons a l₁ ih =>
    rintro ρ' _ hρ' (_ | ⟨hab, hl⟩)
    simp only [List.mapM_cons]
    refine .bind (hf ρ' hρ' a _ hab) fun σ hσ a' b' hab' => ?_
    refine .bind (ih (hρ'.trans hσ) (hl.imp fun _ _ => hR _ _ hσ _ _)) fun τ hτ l₁' l₂' hl' => ?_
    exact .pure fun υ hυ => .cons (hA _ _ (hτ.trans hυ) _ _ hab') (hl'.imp fun _ _ => hA _ _ hυ _ _)

/-- The computations do the same with paired types. -/
def Likewise (loose : Prop) (ρ : Corr) (A : Corr → α → β → Prop) (f₁ : Ty → WorldM α) (f₂ : Ty → WorldM β) : Prop :=
  ∀ σ, ρ ≤ σ → ∀ a b, σ.ty a b → Sim loose σ A (f₁ a) (f₂ b)

theorem Likewise.mono {f₁ : Ty → WorldM α} {f₂ : Ty → WorldM β} (h : Likewise loose ρ A f₁ f₂) (hσ : ρ ≤ σ) :
    Likewise loose σ A f₁ f₂ := fun τ hτ => h τ (hσ.trans hτ)

theorem Sim.mapM_ty (hA : Upward A) {f₁ : Ty → WorldM α} {f₂ : Ty → WorldM β} (hf : Likewise loose ρ A f₁ f₂)
    {l₁ l₂ : List Ty} (hl : ρ.tys l₁ l₂) :
    Sim loose ρ (fun τ => List.Forall₂ (A τ)) (l₁.mapM f₁) (l₂.mapM f₂) :=
  .mapM upward_ty hA hf l₁ le_rfl hl

theorem Sim.orElse {x₁ y₁ x₂ y₂ : WorldM Bool} (hx : Sim loose ρ Corr.equal x₁ x₂)
    (hy : Sim loose ρ Corr.equal y₁ y₂) : Sim loose ρ Corr.equal (x₁ <||> y₁) (x₂ <||> y₂) :=
  .bind_eq hx fun _ hσ b => by cases b <;> [exact hy.mono hσ; exact .pure_eq _]

theorem sim_intern {d₁ d₂ : Shape} (hd : ρ.Shapes d₁ d₂) :
    Sim loose ρ Corr.ty (WorldM.intern d₁) (WorldM.intern d₂) := by
  intro σ w₁ w₂ hσ hM
  have hM' := hM.grow (le_intern d₁ w₁) (le_intern d₂ w₂)
  exact hM'.exists_ty (TypeTable.shape?_intern _ d₁) (TypeTable.shape?_intern _ d₂) (hd.mono hσ)

theorem sim_freshSkolem : Sim loose ρ Corr.skolem WorldM.freshSkolem WorldM.freshSkolem :=
  fun _ _ _ _ hM => hM.exists_skolem

theorem sim_freshBinder (ho : ρ.opens) (kind : BinderKind) (names : List String) :
    Sim loose ρ Corr.Fresh (WorldM.freshBinder kind names) (WorldM.freshBinder kind names) :=
  fun _ _ _ hσ hM => hM.exists_binder (hσ.opens ho) kind names

theorem sim_fillBinder (ho : ρ.opens) {b c : BinderId} (hbc : ρ.Fresh b c) {infos₁ infos₂ : List Ty} (hinfos : ρ.tys infos₁ infos₂)
    {result₁ result₂ : Ty} (hresult : ρ.ty result₁ result₂) :
    Sim loose ρ Corr.equal (WorldM.fillBinder b infos₁ result₁) (WorldM.fillBinder c infos₂ result₂) :=
  fun σ _ _ hσ hM => ⟨σ, le_rfl, hM.fill (hσ.opens ho) (hbc.mono hσ) (Corr.tys_mono hσ hinfos) (hσ.ty hresult), rfl⟩

end Worlds

/-! ## Building types -/

section Building

variable {loose : Prop} {ρ : Corr} {a₁ a₂ b₁ b₂ t₁ t₂ : Ty}

theorem sim_named (h : ρ.ty t₁ t₂) {s : Symbol} (hs : ρ.sym s) : Sim loose ρ Corr.ty (Ty.named t₁ s) (Ty.named t₂ s) :=
  sim_intern (.named h hs)

theorem sim_skolem (h : ρ.ty t₁ t₂) : Sim loose ρ Corr.ty t₁.skolem t₂.skolem :=
  .bind sim_freshSkolem fun _ hσ _ _ hk => sim_intern (.skolem hk (hσ.ty h))

theorem sim_ref {s : Symbol} (hs : ρ.sym s) : Sim loose ρ Corr.ty s.ref s.ref :=
  .of_matches fun _ _ _ hσ hM => sim_intern (.named (hM.fixed .noPrefix (by decide)) (hσ.sym hs))

theorem sim_inter (ha : ρ.ty a₁ a₂) (hb : ρ.ty b₁ b₂) : Sim loose ρ Corr.ty (Ty.inter a₁ b₁) (Ty.inter a₂ b₂) := by
  refine .of_matches fun σ w₁ w₂ hσ hM => ?_
  have hany : ∀ {t₁ t₂}, σ.ty t₁ t₂ → (t₁ = Builtin.any.type ↔ t₂ = Builtin.any.type) :=
    fun ht => hM.eq_iff ht (by decide)
  have hnothing : ∀ {t₁ t₂}, σ.ty t₁ t₂ → (t₁ = Builtin.nothing.type ↔ t₂ = Builtin.nothing.type) :=
    fun ht => hM.eq_iff ht (by decide)
  have ha := hσ.ty ha
  have hb := hσ.ty hb
  refine .ite (hM.ty_inj ha hb) (.pure_ty ha) ?_
  refine .ite (hany ha) (.pure_ty hb) (.ite (hany hb) (.pure_ty ha) ?_)
  refine .ite (or_congr (hnothing ha) (hnothing hb)) (.pure_ty ?_) (sim_intern (.inter ha hb))
  exact hM.fixed _ (by decide)

theorem sim_union (ha : ρ.ty a₁ a₂) (hb : ρ.ty b₁ b₂) : Sim loose ρ Corr.ty (Ty.union a₁ b₁) (Ty.union a₂ b₂) := by
  refine .of_matches fun σ w₁ w₂ hσ hM => ?_
  have hany : ∀ {t₁ t₂}, σ.ty t₁ t₂ → (t₁ = Builtin.any.type ↔ t₂ = Builtin.any.type) :=
    fun ht => hM.eq_iff ht (by decide)
  have hnothing : ∀ {t₁ t₂}, σ.ty t₁ t₂ → (t₁ = Builtin.nothing.type ↔ t₂ = Builtin.nothing.type) :=
    fun ht => hM.eq_iff ht (by decide)
  have ha := hσ.ty ha
  have hb := hσ.ty hb
  refine .ite (hM.ty_inj ha hb) (.pure_ty ha) ?_
  refine .ite (hnothing ha) (.pure_ty hb) (.ite (hnothing hb) (.pure_ty ha) ?_)
  refine .ite (or_congr (hany ha) (hany hb)) (.pure_ty ?_) (sim_intern (.union ha hb))
  exact hM.fixed _ (by decide)

theorem sim_bounds (ha : ρ.ty a₁ a₂) (hb : ρ.ty b₁ b₂) : Sim loose ρ Corr.ty (Ty.bounds a₁ b₁) (Ty.bounds a₂ b₂) :=
  sim_intern (.bounds ha hb)

theorem sim_asBounds (h : ρ.ty t₁ t₂) : Sim loose ρ Corr.ty t₁.asBounds t₂.asBounds := by
  refine .get_bind fun σ w₁ w₂ hσ hM => ?_
  have h := hσ.ty h
  refine .ite ?_ (sim_bounds h h) (.pure_ty h)
  have hends := hM.boundsParts? h
  generalize w₁.boundsParts? t₁ = x, w₂.boundsParts? t₂ = y at hends ⊢
  rw [hM.present h]
  cases hends <;> simp

theorem sim_paramType {b c : BinderId} (h : ρ.Scope b c) (i : Nat) :
    Sim loose ρ Corr.ty (Param.type ⟨b, i⟩) (Param.type ⟨c, i⟩) := by
  refine .get_bind fun σ w₁ w₂ hσ hM => ?_
  have h := h.mono hσ
  obtain ⟨k, l, hk, hl, hkl⟩ := hM.bindsValues h
  simp only [hk, hl]
  cases k <;> cases l <;> cases hkl
  · exact sim_intern (.param h i)
  · exact sim_intern (.valueParam h i)

theorem sim_binderType (ho : ρ.opens) {b c : BinderId} (h : ρ.binder b c) : Sim loose ρ Corr.ty b.type c.type := by
  refine .get_bind fun σ w₁ w₂ hσ hM => ?_
  have h := hσ.binder h
  simp only [hM.binderKind? (hσ.opens ho) h]
  split
  · exact sim_intern (.method h)
  · exact sim_intern (.universal h)

/-! ## What names and single values stand for -/

theorem sim_infoOf (h : ρ.ty t₁ t₂) : Sim loose ρ Corr.ty t₁.infoOf t₂.infoOf := by
  refine .get_bind fun σ w₁ w₂ hσ hM => ?_
  have hshape := hM.shape (hσ.ty h)
  simp only [hM.decls]
  generalize w₁.shape t₁ = d₁, w₂.shape t₂ = d₂ at hshape ⊢
  cases hshape with
  | named hp hs =>
    dsimp only
    split
    · exact sim_intern (.classInfo hp hs)
    · exact sim_bounds (hM.info hs) (hM.info hs)
    · exact .pure_ty (hM.info hs)
    · exact .pure_ty (hM.info hs)
    · exact .pure_ty hM.noType
  | path hp hs => exact .pure_ty (hM.info hs)
  | _ => exact .pure_ty hM.noType

theorem sim_upperBound (h : ρ.ty t₁ t₂) : Sim loose ρ Corr.ty t₁.upperBound t₂.upperBound := by
  refine .bind (sim_infoOf h) fun σ hσ i₁ i₂ hi => .get_bind fun τ w₁ w₂ hτ hM => .pure_ty ?_
  have hends := hM.boundsParts? (hτ.ty hi)
  generalize w₁.boundsParts? i₁ = x, w₂.boundsParts? i₂ = y at hends ⊢
  cases hends with
  | some hpq => exact hpq.2
  | none => exact hτ.ty hi

theorem sim_underlying (h : ρ.ty t₁ t₂) : Sim loose ρ Corr.ty t₁.underlying t₂.underlying := by
  refine .get_bind fun σ w₁ w₂ hσ hM => ?_
  have hshape := hM.shape (hσ.ty h)
  simp only [hM.decls]
  generalize w₁.shape t₁ = d₁, w₂.shape t₂ = d₂ at hshape ⊢
  cases hshape with
  | path hp hs => exact .pure_ty (hM.info hs)
  | self hc => exact sim_ref hc
  | literal v => cases v <;> exact .pure_ty (hM.fixed _ (by decide))
  | skolem hk hu => exact .pure_ty hu
  | valueParam hb i => exact .pure_ty (hM.paramInfo hb i)
  | var hv => exact .pure_ty (hM.varUnderlying hv)
  | _ => exact .pure_ty hM.noType

theorem sim_ofUnion (ha : ρ.ty a₁ a₂) (hb : ρ.ty b₁ b₂) :
    Sim loose ρ Corr.ty (Member.ofUnion a₁ b₁) (Member.ofUnion a₂ b₂) := by
  refine .get_bind fun σ w₁ w₂ hσ hM => ?_
  have hends := hM.boundsParts? (hσ.ty ha)
  have hends' := hM.boundsParts? (hσ.ty hb)
  generalize w₁.boundsParts? a₁ = x, w₂.boundsParts? a₂ = y, w₁.boundsParts? b₁ = x', w₂.boundsParts? b₂ = y'
    at hends hends' ⊢
  cases hends with
  | none => exact (sim_union ha hb).mono hσ
  | some h =>
    cases hends' with
    | none => exact (sim_union ha hb).mono hσ
    | some h' =>
      refine .bind (sim_inter h.1 h'.1) fun τ hτ lo₁ lo₂ hlo => ?_
      refine .bind (sim_union (hτ.ty h.2) (hτ.ty h'.2)) fun υ hυ hi₁ hi₂ hhi => ?_
      exact sim_bounds (hυ.ty hlo) hhi

end Building

/-! ## Substitution -/

section Rebuilding

variable {loose : Prop} {ρ : Corr} {t₁ t₂ : Ty} {f₁ f₂ : Ty → WorldM Ty}
  {rename₁ rename₂ : BinderId → BinderId → Ty → WorldM Ty}

theorem sim_rebuild₁ (hf : Likewise loose ρ Corr.ty f₁ f₂) {make₁ make₂ : Ty → WorldM Ty}
    (hmake : Likewise loose ρ Corr.ty make₁ make₂) (ht : ρ.ty t₁ t₂) {old₁ old₂ : Ty} (hold : ρ.ty old₁ old₂) :
    Sim loose ρ Corr.ty (Ty.rebuild₁ f₁ t₁ old₁ make₁) (Ty.rebuild₁ f₂ t₂ old₂ make₂) := by
  refine .bind (hf ρ le_rfl _ _ hold) fun σ hσ new₁ new₂ hnew => ?_
  refine .of_matches fun τ w₁ w₂ hτ hM => ?_
  refine .ite (hM.ty_inj (hτ.ty hnew) ((hσ.trans hτ).ty hold)) ?_ ?_
  · exact .pure_ty ((hσ.trans hτ).ty ht)
  · exact hmake τ (hσ.trans hτ) _ _ (hτ.ty hnew)

theorem sim_rebuild₂ (hf : Likewise loose ρ Corr.ty f₁ f₂) {make₁ make₂ : Ty → Ty → WorldM Ty}
    (hmake : ∀ σ, ρ ≤ σ → ∀ {a b}, σ.ty a b → Likewise loose σ Corr.ty (make₁ a) (make₂ b)) (ht : ρ.ty t₁ t₂)
    {a₁ a₂ b₁ b₂ : Ty} (ha : ρ.ty a₁ a₂) (hb : ρ.ty b₁ b₂) :
    Sim loose ρ Corr.ty (Ty.rebuild₂ f₁ t₁ a₁ b₁ make₁) (Ty.rebuild₂ f₂ t₂ a₂ b₂ make₂) := by
  refine .bind (hf ρ le_rfl _ _ ha) fun σ hσ a₁' a₂' ha' => ?_
  refine .bind (hf σ hσ _ _ (hσ.ty hb)) fun τ hτ b₁' b₂' hb' => ?_
  refine .of_matches fun υ w₁ w₂ hυ hM => ?_
  have hρ : ρ ≤ υ := hσ.trans (hτ.trans hυ)
  have ha' : υ.ty a₁' a₂' := hυ.ty (hτ.ty ha')
  have hb' : υ.ty b₁' b₂' := hυ.ty hb'
  have hsame := and_congr (hM.ty_inj ha' (hρ.ty ha)) (hM.ty_inj hb' (hρ.ty hb))
  exact .ite hsame (.pure_ty (hρ.ty ht)) (hmake υ hρ ha' υ le_rfl _ _ hb')

theorem tys_inj {w₁ w₂ : World} (hM : ρ.Matches w₁ w₂) {l₁ l₂ l₁' l₂' : List Ty} (h : ρ.tys l₁ l₂)
    (h' : ρ.tys l₁' l₂') : l₁ = l₁' ↔ l₂ = l₂' := by
  induction h generalizing l₁' l₂' with
  | nil => cases h' <;> simp
  | cons hab hl ih =>
    cases h' with
    | nil => simp
    | cons hab' hl' => rw [List.cons.injEq, List.cons.injEq, hM.ty_inj hab hab', ih hl']

/-- The renamings of parameters do the same with paired types and binders whose parameters are paired. -/
def LikewiseRename (loose : Prop) (ρ : Corr) (rename₁ rename₂ : BinderId → BinderId → Ty → WorldM Ty) : Prop :=
  ∀ σ, ρ ≤ σ → ∀ {b b' c c'}, σ.Scope b b' → σ.Scope c c' →
    Likewise loose σ Corr.ty (rename₁ b c) (rename₂ b' c')

theorem sim_rebuildBinder (ho : ρ.opens) (hf : Likewise loose ρ Corr.ty f₁ f₂) (hr : LikewiseRename loose ρ rename₁ rename₂)
    (ht : ρ.ty t₁ t₂) {b c : BinderId} (hbc : ρ.binder b c) :
    Sim loose ρ Corr.ty (Ty.rebuildBinder f₁ rename₁ t₁ b) (Ty.rebuildBinder f₂ rename₂ t₂ c) := by
  refine .get_bind fun σ w₁ w₂ hσ hM => ?_
  obtain ⟨d₁, d₂, hb, hc, hd⟩ := hM.binder (hσ.opens ho) (hσ.binder hbc)
  simp only [hb, hc]
  refine .bind (Sim.mapM_ty upward_ty (hf.mono hσ) hd.infos) fun τ hτ infos₁ infos₂ hinfos => ?_
  refine .bind (hf τ (hσ.trans hτ) _ _ (hτ.ty hd.result)) fun υ hυ result₁ result₂ hresult => ?_
  refine .of_matches fun φ w₁' w₂' hφ hM' => ?_
  have hρ : ρ ≤ φ := hσ.trans (hτ.trans (hυ.trans hφ))
  have hinfos : φ.tys infos₁ infos₂ := Corr.tys_mono (hυ.trans hφ) hinfos
  have hd : φ.Binders d₁ d₂ := hd.mono (hτ.trans (hυ.trans hφ))
  have hsame := and_congr (tys_inj hM' hinfos hd.infos) (hM'.ty_inj (hφ.ty hresult) hd.result)
  refine .ite hsame (.pure_ty (hρ.ty ht)) ?_
  -- the fresh binders are paired before they are filled in, so the renamings into them correspond
  rw [hd.kind, hd.names]
  refine .bind (sim_freshBinder (hρ.opens ho) d₁.kind d₁.names) fun χ hχ fresh₁ fresh₂ hfresh => ?_
  have ho : χ.opens := (hρ.trans hχ).opens ho
  have hrename : Likewise loose χ Corr.ty (rename₁ b fresh₁) (rename₂ c fresh₂) :=
    hr χ (hρ.trans hχ) (.inl ⟨ho, (hρ.trans hχ).binder hbc⟩) (.inl ⟨ho, hfresh.binder⟩)
  refine .bind (Sim.mapM_ty upward_ty hrename (Corr.tys_mono hχ hinfos)) fun ψ hψ infos₁' infos₂' hinfos' => ?_
  have hresult' : ψ.ty result₁ result₂ := hψ.ty (hχ.ty (hφ.ty hresult))
  refine .bind (hrename ψ hψ _ _ hresult') fun ω hω result₁' result₂' hresult' => ?_
  have hfresh : ω.Fresh fresh₁ fresh₂ := (hfresh.mono hψ).mono hω
  have ho : ω.opens := (hψ.trans hω).opens ho
  refine .bind_eq (sim_fillBinder ho hfresh (Corr.tys_mono hω hinfos') hresult') fun _ hω' _ => ?_
  exact sim_binderType (hω'.opens ho) (hω'.binder hfresh.binder)

theorem sim_mapChildren (ho : ρ.opens) (hf : Likewise loose ρ Corr.ty f₁ f₂) (hr : LikewiseRename loose ρ rename₁ rename₂)
    (ht : ρ.ty t₁ t₂) : Sim loose ρ Corr.ty (Ty.mapChildren f₁ rename₁ t₁) (Ty.mapChildren f₂ rename₂ t₂) := by
  refine .get_bind fun σ w₁ w₂ hσ hM => ?_
  have hshape := hM.shape (hσ.ty ht)
  have ht := hσ.ty ht
  have hf := hf.mono hσ
  have hr : LikewiseRename loose σ rename₁ rename₂ := fun τ hτ => hr τ (hσ.trans hτ)
  generalize w₁.shape t₁ = d₁, w₂.shape t₂ = d₂ at hshape ⊢
  cases hshape with
  | named hp hs => exact sim_rebuild₁ hf (fun _ hσ _ _ h => sim_intern (.named h (hσ.sym hs))) ht hp
  | path hp hs => exact sim_rebuild₁ hf (fun _ hσ _ _ h => sim_intern (.path h (hσ.sym hs))) ht hp
  | classInfo hp hc => exact sim_rebuild₁ hf (fun _ hσ _ _ h => sim_intern (.classInfo h (hσ.sym hc))) ht hp
  | byName hp => exact sim_rebuild₁ hf (fun _ _ _ _ h => sim_intern (.byName h)) ht hp
  | refined hp n hi =>
    exact sim_rebuild₂ hf (fun _ _ _ _ h _ hτ _ _ h' => sim_intern (.refined (hτ.ty h) n h')) ht hp hi
  | bounds ha hb => exact sim_rebuild₂ hf (fun _ _ _ _ h _ hτ _ _ h' => sim_bounds (hτ.ty h) h') ht ha hb
  | inter ha hb => exact sim_rebuild₂ hf (fun _ _ _ _ h _ hτ _ _ h' => sim_inter (hτ.ty h) h') ht ha hb
  | union ha hb => exact sim_rebuild₂ hf (fun _ _ _ _ h _ hτ _ _ h' => sim_union (hτ.ty h) h') ht ha hb
  | method hb => exact sim_rebuildBinder (hσ.opens ho) hf hr ht hb
  | universal hb => exact sim_rebuildBinder (hσ.opens ho) hf hr ht hb
  | _ => exact .pure_ty ht

/-- Renaming goes alike whatever the allowances; only where the second one is smaller it may run out first. -/
theorem sim_substBinder (ho : ρ.opens) {n m : Nat} (hnm : loose ∨ n ≤ m) :
    LikewiseRename loose ρ (Ty.substBinder n) (Ty.substBinder m) := by
  induction n generalizing m ρ with
  | zero => exact fun _ _ _ _ _ _ _ _ _ _ _ _ _ => .halt _
  | succ n ih =>
    intro σ hσ b b' c c' hb hc τ hτ t₁ t₂ ht
    cases m with
    | zero => exact .halt_right (hnm.resolve_right (by omega)) _
    | succ m =>
      have ho : τ.opens := (hσ.trans hτ).opens ho
      have ih : LikewiseRename loose τ (Ty.substBinder n) (Ty.substBinder m) := ih ho (hnm.imp_right (by omega))
      have hb := hb.mono hτ
      have hc := hc.mono hτ
      refine .of_matches fun υ w₁ w₂ hυ hM => ?_
      refine .ite (hM.scope_inj (hb.mono hυ) (hc.mono hυ)) (.pure_ty (hυ.ty ht)) ?_
      refine .get_bind fun φ w₁ w₂ hφ hM => ?_
      have hτφ := hυ.trans hφ
      have ht := hτφ.ty ht
      have hb := hb.mono hτφ
      have hc := hc.mono hτφ
      have hshape := hM.shape ht
      have hchildren := sim_mapChildren (hτφ.opens ho) (ih φ hτφ hb hc) (fun χ hχ => ih χ (hτφ.trans hχ)) ht
      generalize w₁.shape t₁ = d₁, w₂.shape t₂ = d₂ at hshape ⊢
      cases hshape with
      | param hp i => exact .ite (hM.scope_inj hp hb) (sim_paramType hc i) (.pure_ty ht)
      | valueParam hp i => exact .ite (hM.scope_inj hp hb) (sim_paramType hc i) (.pure_ty ht)
      | _ => exact hchildren

/-- Renaming the parameters of a paired binder to those of another one. -/
theorem sim_renamed (ho : ρ.opens) {n m : Nat} (hnm : loose ∨ n ≤ m) {b c b' c' : BinderId} (hb : ρ.binder b b')
    (hc : ρ.binder c c') (ht : ρ.ty t₁ t₂) :
    Sim loose ρ Corr.ty (Ty.substBinder n b c t₁) (Ty.substBinder m b' c' t₂) :=
  sim_substBinder ho hnm ρ le_rfl (.inl ⟨ho, hb⟩) (.inl ⟨ho, hc⟩) ρ le_rfl _ _ ht

end Rebuilding

/-! ## Computations with a state -/

section States

variable {S₁ S₂ α β α' β' : Type} {loose : Prop} {ρ σ : Corr} {J K L : Corr → S₁ → S₂ → Prop}
  {A : Corr → α → β → Prop} {B : Corr → α' → β' → Prop}

/-- From worlds that match and states with `J`, `m₂` ends as `m₁` does, in worlds that match and states with `K`. -/
def SimState (loose : Prop) (J K : Corr → S₁ → S₂ → Prop) (ρ : Corr) (A : Corr → α → β → Prop)
    (m₁ : StateT S₁ WorldM α) (m₂ : StateT S₂ WorldM β) : Prop :=
  ∀ σ s₁ s₂, ρ ≤ σ → J σ s₁ s₂ → Sim loose σ (fun τ r₁ r₂ => A τ r₁.1 r₂.1 ∧ K τ r₁.2 r₂.2) (m₁ s₁) (m₂ s₂)

namespace SimState

theorem mono {m₁ : StateT S₁ WorldM α} {m₂ : StateT S₂ WorldM β} (h : SimState loose J K ρ A m₁ m₂) (hσ : ρ ≤ σ) :
    SimState loose J K σ A m₁ m₂ := fun τ s₁ s₂ hτ => h τ s₁ s₂ (hσ.trans hτ)

theorem bind {m₁ : StateT S₁ WorldM α} {m₂ : StateT S₂ WorldM β} {f₁ : α → StateT S₁ WorldM α'}
    {f₂ : β → StateT S₂ WorldM β'} (hm : SimState loose J K ρ A m₁ m₂)
    (hf : ∀ σ, ρ ≤ σ → ∀ a b, A σ a b → SimState loose K L σ B (f₁ a) (f₂ b)) :
    SimState loose J L ρ B (m₁ >>= f₁) (m₂ >>= f₂) :=
  fun σ s₁ s₂ hσ hs => Sim.bind (hm σ s₁ s₂ hσ hs) fun τ hτ r₁ r₂ hr =>
    hf τ (hσ.trans hτ) r₁.1 r₂.1 hr.1 τ r₁.2 r₂.2 le_rfl hr.2

theorem bind_eq {m₁ : StateT S₁ WorldM α} {m₂ : StateT S₂ WorldM α} {f₁ : α → StateT S₁ WorldM α'}
    {f₂ : α → StateT S₂ WorldM β'} (hm : SimState loose J K ρ Corr.equal m₁ m₂)
    (hf : ∀ σ, ρ ≤ σ → ∀ a, SimState loose K L σ B (f₁ a) (f₂ a)) :
    SimState loose J L ρ B (m₁ >>= f₁) (m₂ >>= f₂) := by
  refine bind hm fun σ hσ a b hab => ?_
  obtain rfl : a = b := hab
  exact hf σ hσ a

variable (hJ : Upward J)
include hJ

theorem pure {a : α} {b : β} (h : ∀ σ, ρ ≤ σ → A σ a b) : SimState loose J J ρ A (pure a) (pure b) :=
  fun _ s₁ s₂ hσ hs => Sim.pure (a := (a, s₁)) (b := (b, s₂)) fun τ hτ => ⟨h τ (hσ.trans hτ), hJ _ _ hτ _ _ hs⟩

theorem pure_ty {a b : Ty} (h : ρ.ty a b) : SimState loose J J ρ Corr.ty (Pure.pure a) (Pure.pure b) :=
  pure hJ fun _ hσ => hσ.ty h

theorem pure_eq (a : α) : SimState loose J J ρ Corr.equal (Pure.pure a) (Pure.pure a) := pure hJ fun _ _ => rfl

theorem of_matches {m₁ : StateT S₁ WorldM α} {m₂ : StateT S₂ WorldM β}
    (h : ∀ σ w₁ w₂, ρ ≤ σ → σ.Matches w₁ w₂ → SimState loose J K σ A m₁ m₂) : SimState loose J K ρ A m₁ m₂ :=
  fun _ s₁ s₂ hσ hs => .of_matches fun τ w₁ w₂ hτ hM =>
    h τ w₁ w₂ (hσ.trans hτ) hM τ s₁ s₂ le_rfl (hJ _ _ hτ _ _ hs)

/-- A computation on the world alone leaves the states as they are. -/
theorem lift {m₁ : WorldM α} {m₂ : WorldM β} (h : Sim loose ρ A m₁ m₂) :
    SimState loose J J ρ A (liftM m₁) (liftM m₂) := by
  intro σ s₁ s₂ hσ hs
  show Sim loose σ _ (m₁ >>= fun a => Pure.pure (a, s₁)) (m₂ >>= fun b => Pure.pure (b, s₂))
  exact .map (h.mono hσ) fun τ hτ a b hab => ⟨hab, hJ _ _ hτ _ _ hs⟩

theorem world_bind {f₁ : World → StateT S₁ WorldM α'} {f₂ : World → StateT S₂ WorldM β'}
    (hf : ∀ σ w₁ w₂, ρ ≤ σ → σ.Matches w₁ w₂ → SimState loose J K σ B (f₁ w₁) (f₂ w₂)) :
    SimState loose J K ρ B ((liftM (get : WorldM World) : StateT S₁ WorldM World) >>= f₁)
      ((liftM (get : WorldM World) : StateT S₂ WorldM World) >>= f₂) :=
  fun σ s₁ s₂ hσ hs =>
    show Sim loose σ _ (get >>= fun w => f₁ w s₁) (get >>= fun w => f₂ w s₂) from Sim.get_bind fun τ w₁ w₂ hτ hM =>
      hf τ w₁ w₂ (hσ.trans hτ) hM τ s₁ s₂ le_rfl (hJ _ _ hτ _ _ hs)

omit hJ in
theorem get_bind {f₁ : S₁ → StateT S₁ WorldM α'} {f₂ : S₂ → StateT S₂ WorldM β'}
    (hf : ∀ σ s₁ s₂, ρ ≤ σ → J σ s₁ s₂ → SimState loose J K σ B (f₁ s₁) (f₂ s₂)) :
    SimState loose J K ρ B (get >>= f₁) (get >>= f₂) :=
  fun σ s₁ s₂ hσ hs => hf σ s₁ s₂ hσ hs σ s₁ s₂ le_rfl hs

theorem set {s₁ : S₁} {s₂ : S₂} (h : J ρ s₁ s₂) :
    SimState loose J J ρ Corr.equal (set s₁ : StateT S₁ WorldM PUnit) (set s₂ : StateT S₂ WorldM PUnit) :=
  fun _ _ _ hσ _ => Sim.pure (a := (PUnit.unit, s₁)) (b := (PUnit.unit, s₂)) fun _ hτ =>
    ⟨rfl, hJ _ _ (hσ.trans hτ) _ _ h⟩

theorem mapM_ty (hA : Upward A) {f₁ : Ty → StateT S₁ WorldM α} {f₂ : Ty → StateT S₂ WorldM β}
    (hf : ∀ σ, ρ ≤ σ → ∀ a b, σ.ty a b → SimState loose J J σ A (f₁ a) (f₂ b)) (l₁ : List Ty) :
    ∀ {ρ' : Corr} {l₂ : List Ty}, ρ ≤ ρ' → ρ'.tys l₁ l₂ →
      SimState loose J J ρ' (fun τ => List.Forall₂ (A τ)) (l₁.mapM f₁) (l₂.mapM f₂) := by
  induction l₁ with
  | nil =>
    rintro ρ' _ _ ⟨⟩
    simp only [List.mapM_nil]
    exact .pure hJ fun _ _ => .nil
  | cons a l₁ ih =>
    rintro ρ' _ hρ' (_ | ⟨hab, hl⟩)
    simp only [List.mapM_cons]
    refine .bind (hf ρ' hρ' a _ hab) fun σ hσ a' b' hab' => ?_
    refine .bind (ih (hρ'.trans hσ) (Corr.tys_mono hσ hl)) fun τ hτ l₁' l₂' hl' => ?_
    exact .pure hJ fun υ hυ => .cons (hA _ _ (hτ.trans hυ) _ _ hab') (hl'.imp fun _ _ => hA _ _ hυ _ _)

omit hJ in
theorem ite {p q : Prop} [Decidable p] [Decidable q] (hpq : p ↔ q) {m₁ m₁' : StateT S₁ WorldM α}
    {m₂ m₂' : StateT S₂ WorldM β} (h : SimState loose J K ρ A m₁ m₂) (h' : SimState loose J K ρ A m₁' m₂') :
    SimState loose J K ρ A (if p then m₁ else m₁') (if q then m₂ else m₂') := by
  by_cases hp : p
  · rw [if_pos hp, if_pos (hpq.1 hp)]; exact h
  · rw [if_neg hp, if_neg (mt hpq.2 hp)]; exact h'

end SimState

end States

/-! ## Guards -/

namespace Guard

section
variable {κ : Type} [DecidableEq κ] {R : κ → κ → Prop}

omit [DecidableEq κ] in
theorem mem_congr {l₁ l₂ : List κ} (h : List.Forall₂ R l₁ l₂) {a b : κ} (hab : ∀ x y, R x y → (x = a ↔ y = b)) :
    a ∈ l₁ ↔ b ∈ l₂ := by
  induction h with
  | nil => simp
  | cons hxy _ ih => rw [List.mem_cons, List.mem_cons, ih, eq_comm, hab _ _ hxy, eq_comm]

theorem contains_congr {l₁ l₂ : List κ} (h : List.Forall₂ R l₁ l₂) {a b : κ} (hab : ∀ x y, R x y → (x = a ↔ y = b)) :
    l₁.contains a = l₂.contains b := by
  rw [Bool.eq_iff_iff, List.contains_iff_mem, List.contains_iff_mem, mem_congr h hab]

theorem erase_congr {l₁ l₂ : List κ} (h : List.Forall₂ R l₁ l₂) {a b : κ} (hab : ∀ x y, R x y → (x = a ↔ y = b)) :
    List.Forall₂ R (l₁.erase a) (l₂.erase b) := by
  induction h with
  | nil => exact .nil
  | @cons x y l₁ l₂ hxy hl ih =>
    by_cases hx : x = a
    · rw [hx, (hab x y hxy).1 hx]
      simpa using hl
    · have hy : y ≠ b := mt (hab x y hxy).2 hx
      rw [List.erase_cons_tail (by simpa using hx), List.erase_cons_tail (by simpa using hy)]
      exact .cons hxy ih

/-- The same guard with related keys; whether a limit was hit is not compared. -/
structure Alike (R : κ → κ → Prop) (g₁ g₂ : Guard κ) : Prop where
  bounds : g₁.bounds = g₂.bounds
  openKeys : List.Forall₂ R g₁.openKeys g₂.openKeys
  depth : g₁.depth = g₂.depth
  entries : g₁.entries = g₂.entries

variable {g₁ g₂ : Guard κ} {a b : κ}

theorem Alike.enter (h : Alike R g₁ g₂) (hR : R a b) (hab : ∀ x y, R x y → (x = a ↔ y = b)) :
    (g₁.enter a).1 = (g₂.enter b).1 ∧ Alike R (g₁.enter a).2 (g₂.enter b).2 := by
  have hverdict : { g₁ with entries := Limits.tally g₁.entries }.verdict a =
      { g₂ with entries := Limits.tally g₂.entries }.verdict b := by
    simp only [verdict, isOpen, count, h.bounds, h.depth, h.entries, h.openKeys.length_eq,
      contains_congr h.openKeys hab]
    rfl
  simp only [Guard.enter, hverdict]
  split
  · exact ⟨rfl, h.bounds, .cons hR h.openKeys, congrArg (· + 1) h.depth, congrArg Limits.tally h.entries⟩
  · exact ⟨rfl, h.bounds, h.openKeys, h.depth, congrArg Limits.tally h.entries⟩
  · exact ⟨rfl, h.bounds, h.openKeys, h.depth, congrArg Limits.tally h.entries⟩

theorem Alike.leave (h : Alike R g₁ g₂) (hab : ∀ x y, R x y → (x = a ↔ y = b)) :
    (∃ g₁' g₂', g₁.leave a = .ok g₁' ∧ g₂.leave b = .ok g₂' ∧ Alike R g₁' g₂') ∨
      ∃ e, g₁.leave a = .error e := by
  by_cases ha : g₁.isOpen a
  · have hb : g₂.isOpen b := by
      rw [isOpen, ← contains_congr h.openKeys hab]
      exact ha
    refine .inl ⟨_, _, if_pos ha, if_pos hb, h.bounds, erase_congr h.openKeys hab, ?_, h.entries⟩
    exact congrArg (· - 1) h.depth
  · exact .inr ⟨_, if_neg ha⟩

end

end Guard

/-! ## Walks -/

section Walks

variable {α β : Type} {loose : Prop} {ρ σ : Corr} {A : Corr → α → β → Prop}

/-- Walks that do the same under guards of paired types. -/
abbrev SimWalk (loose : Prop) (ρ : Corr) (A : Corr → α → β → Prop) (m₁ : WalkM α) (m₂ : WalkM β) : Prop :=
  SimState loose (fun τ => Guard.Alike τ.ty) (fun τ => Guard.Alike τ.ty) ρ A m₁ m₂

/-- The walks do the same from paired types. -/
def LikewiseWalk (loose : Prop) (ρ : Corr) (A : Corr → α → β → Prop) (next₁ : Ty → WalkM α) (next₂ : Ty → WalkM β) :
    Prop :=
  ∀ σ, ρ ≤ σ → ∀ a b, σ.ty a b → SimWalk loose σ A (next₁ a) (next₂ b)

/-- One level of the walks does the same if the walks it goes on to do. -/
def LikewiseStep (loose : Prop) (ρ : Corr) (A : Corr → α → β → Prop) (step₁ : (Ty → WalkM α) → Ty → WalkM α)
    (step₂ : (Ty → WalkM β) → Ty → WalkM β) : Prop :=
  ∀ σ, ρ ≤ σ → ∀ next₁ next₂, LikewiseWalk loose σ A next₁ next₂ → ∀ a b, σ.ty a b →
    SimWalk loose σ A (step₁ next₁ a) (step₂ next₂ b)

theorem LikewiseStep.mono {step₁ : (Ty → WalkM α) → Ty → WalkM α} {step₂ : (Ty → WalkM β) → Ty → WalkM β}
    (h : LikewiseStep loose ρ A step₁ step₂) (hσ : ρ ≤ σ) : LikewiseStep loose σ A step₁ step₂ :=
  fun τ hτ => h τ (hσ.trans hτ)

theorem upward_alike : Upward fun τ : Corr => Guard.Alike τ.ty :=
  fun _ _ h _ _ hg => ⟨hg.bounds, hg.openKeys.imp fun _ _ => h.ty, hg.depth, hg.entries⟩

theorem sim_inside {refused₁ : α} {refused₂ : β} (hrefused : ∀ σ, ρ ≤ σ → A σ refused₁ refused₂) (hA : Upward A)
    {t₁ t₂ : Ty} (ht : ρ.ty t₁ t₂) {body₁ : WalkM α} {body₂ : WalkM β} (hbody : SimWalk loose ρ A body₁ body₂) :
    SimWalk loose ρ A (Walk.inside refused₁ t₁ body₁) (Walk.inside refused₂ t₂ body₂) := by
  refine .get_bind fun σ g₁ g₂ hσ hg => .of_matches upward_alike fun τ w₁ w₂ hτ hM => ?_
  have ht := (hσ.trans hτ).ty ht
  have henter := (upward_alike _ _ hτ _ _ hg).enter ht fun x y hxy => hM.ty_inj hxy ht
  generalize g₁.enter t₁ = r₁, g₂.enter t₂ = r₂ at henter ⊢
  obtain ⟨e₁, g₁'⟩ := r₁
  obtain ⟨e₂, g₂'⟩ := r₂
  obtain ⟨rfl, hg'⟩ := henter
  refine .bind (.set upward_alike hg') fun υ hυ _ _ _ => .ite Iff.rfl ?_ ?_
  · refine .bind (hbody.mono (hσ.trans (hτ.trans hυ))) fun φ hφ answer₁ answer₂ hanswer => ?_
    refine .get_bind fun χ g₁ g₂ hχ hg => .of_matches upward_alike fun ψ w₁ w₂ hψ hM => ?_
    have ht : ψ.ty t₁ t₂ := (hυ.trans (hφ.trans (hχ.trans hψ))).ty ht
    have hg := upward_alike _ _ hψ _ _ hg
    obtain ⟨g₁', g₂', h₁, h₂, hg'⟩ | ⟨e, he⟩ := hg.leave fun x y hxy => hM.ty_inj hxy ht
    · rw [h₁, h₂]
      show SimState loose _ _ ψ A ((set g₁' : WalkM PUnit) >>= fun _ => pure answer₁)
        ((set g₂' : WalkM PUnit) >>= fun _ => pure answer₂)
      refine .bind (.set upward_alike hg') fun ω hω _ _ _ => .pure upward_alike fun ω' hω' => ?_
      exact hA _ _ (hχ.trans (hψ.trans (hω.trans hω'))) _ _ hanswer
    · rw [he]
      exact fun _ _ _ _ _ => .halt _
  · exact .pure upward_alike fun ω hω => hrefused ω (hσ.trans (hτ.trans (hυ.trans hω)))

theorem sim_descend {refused₁ : α} {refused₂ : β} (hrefused : ∀ σ, ρ ≤ σ → A σ refused₁ refused₂) (hA : Upward A)
    {step₁ : (Ty → WalkM α) → Ty → WalkM α} {step₂ : (Ty → WalkM β) → Ty → WalkM β}
    (hstep : LikewiseStep loose ρ A step₁ step₂) (n : Nat) :
    LikewiseWalk loose ρ A (Walk.descend refused₁ step₁ n) (Walk.descend refused₂ step₂ n) := by
  induction n with
  | zero => exact fun _ _ _ _ _ _ _ _ _ _ => .halt _
  | succ n ih =>
    intro σ hσ a b hab
    refine sim_inside (fun τ hτ => hrefused τ (hσ.trans hτ)) hA hab (hstep σ hσ _ _ ?_ a b hab)
    exact fun τ hτ => ih τ (hσ.trans hτ)

theorem sim_run {refused₁ : α} {refused₂ : β} (hrefused : ∀ σ, ρ ≤ σ → A σ refused₁ refused₂) (hA : Upward A)
    {step₁ : (Ty → WalkM α) → Ty → WalkM α} {step₂ : (Ty → WalkM β) → Ty → WalkM β}
    (hstep : LikewiseStep loose ρ A step₁ step₂) {t₁ t₂ : Ty} (ht : ρ.ty t₁ t₂) :
    Sim loose ρ A (Walk.run refused₁ step₁ t₁) (Walk.run refused₂ step₂ t₂) := by
  have hwalk := sim_descend hrefused hA hstep (Limits.walkDepth.toNat + 1) ρ le_rfl t₁ t₂ ht
  have hguard : Guard.Alike ρ.ty { bounds := .walk } { bounds := .walk } := ⟨rfl, .nil, rfl, rfl⟩
  exact .bind (hwalk ρ _ _ le_rfl hguard) fun σ hσ r₁ r₂ hr => .pure fun τ hτ => hA _ _ hτ _ _ hr.1

/-- Looking up refuses with no type. -/
theorem sim_run_ty {step₁ step₂ : (Ty → WalkM Ty) → Ty → WalkM Ty} (hstep : LikewiseStep loose ρ Corr.ty step₁ step₂)
    {t₁ t₂ : Ty} (ht : ρ.ty t₁ t₂) :
    Sim loose ρ Corr.ty (Walk.run .noType step₁ t₁) (Walk.run .noType step₂ t₂) :=
  .of_matches fun _ _ _ hσ hM => sim_run (fun _ hτ => hτ.ty hM.noType) upward_ty (hstep.mono hσ) (hσ.ty ht)

theorem sim_run_eq {γ : Type} (refused : γ) {step₁ step₂ : (Ty → WalkM γ) → Ty → WalkM γ}
    (hstep : LikewiseStep loose ρ Corr.equal step₁ step₂) {t₁ t₂ : Ty} (ht : ρ.ty t₁ t₂) :
    Sim loose ρ Corr.equal (Walk.run refused step₁ t₁) (Walk.run refused step₂ t₂) :=
  sim_run (fun _ _ => rfl) upward_equal hstep ht

theorem sim_firstPresent {next₁ next₂ : Ty → WalkM Ty} (h : LikewiseWalk loose ρ Corr.ty next₁ next₂) {l₁ : List Ty} :
    ∀ {σ l₂}, ρ ≤ σ → σ.tys l₁ l₂ →
      SimWalk loose σ Corr.ty (Walk.firstPresent next₁ l₁) (Walk.firstPresent next₂ l₂) := by
  induction l₁ with
  | nil =>
    rintro σ _ _ ⟨⟩
    exact .of_matches upward_alike fun _ _ _ _ hM => .pure_ty upward_alike hM.noType
  | cons t l₁ ih =>
    rintro σ _ hσ (_ | ⟨ht, hl⟩)
    refine .bind (h σ hσ _ _ ht) fun τ hτ answer₁ answer₂ hanswer => .of_matches upward_alike fun υ w₁ w₂ hυ hM => ?_
    rw [hM.present (hυ.ty hanswer)]
    refine .ite Iff.rfl (.pure_ty upward_alike (hυ.ty hanswer)) ?_
    exact ih (hσ.trans (hτ.trans hυ)) (Corr.tys_mono (hτ.trans hυ) hl)

/-! ## Looking up -/

/-- How each walk goes on from a single value or an inference variable, and ends at any other shape. -/
theorem sim_rest {γ : Type} {A : Corr → γ → γ → Prop} {next₁ next₂ : Ty → WalkM γ}
    (h : LikewiseWalk loose ρ A next₁ next₂) {t₁ t₂ : Ty} (ht : ρ.ty t₁ t₂) :
    SimWalk loose ρ A (do next₁ (← t₁.underlying)) (do next₂ (← t₂.underlying)) :=
  .bind (.lift upward_alike (sim_underlying ht)) fun σ hσ a b hab => h σ hσ a b hab

section Steps

variable {next₁ next₂ : Ty → WalkM Ty} (h : LikewiseWalk loose ρ Corr.ty next₁ next₂)
include h

theorem sim_ofClass (name : String) {cls : Symbol} (hcls : ρ.sym cls) :
    SimWalk loose ρ Corr.ty (Member.ofClass name next₁ cls) (Member.ofClass name next₂ cls) := by
  refine .world_bind upward_alike fun σ w₁ w₂ hσ hM => ?_
  have hcls := hσ.sym hcls
  simp only [hM.decls]
  split
  · next hm =>
    exact .bind (.lift upward_alike (sim_ref (hM.member hcls hm))) fun τ hτ a b hab => .lift upward_alike (sim_infoOf hab)
  · split
    · next hm => exact .pure_ty upward_alike (hM.info (hM.member hcls hm))
    · exact sim_firstPresent h hσ (hM.parents hcls)

end Steps

theorem sim_memberStep (name : String) : LikewiseStep loose ρ Corr.ty (Member.step name) (Member.step name) := by
  intro ρ _ next₁ next₂ h t₁ t₂ ht
  refine .world_bind upward_alike fun σ w₁ w₂ hσ hM => ?_
  have ht := hσ.ty ht
  have h : LikewiseWalk loose σ Corr.ty next₁ next₂ := fun τ hτ => h τ (hσ.trans hτ)
  have hshape := hM.shape ht
  have hrest := sim_rest h ht
  have hnone : SimWalk loose σ Corr.ty (return .noType) (return .noType) := .pure_ty upward_alike hM.noType
  simp only [hM.decls]
  generalize w₁.shape t₁ = d₁, w₂.shape t₂ = d₂ at hshape ⊢
  cases hshape with
  | named hp hs =>
    refine .ite Iff.rfl (sim_ofClass h name hs) ?_
    exact .bind (.lift upward_alike (sim_upperBound ht)) fun τ hτ a b hab => h τ hτ a b hab
  | classInfo hp hc => exact sim_ofClass h name hc
  | refined hp n hi => exact .ite Iff.rfl (.pure_ty upward_alike hi) (h σ le_rfl _ _ hp)
  | inter ha hb =>
    refine .bind (h σ le_rfl _ _ ha) fun τ hτ i₁ i₂ hi => .of_matches upward_alike fun υ w₁ w₂ hυ hM => ?_
    rw [hM.present (hυ.ty hi)]
    exact .ite Iff.rfl (.pure_ty upward_alike (hυ.ty hi)) (h υ (hτ.trans hυ) _ _ ((hτ.trans hυ).ty hb))
  | union ha hb =>
    refine .bind (h σ le_rfl _ _ ha) fun τ hτ l₁ l₂ hl => .bind (h τ hτ _ _ (hτ.ty hb)) fun υ hυ r₁ r₂ hr => ?_
    refine .of_matches upward_alike fun φ w₁ w₂ hφ hM => ?_
    have hl := (hυ.trans hφ).ty hl
    have hr := hφ.ty hr
    rw [hM.present hl, hM.present hr]
    exact .ite Iff.rfl (.lift upward_alike (sim_ofUnion hl hr)) (.pure_ty upward_alike hM.noType)
  | param hb i => exact h σ le_rfl _ _ (hM.paramUpper hb i)
  | path | self | literal | skolem | valueParam | var => exact hrest
  | fixed | method | universal | byName | bounds => exact hnone

theorem sim_baseTypeStep (cls : Symbol) : LikewiseStep loose ρ Corr.ty (BaseType.step cls) (BaseType.step cls) := by
  intro ρ _ next₁ next₂ h t₁ t₂ ht
  refine .world_bind upward_alike fun σ w₁ w₂ hσ hM => ?_
  have ht := hσ.ty ht
  have h : LikewiseWalk loose σ Corr.ty next₁ next₂ := fun τ hτ => h τ (hσ.trans hτ)
  have hshape := hM.shape ht
  have hrest := sim_rest h ht
  have hnone : SimWalk loose σ Corr.ty (return .noType) (return .noType) := .pure_ty upward_alike hM.noType
  simp only [hM.decls, World.declaresType]
  generalize w₁.shape t₁ = d₁, w₂.shape t₂ = d₂ at hshape ⊢
  cases hshape with
  | named hp hs =>
    refine .ite Iff.rfl (.pure_ty upward_alike ht) (.ite Iff.rfl (sim_firstPresent h le_rfl (hM.parents hs)) ?_)
    exact .bind (.lift upward_alike (sim_upperBound ht)) fun τ hτ a b hab => h τ hτ a b hab
  | classInfo hp hc => exact .bind (.lift upward_alike (sim_named hp hc)) fun τ hτ a b hab => h τ hτ a b hab
  | refined hp n hi =>
    refine .bind (h σ le_rfl _ _ hp) fun τ hτ b₁ b₂ hb => .of_matches upward_alike fun υ w₁ w₂ hυ hM => ?_
    have hb := hυ.ty hb
    rw [hM.present hb]
    refine .ite Iff.rfl (.lift upward_alike ?_) (.pure_ty upward_alike hb)
    exact sim_intern (.refined hb n ((hτ.trans hυ).ty hi))
  | inter ha hb =>
    refine .bind (h σ le_rfl _ _ ha) fun τ hτ l₁ l₂ hl => .bind (h τ hτ _ _ (hτ.ty hb)) fun υ hυ r₁ r₂ hr => ?_
    refine .of_matches upward_alike fun φ w₁ w₂ hφ hM => ?_
    have hl := (hυ.trans hφ).ty hl
    have hr := hφ.ty hr
    rw [hM.present hl, hM.present hr]
    refine .ite Iff.rfl (.lift upward_alike (sim_inter hl hr)) (.ite Iff.rfl ?_ ?_)
    · exact .pure_ty upward_alike hl
    · exact .pure_ty upward_alike hr
  | union ha hb =>
    refine .bind (h σ le_rfl _ _ ha) fun τ hτ l₁ l₂ hl => .bind (h τ hτ _ _ (hτ.ty hb)) fun υ hυ r₁ r₂ hr => ?_
    refine .of_matches upward_alike fun φ w₁ w₂ hφ hM => ?_
    have hl := (hυ.trans hφ).ty hl
    have hr := hφ.ty hr
    rw [hM.present hl, hM.present hr]
    exact .ite Iff.rfl (.lift upward_alike (sim_union hl hr)) (.pure_ty upward_alike hM.noType)
  | param hb i => exact h σ le_rfl _ _ (hM.paramUpper hb i)
  | path | self | literal | skolem | valueParam | var => exact hrest
  | fixed | method | universal | byName | bounds => exact hnone

section LookUps

variable {t₁ t₂ : Ty}

theorem sim_member (h : ρ.ty t₁ t₂) (name : String) : Sim loose ρ Corr.ty (t₁.member name) (t₂.member name) :=
  sim_run_ty (sim_memberStep name) h

theorem sim_baseType (h : ρ.ty t₁ t₂) (cls : Symbol) : Sim loose ρ Corr.ty (t₁.baseType cls) (t₂.baseType cls) :=
  sim_run_ty (sim_baseTypeStep cls) h

theorem sim_derivesFrom {cls : Symbol} (hcls : ρ.sym cls) (base : Symbol) :
    Sim loose ρ Corr.equal (cls.derivesFrom base) (cls.derivesFrom base) := by
  refine .get_bind fun σ w₁ w₂ hσ hM => ?_
  rw [hM.decls]
  refine .ite Iff.rfl (.pure_eq _) (.ite Iff.rfl (.pure_eq _) ?_)
  refine .bind (sim_ref (hσ.sym hcls)) fun τ hτ a b hab => .bind (sim_baseType hab base) fun υ hυ a' b' hab' => ?_
  refine .of_matches fun φ w₁ w₂ hφ hM => ?_
  rw [hM.present (hφ.ty hab')]
  exact .pure_eq _

theorem sim_isReferenceClass {s : Symbol} (hs : ρ.sym s) : Sim loose ρ Corr.equal s.isReferenceClass s.isReferenceClass := by
  refine .get_bind fun σ w₁ w₂ hσ hM => ?_
  rw [hM.decls]
  refine .ite Iff.rfl (.pure_eq _) (.bind_eq (sim_derivesFrom (hσ.sym hs) _) fun _ hτ _ => ?_)
  exact .ite Iff.rfl (.pure_eq _) (sim_derivesFrom ((hσ.trans hτ).sym hs) _)

theorem sim_isNotNull (h : ρ.ty t₁ t₂) : Sim loose ρ Corr.equal t₁.isNotNull t₂.isNotNull := by
  refine sim_run_eq false ?_ h
  intro ρ _ next₁ next₂ h t₁ t₂ ht
  refine .world_bind upward_alike fun σ w₁ w₂ hσ hM => ?_
  have ht := hσ.ty ht
  have h : LikewiseWalk loose σ Corr.equal next₁ next₂ := fun τ hτ => h τ (hσ.trans hτ)
  have hshape := hM.shape ht
  have hrest := sim_rest h ht
  have hanswer : ∀ b : Bool, SimWalk loose σ Corr.equal (return b) (return b) := fun b => .pure_eq upward_alike b
  simp only [hM.decls]
  generalize w₁.shape t₁ = d₁, w₂.shape t₂ = d₂ at hshape ⊢
  cases hshape with
  | named hp hs =>
    refine .ite Iff.rfl (.lift upward_alike ?_) ?_
    · exact .ite Iff.rfl (.pure_eq _) (.orElse (sim_derivesFrom hs _) (sim_derivesFrom hs _))
    · exact .bind (.lift upward_alike (sim_upperBound ht)) fun τ hτ a b hab => h τ hτ a b hab
  | refined hp n hi => exact h σ le_rfl _ _ hp
  | inter ha hb =>
    refine .bind_eq (h σ le_rfl _ _ ha) fun τ hτ b => ?_
    cases b
    · exact h τ hτ _ _ (hτ.ty hb)
    · exact (hanswer true).mono hτ
  | union ha hb =>
    refine .bind_eq (h σ le_rfl _ _ ha) fun τ hτ b => ?_
    cases b
    · exact (hanswer false).mono hτ
    · exact h τ hτ _ _ (hτ.ty hb)
  | literal | self => exact hanswer true
  | path | skolem | valueParam | var => exact hrest
  | fixed | method | universal | byName | bounds | param | classInfo => exact hanswer false

theorem sim_erasedName (ho : ρ.opens) (h : ρ.ty t₁ t₂) : Sim loose ρ Corr.equal t₁.erasedName t₂.erasedName := by
  refine sim_run_eq "" ?_ h
  intro ρ hρ next₁ next₂ h t₁ t₂ ht
  refine .world_bind upward_alike fun σ w₁ w₂ hσ hM => ?_
  have ho : σ.opens := (hρ.trans hσ).opens ho
  have ht := hσ.ty ht
  have h : LikewiseWalk loose σ Corr.equal next₁ next₂ := fun τ hτ => h τ (hσ.trans hτ)
  have hshape := hM.shape ht
  have hrest := sim_rest h ht
  have hname : ∀ name : String, SimWalk loose σ Corr.equal (return name) (return name) :=
    fun name => .pure_eq upward_alike name
  simp only [hM.decls]
  generalize w₁.shape t₁ = d₁, w₂.shape t₂ = d₂ at hshape ⊢
  cases hshape with
  | named hp hs =>
    refine .ite Iff.rfl (hname _) (.ite Iff.rfl (hname _) ?_)
    exact .bind (.lift upward_alike (sim_upperBound ht)) fun τ hτ a b hab => h τ hτ a b hab
  | refined hp n hi => exact h σ le_rfl _ _ hp
  | inter ha hb => exact h σ le_rfl _ _ ha
  | byName hp => exact h σ le_rfl _ _ hp
  | param hb i => exact h σ le_rfl _ _ (hM.paramUpper hb i)
  | method hb =>
    obtain ⟨d₁, d₂, h₁, h₂, hd⟩ := hM.binder ho hb
    simp only [h₁, h₂]
    exact h σ le_rfl _ _ hd.result
  | universal hb =>
    obtain ⟨d₁, d₂, h₁, h₂, hd⟩ := hM.binder ho hb
    simp only [h₁, h₂]
    exact h σ le_rfl _ _ hd.result
  | classInfo | union => exact hname _
  | path | self | literal | skolem | valueParam | var => exact hrest
  | fixed | bounds => exact hname _

theorem sim_signature (ho : ρ.opens) {n m : Nat} (hnm : loose ∨ n ≤ m) (h : ρ.ty t₁ t₂) :
    Sim loose ρ Corr.equal (t₁.signature n) (t₂.signature m) := by
  induction n generalizing m t₁ t₂ ρ with
  | zero => exact .halt _
  | succ n ih =>
    cases m with
    | zero => exact .halt_right (hnm.resolve_right (by omega)) _
    | succ m =>
      refine .get_bind fun σ w₁ w₂ hσ hM => ?_
      have ho : σ.opens := hσ.opens ho
      have ht := hσ.ty h
      have hshape := hM.shape ht
      have hname : Sim loose σ Corr.equal (do return ({ params := [], result := ← t₁.erasedName } : Signature))
          (do return ({ params := [], result := ← t₂.erasedName } : Signature)) :=
        .bind_eq (sim_erasedName ho ht) fun _ _ _ => .pure_eq _
      generalize w₁.shape t₁ = d₁, w₂.shape t₂ = d₂ at hshape ⊢
      cases hshape with
      | method hb =>
        obtain ⟨d₁, d₂, h₁, h₂, hd⟩ := hM.binder ho hb
        simp only [h₁, h₂]
        have hnames : Likewise loose σ Corr.equal Ty.erasedName Ty.erasedName := fun _ hτ _ _ hab => sim_erasedName (hτ.opens ho) hab
        refine .bind (.mapM_ty upward_equal hnames hd.infos) fun τ hτ params₁ params₂ hparams => ?_
        obtain rfl : params₁ = params₂ := List.forall₂_eq_eq_eq ▸ hparams
        exact .bind_eq (sim_erasedName (hτ.opens ho) (hτ.ty hd.result)) fun _ _ result => .pure_eq _
      | universal hb =>
        obtain ⟨d₁, d₂, h₁, h₂, hd⟩ := hM.binder ho hb
        simp only [h₁, h₂]
        exact ih ho (hnm.imp_right (by omega)) hd.result
      | _ => exact hname

end LookUps

end Walks

/-! ## Readers -/

section Readers

variable {α β γ : Type} {loose : Prop} {ρ : Corr} {w₁ w₂ : World} {t₁ t₂ : Ty}

/-- The second reader answers as the first one does; with `loose` it may also give no answer. -/
def SimRead (loose : Prop) (A : α → β → Prop) : Except Halt α → Except Halt β → Prop
  | .error _, _ => True
  | .ok _, .error _ => loose
  | .ok a, .ok b => A a b

theorem SimRead.bind {A : α → β → Prop} {B : γ → δ → Prop} {x₁ : Except Halt α} {x₂ : Except Halt β}
    {f₁ : α → Except Halt γ} {f₂ : β → Except Halt δ} (hx : SimRead loose A x₁ x₂)
    (hf : ∀ a b, A a b → SimRead loose B (f₁ a) (f₂ b)) : SimRead loose B (x₁ >>= f₁) (x₂ >>= f₂) := by
  match x₁, x₂, hx with
  | .error _, _, _ => exact trivial
  | .ok a, .error _, hloose =>
    show SimRead loose B (f₁ a) (.error _)
    cases f₁ a with
    | error e => exact trivial
    | ok r => exact hloose
  | .ok a, .ok b, hab => exact hf a b hab

theorem SimRead.right {A : α → β → Prop} (hloose : loose) (e : Halt) (x₁ : Except Halt α) :
    SimRead loose A x₁ (.error e) := by
  cases x₁ with
  | error e => exact trivial
  | ok r => exact hloose

theorem SimRead.mapM {δ : Type} {A : α → β → Prop} {f₁ : δ → Except Halt α} {f₂ : δ → Except Halt β} {l : List δ}
    (hf : ∀ a ∈ l, SimRead loose A (f₁ a) (f₂ a)) : SimRead loose (List.Forall₂ A) (l.mapM f₁) (l.mapM f₂) := by
  induction l with
  | nil => exact .nil
  | cons a l ih =>
    rw [List.mapM_cons, List.mapM_cons]
    exact .bind (hf a (.head _)) fun b c hbc =>
      .bind (ih fun a ha => hf a (.tail _ ha)) fun bs cs hbcs => .cons hbc hbcs

theorem SimRead.filterM {f₁ f₂ : α → Except Halt Bool} (hf : ∀ a, SimRead loose Eq (f₁ a) (f₂ a)) (l : List α) :
    SimRead loose Eq (l.filterM f₁) (l.filterM f₂) := by
  have haux : ∀ l acc : List α, SimRead loose Eq (List.filterAuxM f₁ l acc) (List.filterAuxM f₂ l acc) := by
    intro l
    induction l with
    | nil => exact fun _ => rfl
    | cons a l ih =>
      refine fun acc => .bind (hf a) fun b c hbc => ?_
      obtain rfl : b = c := hbc
      exact ih _
  refine .bind (haux l []) fun as bs h => ?_
  obtain rfl : as = bs := h
  exact rfl

theorem Guard.Alike.enter_ty (hM : ρ.Matches w₁ w₂) {g₁ g₂ : Guard Ty} (hg : Guard.Alike ρ.ty g₁ g₂)
    (ht : ρ.ty t₁ t₂) : (g₁.enter t₁).1 = (g₂.enter t₂).1 ∧ Guard.Alike ρ.ty (g₁.enter t₁).2 (g₂.enter t₂).2 :=
  hg.enter ht fun _ _ hxy => hM.ty_inj hxy ht

theorem aliased?_related (hM : ρ.Matches w₁ w₂) (ht : ρ.ty t₁ t₂) :
    Option.Rel ρ.ty (w₁.aliased? t₁) (w₂.aliased? t₂) := by
  have hshape := hM.shape ht
  simp only [World.aliased?, hM.decls]
  generalize w₁.shape t₁ = d₁, w₂.shape t₂ = d₂ at hshape ⊢
  cases hshape with
  | named hp hs =>
    dsimp only
    split
    · exact .some (hM.info hs)
    · exact .none
  | _ => exact .none

theorem dealiasFrom_related (hM : ρ.Matches w₁ w₂) (n : Nat) : ∀ {g₁ g₂ : Guard Ty} {t₁ t₂ : Ty},
    Guard.Alike ρ.ty g₁ g₂ → ρ.ty t₁ t₂ → ρ.ty (w₁.dealiasFrom n g₁ t₁) (w₂.dealiasFrom n g₂ t₂) := by
  induction n with
  | zero => exact fun _ ht => ht
  | succ n ih =>
    intro g₁ g₂ t₁ t₂ hg ht
    have halias := aliased?_related hM ht
    obtain ⟨he, hg'⟩ := hg.enter_ty hM ht
    unfold World.dealiasFrom
    generalize w₁.aliased? t₁ = a₁, w₂.aliased? t₂ = a₂ at halias ⊢
    cases halias with
    | none => exact ht
    | some hnext =>
      generalize g₁.enter t₁ = r₁, g₂.enter t₂ = r₂ at he hg' ⊢
      obtain ⟨e₁, g₁'⟩ := r₁
      obtain ⟨e₂, g₂'⟩ := r₂
      obtain rfl : e₁ = e₂ := he
      cases e₁ with
      | entered => exact ih hg' hnext
      | _ => exact ht

theorem dealias_related (hM : ρ.Matches w₁ w₂) (ht : ρ.ty t₁ t₂) : ρ.ty (w₁.dealias t₁) (w₂.dealias t₂) :=
  dealiasFrom_related hM _ ⟨rfl, .nil, rfl, rfl⟩ ht

theorem typeSymbolFrom_eq (hM : ρ.Matches w₁ w₂) (n : Nat) : ∀ {g₁ g₂ : Guard Ty} {t₁ t₂ : Ty},
    Guard.Alike ρ.ty g₁ g₂ → ρ.ty t₁ t₂ → w₁.typeSymbolFrom n g₁ t₁ = w₂.typeSymbolFrom n g₂ t₂ := by
  induction n with
  | zero => exact fun _ _ => rfl
  | succ n ih =>
    intro g₁ g₂ t₁ t₂ hg ht
    have hshape := hM.shape ht
    obtain ⟨he, hg'⟩ := hg.enter_ty hM ht
    unfold World.typeSymbolFrom
    rw [hM.decls]
    generalize g₁.enter t₁ = r₁, g₂.enter t₂ = r₂ at he hg' ⊢
    generalize w₁.shape t₁ = d₁, w₂.shape t₂ = d₂ at hshape ⊢
    obtain ⟨e₁, g₁'⟩ := r₁
    obtain ⟨e₂, g₂'⟩ := r₂
    obtain rfl : e₁ = e₂ := he
    cases e₁ with
    | entered =>
      cases hshape with
      | named hp hs => simp only [ih hg' (hM.info hs)]
      | refined hp n hi => exact ih hg' hp
      | _ => rfl
    | _ => rfl

/-- The symbol that is found is one that the correspondence knows. -/
theorem sym_of_typeSymbolFrom (hM : ρ.Matches w₁ w₂) {s : Symbol} (n : Nat) : ∀ {g : Guard Ty} {t₁ t₂ : Ty}, ρ.ty t₁ t₂ →
    w₁.typeSymbolFrom n g t₁ = some s → ρ.sym s := by
  induction n with
  | zero => exact fun _ h => nomatch h
  | succ n ih =>
    intro g t₁ t₂ ht h
    have hshape := hM.shape ht
    unfold World.typeSymbolFrom at h
    generalize g.enter t₁ = r, w₁.shape t₁ = d₁, w₂.shape t₂ = d₂ at hshape h
    obtain ⟨e, g⟩ := r
    cases e with
    | entered =>
      cases hshape with
      | named _ hs =>
        dsimp only at h
        split at h
        · exact ih (hM.info hs) h
        · exact Option.some.inj h ▸ hs
      | classInfo _ hc => exact Option.some.inj h ▸ hc
      | refined hp => exact ih hp h
      | _ => cases h
    | _ => cases h

theorem sym_of_typeSymbol? (hM : ρ.Matches w₁ w₂) (ht : ρ.ty t₁ t₂) {s : Symbol} (h : w₁.typeSymbol? t₁ = some s) :
    ρ.sym s :=
  sym_of_typeSymbolFrom hM _ ht h

theorem typeSymbol?_eq (hM : ρ.Matches w₁ w₂) (ht : ρ.ty t₁ t₂) : w₁.typeSymbol? t₁ = w₂.typeSymbol? t₂ :=
  typeSymbolFrom_eq hM _ ⟨rfl, .nil, rfl, rfl⟩ ht

theorem simRead_refinement? (hM : ρ.Matches w₁ w₂) (name : String) {n m : Nat} (hnm : loose ∨ n ≤ m)
    (ht : ρ.ty t₁ t₂) : SimRead loose (Option.Rel ρ.ty) (w₁.refinement? name n t₁) (w₂.refinement? name m t₂) := by
  induction n generalizing m t₁ t₂ with
  | zero => exact trivial
  | succ n ih =>
    cases m with
    | zero => exact .right (hnm.resolve_right (by omega)) _ _
    | succ m =>
      have hnm : loose ∨ n ≤ m := hnm.imp_right (by omega)
      have hshape := hM.shape ht
      unfold World.refinement?
      rw [hM.decls]
      generalize w₁.shape t₁ = d₁, w₂.shape t₂ = d₂ at hshape ⊢
      cases hshape with
      | refined hp n' hi =>
        dsimp only
        split
        · exact Option.Rel.some hi
        · exact ih hnm hp
      | @named _ _ _ s hs =>
        dsimp only
        split
        · have hloop := hM.ty_inj (hM.info hs) ht
          by_cases hself : w₁.decls.info s = t₁
          · rw [if_pos hself, if_pos (hloop.1 hself)]
            exact Option.Rel.none
          · rw [if_neg hself, if_neg (mt hloop.2 hself)]
            exact ih hnm (hM.info hs)
        · exact Option.Rel.none
      | _ => exact Option.Rel.none

theorem simRead_openTypeParams (hM : ρ.Matches w₁ w₂) {n m : Nat} (hnm : loose ∨ n ≤ m) (ht : ρ.ty t₁ t₂) :
    SimRead loose Eq (w₁.openTypeParams n t₁) (w₂.openTypeParams m t₂) := by
  unfold World.openTypeParams
  rw [hM.decls, typeSymbol?_eq hM ht]
  split
  · exact rfl
  · refine .filterM (fun p => .bind (simRead_refinement? hM _ hnm ht) fun a b hab => ?_) _
    cases hab <;> exact rfl

theorem simRead_typeArgs (hM : ρ.Matches w₁ w₂) {n m : Nat} (hnm : loose ∨ n ≤ m) (ht : ρ.ty t₁ t₂) :
    SimRead loose ρ.tys (w₁.typeArgs n t₁) (w₂.typeArgs m t₂) := by
  unfold World.typeArgs
  rw [hM.decls, ← typeSymbol?_eq hM ht]
  split
  · exact .nil
  · next s hs =>
    refine .mapM fun p hp => .bind (simRead_refinement? hM _ hnm ht) fun a b hab => ?_
    cases hab with
    | none => exact hM.info (hM.typeParams (sym_of_typeSymbol? hM ht hs) p hp)
    | some h => exact h

theorem simRead_isStable (hM : ρ.Matches w₁ w₂) {n m : Nat} (hnm : loose ∨ n ≤ m) (ht : ρ.ty t₁ t₂) :
    SimRead loose Eq (w₁.isStable n t₁) (w₂.isStable m t₂) := by
  induction n generalizing m t₁ t₂ with
  | zero => exact trivial
  | succ n ih =>
    cases m with
    | zero => exact .right (hnm.resolve_right (by omega)) _ _
    | succ m =>
      have hnm : loose ∨ n ≤ m := hnm.imp_right (by omega)
      have hshape := hM.shape ht
      unfold World.isStable
      rw [hM.decls]
      generalize w₁.shape t₁ = d₁, w₂.shape t₂ = d₂ at hshape ⊢
      cases hshape with
      | inter ha hb =>
        refine .bind (ih hnm ha) fun b c hbc => ?_
        obtain rfl : b = c := hbc
        cases b with
        | false => exact ih hnm hb
        | true => exact rfl
      | @var v hv =>
        have hinst : w₂.varInstance? v = w₁.varInstance? v := by simp only [World.varInstance?, hM.vars]
        dsimp only
        rw [hinst]
        split
        · next inst hsome =>
          obtain ⟨c, hc, hi⟩ := Option.bind_eq_some_iff.1 hsome
          exact ih hnm ((hM.var hv hc).2 inst hi)
        · exact rfl
      | _ => exact rfl

theorem sim_reading {A : Corr → α → β → Prop} {f₁ : World → Except Halt α} {f₂ : World → Except Halt β}
    (h : ∀ σ w₁ w₂, ρ ≤ σ → σ.Matches w₁ w₂ → SimRead loose (A σ) (f₁ w₁) (f₂ w₂)) :
    Sim loose ρ A (WorldM.reading f₁) (WorldM.reading f₂) := by
  intro σ w₁ w₂ hσ hM
  show Agree loose σ A (Except.bind (f₁ w₁) fun a => .ok (a, w₁)) (Except.bind (f₂ w₂) fun b => .ok (b, w₂))
  match f₁ w₁, f₂ w₂, h σ w₁ w₂ hσ hM with
  | .error _, _, _ => exact trivial
  | .ok _, .error _, hloose => exact hloose
  | .ok a, .ok b, hab => exact ⟨σ, le_rfl, hM, hab⟩

end Readers

end Conformance
