import Conformance.Proofs.Closure

/-!
# Conformance does not depend on the world it is asked in

`Conforms` speaks of one world and of the handles that are given out there. `Conforms.transport`: what is derivable in a
world is derivable, of the handles paired with its own, in every world that matches; so nothing that either world takes
in later changes conformance (`World.Closed.conforms_grow`).

The steps of the cascade look nested comparisons up in a relation, and are asked again where more pairs are related. A
step that answered true then has to answer true again, and an alternative that it tried before has to come to an end
again. `Follows total ρ x y` says the first of two computations and, with `total`, the second as well.
-/

namespace Conformance

open CompareM

namespace CompareM

section Follows

variable {total : Prop} {p q : Place} {ρ σ : Corr} {x₁ x₂ y₁ y₂ : CompareM Bool}

/-- From worlds that match, `y` answers true if `x` does; with `total`, it also comes to an end if `x` does. -/
def Follows (total : Prop) (p q : Place) (ρ : Corr) (x y : CompareM Bool) : Prop :=
  ∀ σ c d w₁ w₂ a c' w₁', ρ ≤ σ → σ.Matches w₁ w₂ → Vacant p c → Vacant q d → x c w₁ = .ok ((a, c'), w₁') →
    (total ∨ a = true) → ∃ b d' w₂' τ, y d w₂ = .ok ((b, d'), w₂') ∧ (a = true → b = true) ∧ Vacant p c' ∧
      Vacant q d' ∧ σ ≤ τ ∧ τ.Matches w₁' w₂'

/-- The computation comes to an end wherever it starts at `q`. -/
abbrev AlwaysEnds (q : Place) (x : CompareM Bool) : Prop := Leads False (Vacant q) (Vacant q) x

theorem AlwaysEnds.run (h : AlwaysEnds q x₁) {d : Comparer} (hd : Vacant q d) (w : World) :
    ∃ b d' w', x₁ d w = .ok ((b, d'), w') ∧ Vacant q d' ∧ w ≤ w' := by
  match hr : x₁ d w, h d w hd with
  | .ok ((b, d'), w'), ⟨hd', hw⟩ => exact ⟨b, d', w', rfl, hd', hw⟩
  | .error .outOfFuel, h => exact h.elim
  | .error (.fault _), h => exact h.elim

theorem Follows.mono (h : Follows total p q ρ x₁ x₂) (hσ : ρ ≤ σ) : Follows total p q σ x₁ x₂ :=
  fun τ c d w₁ w₂ a c' w₁' hτ => h τ c d w₁ w₂ a c' w₁' (hσ.trans hτ)

theorem follows_return {a b : Bool} (h : a = true → b = true) : Follows total p q ρ (return a) (return b) := by
  intro σ c d w₁ w₂ a' c' w₁' _ hM hc hd hr _
  cases hr
  exact ⟨b, d, w₂, σ, rfl, h, hc, hd, le_rfl, hM⟩

/-- What comes before the alternatives is the same on both sides. -/
theorem Follows.bind {α β : Type} {A : Corr → α → β → Prop} {m₁ : CompareM α} {m₂ : CompareM β}
    {f₁ : α → CompareM Bool} {f₂ : β → CompareM Bool}
    (hm : SimState False (Vacants p q) (Vacants p q) ρ A m₁ m₂)
    (hf : ∀ σ, ρ ≤ σ → ∀ a b, A σ a b → Follows total p q σ (f₁ a) (f₂ b)) :
    Follows total p q ρ (m₁ >>= f₁) (m₂ >>= f₂) := by
  intro σ c d w₁ w₂ a c' w₁' hσ hM hc hd hr ha
  obtain ⟨x, c₁, v₁, hm₁, hrest⟩ := run_bind_ok hr
  have hsim := hm σ c d hσ ⟨hc, hd⟩ σ w₁ w₂ le_rfl hM
  rw [hm₁] at hsim
  match hm₂ : m₂ d w₂ with
  | .error _ =>
    rw [hm₂] at hsim
    exact hsim.elim
  | .ok ((y, d₁), v₂) =>
    rw [hm₂] at hsim
    obtain ⟨τ, hτ, hM', hxy, hc₁, hd₁⟩ := hsim
    obtain ⟨b, d', w₂', υ, hr₂, hab, hc', hd', hυ, hMυ⟩ :=
      hf τ (hσ.trans hτ) x y hxy τ c₁ d₁ v₁ v₂ a c' w₁' le_rfl hM' hc₁ hd₁ hrest ha
    exact ⟨b, d', w₂', υ, (run_bind hm₂).trans hr₂, hab, hc', hd', hτ.trans hυ, hMυ⟩

theorem Follows.bind_eq {α : Type} {m₁ m₂ : CompareM α} {f₁ f₂ : α → CompareM Bool}
    (hm : SimState False (Vacants p q) (Vacants p q) ρ Corr.equal m₁ m₂)
    (hf : ∀ σ, ρ ≤ σ → ∀ a, Follows total p q σ (f₁ a) (f₂ a)) : Follows total p q ρ (m₁ >>= f₁) (m₂ >>= f₂) := by
  refine .bind hm fun σ hσ a b hab => ?_
  obtain rfl : a = b := hab
  exact hf σ hσ a

theorem Follows.world_bind {f₁ f₂ : World → CompareM Bool}
    (hf : ∀ σ w₁ w₂, ρ ≤ σ → σ.Matches w₁ w₂ → Follows total p q σ (f₁ w₁) (f₂ w₂)) :
    Follows total p q ρ (world >>= f₁) (world >>= f₂) :=
  fun σ c d w₁ w₂ a c' w₁' hσ hM => hf σ w₁ w₂ hσ hM σ c d w₁ w₂ a c' w₁' le_rfl hM

theorem Follows.of_matches (h : ∀ σ w₁ w₂, ρ ≤ σ → σ.Matches w₁ w₂ → Follows total p q σ x₁ x₂) :
    Follows total p q ρ x₁ x₂ :=
  fun σ c d w₁ w₂ a c' w₁' hσ hM => h σ w₁ w₂ hσ hM σ c d w₁ w₂ a c' w₁' le_rfl hM

theorem Follows.get_bind {f₁ f₂ : Comparer → CompareM Bool}
    (hf : ∀ c d, Vacant p c → Vacant q d → Follows total p q ρ (f₁ c) (f₂ d)) :
    Follows total p q ρ (get >>= f₁) (get >>= f₂) :=
  fun σ c d w₁ w₂ a c' w₁' hσ hM hc hd => hf c d hc hd σ c d w₁ w₂ a c' w₁' hσ hM hc hd

theorem Follows.ite {P Q : Prop} [Decidable P] [Decidable Q] (hPQ : P ↔ Q) (hx : Follows total p q ρ x₁ x₂)
    (hy : Follows total p q ρ y₁ y₂) : Follows total p q ρ (if P then x₁ else y₁) (if Q then x₂ else y₂) := by
  by_cases hP : P
  · rw [if_pos hP, if_pos (hPQ.1 hP)]; exact hx
  · rw [if_neg hP, if_neg (mt hPQ.2 hP)]; exact hy

/-- Whatever the first side answers, the second side may answer true at once. -/
theorem follows_true (hk : Keeps (Vacant p) x₁) : Follows total p q ρ x₁ (return true) := by
  intro σ c d w₁ w₂ a c' w₁' _ hM hc hd hr _
  obtain ⟨hc', hle⟩ := (hk c w₁ hc).ok hr
  exact ⟨true, d, w₂, σ, rfl, fun _ => rfl, hc', hd, le_rfl, hM.grow hle le_rfl⟩

theorem follows_of_sim (h : SimState False (Vacants p q) (Vacants p q) ρ Corr.equal x₁ x₂) :
    Follows total p q ρ x₁ x₂ := by
  have hbind : Follows total p q ρ (x₁ >>= fun b => return b) (x₂ >>= fun b => return b) :=
    .bind_eq h fun _ _ _ => follows_return id
  simpa using hbind

/-- An alternative that is tried first has to come to an end again, whatever it answers. -/
theorem Follows.orElse (hx : Follows True p q ρ x₁ x₂) (hy : Follows total p q ρ y₁ y₂) (hk : Keeps (Vacant p) y₁) :
    Follows total p q ρ (x₁ <||> y₁) (x₂ <||> y₂) := by
  intro σ c d w₁ w₂ a c' w₁' hσ hM hc hd hr ha
  obtain ⟨a₁, c₁, v₁, hx₁, hrest⟩ := run_bind_ok hr
  obtain ⟨b₁, d₁, v₂, τ, hx₂, hab, hc₁, hd₁, hτ, hMτ⟩ := hx σ c d w₁ w₂ a₁ c₁ v₁ hσ hM hc hd hx₁ (.inl trivial)
  have hrun : (x₂ <||> y₂) d w₂ = (if b₁ then return true else y₂ : CompareM Bool) d₁ v₂ := by
    refine (run_bind hx₂).trans ?_
    cases b₁ <;> rfl
  cases a₁ with
  | true =>
    cases hrest
    rw [hab rfl] at hrun
    exact ⟨true, d₁, v₂, τ, hrun, fun _ => rfl, hc₁, hd₁, hτ, hMτ⟩
  | false =>
    cases b₁ with
    | true =>
      obtain ⟨hc', hle⟩ := (hk c₁ v₁ hc₁).ok hrest
      exact ⟨true, d₁, v₂, τ, hrun, fun _ => rfl, hc', hd₁, hτ, hMτ.grow hle le_rfl⟩
    | false =>
      obtain ⟨b, d', w₂', υ, hr₂, hab, hc', hd', hυ, hMυ⟩ :=
        hy τ c₁ d₁ v₁ v₂ a c' w₁' (hσ.trans hτ) hMτ hc₁ hd₁ hrest ha
      exact ⟨b, d', w₂', υ, hrun.trans hr₂, hab, hc', hd', hτ.trans hυ, hMυ⟩

/-- Where the first side stops at a condition that fails, the second side may go on alone. -/
theorem Follows.andThen (hx : Follows total p q ρ x₁ x₂) (hy : Follows total p q ρ y₁ y₂)
    (hend : total → AlwaysEnds q y₂) : Follows total p q ρ (x₁ <&&> y₁) (x₂ <&&> y₂) := by
  intro σ c d w₁ w₂ a c' w₁' hσ hM hc hd hr ha
  obtain ⟨a₁, c₁, v₁, hx₁, hrest⟩ := run_bind_ok hr
  have ha₁ : total ∨ a₁ = true := by
    cases a₁ with
    | true => exact .inr rfl
    | false =>
      cases hrest
      exact ha
  obtain ⟨b₁, d₁, v₂, τ, hx₂, hab, hc₁, hd₁, hτ, hMτ⟩ := hx σ c d w₁ w₂ a₁ c₁ v₁ hσ hM hc hd hx₁ ha₁
  have hrun : (x₂ <&&> y₂) d w₂ = (if b₁ then y₂ else return false : CompareM Bool) d₁ v₂ := by
    refine (run_bind hx₂).trans ?_
    cases b₁ <;> rfl
  cases a₁ with
  | true =>
    obtain ⟨b, d', w₂', υ, hr₂, hab', hc', hd', hυ, hMυ⟩ :=
      hy τ c₁ d₁ v₁ v₂ a c' w₁' (hσ.trans hτ) hMτ hc₁ hd₁ hrest ha
    rw [hab rfl] at hrun
    exact ⟨b, d', w₂', υ, hrun.trans hr₂, hab', hc', hd', hτ.trans hυ, hMυ⟩
  | false =>
    cases hrest
    cases b₁ with
    | false => exact ⟨false, d₁, v₂, τ, hrun, nofun, hc₁, hd₁, hτ, hMτ⟩
    | true =>
      obtain ⟨b, d', w₂', hr₂, hd', hle⟩ := (hend (ha.resolve_right nofun)).run hd₁ v₂
      exact ⟨b, d', w₂', τ, hrun.trans hr₂, nofun, hc₁, hd', hτ, hMτ.grow le_rfl hle⟩

theorem Follows.allM {α β : Type} {R : Corr → α → β → Prop} {f₁ : α → CompareM Bool}
    {f₂ : β → CompareM Bool} (hf : ∀ σ, ρ ≤ σ → ∀ a b, R σ a b → Follows total p q σ (f₁ a) (f₂ b))
    (hend : total → ∀ b, AlwaysEnds q (f₂ b)) (l₁ : List α) :
    ∀ {σ l₂}, ρ ≤ σ → List.Forall₂ (R σ) l₁ l₂ → Follows total p q σ (l₁.allM f₁) (l₂.allM f₂) := by
  induction l₁ with
  | nil =>
    rintro σ _ _ ⟨⟩
    exact follows_return id
  | cons a l₁ ih =>
    rintro σ _ hσ (_ | @⟨_, b, _, l₂, hab, hl⟩)
    have hrest : Follows total p q σ (l₁.allM f₁) (l₂.allM f₂) := ih hσ hl
    have hcons := (hf σ hσ a b hab).andThen hrest fun h => .allM (hend h) l₂
    have hunfold : ∀ {γ : Type} (f : γ → CompareM Bool) (c : γ) (l : List γ),
        (c :: l).allM f = (f c <&&> l.allM f) := by
      intro γ f c l
      show (f c >>= fun b => match b with | true => l.allM f | false => return false) = _
      refine bind_congr fun b => ?_
      cases b <;> rfl
    rw [hunfold, hunfold]
    exact hcons

theorem Follows.atomically (h : Follows total p q ρ x₁ x₂) :
    Follows total p q ρ (atomically x₁) (atomically x₂) := by
  intro σ c d w₁ w₂ a c' w₁' hσ hM hc hd hr ha
  have hrun : ∀ {m : CompareM Bool} {c : Comparer} {w : World} {r : (Bool × Comparer) × World}, m c w = .ok r →
      CompareM.atomically m c w =
        .ok ((r.1.1, if r.1.1 then r.1.2 else { r.1.2 with constraint := c.constraint }), r.2) := by
    rintro m c w ⟨⟨a, c'⟩, w'⟩ hm
    show Except.bind (m c w) _ = _
    rw [hm]
    cases a <;> rfl
  have hcases : ∃ a₁ c₁, x₁ c w₁ = .ok ((a₁, c₁), w₁') ∧ a = a₁ ∧
      c' = if a₁ then c₁ else { c₁ with constraint := c.constraint } := by
    match hx₁ : x₁ c w₁ with
    | .error e =>
      have hfail : CompareM.atomically x₁ c w₁ = .error e := by
        show Except.bind (x₁ c w₁) _ = _
        rw [hx₁]
        rfl
      cases hfail.symm.trans hr
    | .ok ((a₁, c₁), v₁) =>
      cases (hrun hx₁).symm.trans hr
      exact ⟨_, _, rfl, rfl, rfl⟩
  obtain ⟨a, c₁, hx₁, rfl, rfl⟩ := hcases
  obtain ⟨b, d₁, w₂', τ, hx₂, hab, hc₁, hd₁, hτ, hMτ⟩ := h σ c d w₁ w₂ a c₁ w₁' hσ hM hc hd hx₁ ha
  have hrestore : ∀ {p : Place} {c c₀ : Comparer} (a : Bool), Vacant p c → Vacant p c₀ →
      Vacant p (if a then c else { c with constraint := c₀.constraint }) := by
    intro p c c₀ a hc hc₀
    cases a
    · exact (Vacant.tolerant p).restore hc hc₀
    · exact hc
  exact ⟨b, _, w₂', τ, hrun hx₂, hab, hrestore a hc₁ hc, hrestore b hd₁ hd, hτ, hMτ⟩

end Follows

/-! ## The steps of the cascade -/

section Cascade

variable {total : Prop} {p q : Place} {ρ : Corr} {S S' : World → Ty → Ty → Prop} {n : Nat} {t₁ t₂ u₁ u₂ : Ty}

/-- Pairs that `S` relates are related by `S'` in worlds that match. -/
def Carried (S S' : World → Ty → Ty → Prop) : Prop :=
  ∀ (ρ : Corr) (w v : World) (a a' b b' : Ty), ρ.Matches w v → ρ.ty a a' → ρ.ty b b' → S w a b → S' v a' b'

/-- Where both types are those of binders, these are opened. -/
def OpensFor (ρ : Corr) (t u : Ty) : Prop :=
  ∀ σ w₁ w₂, ρ ≤ σ → σ.Matches w₁ w₂ → (w₁.shape t).isBinderType → (w₁.shape u).isBinderType → σ.opens

theorem OpensFor.mono {σ : Corr} (h : OpensFor ρ t₁ u₁) (hσ : ρ ≤ σ) : OpensFor σ t₁ u₁ := fun τ w₁ w₂ hτ =>
  h τ w₁ w₂ (hσ.trans hτ)

theorem opensFor_of_opens (ho : ρ.opens) (t u : Ty) : OpensFor ρ t u := fun _ _ _ hσ _ _ _ => hσ.opens ho

theorem ends_looking (S : World → Ty → Ty → Prop) (a b : Ty) : AlwaysEnds q (asking S a b) :=
  .bind .world fun _ => .pure _

variable (hS : Carried S S')
include hS

theorem follows_asking (ht : ρ.ty t₁ t₂) (hu : ρ.ty u₁ u₂) :
    Follows total p q ρ (asking S t₁ u₁) (asking S' t₂ u₂) := by
  classical
  refine .world_bind fun σ w₁ w₂ hσ hM => follows_return fun h => ?_
  exact decide_eq_true (hS σ w₁ w₂ _ _ _ _ hM (hσ.ty ht) (hσ.ty hu) (of_decide_eq_true h))

theorem follows_same (ht : ρ.ty t₁ t₂) (hu : ρ.ty u₁ u₂) :
    Follows total p q ρ (same (asking S) t₁ u₁) (same (asking S') t₂ u₂) := by
  refine .of_matches fun σ w₁ w₂ hσ hM => ?_
  have ht := hσ.ty ht
  have hu := hσ.ty hu
  unfold same
  rw [hM.present ht, hM.present hu]
  refine .ite Iff.rfl (follows_return id) (.ite (hM.ty_inj ht hu) (follows_return id) (.atomically ?_))
  exact .andThen (follows_asking hS ht hu) (follows_asking hS hu ht) fun _ => ends_looking S' _ _

theorem follows_sameParams {l₁ l₂ k₁ k₂ : List Ty} (hl : ρ.tys l₁ l₂) (hk : ρ.tys k₁ k₂) (x y : Bool) :
    Follows False p q ρ (sameParams (asking S) l₁ k₁ x y) (sameParams (asking S') l₂ k₂ x y) := by
  unfold sameParams
  refine .ite (by rw [hl.length_eq, hk.length_eq]) (follows_return id) ?_
  refine .allM (R := Corr.pairs) (fun σ hσ a b hab => ?_) nofun _ le_rfl (Corr.pairs_zip hl hk)
  refine .orElse (follows_same hS hab.1 hab.2) (.of_matches fun τ w₁ w₂ hτ hM => ?_) (.pure _)
  have htop : isTopPair a.1 a.2 = isTopPair b.1 b.2 := by
    have hobject := fun {a b : Ty} (h : τ.ty a b) => hM.eq_iff h (t := Builtin.object.type) (by decide)
    have hany := fun {a b : Ty} (h : τ.ty a b) => hM.eq_iff h (t := Builtin.any.type) (by decide)
    simp only [isTopPair, hobject (hτ.ty hab.1), hobject (hτ.ty hab.2), hany (hτ.ty hab.1), hany (hτ.ty hab.2)]
  rw [htop]
  exact follows_return id

theorem follows_conformsAsConstructor (ht : ρ.ty t₁ t₂) (hu : ρ.ty u₁ u₂) :
    Follows total p q ρ (conformsAsConstructor n (asking S) t₁ u₁) (conformsAsConstructor n (asking S') t₂ u₂) := by
  have hparams : Sim False ρ Corr.equal (WorldM.reading (·.openTypeParams n t₁))
      (WorldM.reading (·.openTypeParams n t₂)) :=
    sim_reading fun σ w₁ w₂ hσ hM => simRead_openTypeParams hM (.inr (Nat.le_refl n)) (hσ.ty ht)
  have hargs : Sim False ρ Corr.tys (WorldM.reading (·.typeArgs n u₁)) (WorldM.reading (·.typeArgs n u₂)) :=
    sim_reading fun σ w₁ w₂ hσ hM => simRead_typeArgs hM (.inr (Nat.le_refl n)) (hσ.ty hu)
  refine .bind_eq (.lift upward_vacants hparams) fun σ hσ params => ?_
  refine .bind (.lift upward_vacants (hargs.mono hσ)) fun τ hτ args₁ args₂ hargs => ?_
  rw [hargs.length_eq]
  refine .ite Iff.rfl (follows_return id) ?_
  have hρτ := hσ.trans hτ
  refine .bind (.lift upward_vacants (sim_skolem (hρτ.ty ht))) fun υ hυ base₁ base₂ hbase => ?_
  have hρυ := hρτ.trans hυ
  let R : Corr → Symbol × Ty → Symbol × Ty → Prop := fun σ a b => a.1 = b.1 ∧ σ.ty a.2 b.2
  have hR : Upward R := fun _ _ hσ _ _ h => ⟨h.1, hσ.ty h.2⟩
  have hzip : List.Forall₂ (R υ) (params.zip args₁) (params.zip args₂) := by
    have hargs := Corr.tys_mono hυ hargs
    clear * - hargs
    induction hargs generalizing params with
    | nil => rw [List.zip_nil_right]; exact .nil
    | cons hab _ ih => cases params with
      | nil => exact .nil
      | cons s params => exact .cons ⟨rfl, hab⟩ (ih params)
  have hall : ∀ (x : CompareM Bool) (g : World → Bool),
      (x >>= fun fit => world >>= fun w => return fit && g w) = (x <&&> (world >>= fun w => return g w)) := by
    intro x g
    exact bind_congr fun b => by cases b <;> rfl
  rw [hall, hall]
  refine .andThen (.allM (R := R) (fun φ hφ a b hab => ?_) (fun _ b => ?_) _ le_rfl hzip)
    (.world_bind fun φ w₁ w₂ hφ hM => ?_) fun _ => .bind .world fun _ => .pure _
  · obtain ⟨s, i⟩ := a
    obtain ⟨s', j⟩ := b
    obtain ⟨rfl, hij⟩ : s = s' ∧ φ.ty i j := hab
    refine .world_bind fun χ w₁ w₂ hχ hM => ?_
    rw [hM.decls]
    refine .bind (.lift upward_vacants (sim_member ((hφ.trans hχ).ty hbase) _)) fun ψ hψ i₁ i₂ hi => ?_
    refine .bind (.lift upward_vacants (sim_asBounds hi)) fun ω hω x₁ x₂ hx => ?_
    have hij : ω.ty i j := (hχ.trans (hψ.trans hω)).ty hij
    refine .bind (.lift upward_vacants (sim_asBounds hij)) fun ξ hξ y₁ y₂ hy => ?_
    exact follows_asking hS (hξ.ty hx) hy
  · refine .bind .world fun w => .bind (.lift (grows_member base₂ _)) fun info => ?_
    exact .bind (.lift (grows_asBounds info)) fun _ => .bind (.lift (grows_asBounds _)) fun _ => ends_looking S' _ _
  · rw [hM.decls, typeSymbol?_eq hM ((hρυ.trans hφ).ty hu)]
    exact follows_return id

theorem follows_fourth (ht : ρ.ty t₁ t₂) (hu : ρ.ty u₁ u₂) :
    Follows total p q ρ (fourth (asking S) t₁ u₁) (fourth (asking S') t₂ u₂) := by
  refine .world_bind fun σ w₁ w₂ hσ hM => ?_
  have hshape := hM.shape (hσ.ty ht)
  have ht := hσ.ty ht
  have hu := hσ.ty hu
  have hrest : Follows total p q σ (do asking S (← t₁.underlying) u₁) (do asking S' (← t₂.underlying) u₂) :=
    .bind (.lift upward_vacants (sim_underlying ht)) fun τ hτ a b hab => follows_asking hS hab (hτ.ty hu)
  simp only [hM.decls]
  generalize w₁.shape t₁ = d₁, w₂.shape t₂ = d₂ at hshape ⊢
  cases hshape with
  | named hp s =>
    have hupper : Keeps (Vacant p) (do asking S (← t₁.upperBound) u₁) :=
      .bind (.lift (grows_upperBound t₁)) fun _ => keeps_asking S _ _
    refine .ite Iff.rfl (follows_return id) (.orElse (.ite Iff.rfl ?_ (follows_return id))
      (.ite Iff.rfl (follows_return id) ?_) (.ite (.pure _) hupper))
    · exact follows_of_sim (.lift upward_vacants (sim_nullConforms hu))
    · refine .bind (.lift upward_vacants (sim_upperBound ht)) fun τ hτ a b hab => ?_
      exact follows_asking hS hab (hτ.ty hu)
  | refined hp n hi => exact follows_asking hS hp hu
  | inter ha hb => exact .orElse (follows_asking hS ha hu) (follows_asking hS hb hu) (keeps_asking S _ _)
  | union ha hb => exact .andThen (follows_asking hS ha hu) (follows_asking hS hb hu) fun _ => ends_looking S' _ _
  | path | self | literal | skolem | valueParam => exact hrest
  | fixed | var | param | method | universal | byName | bounds | classInfo => exact follows_return id

theorem follows_thirdNamed (ht : ρ.ty t₁ t₂) (hu : ρ.ty u₁ u₂) :
    Follows total p q ρ (thirdNamed n (asking S) t₁ u₁) (thirdNamed n (asking S') t₂ u₂) := by
  refine .bind (.lift upward_vacants (sim_infoOf hu)) fun σ hσ i₁ i₂ hi => ?_
  refine .world_bind fun τ w₁ w₂ hτ hM => ?_
  have hρτ := hσ.trans hτ
  have ht := hρτ.ty ht
  have hu := hρτ.ty hu
  have hfourth : Follows total p q τ (fourth (asking S) t₁ u₁) (fourth (asking S') t₂ u₂) := follows_fourth hS ht hu
  have hkeeps : Keeps (Vacant p) (fourth (asking S) t₁ u₁) := keeps_fourth (keeps_asking S) _ _
  have hends := hM.boundsParts? (hτ.ty hi)
  generalize w₁.boundsParts? i₁ = x, w₂.boundsParts? i₂ = y at hends ⊢
  cases hends with
  | some hlo => exact .orElse (follows_asking hS ht hlo.1) hfourth hkeeps
  | none =>
    have hstable : Sim False τ Corr.equal (WorldM.reading (·.isStable n t₁)) (WorldM.reading (·.isStable n t₂)) :=
      sim_reading fun υ w₁ w₂ hυ hM => simRead_isStable hM (.inr (Nat.le_refl n)) (hυ.ty ht)
    have hkeeps' : Keeps (Vacant p) (conformsAsConstructor n (asking S) t₁ u₁) :=
      keeps_conformsAsConstructor (keeps_asking S) _ _
    have hmarkers : ∀ s₂ : Symbol, Follows total p q τ
        ((if s₂ = Builtin.singleton.symbol then WorldM.reading (·.isStable n t₁) else return false) <||>
          (if s₂ = Builtin.notNull.symbol then (t₁.isNotNull : WorldM Bool) else return false) <||>
          (if Builtin.isTrait s₂ then conformsAsConstructor n (asking S) t₁ u₁ else return false) <||>
          fourth (asking S) t₁ u₁)
        ((if s₂ = Builtin.singleton.symbol then WorldM.reading (·.isStable n t₂) else return false) <||>
          (if s₂ = Builtin.notNull.symbol then (t₂.isNotNull : WorldM Bool) else return false) <||>
          (if Builtin.isTrait s₂ then conformsAsConstructor n (asking S') t₂ u₂ else return false) <||>
          fourth (asking S') t₂ u₂) := by
      intro s₂
      refine .orElse (.ite Iff.rfl (follows_of_sim (.lift upward_vacants hstable)) (follows_return id)) ?_ ?_
      · refine .orElse (.ite Iff.rfl (follows_of_sim (.lift upward_vacants (sim_isNotNull ht))) (follows_return id)) ?_ ?_
        · exact .orElse (.ite Iff.rfl (follows_conformsAsConstructor hS ht hu) (follows_return id)) hfourth hkeeps
        · exact .orElse (.ite hkeeps' (.pure _)) hkeeps
      · exact .orElse (.ite (.lift (grows_isNotNull t₁)) (.pure _)) (.orElse (.ite hkeeps' (.pure _)) hkeeps)
    have hshape := hM.shape hu
    generalize w₁.shape u₁ = d₁, w₂.shape u₂ = d₂ at hshape ⊢
    cases hshape with
    | @named _ _ _ s _ => exact hmarkers s
    | _ => exact hmarkers .absent

theorem follows_methods (ho : ρ.opens) (ht : ρ.ty t₁ t₂) (hu : ρ.ty u₁ u₂) {b c b' c' : BinderId} (hb : ρ.binder b b')
    (hc : ρ.binder c c') :
    Follows False p q ρ (methods n (asking S) t₁ b u₁ c) (methods n (asking S') t₂ b' u₂ c') := by
  have hnm : False ∨ n ≤ n := .inr (Nat.le_refl n)
  refine .world_bind fun σ w₁ w₂ hσ hM => ?_
  obtain ⟨d, d', hd₁, hd₂, hd⟩ := hM.binder (hσ.opens ho) (hσ.binder hb)
  obtain ⟨e, e', he₁, he₂, he⟩ := hM.binder (hσ.opens ho) (hσ.binder hc)
  simp only [hd₁, hd₂, he₁, he₂]
  have hflags : d'.flags = d.flags := by simp only [Binder.flags, hd.kind]
  have hflags' : e'.flags = e.flags := by simp only [Binder.flags, he.kind]
  rw [hflags, hflags']
  refine .bind (sim_infosUnder (hσ.opens ho) hnm (hσ.binder hc) (hσ.binder hb) he) fun τ hτ k₁ k₂ hk => ?_
  have hρτ := hσ.trans hτ
  refine .bind_eq (.lift upward_vacants (sim_signature (hρτ.opens ho) hnm (hρτ.ty ht))) fun υ hυ sig₁ => ?_
  have hρυ := hρτ.trans hυ
  refine .bind_eq (.lift upward_vacants (sim_signature (hρυ.opens ho) hnm (hρυ.ty hu))) fun φ hφ sig₂ => ?_
  have hρφ := hρυ.trans hφ
  refine .ite Iff.rfl (follows_return id) (.andThen ?_ (.ite Iff.rfl (follows_return id) ?_) False.elim)
  · exact follows_sameParams hS (hd.infos.imp fun _ _ => (hτ.trans (hυ.trans hφ)).ty)
      (Corr.tys_mono (hυ.trans hφ) hk) _ _
  · have hresult := (hτ.trans (hυ.trans hφ)).ty he.result
    have hsubst := sim_renamed (hρφ.opens ho) hnm (hρφ.binder hc) (hρφ.binder hb) hresult
    refine .bind (.lift upward_vacants hsubst) fun χ hχ x y hxy => ?_
    exact follows_asking hS ((hτ.trans (hυ.trans (hφ.trans hχ))).ty hd.result) hxy

theorem follows_universals (ho : ρ.opens) (ht : ρ.ty t₁ t₂) (hu : ρ.ty u₁ u₂) {b c b' c' : BinderId} (hb : ρ.binder b b')
    (hc : ρ.binder c c') :
    Follows False p q ρ (universals n (asking S) t₁ b u₁ c) (universals n (asking S') t₂ b' u₂ c') := by
  have hnm : False ∨ n ≤ n := .inr (Nat.le_refl n)
  refine .world_bind fun σ w₁ w₂ hσ hM => ?_
  obtain ⟨d, d', hd₁, hd₂, hd⟩ := hM.binder (hσ.opens ho) (hσ.binder hb)
  obtain ⟨e, e', he₁, he₂, he⟩ := hM.binder (hσ.opens ho) (hσ.binder hc)
  simp only [hd₁, hd₂, he₁, he₂]
  have harity : d'.arity = d.arity := by simp only [Binder.arity, hd.names]
  have harity' : e'.arity = e.arity := by simp only [Binder.arity, he.names]
  rw [harity, harity']
  refine .bind_eq (.lift upward_vacants (sim_signature (hσ.opens ho) hnm (hσ.ty ht))) fun τ hτ sig₁ => ?_
  have hρτ := hσ.trans hτ
  refine .bind_eq (.lift upward_vacants (sim_signature (hρτ.opens ho) hnm (hρτ.ty hu))) fun υ hυ sig₂ => ?_
  have hρυ := hρτ.trans hυ
  have hd := hd.mono (hτ.trans hυ)
  have he := he.mono (hτ.trans hυ)
  have hsubst : ∀ φ, υ ≤ φ → ∀ {x y}, φ.ty x y →
      Sim False φ Corr.ty (Ty.substBinder n c b x) (Ty.substBinder n c' b' y) := fun φ hφ _ _ hxy =>
    sim_renamed ((hρυ.trans hφ).opens ho) hnm ((hρυ.trans hφ).binder hc) ((hρυ.trans hφ).binder hb) hxy
  refine .ite Iff.rfl (follows_return id) (.andThen ?_ ?_ False.elim)
  · refine .allM (R := Corr.pairs) (fun φ hφ x y hxy => ?_) False.elim _ le_rfl (Corr.pairs_zip hd.infos he.infos)
    refine .bind (.lift upward_vacants (hsubst φ hφ hxy.2)) fun χ hχ i j hij => ?_
    exact follows_same hS (hχ.ty hxy.1) hij
  · refine .bind (.lift upward_vacants (hsubst υ le_rfl he.result)) fun φ hφ i j hij => ?_
    exact follows_asking hS (hφ.ty hd.result) hij

theorem follows_third (hopens : OpensFor ρ t₁ u₁) (ht : ρ.ty t₁ t₂) (hu : ρ.ty u₁ u₂) :
    Follows False p q ρ (third n (asking S) t₁ u₁) (third n (asking S') t₂ u₂) := by
  refine .world_bind fun σ w₁ w₂ hσ hM => ?_
  have ht := hσ.ty ht
  have hu := hσ.ty hu
  have hnamed : Follows False p q σ (thirdNamed n (asking S) t₁ u₁) (thirdNamed n (asking S') t₂ u₂) :=
    follows_thirdNamed hS ht hu
  have hfourth : Follows False p q σ (fourth (asking S) t₁ u₁) (fourth (asking S') t₂ u₂) := follows_fourth hS ht hu
  have hkeeps : Keeps (Vacant p) (fourth (asking S) t₁ u₁) := keeps_fourth (keeps_asking S) _ _
  have hshape := hM.shape ht
  have hshape' := hM.shape hu
  replace hopens := hopens σ w₁ w₂ hσ hM
  generalize w₁.shape t₁ = d₁, w₂.shape t₂ = d₂, w₁.shape u₁ = e₁, w₂.shape u₂ = e₂ at hshape hshape' hopens ⊢
  cases hshape' with
  | named => exact hnamed
  | path => exact hnamed
  | refined hp name hi =>
    refine .orElse (.andThen (follows_asking hS ht hp) (.ite Iff.rfl (follows_return id) ?_) fun _ => .ite (.pure _) ?_)
      hfourth hkeeps
    · refine .bind (.lift upward_vacants (sim_member ht name)) fun τ hτ i j hij => ?_
      exact follows_asking hS hij (hτ.ty hi)
    · exact .bind (.lift (grows_member t₂ _)) fun _ => ends_looking S' _ _
  | inter ha hb => exact .andThen (follows_asking hS ht ha) (follows_asking hS ht hb) nofun
  | union ha hb =>
    refine .orElse (follows_asking hS ht ha) (.orElse (follows_asking hS ht hb) hfourth hkeeps) ?_
    exact .orElse (keeps_asking S _ _) hkeeps
  | method hc =>
    cases hshape with
    | method hb => exact follows_methods hS (hopens rfl rfl) ht hu hb hc
    | _ => exact hfourth
  | universal hc =>
    cases hshape with
    | universal hb => exact follows_universals hS (hopens rfl rfl) ht hu hb hc
    | _ => exact hfourth
  | byName hr' =>
    cases hshape with
    | byName hr => exact follows_asking hS hr hr'
    | _ => exact hfourth
  | bounds hlo' hhi' =>
    cases hshape with
    | bounds hlo hhi => exact .andThen (follows_asking hS hlo' hlo) (follows_asking hS hhi hhi') nofun
    | classInfo hp c =>
      refine .bind (.lift upward_vacants (sim_named hp c)) fun τ hτ x y hxy => ?_
      exact .andThen (follows_asking hS (hτ.ty hlo') hxy) (follows_asking hS hxy (hτ.ty hhi')) nofun
    | _ => exact hfourth
  | _ => exact hfourth

theorem follows_second (hopens : OpensFor ρ t₁ u₁) (ht : ρ.ty t₁ t₂) (hu : ρ.ty u₁ u₂) :
    Follows False p q ρ (second n (asking S) t₁ u₁) (second n (asking S') t₂ u₂) := by
  refine .world_bind fun σ w₁ w₂ hσ hM => ?_
  have hu := hσ.ty hu
  have hthird : Follows False p q σ (third n (asking S) t₁ u₁) (third n (asking S') t₂ u₂) :=
    follows_third hS (hopens.mono hσ) (hσ.ty ht) hu
  have hshape := hM.shape (hσ.ty ht)
  have hvar := fun {v} => hM.varUnderlying (v := v)
  generalize w₁.shape t₁ = d₁, w₂.shape t₂ = d₂ at hshape ⊢
  cases hshape with
  | fixed k =>
    cases k with
    | wildcard => exact follows_return id
    | error => exact follows_return id
    | noType => exact hthird
    | noPrefix => exact hthird
  | var hv => exact follows_asking hS (hvar hv) hu
  | param hb i =>
    refine .bind (sim_currentBounds _ _) fun τ hτ x y hxy => ?_
    obtain ⟨rfl, rfl⟩ := hxy
    exact hthird.mono hτ
  | _ => exact hthird

theorem follows_names (hopt : p.options.erasedTypes → q.options.erasedTypes) (ht : ρ.ty t₁ t₂) (hu : ρ.ty u₁ u₂) :
    Follows False p q ρ (names n (asking S) t₁ u₁) (names n (asking S') t₂ u₂) := by
  refine .world_bind fun σ w₁ w₂ hσ hM => ?_
  have ht := hσ.ty ht
  have hu := hσ.ty hu
  have hparts := nameParts?_related (hM.shape ht)
  have hparts' := nameParts?_related (hM.shape hu)
  simp only [hM.decls]
  generalize nameParts? (w₁.shape t₁) = x₁, nameParts? (w₂.shape t₂) = x₂, nameParts? (w₁.shape u₁) = y₁,
    nameParts? (w₂.shape u₂) = y₂ at hparts hparts' ⊢
  cases hparts with
  | none => exact follows_return id
  | @some x x' hx =>
    cases hparts' with
    | none => exact follows_return id
    | @some y y' hy =>
      obtain ⟨pre₁, s₁, k₁⟩ := x
      obtain ⟨pre₁', s₁', k₁'⟩ := x'
      obtain ⟨pre₂, s₂, k₂⟩ := y
      obtain ⟨pre₂', s₂', k₂'⟩ := y'
      obtain ⟨hpre₁, heq₁⟩ := hx
      obtain ⟨hpre₂, heq₂⟩ := hy
      obtain ⟨rfl, rfl⟩ := Prod.mk.inj heq₁
      obtain ⟨rfl, rfl⟩ := Prod.mk.inj heq₂
      have hpre : ∀ {total : Prop}, Follows total p q σ (asking S pre₁ pre₂) (asking S' pre₁' pre₂') :=
        follows_asking hS hpre₁ hpre₂
      have hbase : Keeps (Vacant p) (do
          let base ← Ty.baseType t₁ s₂
          if base.present && base ≠ t₁ then asking S base u₁ else return false) :=
        .bind (.lift (grows_baseType t₁ _)) fun _ => .ite (keeps_asking S _ _) (.pure _)
      have hthird : Keeps (Vacant p) (thirdNamed n (asking S) t₁ u₁) := keeps_thirdNamed (keeps_asking S) _ _
      refine .ite Iff.rfl (.get_bind fun c d hc hd => ?_) (.orElse (.ite Iff.rfl hpre (follows_return id)) ?_ ?_)
      · rw [show c.options = p.options from congrArg Place.options hc.place,
          show d.options = q.options from congrArg Place.options hd.place]
        -- where the second side has erased types it asks nothing, whatever the first side asks
        by_cases hq : q.options.erasedTypes || w₁.decls.isStatic s₁
        · rw [if_pos hq]
          exact follows_true (.ite (.pure _) (keeps_asking S _ _))
        · have hp : ¬ (p.options.erasedTypes || w₁.decls.isStatic s₁) := by
            rw [Bool.or_eq_true] at hq ⊢
            exact mt (Or.imp_left hopt) hq
          rw [if_neg hq, if_neg hp]
          exact hpre
      · refine .orElse (.ite Iff.rfl ?_ (follows_return id)) (follows_thirdNamed hS ht hu) hthird
        refine .bind (.lift upward_vacants (sim_baseType ht s₂)) fun τ hτ b b' hb => ?_
        refine .of_matches fun υ w₁ w₂ hυ hM => ?_
        have hb := hυ.ty hb
        have hcond : (b.present && decide (b ≠ t₁)) = (b'.present && decide (b' ≠ t₂)) := by
          simp only [hM.present hb, ne_eq, hM.ty_inj hb ((hτ.trans hυ).ty ht)]
        rw [hcond]
        exact .ite Iff.rfl (follows_asking hS hb ((hτ.trans hυ).ty hu)) (follows_return id)
      · exact .orElse (.ite hbase (.pure _)) hthird

/-- **A step that answers true goes on to do so** where nested comparisons are looked up among more pairs. -/
theorem follows_first (hopt : p.options.erasedTypes → q.options.erasedTypes) (hopens : OpensFor ρ t₁ u₁) (ht : ρ.ty t₁ t₂)
    (hu : ρ.ty u₁ u₂) :
    Follows False p q ρ (first n (asking S) t₁ u₁) (first n (asking S') t₂ u₂) := by
  refine .world_bind fun σ w₁ w₂ hσ hM => ?_
  have ht := hσ.ty ht
  have hu := hσ.ty hu
  have hsecond : Follows False p q σ (second n (asking S) t₁ u₁) (second n (asking S') t₂ u₂) :=
    follows_second hS (hopens.mono hσ) ht hu
  have hnames : Follows False p q σ (names n (asking S) t₁ u₁) (names n (asking S') t₂ u₂) :=
    follows_names hS hopt ht hu
  have hshape := hM.shape hu
  have hvar := fun {v} => hM.varUnderlying (v := v)
  rw [(hM.shape ht).isNamed]
  generalize w₁.shape u₁ = d₁, w₂.shape u₂ = d₂ at hshape ⊢
  cases hshape with
  | named => exact .ite Iff.rfl hnames hsecond
  | path => exact .ite Iff.rfl hnames hsecond
  | fixed k =>
    cases k with
    | wildcard => exact follows_return id
    | error => exact follows_return id
    | noType => exact hsecond
    | noPrefix => exact hsecond
  | var hv => exact follows_asking hS ht (hvar hv)
  | param hb i =>
    refine .bind (sim_currentBounds _ _) fun τ hτ x y hxy => ?_
    obtain ⟨rfl, rfl⟩ := hxy
    exact hsecond.mono hτ
  | _ => exact hsecond

end Cascade

end CompareM

/-! ## Conformance -/

section Transport

variable {erased erased' : Bool} {ρ : Corr} {S S' : World → Ty → Ty → Prop} {w v : World} {a a' b b' : Ty}

/-- Paired types are paired by a correspondence that opens them if both are the types of binders. -/
theorem Corr.Matches.exists_opensFor (hM : ρ.Matches w v) (ha : ρ.ty a a') (hb : ρ.ty b b') :
    ∃ σ : Corr, σ.Matches w v ∧ σ.ty a a' ∧ σ.ty b b' ∧ OpensFor σ a b := by
  by_cases hbinder : (w.shape a).isBinderType ∧ (w.shape b).isBinderType
  · obtain ⟨σ, ho, hσ, ha, hb⟩ := hM.exists_opened ha hb hbinder
    exact ⟨σ, hσ, ha, hb, opensFor_of_opens ho a b⟩
  · refine ⟨ρ.rebase w v, hM.rebase, ha, hb, fun σ w₁ w₂ hσ hMσ ha' hb' => (hbinder ?_).elim⟩
    have hle : w ≤ w₁ := (show σ.base₁ = w from hσ.base₁) ▸ hMσ.le₁
    obtain ⟨d, -, hd, -⟩ := hM.ty ha
    obtain ⟨e, -, he, -⟩ := hM.ty hb
    rw [World.shape_of_shape? hd, World.shape_of_shape? he]
    rw [World.shape_of_shape? (hle.shape hd)] at ha'
    rw [World.shape_of_shape? (hle.shape he)] at hb'
    exact ⟨ha', hb'⟩

theorem Holds.carry (hmode : erased → erased') (hS : Carried S S') (hM : ρ.Matches w v) (ha : ρ.ty a a')
    (hb : ρ.ty b b') (h : Holds erased S w a b) : Holds erased' S' v a' b' := by
  obtain ⟨n, c, w', hr⟩ := h
  obtain ⟨σ, hM, ha, hb, hopens⟩ := hM.exists_opensFor ha hb
  have hfollows := follows_first (p := (Comparer.vacant erased).place) (q := (Comparer.vacant erased').place) (n := n)
    hS hmode hopens ha hb
  obtain ⟨answer, d, v', -, hr', hanswer, -⟩ := hfollows σ _ _ w v true c w' le_rfl hM (vacant_place erased)
    (vacant_place erased') hr (.inr rfl)
  obtain rfl := hanswer rfl
  exact ⟨n, d, v', hr'⟩

theorem Holds.transport (hS : Carried S S') (hM : ρ.Matches w v) (ha : ρ.ty a a') (hb : ρ.ty b b')
    (h : Holds erased S w a b) : Holds erased S' v a' b' :=
  h.carry id hS hM ha hb

/-- What is derivable is derivable of the handles that are paired with its own, and where types are erased as well. -/
theorem Conforms.carry (hmode : erased → erased') (hM : ρ.Matches w v) (ha : ρ.ty a a') (hb : ρ.ty b b')
    (h : Conforms erased w a b) : Conforms erased' v a' b' := by
  induction h generalizing ρ v a' b' with
  | refl ht =>
    obtain rfl := (hM.ty_inj ha hb).1 rfl
    exact .refl (hM.present ha ▸ ht)
  | @step w a b S hpa hpb _ h ih =>
    -- the pairs of `S`, wherever they are found again
    let S' : World → Ty → Ty → Prop := fun v a' b' =>
      ∃ (ρ : Corr) (w : World) (a b : Ty), ρ.Matches w v ∧ ρ.ty a a' ∧ ρ.ty b b' ∧ S w a b
    have hS' : Carried S S' := fun ρ w v a a' b b' hM ha hb hab => ⟨ρ, w, a, b, hM, ha, hb, hab⟩
    refine .step S' (hM.present ha ▸ hpa) (hM.present hb ▸ hpb) ?_ (h.carry hmode hS' hM ha hb)
    rintro v a' b' ⟨σ, u, x, y, hM, hx, hy, hxy⟩
    exact ih u x y hxy hM hx hy

/-- **Conformance does not depend on handles or worlds**: what is derivable is derivable of the handles that are paired
with its own, wherever they are. -/
theorem Conforms.transport (hM : ρ.Matches w v) (ha : ρ.ty a a') (hb : ρ.ty b b') (h : Conforms erased w a b) :
    Conforms erased v a' b' :=
  h.carry id hM ha hb

theorem carried_conforms : Carried (Conforms erased) (Conforms erased) :=
  fun _ _ _ _ _ _ _ hM ha hb h => h.transport hM ha hb

/-- What is taken in later changes nothing. -/
theorem World.Closed.conforms_grow (hw : w.Closed) (hv : w ≤ v) (ha : w.Has a) (hb : w.Has b) :
    Conforms erased v a b ↔ Conforms erased w a b := by
  have hM := hw.identity_matches.grow le_rfl hv
  exact ⟨fun h => h.transport hM.symm ⟨rfl, ha⟩ ⟨rfl, hb⟩, fun h => h.transport hM ⟨rfl, ha⟩ ⟨rfl, hb⟩⟩

/-- In `w`, or when more was taken in, a comparison that starts at rest comes to this answer. -/
def World.Returns (w : World) (erased : Bool) (a b : Ty) (answer : Bool) : Prop :=
  ∃ fuel c c' v v', w ≤ v ∧ c.AtRest ∧ c.options.erasedTypes = erased ∧
    isSubType fuel a b c v = .ok ((answer, c'), v')

/-- All comparisons that come to an answer come to the one that conformance gives. -/
theorem World.Returns.iff_selves {answer : Bool} (h : w.Returns erased a b answer) (ho : ρ.opens) (hM : ρ.Matches w w)
    (ha : ρ.ty a a) (hb : ρ.ty b b) : answer = true ↔ Conforms erased w a b := by
  obtain ⟨fuel, c, c', v, v', hv, hc, rfl, hrun⟩ := h
  exact conforms_iff_of_run ho (hM.grow hv le_rfl) ha hb hc hrun

theorem World.Returns.iff {answer : Bool} (h : w.Returns erased a b answer) (hw : w.Closed) (ha : w.Has a)
    (hb : w.Has b) : answer = true ↔ Conforms erased w a b :=
  h.iff_selves trivial hw.identity_matches ⟨rfl, ha⟩ ⟨rfl, hb⟩

theorem World.returns_of_run {answer : Bool} (fuel : Nat)
    (hrun : (isSubType fuel a b (.vacant erased) w).toOption.map (·.1.1) = some answer) : w.Returns erased a b answer := by
  obtain ⟨c, w', hrun⟩ := exists_of_answer hrun
  exact ⟨fuel, _, c, w, w', le_rfl, Comparer.atRest_vacant _, rfl, hrun⟩

/-- Conformance is a fixed point of the cascade. -/
theorem Conforms.unfold (hM : ρ.Matches w w) (ha : ρ.ty a a) (hb : ρ.ty b b) (h : Conforms erased w a b) :
    a = b ∨ Holds erased (Conforms erased) w a b := by
  cases h with
  | refl => exact .inl rfl
  | step S _ _ hS h =>
    refine .inr (h.transport (fun σ u v x x' y y' hM hx hy hxy => ?_) hM ha hb)
    exact (hS u x y hxy).transport hM hx hy

/-- **Induction on derivations.** A step may be taken to look its questions up in a relation that does not depend on
the world and is within conformance and the induction hypothesis. -/
theorem Conforms.induct {P : World → Ty → Ty → Prop} (hM : ρ.Matches w w) (ha : ρ.ty a a) (hb : ρ.ty b b)
    (h : Conforms erased w a b) (refl : ∀ w t, t.present → P w t t)
    (step : ∀ {ρ : Corr} {w : World} {a b : Ty} {S : World → Ty → Ty → Prop}, Carried S S →
      (∀ v x y, S v x y → Conforms erased v x y ∧ P v x y) → ρ.Matches w w → ρ.ty a a → ρ.ty b b → a.present →
      b.present → Holds erased S w a b → P w a b) : P w a b := by
  suffices hall : ∀ (σ : Corr) (v : World) (a' b' : Ty), σ.Matches w v → σ.ty a a' → σ.ty b b' → P v a' b' from
    hall ρ w a b hM ha hb
  clear hM ha hb
  induction h with
  | refl ht =>
    intro σ v a' b' hM ha hb
    obtain rfl := (hM.ty_inj ha hb).1 rfl
    exact refl v a' (hM.present ha ▸ ht)
  | @step w a b S hpa hpb hS h ih =>
    intro σ v a' b' hM ha hb
    -- the pairs that stand for pairs of `S` somewhere: the hypothesis speaks of all that they stand for in turn
    let S' : World → Ty → Ty → Prop := fun v x' y' =>
      ∃ (ρ : Corr) (w : World) (x y : Ty), ρ.Matches w v ∧ ρ.ty x x' ∧ ρ.ty y y' ∧ S w x y
    have hS' : Carried S' S' := by
      rintro τ u v x x' y y' hM hx hy ⟨ρ, w, x₀, y₀, hM₀, hx₀, hy₀, hxy⟩
      exact ⟨ρ.trans τ, w, x₀, y₀, hM₀.trans hM, ⟨x, hx₀, hx⟩, ⟨y, hy₀, hy⟩, hxy⟩
    refine step hS' ?_ (hM.symm.trans hM) ⟨a, ha, ha⟩ ⟨b, hb, hb⟩ (hM.present ha ▸ hpa) (hM.present hb ▸ hpb)
      (h.transport (fun ρ w v x x' y y' hM hx hy hxy => ⟨ρ, w, x, y, hM, hx, hy, hxy⟩) hM ha hb)
    rintro u x' y' ⟨ρ, w, x, y, hM, hx, hy, hxy⟩
    exact ⟨(hS w x y hxy).transport hM hx hy, ih w x y hxy ρ u x' y' hM hx hy⟩

theorem Conforms.present (h : Conforms erased w a b) : a.present ∧ b.present := by
  cases h with
  | refl ht => exact ⟨ht, ht⟩
  | step _ ha hb => exact ⟨ha, hb⟩

end Transport

end Conformance
