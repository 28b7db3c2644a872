import Conformance.Proofs.Clauses

/-!
# Matching of member types

With nothing under inference matching comes to the answer that it gives when nested comparisons are looked up in
conformance (`World.ReturnsMatch.asked`), so what it answers does not depend on levels and thresholds either.

Matching is coarser than conformance as far as the results of the two types go down in step, both of them methods or
both universal at every level (`World.InStep`): there methods that conform match (`matchesType_of_isSubType`). It looks
at the shapes of results where conformance looks at what they stand for, so a method whose result is the bottom class
conforms to methods that it does not match (`matchesType_bottom_result`).
-/

namespace Conformance

open CompareM

namespace CompareM

/-! ## Matching does not depend on handles -/

section Matching

variable {I : Comparer → Prop} {sub : Ty → Ty → CompareM Bool}

theorem keeps_matchesWith (hI : Tolerant I) (hsub : ∀ a b, Keeps I (sub a b)) (simple : Bool) (n : Nat) :
    ∀ t u, Keeps I (matchesWith sub simple n t u) := by
  induction n with
  | zero => exact fun _ _ => .throw
  | succ n ih =>
    intro t u
    refine .bind .world fun w => ?_
    split
    · split
      · refine .bind (keeps_infosUnder _ _ _) fun formals => .ite (.pure _) (.andThen (keeps_sameParams hI hsub _ _ _ _) ?_)
        exact .bind (.lift (grows_substBinder _ _ _ _)) fun _ => ih _ _
      · exact .pure _
    · split
      · exact .ite (ih _ _) (.pure _)
      · exact .pure _
    · exact .pure _
    · split
      · exact .ite (ih _ _) (.pure _)
      · exact .pure _
    · exact ih _ _
    · split
      · exact .ite (.pure _) (.bind (.lift (grows_substBinder _ _ _ _)) fun _ => ih _ _)
      · exact .pure _
    · exact .pure _
    · exact .pure _
    · exact .pure _
    · exact ih _ _
    · exact .ite (.pure _) (keeps_same hI hsub _ _)

/-- Related nested comparisons give related matching. -/
theorem sim_matchesWith {loose : Prop} {p q : Place} {sub₁ sub₂ : Ty → Ty → CompareM Bool} (simple : Bool) (n : Nat) :
    ∀ {m : Nat} {ρ : Corr} {t₁ t₂ u₁ u₂ : Ty}, loose ∨ n ≤ m → Related loose p q ρ sub₁ sub₂ → ρ.ty t₁ t₂ → ρ.ty u₁ u₂ →
      SimCompare loose p q ρ (matchesWith sub₁ simple n t₁ u₁) (matchesWith sub₂ simple m t₂ u₂) := by
  induction n with
  | zero => exact fun _ _ _ _ _ _ _ _ _ => .halt _
  | succ n ih =>
    intro m ρ t₁ t₂ u₁ u₂ hnm h ht hu
    cases m with
    | zero => exact fun _ _ _ _ _ => .halt_right (hnm.resolve_right (by omega)) _
    | succ m =>
      have hnm : loose ∨ n ≤ m := hnm.imp_right (by omega)
      refine .world_bind upward_vacants fun σ w₁ w₂ hσ hM => ?_
      have h := h.mono hσ
      have ht := hσ.ty ht
      have hu := hσ.ty hu
      have hsimple : SimCompare loose p q σ (if simple then return true else same sub₁ t₁ u₁)
          (if simple then return true else same sub₂ t₂ u₂) := .ite Iff.rfl (sim_answer _) (sim_same h ht hu)
      have hshape := hM.shape ht
      have hshape' := hM.shape hu
      generalize w₁.shape t₁ = d₁, w₂.shape t₂ = d₂, w₁.shape u₁ = e₁, w₂.shape u₂ = e₂ at hshape hshape' ⊢
      cases hshape with
      | method hb =>
        obtain ⟨d, d', hd₁, hd₂, hd⟩ := hM.binder h.opens hb
        have hflags : d'.flags = d.flags := by simp only [Binder.flags, hd.kind]
        have harity : d'.arity = d.arity := by simp only [Binder.arity, hd.names]
        cases hshape' with
        | method hc =>
          obtain ⟨e, e', he₁, he₂, he⟩ := hM.binder h.opens hc
          have hflags' : e'.flags = e.flags := by simp only [Binder.flags, he.kind]
          simp only [hd₁, hd₂, he₁, he₂, hflags, hflags']
          refine .bind (sim_infosUnder h.opens hnm hc hb he) fun τ hτ k₁ k₂ hk => ?_
          refine .ite Iff.rfl (sim_answer _) (sim_andThen ?_ ?_ ?_)
          · exact sim_sameParams (h.mono hτ) (Corr.tys_mono hτ hd.infos) hk _ _
          · have hsubst := sim_renamed (hτ.opens h.opens) hnm (hτ.binder hc) (hτ.binder hb) (hτ.ty he.result)
            refine .bind (.lift upward_vacants hsubst) fun υ hυ r₁ r₂ hr => ?_
            exact ih hnm (h.mono (hτ.trans hυ)) ((hτ.trans hυ).ty hd.result) hr
          · exact .bind (.lift (grows_substBinder _ _ _ _)) fun _ =>
              keeps_matchesWith (Vacant.tolerant q) h.keeps₂ _ _ _ _
        | byName hr =>
          simp only [hd₁, hd₂, harity]
          exact .ite Iff.rfl (ih hnm h hd.result hr) (sim_answer _)
        | _ => exact sim_answer _
      | byName hr =>
        cases hshape' with
        | method hc =>
          obtain ⟨e, e', he₁, he₂, he⟩ := hM.binder h.opens hc
          have harity : e'.arity = e.arity := by simp only [Binder.arity, he.names]
          simp only [he₁, he₂, harity]
          exact .ite Iff.rfl (ih hnm h hr he.result) (sim_answer _)
        | _ => exact ih hnm h hr hu
      | universal hb =>
        obtain ⟨d, d', hd₁, hd₂, hd⟩ := hM.binder h.opens hb
        cases hshape' with
        | universal hc =>
          obtain ⟨e, e', he₁, he₂, he⟩ := hM.binder h.opens hc
          have harity : d'.arity = d.arity := by simp only [Binder.arity, hd.names]
          have harity' : e'.arity = e.arity := by simp only [Binder.arity, he.names]
          simp only [hd₁, hd₂, he₁, he₂, harity, harity']
          refine .ite Iff.rfl (sim_answer _) ?_
          have hsubst := sim_renamed h.opens hnm hc hb he.result
          refine .bind (.lift upward_vacants hsubst) fun υ hυ r₁ r₂ hr => ?_
          exact ih hnm (h.mono hυ) (hυ.ty hd.result) hr
        | _ => exact sim_answer _
      | _ =>
        cases hshape' with
        | method | universal => exact sim_answer _
        | byName hr => exact ih hnm h ht hr
        | _ => exact hsimple

open Classical in
/-- Comparing at rest answers what looking the answer up in conformance does. -/
theorem related_conforms {p : Place} (hp : p.Idle) {levels : Nat} (hlevels : levels ≤ Limits.unlimited.toNat) (n : Nat)
    {ρ : Corr} (ho : ρ.opens) :
    Related False p (Comparer.vacant p.options.erasedTypes).place ρ (isSubTypeWithin levels n)
      (asking (Conforms p.options.erasedTypes)) := by
  refine ⟨ho, keeps_vacant n levels p (by rw [hp.level]; omega), keeps_asking _, fun σ hσ a a' b b' ha hb => ?_⟩
  rintro τ c d hτ ⟨hc, hd⟩ υ w₁ w₂ hυ hM
  have hrest : c.AtRest := by
    have hplace := hc.place
    exact ⟨hc.store, (congrArg Place.level hplace).trans hp.level, (congrArg Place.bounds hplace).trans hp.bounds,
      (congrArg Place.pending hplace).trans hp.pending, (congrArg Place.pendingDepth hplace).trans hp.pendingDepth⟩
  have hoptions : c.options = p.options := congrArg Place.options hc.place
  have hkeep := keeps_vacant n levels p (by rw [hp.level]; omega) a b c w₁ hc
  show Agree False υ _ _ (.ok ((decide (Conforms p.options.erasedTypes w₂ a' b'), d), w₂))
  match hr : isSubTypeWithin levels n a b c w₁, hkeep with
  | .error _, _ => exact trivial
  | .ok ((answer, c'), w₁'), ⟨hc', hle⟩ =>
    have hopens : υ.opens := (hσ.trans (hτ.trans hυ)).opens ho
    have hiff := conforms_iff_within hopens hM ((hτ.trans hυ).ty ha) ((hτ.trans hυ).ty hb) hrest hlevels hr
    rw [hoptions] at hiff
    refine ⟨υ, le_rfl, hM.grow hle le_rfl, .inl ?_, hc', hd⟩
    rw [Bool.eq_iff_iff, decide_eq_true_iff, hiff]

/-- Looking answers up in a relation that does not depend on the world. -/
theorem related_carried {loose : Prop} {p q : Place} {ρ : Corr} {S : World → Ty → Ty → Prop} (ho : ρ.opens)
    (hS : Carried S S) :
    Related loose p q ρ (asking S) (asking S) := by
  classical
  refine ⟨ho, keeps_asking S, keeps_asking S, fun σ _ a a' b b' ha hb => ?_⟩
  rintro τ c d hτ ⟨hc, hd⟩ υ w₁ w₂ hυ hM
  have ha := (hτ.trans hυ).ty ha
  have hb := (hτ.trans hυ).ty hb
  refine ⟨υ, le_rfl, hM, .inl ?_, hc, hd⟩
  rw [Bool.eq_iff_iff, decide_eq_true_iff, decide_eq_true_iff]
  exact ⟨hS υ w₁ w₂ a a' b b' hM ha hb, hS υ.symm w₂ w₁ a' a b' b hM.symm ha hb⟩

end Matching

/-! ## Methods and universal types that conform -/

theorem asking_ok {S : World → Ty → Ty → Prop} {a b : Ty} {c c' : Comparer} {w w' : World}
    (h : asking S a b c w = .ok ((true, c'), w')) : S w a b := by
  classical
  have hanswer : decide (S w a b) = true := by
    injection h with h
    exact congrArg (·.1.1) h
  exact of_decide_eq_true hanswer

section Opened

variable {erased : Bool} {ρ : Corr} {w : World} {t u : Ty} {b c : BinderId} {d e : Binder} (hM : ρ.Matches w w)
  (kt : ρ.ty t t) (ku : ρ.ty u u) (hb : w.binder? b = some d) (hc : w.binder? c = some e) (hne : t ≠ u)
  (h : Conforms erased w t u)
include hM kt ku hb hc hne h

/-- Of two methods that conform both take arguments from the language or neither, the parameters of the second one, put
in the place of those of the first one, are the same, and the result of the second one, so put, is conformed to. -/
theorem conforms_methods (ht : w.shape? t = some (.method b)) (hu : w.shape? u = some (.method c)) :
    d.flags.implicitArgs = e.flags.implicitArgs ∧ ∃ fuel formals c₁ c₂ c₃ v₁ v₂ v₃ r v₄,
      Vacant (Comparer.vacant erased).place c₁ ∧ infosUnder fuel c b e c₁ w = .ok ((formals, c₂), v₁) ∧
      Vacant (Comparer.vacant erased).place c₂ ∧ v₁ ≤ v₂ ∧
      sameParams (asking (Conforms erased)) d.infos formals d.flags.foreign e.flags.foreign c₂ v₂ =
        .ok ((true, c₃), v₃) ∧
      v₂ ≤ v₃ ∧ Ty.substBinder fuel c b e.result v₃ = .ok (r, v₄) ∧ Conforms erased v₄ d.result r := by
  have hshape := World.shape_of_shape? ht
  have hshape' := World.shape_of_shape? hu
  obtain ⟨fuel, c₁, c', w', hc₁, hrun⟩ := (holds_third carried_conforms hM kt ku (by rw [hshape']; rfl)
    (by rw [hshape]; rfl) (by rw [hshape]; rfl)).1 ((h.unfold hM kt ku).resolve_left hne)
  unfold third at hrun
  rw [run_world_bind, hshape, hshape'] at hrun
  change methods fuel (asking (Conforms erased)) t b u c c₁ w = _ at hrun
  unfold methods at hrun
  rw [run_world_bind, hb, hc] at hrun
  obtain ⟨formals, c₂, v₁, hformals, hrun⟩ := run_bind_ok hrun
  obtain ⟨sig₁, v₂, hsig₁, hrun⟩ := run_lift_bind_ok hrun
  obtain ⟨sig₂, v₃, hsig₂, hrun⟩ := run_lift_bind_ok hrun
  have hgrown : v₁ ≤ v₃ := ((grows_signature fuel t).le_of_ok hsig₁).trans ((grows_signature fuel u).le_of_ok hsig₂)
  by_cases hsig : (!sig₁.matches sig₂) = true
  · rw [if_pos hsig] at hrun
    cases hrun
  rw [if_neg hsig] at hrun
  obtain ⟨same, c₃, v₄, hsame, hrun⟩ := run_bind_ok hrun
  have hc₂ := (keeps_infosUnder c b e c₁ w hc₁).ok hformals
  have hc₃ := (keeps_sameParams (Vacant.tolerant _) (keeps_asking _) _ _ _ _ _ _ hc₂.1).ok hsame
  cases same with
  | false => cases hrun
  | true =>
    by_cases himplicit : d.flags.implicitArgs ≠ e.flags.implicitArgs
    · simp only [if_pos himplicit] at hrun
      cases hrun
    simp only [if_neg himplicit] at hrun
    obtain ⟨r, v₅, hr, hrun⟩ := run_lift_bind_ok hrun
    exact ⟨not_not.1 himplicit, fuel, formals, c₁, c₂, c₃, v₁, v₃, v₄, r, v₅, hc₁, hformals, hc₂.1, hgrown, hsame,
      hc₃.2, hr, asking_ok hrun⟩

/-- Of two universal types that conform the second one has as many parameters as the first one, and its body, put under
them, is conformed to. -/
theorem conforms_universals (ht : w.shape? t = some (.universal b)) (hu : w.shape? u = some (.universal c)) :
    d.arity = e.arity ∧ ∃ fuel v r v', w ≤ v ∧ Ty.substBinder fuel c b e.result v = .ok (r, v') ∧
      Conforms erased v' d.result r := by
  have hshape := World.shape_of_shape? ht
  have hshape' := World.shape_of_shape? hu
  obtain ⟨fuel, c₁, c', w', hc₁, hrun⟩ := (holds_third carried_conforms hM kt ku (by rw [hshape']; rfl)
    (by rw [hshape]; rfl) (by rw [hshape]; rfl)).1 ((h.unfold hM kt ku).resolve_left hne)
  unfold third at hrun
  rw [run_world_bind, hshape, hshape'] at hrun
  change universals fuel (asking (Conforms erased)) t b u c c₁ w = _ at hrun
  unfold universals at hrun
  rw [run_world_bind, hb, hc] at hrun
  obtain ⟨sig₁, v₁, hsig₁, hrun⟩ := run_lift_bind_ok hrun
  obtain ⟨sig₂, v₂, hsig₂, hrun⟩ := run_lift_bind_ok hrun
  have hgrown : w ≤ v₂ := ((grows_signature fuel t).le_of_ok hsig₁).trans ((grows_signature fuel u).le_of_ok hsig₂)
  by_cases hsig : (!sig₁.matches sig₂ || decide (d.arity ≠ e.arity)) = true
  · rw [if_pos hsig] at hrun
    cases hrun
  rw [if_neg hsig] at hrun
  have harity : d.arity = e.arity := by
    simp only [Bool.or_eq_true, decide_eq_true_eq, not_or, not_not] at hsig
    exact hsig.2
  obtain ⟨same, c₂, v₃, hsame, hrun⟩ := run_bind_ok hrun
  have hbounds : Keeps (Vacant (Comparer.vacant erased).place) ((d.infos.zip e.infos).allM fun x => do
      CompareM.same (asking (Conforms erased)) x.1 (← Ty.substBinder fuel c b x.2)) :=
    .allM (fun _ => .bind (.lift (grows_substBinder _ _ _ _)) fun _ =>
      keeps_same (Vacant.tolerant _) (keeps_asking _) _ _) _
  have hc₂ := (hbounds c₁ v₂ hc₁).ok hsame
  cases same with
  | false => cases hrun
  | true =>
    obtain ⟨r, v₄, hr, hrun⟩ := run_lift_bind_ok hrun
    exact ⟨harity, fuel, v₃, r, v₄, hgrown.trans hc₂.2, hr, asking_ok hrun⟩

end Opened

end CompareM

/-! ## Results that go down in step -/

namespace World

/-- Neither a method nor a universal type, nor the type of a result that is one of them and computed at each use. -/
inductive Simple (w : World) : Ty → Prop
  | other {t : Ty} {d : Shape} (shape : w.shape? t = some d) (method : ∀ b, d ≠ .method b)
    (universal : ∀ b, d ≠ .universal b) (byName : ∀ r, d ≠ .byName r) : Simple w t
  | byName {t r : Ty} (shape : w.shape? t = some (.byName r)) (result : w.Simple r) : Simple w t

/-- In `w` or later `r` is made of `t` by putting the parameters of `new` in the place of those of `old`; `v` is the world
after it. -/
def Renames (w : World) (old new : BinderId) (t r : Ty) (v : World) : Prop :=
  ∃ fuel v₀, w ≤ v₀ ∧ Ty.substBinder fuel old new t v₀ = .ok (r, v)

/-- From the two types down, both are methods, none of whose formals is absent, or both are universal, and then so on for
their results, those of the second type under the parameters of the first one, until neither is one of them. -/
inductive InStep : World → Ty → Ty → Prop
  | simple {w : World} {t u : Ty} (left : w.Simple t) (right : w.Simple u) : InStep w t u
  | methods {w : World} {t u : Ty} {b c : BinderId} {d e : Binder} (left : w.shape? t = some (.method b))
    (right : w.shape? u = some (.method c)) (binder₁ : w.binder? b = some d) (binder₂ : w.binder? c = some e)
    (formals : ∀ i ∈ d.infos, i.present) (results : ∀ r v, w.Renames c b e.result r v → InStep v d.result r) :
    InStep w t u
  | universals {w : World} {t u : Ty} {b c : BinderId} {d e : Binder} (left : w.shape? t = some (.universal b))
    (right : w.shape? u = some (.universal c)) (binder₁ : w.binder? b = some d) (binder₂ : w.binder? c = some e)
    (results : ∀ r v, w.Renames c b e.result r v → InStep v d.result r) : InStep w t u

end World

namespace CompareM

/-- Simple types match when they are not to be compared: results that are computed at each use are opened, first those of
the first type. -/
theorem matches_simple {w : World} {sub : Ty → Ty → CompareM Bool} {t u : Ty} (ht : w.Simple t) (hu : w.Simple u)
    (c : Comparer) : ∃ n, matchesWith sub true n t u c w = .ok ((true, c), w) := by
  induction ht with
  | byName hshape _ ih =>
    obtain ⟨n, hn⟩ := ih
    refine ⟨n + 1, ?_⟩
    unfold matchesWith
    rw [run_world_bind, World.shape_of_shape? hshape]
    cases hu with
    | byName hshape' => rw [World.shape_of_shape? hshape']; exact hn
    | @other _ e hshape' hmethod =>
      rw [World.shape_of_shape? hshape']
      cases e with
      | method b => exact absurd rfl (hmethod b)
      | _ => exact hn
  | @other t d hshape hmethod huniversal hbyName =>
    induction hu with
    | byName hshape' _ ih =>
      obtain ⟨n, hn⟩ := ih
      refine ⟨n + 1, ?_⟩
      unfold matchesWith
      rw [run_world_bind, World.shape_of_shape? hshape, World.shape_of_shape? hshape']
      cases d with
      | method b => exact absurd rfl (hmethod b)
      | universal b => exact absurd rfl (huniversal b)
      | byName r => exact absurd rfl (hbyName r)
      | _ => exact hn
    | @other _ e hshape' hmethod' huniversal' hbyName' =>
      refine ⟨1, ?_⟩
      unfold matchesWith
      rw [run_world_bind, World.shape_of_shape? hshape, World.shape_of_shape? hshape']
      cases d with
      | method b => exact absurd rfl (hmethod b)
      | universal b => exact absurd rfl (huniversal b)
      | byName r => exact absurd rfl (hbyName r)
      | _ =>
        cases e with
        | method b => exact absurd rfl (hmethod' b)
        | universal b => exact absurd rfl (huniversal' b)
        | byName r => exact absurd rfl (hbyName' r)
        | _ => rfl

/-- Renaming a binder to itself changes nothing. -/
theorem substBinder_self (n : Nat) (b : BinderId) (t : Ty) (w : World) :
    Ty.substBinder (n + 1) b b t w = .ok (t, w) := by
  unfold Ty.substBinder
  rw [if_pos rfl]
  rfl

theorem infosUnder_self (n : Nat) (b : BinderId) (d : Binder) (c : Comparer) (w : World) :
    infosUnder (n + 1) b b d c w = .ok ((d.infos, c), w) := by
  unfold infosUnder
  induction d.infos with
  | nil => rfl
  | cons i l ih =>
    rw [List.mapM_cons]
    refine (run_bind (run_lift (substBinder_self n b i w) c)).trans ((run_bind ih).trans rfl)

/-- Parameters that are there are the same as themselves. -/
theorem sameParams_self {sub : Ty → Ty → CompareM Bool} {l : List Ty} (hl : ∀ i ∈ l, i.present) (x y : Bool)
    (c : Comparer) (w : World) : sameParams sub l l x y c w = .ok ((true, c), w) := by
  have hsame : ∀ i ∈ l, (same sub i i <||> return (x || y) && isTopPair i i : CompareM Bool) c w =
      .ok ((true, c), w) := by
    intro i hi
    have hself : same sub i i = return true := by
      unfold same
      rw [if_neg (by simp [hl i hi]), if_pos rfl]
    rw [hself]
    rfl
  unfold sameParams
  rw [if_neg (not_not.2 rfl)]
  clear hl
  induction l with
  | nil => rfl
  | cons i l ih =>
    refine (run_bind (hsame i List.mem_cons_self)).trans ?_
    exact ih fun j hj => hsame j (List.mem_cons_of_mem _ hj)

end CompareM

/-- Matching answers true when nested comparisons are looked up in conformance. -/
def Matched (erased simple : Bool) (w : World) (t u : Ty) : Prop :=
  ∃ n, Affirmed erased w (matchesWith (asking (Conforms erased)) simple n t u)

/-- What matches goes on to match with every allowance that is large enough, under the handles it is paired with. -/
theorem Matched.run {erased simple : Bool} {w : World} {t u : Ty} (h : Matched erased simple w t u) :
    ∃ n, ∀ {ρ : Corr} {v : World} {t' u' : Ty}, ρ.opens → ρ.Matches w v → ρ.ty t t' → ρ.ty u u' → ∀ m, n ≤ m →
      ∀ c, Vacant (Comparer.vacant erased).place c →
        ∃ c' v', matchesWith (asking (Conforms erased)) simple m t' u' c v = .ok ((true, c'), v') := by
  obtain ⟨n, c₀, c₀', w', hc₀, hrun⟩ := h
  refine ⟨n, fun {ρ v t' u'} ho hM ht hu m hm c hc => ?_⟩
  have hsim : SimCompare False (Comparer.vacant erased).place (Comparer.vacant erased).place ρ
      (matchesWith (asking (Conforms erased)) simple n t u) (matchesWith (asking (Conforms erased)) simple m t' u') :=
    sim_matchesWith simple n (.inr hm) (related_carried ho carried_conforms) ht hu
  obtain ⟨⟨answer, c'⟩, v', _, hrun', -, -, hanswer, -⟩ := (hsim ρ c₀ c le_rfl ⟨hc₀, hc⟩ ρ w v le_rfl hM).ends hrun
  obtain rfl : true = answer := hanswer.resolve_right fun h => h.1
  exact ⟨c', v', hrun'⟩

namespace CompareM

section Again

variable {erased : Bool} {ρ : Corr} {w v : World} {u : Ty} {b₁ b₂ : BinderId} {d e : Binder} {c : Comparer}

/-- Two renamings of a type into the place of another binder come to types that correspond. -/
theorem substBinder_again {x x' : World} {r : Ty} {n m : Nat} (hnm : n ≤ m) (ho : ρ.opens) (hM : ρ.Matches x v)
    (kb : ρ.binder b₁ b₁) (kc : ρ.binder b₂ b₂) (ku : ρ.ty u u) (hr : Ty.substBinder n b₂ b₁ u x = .ok (r, x')) :
    ∃ r' v' σ, Ty.substBinder m b₂ b₁ u v = .ok (r', v') ∧ ρ ≤ σ ∧ σ.Matches x' v' ∧ σ.ty r r' := by
  have hsim : Sim False ρ Corr.ty (Ty.substBinder n b₂ b₁ u) (Ty.substBinder m b₂ b₁ u) :=
    sim_renamed ho (.inr hnm) kc kb ku
  exact (hsim ρ x v le_rfl hM).ends hr

/-- Parameters that were found the same, in the place of those of another binder, are found the same once more. -/
theorem sameParams_again {x₁ x₂ x₃ : World} {a₁ a₂ a₃ : Comparer} {fuel n : Nat} {formals : List Ty} {f g : Bool}
    (hn : fuel ≤ n) (ho : ρ.opens) (hM : ρ.Matches w w) (kb : ρ.binder b₁ b₁) (kc : ρ.binder b₂ b₂) (kd : ρ.Binders d d)
    (ke : ρ.Binders e e) (ha₁ : Vacant (Comparer.vacant erased).place a₁)
    (hinfos : infosUnder fuel b₂ b₁ e a₁ w = .ok ((formals, a₂), x₁))
    (ha₂ : Vacant (Comparer.vacant erased).place a₂) (hx : x₁ ≤ x₂)
    (hsame : sameParams (asking (Conforms erased)) d.infos formals f g a₂ x₂ = .ok ((true, a₃), x₃))
    (hc : Vacant (Comparer.vacant erased).place c) :
    ∃ formals' c₁ v₁ c₂ v₂ σ, infosUnder n b₂ b₁ e c w = .ok ((formals', c₁), v₁) ∧
      sameParams (asking (Conforms erased)) d.infos formals' f g c₁ v₁ = .ok ((true, c₂), v₂) ∧
      Vacant (Comparer.vacant erased).place c₂ ∧ ρ ≤ σ ∧ σ.Matches x₃ v₂ := by
  let p := (Comparer.vacant erased).place
  have hinfosSim : SimState False (Vacants p p) (Vacants p p) ρ Corr.tys (infosUnder fuel b₂ b₁ e)
      (infosUnder n b₂ b₁ e) := sim_infosUnder ho (.inr hn) kc kb ke
  obtain ⟨⟨formals', c₁⟩, v₁, σ, hinfos', hσ, hMσ, kformals, -, hc₁⟩ :=
    (hinfosSim ρ a₁ c le_rfl ⟨ha₁, hc⟩ ρ w w le_rfl hM).ends hinfos
  have hsameSim : SimCompare False p p σ (sameParams (asking (Conforms erased)) d.infos formals f g)
      (sameParams (asking (Conforms erased)) d.infos formals' f g) :=
    sim_sameParams (related_carried (hσ.opens ho) carried_conforms) (kd.infos.imp fun _ _ => hσ.ty) kformals _ _
  obtain ⟨⟨answer, c₂⟩, v₂, τ, hsame', hτ, hMτ, hanswer, -, hc₂⟩ :=
    (hsameSim σ a₂ c₁ le_rfl ⟨ha₂, hc₁⟩ σ x₂ v₁ le_rfl (hMσ.grow hx le_rfl)).ends hsame
  obtain rfl : true = answer := hanswer.resolve_right fun h => h.1
  exact ⟨formals', c₁, v₁, c₂, v₂, τ, hinfos', hsame', hc₂, hσ.trans hτ, hMτ⟩

end Again

/-- What matching asks of two methods. -/
theorem matchesWith_methods {sub : Ty → Ty → CompareM Bool} {simple : Bool} {w : World} {t u : Ty} {b₁ b₂ : BinderId}
    {d e : Binder} (ht : w.shape? t = some (.method b₁)) (hu : w.shape? u = some (.method b₂))
    (hd : w.binder? b₁ = some d) (he : w.binder? b₂ = some e) (n : Nat) (c : Comparer) :
    matchesWith sub simple (n + 1) t u c w =
      (infosUnder n b₂ b₁ e >>= fun formals =>
        if d.flags.implicitArgs ≠ e.flags.implicitArgs then return false
        else
          sameParams sub d.infos formals d.flags.foreign e.flags.foreign <&&> do
            let result ← Ty.substBinder n b₂ b₁ e.result
            matchesWith sub simple n d.result result) c w := by
  rw [matchesWith, run_world_bind, World.shape_of_shape? ht, World.shape_of_shape? hu]
  simp only [hd, he]

/-- What matching asks of two universal types. -/
theorem matchesWith_universals {sub : Ty → Ty → CompareM Bool} {simple : Bool} {w : World} {t u : Ty}
    {b₁ b₂ : BinderId} {d e : Binder} (ht : w.shape? t = some (.universal b₁)) (hu : w.shape? u = some (.universal b₂))
    (hd : w.binder? b₁ = some d) (he : w.binder? b₂ = some e) (n : Nat) (c : Comparer) :
    matchesWith sub simple (n + 1) t u c w =
      (if d.arity ≠ e.arity then return false
        else do
          let result ← Ty.substBinder n b₂ b₁ e.result
          matchesWith sub simple n d.result result : CompareM Bool) c w := by
  rw [matchesWith, run_world_bind, World.shape_of_shape? ht, World.shape_of_shape? hu]
  simp only [hd, he]

/-- **Methods and universal types that conform match**, as far as their results go down in step. The induction is on that;
the two relations rename the second type each for itself, and what they come to corresponds. -/
theorem matched_of_conforms {erased : Bool} {w : World} {t u : Ty} (hstep : w.InStep t u) :
    ∀ {ρ : Corr}, ρ.opens → ρ.Matches w w → ρ.ty t t → ρ.ty u u → t = u ∨ Conforms erased w t u → Matched erased true w t u := by
  induction hstep with
  | simple ht hu =>
    intro ρ _ _ _ _ _
    obtain ⟨n, hn⟩ := matches_simple ht hu (.vacant erased)
    exact ⟨n, _, _, _, vacant_place erased, hn⟩
  | @methods w t u b₁ b₂ d e ht hu hd he hformals _ ih =>
    intro ρ ho hM kt ku h
    have kb : ρ.binder b₁ b₁ := by cases hM.parts kt ht with | method hb => exact hb
    have kc : ρ.binder b₂ b₂ := by cases hM.parts ku hu with | method hb => exact hb
    have kd := hM.body ho kb hd
    have ke := hM.body ho kc he
    by_cases htu : t = u
    · subst htu
      obtain rfl : b₁ = b₂ := by cases ht.symm.trans hu; rfl
      obtain rfl : d = e := Option.some.inj (hd.symm.trans he)
      obtain ⟨n, hn⟩ :=
        (ih d.result w ⟨1, w, le_rfl, substBinder_self 0 b₁ _ w⟩ ho hM kd.result kd.result (.inl rfl)).run
      obtain ⟨c', v', hrun⟩ := hn ho hM kd.result kd.result (n + 1) (Nat.le_succ n) _ (vacant_place erased)
      refine ⟨n + 2, .vacant erased, c', v', vacant_place erased, (matchesWith_methods ht hu hd he _ _).trans ?_⟩
      rw [run_bind (infosUnder_self n b₁ d _ w), if_neg (not_not.2 rfl)]
      refine (run_bind (sameParams_self hformals _ _ _ w)).trans ?_
      exact (run_bind (run_lift (substBinder_self n b₁ d.result w) _)).trans hrun
    · obtain ⟨himplicit, fuel, formals, a₁, a₂, a₃, x₁, x₂, x₃, r, x₄, ha₁, hinfos, ha₂, hx, hsame, hx', hr, hresult⟩ :=
        conforms_methods hM kt ku hd he htu (h.resolve_left htu) ht hu
      have hgrown : w ≤ x₃ := ((keeps_infosUnder b₂ b₁ e a₁ w ha₁).ok hinfos).2.trans (hx.trans hx')
      obtain ⟨_, _, σ, hself, hσ, hMσ, kr⟩ :=
        substBinder_again (Nat.le_refl fuel) ho (hM.grow hgrown hgrown) kb kc ke.result hr
      cases hr.symm.trans hself
      obtain ⟨n, hn⟩ := (ih r x₄ ⟨fuel, x₃, hgrown, hr⟩ (hσ.opens ho) hMσ (hσ.ty kd.result) kr (.inr hresult)).run
      obtain ⟨formals', c₁, v₁, c₂, v₂, τ, hinfos', hsame', hc₂, hτ, hMτ⟩ := sameParams_again (Nat.le_max_left fuel n)
        ho hM kb kc kd ke ha₁ hinfos ha₂ hx hsame (vacant_place erased)
      obtain ⟨r', v, υ, hr', hυ, hMυ, krr⟩ := substBinder_again (Nat.le_max_left fuel n) (hτ.opens ho) hMτ (hτ.binder kb)
        (hτ.binder kc) (hτ.ty ke.result) hr
      obtain ⟨c', v', hrun⟩ := hn ((hτ.trans hυ).opens ho) hMυ ((hτ.trans hυ).ty kd.result) krr _ (Nat.le_max_right fuel n) c₂ hc₂
      refine ⟨max fuel n + 1, .vacant erased, c', v', vacant_place erased,
        (matchesWith_methods ht hu hd he _ _).trans ?_⟩
      rw [run_bind hinfos', if_neg (not_not.2 himplicit)]
      exact (run_bind hsame').trans ((run_bind (run_lift hr' _)).trans hrun)
  | @universals w t u b₁ b₂ d e ht hu hd he _ ih =>
    intro ρ ho hM kt ku h
    have kb : ρ.binder b₁ b₁ := by cases hM.parts kt ht with | universal hb => exact hb
    have kc : ρ.binder b₂ b₂ := by cases hM.parts ku hu with | universal hb => exact hb
    have kd := hM.body ho kb hd
    have ke := hM.body ho kc he
    by_cases htu : t = u
    · subst htu
      obtain rfl : b₁ = b₂ := by cases ht.symm.trans hu; rfl
      obtain rfl : d = e := Option.some.inj (hd.symm.trans he)
      obtain ⟨n, hn⟩ :=
        (ih d.result w ⟨1, w, le_rfl, substBinder_self 0 b₁ _ w⟩ ho hM kd.result kd.result (.inl rfl)).run
      obtain ⟨c', v', hrun⟩ := hn ho hM kd.result kd.result (n + 1) (Nat.le_succ n) _ (vacant_place erased)
      refine ⟨n + 2, .vacant erased, c', v', vacant_place erased, (matchesWith_universals ht hu hd he _ _).trans ?_⟩
      rw [if_neg (not_not.2 rfl)]
      exact (run_bind (run_lift (substBinder_self n b₁ d.result w) _)).trans hrun
    · obtain ⟨harity, fuel, x, r, x', hx, hr, hresult⟩ :=
        conforms_universals hM kt ku hd he htu (h.resolve_left htu) ht hu
      obtain ⟨_, _, σ, hself, hσ, hMσ, kr⟩ :=
        substBinder_again (Nat.le_refl fuel) ho (hM.grow hx hx) kb kc ke.result hr
      cases hr.symm.trans hself
      obtain ⟨n, hn⟩ := (ih r x' ⟨fuel, x, hx, hr⟩ (hσ.opens ho) hMσ (hσ.ty kd.result) kr (.inr hresult)).run
      obtain ⟨r', v, υ, hr', hυ, hMυ, krr⟩ :=
        substBinder_again (Nat.le_max_left fuel n) ho (hM.grow hx le_rfl) kb kc ke.result hr
      obtain ⟨c', v', hrun⟩ := hn (hυ.opens ho) hMυ (hυ.ty kd.result) krr _ (Nat.le_max_right fuel n) _ (vacant_place erased)
      refine ⟨max fuel n + 1, .vacant erased, c', v', vacant_place erased,
        (matchesWith_universals ht hu hd he _ _).trans ?_⟩
      rw [if_neg (not_not.2 harity)]
      exact (run_bind (run_lift hr' _)).trans hrun

end CompareM

/-! ## What matching answers -/

/-- In `w`, or when more was taken in, what asks for comparisons comes to this answer, started at rest. -/
def World.Replies (w : World) (erased : Bool) (F : Nat → (Ty → Ty → CompareM Bool) → CompareM Bool) (answer : Bool) :
    Prop :=
  ∃ fuel c c' v v', w ≤ v ∧ c.AtRest ∧ c.options.erasedTypes = erased ∧
    F fuel (isSubType fuel) c v = .ok ((answer, c'), v')

/-- In `w`, or when more was taken in, matching that starts at rest comes to this answer. -/
def World.ReturnsMatch (w : World) (erased simple : Bool) (a b : Ty) (answer : Bool) : Prop :=
  ∃ fuel c c' v v', w ≤ v ∧ c.AtRest ∧ c.options.erasedTypes = erased ∧
    matchesType fuel a b simple c v = .ok ((answer, c'), v')

section Asked

variable {erased simple answer : Bool} {w : World} {F : Nat → (Ty → Ty → CompareM Bool) → CompareM Bool}
  {a b : Ty}

theorem World.replies_of_run (fuel : Nat)
    (hrun : (F fuel (isSubType fuel) (.vacant erased) w).toOption.map (·.1.1) = some answer) :
    w.Replies erased F answer := by
  obtain ⟨c, w', hrun⟩ := exists_of_answer hrun
  exact ⟨fuel, _, c, w, w', le_rfl, Comparer.atRest_vacant _, rfl, hrun⟩

/-- What asks for comparisons comes to the answer that it gives when they are looked up in conformance. -/
theorem World.Replies.asked (h : w.Replies erased F answer) (hw : w.Closed) (hasks : ∀ n, Uniform (F n))
    (hF : ∀ {p q sub₁ sub₂} n, Related False p q (Corr.identity w) sub₁ sub₂ →
      SimCompare False p q (Corr.identity w) (F n sub₁) (F n sub₂)) :
    ∃ fuel c w', F fuel (asking (Conforms erased)) (.vacant erased) w = .ok ((answer, c), w') := by
  obtain ⟨fuel, c, c', v, v', hv, hc, rfl, hrun⟩ := h
  have hwithin := run_within (hasks fuel) hc.level hrun
  have hM : (Corr.identity w).Matches v w := hw.identity_matches.grow hv le_rfl
  have hsim := hF fuel (related_conforms hc.idle (Nat.le_refl _) fuel trivial)
  obtain ⟨⟨answer', d⟩, w', _, hasked, -, -, hanswer, -⟩ := (hsim _ c (.vacant c.options.erasedTypes) le_rfl
    ⟨vacant_of_atRest hc, vacant_place _⟩ _ v w le_rfl hM).ends hwithin
  obtain rfl : answer = answer' := hanswer.resolve_right fun h => h.1
  exact ⟨fuel, d, w', hasked⟩

theorem World.returnsMatch_of_run (fuel : Nat)
    (hrun : (matchesType fuel a b simple (.vacant erased) w).toOption.map (·.1.1) = some answer) :
    w.ReturnsMatch erased simple a b answer :=
  World.replies_of_run (F := fun n sub => matchesWith sub simple n a b) fuel hrun

theorem World.ReturnsMatch.asked (h : w.ReturnsMatch erased simple a b answer) (hw : w.Closed) (ha : w.Has a)
    (hb : w.Has b) :
    ∃ fuel c w', matchesWith (asking (Conforms erased)) simple fuel a b (.vacant erased) w = .ok ((answer, c), w') :=
  World.Replies.asked (F := fun n sub => matchesWith sub simple n a b) h hw
    (fun n _ hR _ _ hsub => hR.matchesWith hsub simple n a b) fun n hsub =>
      sim_matchesWith simple n (.inr (Nat.le_refl n)) hsub ⟨rfl, ha⟩ ⟨rfl, hb⟩

end Asked

/-- **Matching decides** whether the types match when nested comparisons are looked up in conformance. -/
theorem World.ReturnsMatch.iff {erased simple answer : Bool} {w : World} {a b : Ty}
    (h : w.ReturnsMatch erased simple a b answer) (hw : w.Closed) (ha : w.Has a) (hb : w.Has b) :
    answer = true ↔ Matched erased simple w a b := by
  obtain ⟨fuel, d, w', hasked⟩ := h.asked hw ha hb
  have ka : (Corr.identity w).ty a a := ⟨rfl, ha⟩
  have kb : (Corr.identity w).ty b b := ⟨rfl, hb⟩
  constructor
  · rintro rfl
    exact ⟨fuel, _, d, w', vacant_place _, hasked⟩
  · rintro hmatched
    obtain ⟨n, hn⟩ := hmatched.run
    obtain ⟨d', x, hrun'⟩ := hn trivial hw.identity_matches ka kb (max fuel n) (Nat.le_max_right ..) _ (vacant_place _)
    have hsame : SimCompare False (Comparer.vacant erased).place (Comparer.vacant erased).place (Corr.identity w)
        (matchesWith (asking (Conforms erased)) simple fuel a b)
        (matchesWith (asking (Conforms erased)) simple (max fuel n) a b) :=
      sim_matchesWith simple fuel (.inr (Nat.le_max_left ..)) (related_carried trivial carried_conforms) ka kb
    obtain ⟨_, _, _, hagain, -, -, hsame, -⟩ := (hsame _ _ _ le_rfl ⟨vacant_place _, vacant_place _⟩ _ w w le_rfl
      hw.identity_matches).ends hasked
    cases hrun'.symm.trans hagain
    exact hsame.resolve_right fun h => h.1

namespace CompareM

/-- **Matching is coarser than conformance** as far as results go down in step: there a type that conforms to another one
matches it, if two types that are neither methods nor universal do. Whenever matching comes to an answer it is true, and
it comes to one if the comparisons do that it asks for. -/
theorem matchesType_of_isSubType {erased : Bool} {w : World} {a b : Ty} (hw : w.Built) (ha : w.Has a) (hb : w.Has b)
    (hstep : w.InStep a b) (hconforms : w.Returns erased a b true) :
    Matched erased true w a b ∧ ∀ answer, w.ReturnsMatch erased true a b answer → answer = true := by
  have hcl := hw.closed
  have hmatched : Matched erased true w a b :=
    matched_of_conforms hstep trivial hcl.identity_matches ⟨rfl, ha⟩ ⟨rfl, hb⟩ (.inr ((hconforms.iff hcl ha hb).1 rfl))
  exact ⟨hmatched, fun answer hreturns => (hreturns.iff hcl ha hb).2 hmatched⟩

/-- The world with one more method, whose parameter is called `x`. -/
def withMethod (w : World) (formal result : Ty) : World :=
  let b : BinderId := ⟨w.binders.size⟩
  let w := { w with binders := w.binders.push { kind := .method {}, names := ["x"] } }
  let w := { w with binders := w.binders.modify b.id fun d => { d with infos := [formal], result } }
  { w with types := (w.types.intern (.method b)).2 }

theorem built_withMethod {w : World} (h : w.Built) (formal result : Ty) (hf : w.Has formal) (hr : w.Has result) :
    (withMethod w formal result).Built := by
  have h₁ := h.binder (.method {}) ["x"]
  have h₂ := h₁.fill ⟨w.binders.size⟩ [formal] result (fun t ht => List.mem_singleton.1 ht ▸ hf) hr
  exact h₂.intern (.method ⟨w.binders.size⟩) (World.mentions_method (by simp [World.binder?]))

/-- The methods `(x: Int)Nothing` at `15`, `(x: Int)Int` at `16`, `(x: Int)(x: Int)Int` at `17` and `(x: Int)Any` at `18`,
one with an absent formal at `19`, and one at `21` whose result is the method at `16`, computed at each use. -/
def resultWorld : World :=
  let w := withMethod .initial Builtin.int.type Builtin.nothing.type
  let w := withMethod w Builtin.int.type Builtin.int.type
  let w := withMethod w Builtin.int.type ⟨16⟩
  let w := withMethod w Builtin.int.type Builtin.any.type
  let w := withMethod w .noType Builtin.int.type
  let w := { w with types := (w.types.intern (.byName ⟨16⟩)).2 }
  withMethod w Builtin.int.type ⟨20⟩

theorem resultWorld_built : resultWorld.Built := by
  have h₁ := built_withMethod .initial Builtin.int.type Builtin.nothing.type (by decide) (by decide)
  have h₂ := built_withMethod h₁ Builtin.int.type Builtin.int.type (by decide) (by decide)
  have h₃ := built_withMethod h₂ Builtin.int.type ⟨16⟩ (by decide) (by decide)
  have h₄ := built_withMethod h₃ Builtin.int.type Builtin.any.type (by decide) (by decide)
  have h₅ := built_withMethod h₄ .noType Builtin.int.type (by decide) (by decide)
  have h₆ := h₅.intern (.byName ⟨16⟩) (World.mentions_byName (by decide))
  exact built_withMethod h₆ Builtin.int.type ⟨20⟩ (by decide) (by decide)

/-- The reference to a class mentions no parameters, so renaming them leaves it as it is. -/
theorem substBinder_class {w v : World} {s : Symbol} {t r : Ty} {n : Nat} {old new : BinderId}
    (ht : w.shape? t = some (.named .noPrefix s)) (hpre : w.shape? .noPrefix = some (.fixed .noPrefix))
    (hr : Ty.substBinder n old new t w = .ok (r, v)) : r = t ∧ v = w := by
  have hnoPrefix (m : Nat) (x : Ty × World) (hx : Ty.substBinder m old new .noPrefix w = .ok x) :
      x = (.noPrefix, w) := by
    cases m with
    | zero => cases hx
    | succ m =>
      unfold Ty.substBinder at hx
      split at hx
      · cases hx
        rfl
      · rw [get_bind_run, World.shape_of_shape? hpre] at hx
        simp only [Ty.mapChildren, get_bind_run, World.shape_of_shape? hpre] at hx
        cases hx
        rfl
  cases n with
  | zero => cases hr
  | succ n =>
    unfold Ty.substBinder at hr
    split at hr
    · cases hr
      exact ⟨rfl, rfl⟩
    · rw [get_bind_run, World.shape_of_shape? ht] at hr
      simp only [Ty.mapChildren, get_bind_run, World.shape_of_shape? ht, Ty.rebuild₁] at hr
      obtain ⟨q, w', hq, hrest⟩ := bind_ok hr
      cases hnoPrefix n _ hq
      rw [if_pos rfl] at hrest
      cases hrest
      exact ⟨rfl, rfl⟩

/-- The method `(x: Int)Nothing` conforms to `(x: Int)Any`, and matches it. -/
theorem matchesType_of_isSubType_result : resultWorld.Built ∧ resultWorld.Has ⟨15⟩ ∧ resultWorld.Has ⟨18⟩ ∧
    resultWorld.InStep ⟨15⟩ ⟨18⟩ ∧ resultWorld.Returns false ⟨15⟩ ⟨18⟩ true ∧ Matched false true resultWorld ⟨15⟩ ⟨18⟩ ∧
    ∃ answer, resultWorld.ReturnsMatch false true ⟨15⟩ ⟨18⟩ answer ∧ answer = true := by
  have hw := resultWorld_built
  have hconforms : resultWorld.Returns false ⟨15⟩ ⟨18⟩ true := World.returns_of_run 12 (by decide)
  have hreturns : resultWorld.ReturnsMatch false true ⟨15⟩ ⟨18⟩ true :=
    World.returnsMatch_of_run 12 (by decide)
  have hclass {v : World} (hv : resultWorld ≤ v) (b : Builtin) : v.Simple b.type :=
    .other (hv.shape (hw.standard.shape b)) nofun nofun nofun
  have hbody (b : Nat) (result : Ty) (h : (resultWorld.binder? ⟨b⟩).map (fun d => (d.infos, d.result)) =
      some ([Builtin.int.type], result)) : ∃ d, resultWorld.binder? ⟨b⟩ = some d ∧ d.infos = [Builtin.int.type] ∧
      d.result = result := by
    obtain ⟨d, hd, hparts⟩ := Option.map_eq_some_iff.1 h
    exact ⟨d, hd, congrArg Prod.fst hparts, congrArg Prod.snd hparts⟩
  have hstep : resultWorld.InStep ⟨15⟩ ⟨18⟩ := by
    obtain ⟨d, hd, hinfos, hnothing⟩ := hbody 0 Builtin.nothing.type (by decide)
    obtain ⟨e, he, -, hany⟩ := hbody 3 Builtin.any.type (by decide)
    refine .methods (b := ⟨0⟩) (c := ⟨3⟩) (by decide) (by decide) hd he (by rw [hinfos]; decide) ?_
    rw [hnothing, hany]
    rintro r v ⟨n, v₀, hv, hr⟩
    obtain ⟨rfl, rfl⟩ := substBinder_class (hv.shape (hw.standard.shape .any)) (hv.shape hw.shape_noPrefix) hr
    exact .simple (hclass hv .nothing) (hclass hv .any)
  obtain ⟨hmatched, hanswer⟩ := matchesType_of_isSubType hw (by decide) (by decide) hstep hconforms
  exact ⟨hw, by decide, by decide, hstep, hconforms, hmatched, true, hreturns, hanswer true hreturns⟩

/-- Conformance looks at what a result stands for and matching at its shape: `(x: Int)Nothing` conforms to
`(x: Int)(x: Int)Int`, since the bottom class conforms to every method, and does not match it. Nor does a method match
itself that has an absent formal, or a result that is a method computed at each use. -/
theorem matchesType_bottom_result : resultWorld.Built ∧
    (∀ t ∈ [15, 17, 19, 21], ∃ b, resultWorld.shape? ⟨t⟩ = some (.method b)) ∧
    (resultWorld.Returns false ⟨15⟩ ⟨17⟩ true ∧ resultWorld.ReturnsMatch false true ⟨15⟩ ⟨17⟩ false) ∧
    (resultWorld.Returns false ⟨19⟩ ⟨19⟩ true ∧ resultWorld.ReturnsMatch false true ⟨19⟩ ⟨19⟩ false) ∧
    resultWorld.Returns false ⟨21⟩ ⟨21⟩ true ∧ resultWorld.ReturnsMatch false true ⟨21⟩ ⟨21⟩ false := by
  have hmethod (t : Nat) (ht : t ∈ [15, 17, 19, 21]) : ∃ b, resultWorld.shape? ⟨t⟩ = some (.method b) := by
    simp only [List.mem_cons, List.not_mem_nil, or_false] at ht
    rcases ht with rfl | rfl | rfl | rfl
    exacts [⟨⟨0⟩, by decide⟩, ⟨⟨2⟩, by decide⟩, ⟨⟨4⟩, by decide⟩, ⟨⟨5⟩, by decide⟩]
  refine ⟨resultWorld_built, hmethod, ⟨World.returns_of_run 12 ?_, World.returnsMatch_of_run 12 ?_⟩,
    ⟨World.returns_of_run 12 ?_, World.returnsMatch_of_run 12 ?_⟩, World.returns_of_run 12 ?_,
    World.returnsMatch_of_run 12 ?_⟩ <;> decide

end CompareM

end Conformance
