import Mathlib.Data.List.Forall2
import Conformance.Inference
import Conformance.Proofs.Twins

/-!
# What comparers keep of a world

A comparison makes types, skolems and binders while it runs, and so do tracking, choosing and replacing parameters. If
what makes binders keeps to a domain (`Domain.Rebuilds`), then so does all that a comparer does: `D.Compares w P m` says
that, asked about what is inside and holding inside slots, it ends in such a world, with inside slots again and a result
that satisfies `P`. There is one lemma for each function of the cascade, and `asks_isSubType` closes them into the
relation itself. A domain is `Wide` if every type is inside anyway, so that this is all there is to ask.
-/

namespace Conformance

open CompareM

/-! ## Tracking taken apart -/

section Tracking

variable {fuel : Nat} {poly : Ty} {b : BinderId} {c : Comparer} {w : World}

theorem lift_bind_run {σ α β : Type} (m : WorldM α) (f : α → StateT σ WorldM β) (s : σ) :
    ((liftM m : StateT σ WorldM α) >>= f) s = m >>= fun a => f a s := by
  funext w
  show Except.bind (Except.bind (m w) _) _ = Except.bind (m w) _
  cases m w <;> rfl

/-- A universal type is tracked on its own binder, or on a copy if that one is tracked already. -/
theorem track_universal (hd : w.shape poly = .universal b) :
    track fuel poly c w = (if c.constraint.tracks b then do
        let copy ← b.copy fuel
        let store ← c.constraint.add copy
        let t ← copy.type
        return (.ok t, { c with constraint := store })
      else do
        let store ← c.constraint.add b
        return (.ok poly, { c with constraint := store }) : WorldM (Except BuildError Ty × Comparer)) w := by
  rw [track, run_world_bind, hd]
  simp only [constraint, bind_assoc, pure_bind, run_get_bind]
  show (if c.constraint.tracks b then _ else _ : CompareM (Except BuildError Ty)) c w = _
  by_cases h : c.constraint.tracks b
  · rw [if_pos h, if_pos h, lift_bind_run]
    refine congrFun (congrArg _ (funext fun copy => ?_)) w
    rw [lift_bind_run]
    refine congrArg _ (funext fun store => ?_)
    exact lift_bind_run copy.type (fun t => pure (Except.ok t)) { c with constraint := store }
  · rw [if_neg h, if_neg h, lift_bind_run]
    rfl

theorem track_other (hd : ∀ b, w.shape poly ≠ .universal b) :
    track fuel poly c w = .ok ((.error (.notUniversal poly), c), w) := by
  rw [track, run_world_bind]
  cases h : w.shape poly with
  | universal b => exact absurd h (hd b)
  | _ => rfl

end Tracking

namespace Domain

/-- Everything but binders is inside, and what makes binders keeps to the domain. -/
structure Wide (D : Domain) : Prop where
  ty : ∀ w t, D.inside w (.ty t)
  sym : ∀ w s, D.inside w (.sym s)
  param : ∀ w p, D.inside w (.param p)
  substBinder : ∀ w₀ n old new t, D.Runs w₀ (Ty.substBinder n old new t)
  substParam : ∀ w₀ p r n t, D.Runs w₀ (Ty.substParam p r n t)
  dropRefinements : ∀ w₀ p n t, D.Runs w₀ (Ty.dropRefinements p n t)
  simpleMethod : ∀ w₀ formals result flags, D.Runs w₀ (simpleMethod formals result flags)
  /-- The copy of a binder that is inside is inside. -/
  copy : ∀ w₀ n b, D.Makes w₀ (fun w b' => D.inside w₀ (.binder b) → D.inside w (.binder b')) (b.copy n)

variable {D : Domain} {α β : Type} {w₀ : World}

theorem Makes.runs {P : World → α → Prop} {m : WorldM α} (hm : D.Makes w₀ P m) : D.Runs w₀ m :=
  fun w a w' hle hw hrun => ⟨(hm w a w' hle hw hrun).1, (hm w a w' hle hw hrun).2.1, trivial⟩

/-- The property may be used of any world that the computation is started in. -/
theorem Makes.of_holds {P : World → α → Prop} {m : WorldM α} (h : ∀ w, w₀ ≤ w → D.Holds w → D.Makes w P m) :
    D.Makes w₀ P m := fun w a w' hle hw => h w hle hw w a w' le_rfl hw

/-- What each element becomes is known place by place. -/
theorem Makes.mapM_forall₂ {R : World → α → β → Prop} {f : α → WorldM β} (hR : ∀ {w w' a b}, w ≤ w' → R w a b → R w' a b) :
    ∀ {w₀ : World} {l : List α}, (∀ a ∈ l, D.Makes w₀ (fun w b => R w a b) (f a)) →
      D.Makes w₀ (fun w bs => List.Forall₂ (R w) l bs) (l.mapM f)
  | w₀, [], _ => by
    rw [List.mapM_nil]
    exact .pure fun _ _ => .nil
  | w₀, a :: l, hf => by
    rw [List.mapM_cons]
    refine .bind (hf a List.mem_cons_self) fun w₁ b hle _ hb => ?_
    have hl : ∀ c ∈ l, D.Makes w₁ (fun w b => R w c b) (f c) := fun c hc => (hf c (List.mem_cons_of_mem _ hc)).later hle
    refine .bind (Makes.mapM_forall₂ (R := R) hR hl) fun w₂ bs hle₂ _ hbs => ?_
    exact .pure fun w hle => .cons (hR (le_trans hle₂ hle) hb) (hbs.imp fun _ _ => hR hle)

/-! ## Comparers with inside slots -/

/-- The built-in types are inside, and what makes binders makes inside types of inside types. -/
structure Rebuilds (D : Domain) : Prop where
  builtin : ∀ {w} (b : Builtin), D.Holds w → D.inside w (.ty b.type)
  substBinder : ∀ {w₀ t new} (n : Nat) (old : BinderId), (∀ i, D.inside w₀ (.param ⟨new, i⟩)) → D.inside w₀ (.ty t) →
    D.MakesTy w₀ (Ty.substBinder n old new t)
  substParam : ∀ {w₀ r t} (p : Param) (n : Nat), D.inside w₀ (.ty r) → D.inside w₀ (.ty t) →
    D.MakesTy w₀ (Ty.substParam p r n t)
  dropRefinements : ∀ {w₀ t} (p : Param) (n : Nat), D.inside w₀ (.ty t) → D.MakesTy w₀ (Ty.dropRefinements p n t)
  copy : ∀ {w₀ b} (n : Nat), D.inside w₀ (.binder b) → D.Makes w₀ (fun w c => D.inside w (.binder c)) (b.copy n)

theorem Wide.rebuilds (hD : D.Wide) : D.Rebuilds where
  builtin b _ := hD.ty _ b.type
  substBinder n old _ _ := fun w t w' hle hw hrun =>
    (hD.substBinder _ n old _ _ w t w' hle hw hrun).imp_right (.imp_right fun _ => hD.ty _ t)
  substParam p n _ _ := fun w t w' hle hw hrun =>
    (hD.substParam _ p _ n _ w t w' hle hw hrun).imp_right (.imp_right fun _ => hD.ty _ t)
  dropRefinements p n _ := fun w t w' hle hw hrun =>
    (hD.dropRefinements _ p n _ w t w' hle hw hrun).imp_right (.imp_right fun _ => hD.ty _ t)
  copy n hb := fun w c w' hle hw hrun => (hD.copy _ n _ w c w' hle hw hrun).imp_right (.imp_right fun h => h hb)

/-- All slots of the store are inside. -/
def Stocks (D : Domain) (w : World) (S : ConstraintStore) : Prop :=
  ∀ e ∈ S.slots.entries, ∀ t ∈ e.2, D.inside w (.ty t)

theorem Wide.stocks (hD : D.Wide) (w : World) (S : ConstraintStore) : D.Stocks w S := fun _ _ t _ => hD.ty w t

theorem Stocks.grow {S : ConstraintStore} {w w' : World} (h : D.Stocks w S) (hle : w ≤ w') : D.Stocks w' S :=
  fun e he t ht => D.grow hle (h e he t ht)

theorem Stocks.slots {S : ConstraintStore} {w : World} {b : BinderId} {slots : List Ty} (h : D.Stocks w S)
    (hb : S.slots? b = some slots) : ∀ t ∈ slots, D.inside w (.ty t) := h (b, slots) (InsertionMap.mem_of_find? hb)

theorem Stocks.insert {S : ConstraintStore} {w : World} {b : BinderId} {slots : List Ty} (h : D.Stocks w S)
    (hslots : ∀ t ∈ slots, D.inside w (.ty t)) (n : Nat) : D.Stocks w ⟨S.slots.insert b slots, n⟩ := fun e he => by
  rcases InsertionMap.mem_put he with rfl | he
  · exact hslots
  · exact h e he

/-- From `w₀` on, where the comparer holds inside slots, the computation keeps to the domain, leaves inside slots behind,
and makes results with `P`. -/
def Compares (D : Domain) (w₀ : World) (P : World → α → Prop) (m : CompareM α) : Prop :=
  ∀ c w r w', w₀ ≤ w → D.Holds w → D.Stocks w c.constraint → m c w = .ok (r, w') →
    w ≤ w' ∧ D.Holds w' ∧ P w' r.1 ∧ D.Stocks w' r.2.constraint

/-- `Compares` of a question, whatever its answer. -/
abbrev Asks (D : Domain) (w₀ : World) (m : CompareM α) : Prop := D.Compares w₀ (fun _ _ => True) m

section Comparing

variable {P : World → α → Prop} {Q : World → β → Prop} {w : World}

/-- In a wide domain there is nothing to ask of the comparer. -/
theorem Compares.runs (hD : D.Wide) {m : CompareM α} (hm : D.Compares w₀ P m) (c : Comparer) : D.Runs w₀ (m c) :=
  fun w r w' hle hw hrun => (hm c w r w' hle hw (hD.stocks w _) hrun).imp_right fun h => ⟨h.1, trivial⟩

theorem Compares.later {m : CompareM α} (hm : D.Compares w₀ P m) (hle : w₀ ≤ w) : D.Compares w P m :=
  fun c v r w' hv => hm c v r w' (le_trans hle hv)

theorem Compares.pure {a : α} (ha : ∀ w, w₀ ≤ w → P w a) : D.Compares w₀ P (pure a : CompareM α) := by
  intro c w r w' hle hw hc hrun
  cases hrun
  exact ⟨le_rfl, hw, ha w hle, hc⟩

theorem Compares.done (a : α) : D.Asks w₀ (Pure.pure a : CompareM α) := .pure fun _ _ => trivial

theorem Compares.throw {e : Halt} : D.Compares w₀ P (throw e : CompareM α) := fun _ _ _ _ _ _ _ hrun => nomatch hrun

theorem Compares.bind {m : CompareM α} {f : α → CompareM β} (hm : D.Compares w₀ P m)
    (hf : ∀ w a, w₀ ≤ w → D.Holds w → P w a → D.Compares w Q (f a)) : D.Compares w₀ Q (m >>= f) := by
  intro c w r w' hle hw hc hrun
  obtain ⟨⟨a, c₁⟩, w₁, hr, hrun⟩ := bind_ok (m := m c) (f := fun r => f r.1 r.2) hrun
  obtain ⟨hle₁, hw₁, ha, hc₁⟩ := hm c w _ w₁ hle hw hc hr
  obtain ⟨hle₂, hw₂, hr, hc₂⟩ := hf w₁ a (le_trans hle hle₁) hw₁ ha c₁ w₁ r w' le_rfl hw₁ hc₁ hrun
  exact ⟨le_trans hle₁ hle₂, hw₂, hr, hc₂⟩

theorem Compares.lift {m : WorldM α} (hm : D.Makes w₀ P m) : D.Compares w₀ P (liftM m : CompareM α) := by
  intro c w r w' hle hw hc hrun
  obtain ⟨a, w₁, hr, hrun⟩ := bind_ok (m := m) (f := fun a => Pure.pure (a, c)) hrun
  cases hrun
  obtain ⟨hle', hw', ha⟩ := hm w a w' hle hw hr
  exact ⟨hle', hw', ha, hc.grow hle'⟩

theorem Compares.get_bind {f : Comparer → CompareM β} (hf : ∀ c w, w₀ ≤ w → D.Stocks w c.constraint → D.Compares w Q (f c)) :
    D.Compares w₀ Q (get >>= f) := fun c w r w' hle hw hc hrun => hf c w hle hc c w r w' le_rfl hw hc hrun

theorem Compares.world_bind {f : World → CompareM β} (hf : ∀ w, w₀ ≤ w → D.Holds w → D.Compares w Q (f w)) :
    D.Compares w₀ Q (world >>= f) := fun c w r w' hle hw hc hrun => hf w hle hw c w r w' le_rfl hw hc hrun

theorem Compares.modify {f : Comparer → Comparer} (hf : ∀ c w, w₀ ≤ w → D.Stocks w c.constraint →
    D.Stocks w (f c).constraint) : D.Asks w₀ (modify f : CompareM PUnit) := by
  intro c w r w' hle hw hc hrun
  cases hrun
  exact ⟨le_rfl, hw, trivial, hf c w hle hc⟩

theorem Compares.ite {p : Prop} [Decidable p] {m₁ m₂ : CompareM α} (h₁ : p → D.Compares w₀ P m₁)
    (h₂ : ¬ p → D.Compares w₀ P m₂) : D.Compares w₀ P (if p then m₁ else m₂) := by
  split
  · next hp => exact h₁ hp
  · next hp => exact h₂ hp

theorem Compares.orElse {x y : CompareM Bool} (hx : D.Asks w₀ x) (hy : D.Asks w₀ y) : D.Asks w₀ (x <||> y) :=
  .bind hx fun _ b hle _ _ => by cases b <;> [exact hy.later hle; exact .done _]

theorem Compares.andThen {x y : CompareM Bool} (hx : D.Asks w₀ x) (hy : D.Asks w₀ y) : D.Asks w₀ (x <&&> y) :=
  .bind hx fun _ b hle _ _ => by cases b <;> [exact .done _; exact hy.later hle]

theorem Compares.mapM {f : α → CompareM β} {l : List α} (hf : ∀ a ∈ l, D.Compares w₀ Q (f a))
    (hQ : ∀ {w w' : World} {b : β}, w ≤ w' → Q w b → Q w' b) :
    D.Compares w₀ (fun w bs => ∀ b ∈ bs, Q w b) (l.mapM f) := by
  induction l generalizing w₀ with
  | nil =>
    rw [List.mapM_nil]
    exact .pure fun _ _ _ h => nomatch h
  | cons a l ih =>
    rw [List.mapM_cons]
    refine .bind (hf a (by simp)) fun w₁ b hle _ hb => ?_
    refine .bind (ih fun a ha => (hf a (by simp [ha])).later hle) fun w₂ bs hle₂ _ hbs => ?_
    exact .pure fun w hle => by simpa using ⟨hQ (le_trans hle₂ hle) hb, fun b hb => hQ hle (hbs b hb)⟩

theorem Compares.allM {f : α → CompareM Bool} : ∀ {w₀ : World} {l : List α}, (∀ a ∈ l, D.Asks w₀ (f a)) →
    D.Asks w₀ (l.allM f)
  | _, [], _ => .done _
  | _, a :: l, hf => .bind (hf a (by simp)) fun _ b hle _ _ => by
      cases b <;> [exact .done _; exact Compares.allM fun a ha => (hf a (by simp [ha])).later hle]

theorem asks_reading (f : World → Except Halt α) : D.Asks w₀ (liftM (WorldM.reading f) : CompareM α) :=
  .lift (.reading fun _ _ _ _ _ => trivial)

end Comparing

/-! ## The cascade -/

section Cascade

variable {fuel : Nat} {sub : Ty → Ty → CompareM Bool} {t₁ t₂ : Ty} {b₁ b₂ : BinderId} {p : Param}

/-- Bounds that are read off an inside slot have inside ends. -/
theorem compares_currentBounds (p : Param) : D.Compares w₀ (fun w bounds => ∀ lo hi, bounds = some (lo, hi) →
    D.inside w (.ty lo) ∧ D.inside w (.ty hi)) (currentBounds p) := by
  intro c w r w' _ hw hc hrun
  rw [currentBounds_run] at hrun
  cases hrun
  refine ⟨le_rfl, hw, fun lo hi hbounds => ?_, hc⟩
  obtain ⟨t, hopen, hends⟩ := Option.bind_eq_some_iff.1 hbounds
  obtain ⟨slots, hslots, hold, -⟩ := slot_of_bounds hopen
  exact hw.boundsParts (hc.slots hslots t (List.mem_of_getElem? hold)) hends

theorem asks_atomically {body : CompareM Bool} (hbody : D.Asks w₀ body) : D.Asks w₀ (atomically body) := by
  refine .get_bind fun c w hle hc => .bind (hbody.later hle) fun w₁ answer hle₁ _ _ => ?_
  cases answer
  · exact .bind (.modify fun _ _ hle₂ _ => hc.grow (le_trans hle₁ hle₂)) fun _ _ _ _ _ => .done _
  · exact .done _

variable (hsub : ∀ {w a b}, D.inside w (.ty a) → D.inside w (.ty b) → D.Asks w (sub a b))

include hsub

theorem asks_same {a b : Ty} (ha : D.inside w₀ (.ty a)) (hb : D.inside w₀ (.ty b)) : D.Asks w₀ (same sub a b) :=
  .ite (fun _ => .done _) fun _ => .ite (fun _ => .done _) fun _ =>
    asks_atomically (.andThen (hsub ha hb) (hsub hb ha))

theorem asks_compareEnds {narrowed : Ty} (h : D.inside w₀ (.ty narrowed)) : D.Asks w₀ (compareEnds sub narrowed) := by
  refine .world_bind fun w hle hw => ?_
  split
  · exact .done _
  · next hends =>
    obtain ⟨hlo, hhi⟩ := hw.boundsParts (D.grow hle h) hends
    exact hsub hlo hhi

/-- The slot that a narrowing makes is inside if the bound is. -/
theorem asks_narrow (p : Param) {bound : Ty} (hbound : D.inside w₀ (.ty bound)) : D.Asks w₀ (narrow sub p bound) := by
  intro c w r w' hle hw hc hrun
  cases hopen : c.constraint.bounds? p with
  | none =>
    rw [narrow_run_closed hopen] at hrun
    cases hrun
    exact ⟨le_rfl, hw, trivial, hc⟩
  | some old =>
    obtain ⟨slots, hslots, hold, hpresent⟩ := slot_of_bounds hopen
    have hinside := hc.slots hslots
    rw [narrow_run hslots hold hpresent] at hrun
    match hr : Ty.boundsInter old bound w with
    | .error _ => rw [hr] at hrun; cases hrun
    | .ok (narrowed, w₁) =>
      rw [hr] at hrun
      obtain ⟨hle₁, hw₁, hnarrowed⟩ := makes_boundsInter (hinside old (List.mem_of_getElem? hold)) (D.grow hle hbound)
        w narrowed w₁ le_rfl hw hr
      have hends := asks_compareEnds hsub hnarrowed
      dsimp only at hrun
      split at hrun
      · exact (hends c w₁ r w' le_rfl hw₁ (hc.grow hle₁) hrun).imp_left (le_trans hle₁)
      · have hle₂ : w₁ ≤ { w₁ with snapshots := w₁.snapshots + 1 } := (grows_freshSnapshot : Grows True _) w₁
        have hset : ∀ t ∈ slots.set p.index narrowed, D.inside w₁ (.ty t) := fun t ht =>
          (List.mem_or_eq_of_mem_set ht).elim (fun ht => D.grow hle₁ (hinside t ht)) fun ht => ht ▸ hnarrowed
        have hstock := ((hc.grow hle₁).insert (b := p.binder) hset w₁.snapshots).grow hle₂
        exact (hends _ _ r w' hle₂ (D.snapshot hw₁) hstock hrun).imp_left fun h => le_trans hle₁ (le_trans hle₂ h)

theorem asks_sameParams {formals₁ formals₂ : List Ty} (h₁ : ∀ t ∈ formals₁, D.inside w₀ (.ty t))
    (h₂ : ∀ t ∈ formals₂, D.inside w₀ (.ty t)) (foreign₁ foreign₂ : Bool) :
    D.Asks w₀ (sameParams sub formals₁ formals₂ foreign₁ foreign₂) :=
  .ite (fun _ => .done _) fun _ => .allM fun _ h =>
    .orElse (asks_same hsub (h₁ _ (List.of_mem_zip h).1) (h₂ _ (List.of_mem_zip h).2)) (.done _)

/-- The opaque instance is a new type, and the arguments are inside since they are read off the trait. -/
theorem asks_conformsAsConstructor (h₁ : D.inside w₀ (.ty t₁)) (h₂ : D.inside w₀ (.ty t₂)) :
    D.Asks w₀ (conformsAsConstructor fuel sub t₁ t₂) := by
  refine .bind (asks_reading _) fun w₁ params hle₁ _ _ => ?_
  refine .bind (.lift (makes_typeArgs fuel (D.grow hle₁ h₂))) fun w₂ args hle₂ _ hargs => .ite (fun _ => .done _) fun _ => ?_
  refine .bind (.lift (makes_skolem (D.grow (le_trans hle₁ hle₂) h₁))) fun w₃ base hle₃ _ hbase => ?_
  refine .bind (.allM fun pa hpa => ?_) fun _ _ _ _ _ => .world_bind fun _ _ _ => .done _
  have harg : D.inside w₃ (.ty pa.2) := D.grow hle₃ (hargs _ (List.of_mem_zip hpa).2)
  refine .world_bind fun w hle _ => .bind (.lift (makes_member (D.grow hle hbase) _)) fun w₄ info hle₄ _ hinfo => ?_
  refine .bind (.lift (makes_asBounds hinfo)) fun w₅ a hle₅ _ ha => ?_
  refine .bind (.lift (makes_asBounds (D.grow (le_trans hle (le_trans hle₄ hle₅)) harg))) fun w₆ b hle₆ _ hb => ?_
  exact hsub (D.grow hle₆ ha) hb

theorem asks_fourth (h₁ : D.inside w₀ (.ty t₁)) (h₂ : D.inside w₀ (.ty t₂)) : D.Asks w₀ (fourth sub t₁ t₂) := by
  refine .world_bind fun w hle hw => ?_
  have h₁ := D.grow hle h₁
  have h₂ := D.grow hle h₂
  split
  · refine .ite (fun _ => .done _) fun _ => .orElse (.ite (fun _ => .lift (makes_nullConforms h₂)) fun _ => .done _) ?_
    refine .ite (fun _ => .done _) fun _ => .bind (.lift (makes_upperBound h₁)) fun w₁ a hle₁ _ ha => ?_
    exact hsub ha (D.grow hle₁ h₂)
  · next hd => exact hsub (hw.parts h₁ hd _ (by simp [Shape.parts])) h₂
  · next hd =>
    exact .orElse (hsub (hw.parts h₁ hd _ (by simp [Shape.parts])) h₂)
      (hsub (hw.parts h₁ hd _ (by simp [Shape.parts])) h₂)
  · next hd =>
    exact .andThen (hsub (hw.parts h₁ hd _ (by simp [Shape.parts])) h₂)
      (hsub (hw.parts h₁ hd _ (by simp [Shape.parts])) h₂)
  · refine .ite (fun _ => .bind (.lift (makes_underlying h₁)) fun w₁ a hle₁ _ ha => ?_) fun _ => .done _
    exact hsub ha (D.grow hle₁ h₂)

theorem asks_thirdNamed (h₁ : D.inside w₀ (.ty t₁)) (h₂ : D.inside w₀ (.ty t₂)) :
    D.Asks w₀ (thirdNamed fuel sub t₁ t₂) := by
  refine .bind (.lift (makes_infoOf h₂)) fun w₁ info hle₁ _ hinfo => .world_bind fun w hle hw => ?_
  have h₁ := D.grow (le_trans hle₁ hle) h₁
  have h₂ := D.grow (le_trans hle₁ hle) h₂
  split
  · next hends =>
    exact .orElse (hsub h₁ (hw.boundsParts (D.grow hle hinfo) hends).1) (asks_fourth hsub h₁ h₂)
  · refine .orElse (.ite (fun _ => asks_reading _) fun _ => .done _) ?_
    refine .orElse (.ite (fun _ => .lift (makes_isNotNull h₁)) fun _ => .done _) ?_
    refine .orElse (.ite (fun _ => asks_conformsAsConstructor hsub h₁ h₂) fun _ => .done _) ?_
    exact asks_fourth hsub h₁ h₂

omit hsub in
theorem inside_of_nameParts? {w : World} {t pre : Ty} {s : Symbol} {isType : Bool} (hw : D.Holds w) (ht : D.inside w (.ty t))
    (hd : nameParts? (w.shape t) = some (pre, s, isType)) : D.inside w (.ty pre) := by
  cases hshape : w.shape t with
  | named pre' s' | path pre' s' =>
    rw [hshape] at hd
    cases hd
    exact hw.parts ht hshape _ (by simp [Shape.parts])
  | _ => rw [hshape] at hd; cases hd

theorem asks_names (h₁ : D.inside w₀ (.ty t₁)) (h₂ : D.inside w₀ (.ty t₂)) : D.Asks w₀ (names fuel sub t₁ t₂) := by
  refine .world_bind fun w hle hw => ?_
  have h₁ := D.grow hle h₁
  have h₂ := D.grow hle h₂
  split
  · next pre₁ s₁ isType₁ pre₂ s₂ isType₂ hd₁ hd₂ =>
    have hpre : D.Asks w (sub pre₁ pre₂) := hsub (inside_of_nameParts? hw h₁ hd₁) (inside_of_nameParts? hw h₂ hd₂)
    refine .ite (fun _ => .get_bind fun _ _ hle' _ => .ite (fun _ => .done _) fun _ => hpre.later hle') fun _ => ?_
    refine .orElse (.ite (fun _ => hpre) fun _ => .done _) ?_
    refine .orElse (.ite (fun _ => ?_) fun _ => .done _) (asks_thirdNamed hsub h₁ h₂)
    refine .bind (.lift (makes_baseType h₁ s₂)) fun w₁ base hle₁ _ hbase => .ite (fun _ => ?_) fun _ => .done _
    exact hsub hbase (D.grow hle₁ h₂)
  · exact .done _

variable (hD : D.Rebuilds)

include hD

omit hsub in
theorem compares_substBinder {t : Ty} (hb₁ : ∀ i, D.inside w₀ (.param ⟨b₁, i⟩)) (ht : D.inside w₀ (.ty t)) :
    D.Compares w₀ (fun w t => D.inside w (.ty t)) (liftM (Ty.substBinder fuel b₂ b₁ t) : CompareM Ty) :=
  .lift (hD.substBinder fuel b₂ hb₁ ht)

omit hsub in
theorem compares_infosUnder {d : Binder} (hb₁ : ∀ i, D.inside w₀ (.param ⟨b₁, i⟩)) (hd : ∀ t ∈ d.infos, D.inside w₀ (.ty t)) :
    D.Compares w₀ (fun w infos => ∀ t ∈ infos, D.inside w (.ty t)) (infosUnder fuel b₂ b₁ d) :=
  .mapM (fun t ht => compares_substBinder hD hb₁ (hd t ht)) D.grow

omit hsub hD in
theorem Holds.bound {w : World} (hw : D.Holds w) {b : BinderId} (hb : D.inside w (.binder b)) (i : Nat) :
    D.inside w (.param ⟨b, i⟩) := D.step hw (.bound b i) hb

omit hsub in
/-- A type is renamed to the parameters of the other side and compared. -/
theorem asks_renamed {compare : Ty → Ty → CompareM Bool} {r₁ r₂ : Ty}
    (hcompare : ∀ {w a b}, D.inside w (.ty a) → D.inside w (.ty b) → D.Asks w (compare a b))
    (hb₁ : ∀ i, D.inside w₀ (.param ⟨b₁, i⟩)) (h₁ : D.inside w₀ (.ty r₁)) (h₂ : D.inside w₀ (.ty r₂)) :
    D.Asks w₀ (do compare r₁ (← Ty.substBinder fuel b₂ b₁ r₂)) :=
  .bind (compares_substBinder hD hb₁ h₂) fun _ _ hle _ hr => hcompare (D.grow hle h₁) hr

theorem asks_methods (h₁ : D.inside w₀ (.ty t₁)) (h₂ : D.inside w₀ (.ty t₂)) (hb₁ : D.inside w₀ (.binder b₁))
    (hb₂ : D.inside w₀ (.binder b₂)) : D.Asks w₀ (methods fuel sub t₁ b₁ t₂ b₂) := by
  refine .world_bind fun w hle hw => ?_
  have hbound := hw.bound (D.grow hle hb₁)
  split
  · next m₁ m₂ hm₁ hm₂ =>
    obtain ⟨hinfos₁, hresult₁⟩ := hw.binder_parts (D.grow hle hb₁) hm₁
    obtain ⟨hinfos₂, hresult₂⟩ := hw.binder_parts (D.grow hle hb₂) hm₂
    refine .bind (compares_infosUnder hD hbound hinfos₂) fun v₁ formals₂ hv₁ _ hformals₂ => ?_
    refine .bind (.lift (makes_signature fuel (D.grow (hle.trans hv₁) h₁))) fun v₂ sig₁ hv₂ _ _ => ?_
    refine .bind (.lift (makes_signature fuel (D.grow (hle.trans (hv₁.trans hv₂)) h₂))) fun v₃ sig₂ hv₃ _ _ => ?_
    have hv : w ≤ v₃ := hv₁.trans (hv₂.trans hv₃)
    refine .ite (fun _ => .done _) fun _ => .andThen ?_ (.ite (fun _ => .done _) fun _ => ?_)
    · exact asks_sameParams hsub (fun t ht => D.grow hv (hinfos₁ t ht))
        (fun t ht => D.grow (hv₂.trans hv₃) (hformals₂ t ht)) _ _
    · exact asks_renamed hD hsub (fun i => D.grow hv (hbound i)) (D.grow hv hresult₁) (D.grow hv hresult₂)
  · exact .done _

theorem asks_universals (h₁ : D.inside w₀ (.ty t₁)) (h₂ : D.inside w₀ (.ty t₂)) (hb₁ : D.inside w₀ (.binder b₁))
    (hb₂ : D.inside w₀ (.binder b₂)) : D.Asks w₀ (universals fuel sub t₁ b₁ t₂ b₂) := by
  refine .world_bind fun w hle hw => ?_
  have hbound := hw.bound (D.grow hle hb₁)
  split
  · next p₁ p₂ hp₁ hp₂ =>
    obtain ⟨hinfos₁, hresult₁⟩ := hw.binder_parts (D.grow hle hb₁) hp₁
    obtain ⟨hinfos₂, hresult₂⟩ := hw.binder_parts (D.grow hle hb₂) hp₂
    refine .bind (.lift (makes_signature fuel (D.grow hle h₁))) fun v₁ sig₁ hv₁ _ _ => ?_
    refine .bind (.lift (makes_signature fuel (D.grow (hle.trans hv₁) h₂))) fun v₂ sig₂ hv₂ _ _ => ?_
    have hv : w ≤ v₂ := hv₁.trans hv₂
    have hbound (i : Nat) : D.inside v₂ (.param ⟨b₁, i⟩) := D.grow hv (hbound i)
    refine .ite (fun _ => .done _) fun _ => .andThen (.allM fun ab hab => ?_) ?_
    · exact asks_renamed hD (asks_same hsub) hbound (D.grow hv (hinfos₁ _ (List.of_mem_zip hab).1))
        (D.grow hv (hinfos₂ _ (List.of_mem_zip hab).2))
    · exact asks_renamed hD hsub hbound (D.grow hv hresult₁) (D.grow hv hresult₂)
  · exact .done _

theorem asks_third (h₁ : D.inside w₀ (.ty t₁)) (h₂ : D.inside w₀ (.ty t₂)) : D.Asks w₀ (third fuel sub t₁ t₂) := by
  refine .world_bind fun w hle hw => ?_
  have h₁ := D.grow hle h₁
  have h₂ := D.grow hle h₂
  split
  · exact asks_thirdNamed hsub h₁ h₂
  · exact asks_thirdNamed hsub h₁ h₂
  · next parent name info hd =>
    obtain ⟨hparent, hinfo⟩ : D.inside w (.ty parent) ∧ D.inside w (.ty info) := by
      simpa [Shape.parts] using hw.parts h₂ hd
    refine .orElse (.andThen (hsub h₁ hparent) (.ite (fun _ => .done _) fun _ => ?_)) (asks_fourth hsub h₁ h₂)
    exact .bind (.lift (makes_member h₁ _)) fun w₁ a hle₁ _ ha => hsub ha (D.grow hle₁ hinfo)
  · next a b hd =>
    obtain ⟨ha, hb⟩ : D.inside w (.ty a) ∧ D.inside w (.ty b) := by simpa [Shape.parts] using hw.parts h₂ hd
    exact .andThen (hsub h₁ ha) (hsub h₁ hb)
  · next a b hd =>
    obtain ⟨ha, hb⟩ : D.inside w (.ty a) ∧ D.inside w (.ty b) := by simpa [Shape.parts] using hw.parts h₂ hd
    exact .orElse (hsub h₁ ha) (.orElse (hsub h₁ hb) (asks_fourth hsub h₁ h₂))
  · next hd₂ hd₁ =>
    exact asks_methods hsub hD h₁ h₂ (hw.parts h₁ hd₁ _ (by simp [Shape.parts])) (hw.parts h₂ hd₂ _ (by simp [Shape.parts]))
  · next hd₂ hd₁ =>
    exact asks_universals hsub hD h₁ h₂ (hw.parts h₁ hd₁ _ (by simp [Shape.parts]))
      (hw.parts h₂ hd₂ _ (by simp [Shape.parts]))
  · next hd₂ hd₁ => exact hsub (hw.parts h₁ hd₁ _ (by simp [Shape.parts])) (hw.parts h₂ hd₂ _ (by simp [Shape.parts]))
  · next lo₂ hi₂ lo₁ hi₁ hd₂ hd₁ =>
    obtain ⟨hlo₁, hhi₁⟩ : D.inside w (.ty lo₁) ∧ D.inside w (.ty hi₁) := by simpa [Shape.parts] using hw.parts h₁ hd₁
    obtain ⟨hlo₂, hhi₂⟩ : D.inside w (.ty lo₂) ∧ D.inside w (.ty hi₂) := by simpa [Shape.parts] using hw.parts h₂ hd₂
    exact .andThen (hsub hlo₂ hlo₁) (hsub hhi₁ hhi₂)
  · next lo₂ hi₂ pre cls hd₂ hd₁ =>
    obtain ⟨hpre, hcls⟩ : D.inside w (.ty pre) ∧ D.inside w (.sym cls) := by simpa [Shape.parts] using hw.parts h₁ hd₁
    obtain ⟨hlo₂, hhi₂⟩ : D.inside w (.ty lo₂) ∧ D.inside w (.ty hi₂) := by simpa [Shape.parts] using hw.parts h₂ hd₂
    refine .bind (.lift (makes_named hpre hcls)) fun w₁ ref hle₁ _ href => ?_
    exact .andThen (hsub (D.grow hle₁ hlo₂) href) (hsub href (D.grow hle₁ hhi₂))
  · exact asks_fourth hsub h₁ h₂

/-- A parameter under inference is compared by its upper end, and narrowed by the target. -/
theorem asks_second (h₁ : D.inside w₀ (.ty t₁)) (h₂ : D.inside w₀ (.ty t₂)) : D.Asks w₀ (second fuel sub t₁ t₂) := by
  refine .world_bind fun w hle hw => ?_
  have h₁ := D.grow hle h₁
  have h₂ := D.grow hle h₂
  split
  · exact .done _
  · exact .done _
  · next hd => exact hsub (hw.varUnderlying (hw.parts h₁ hd _ (by simp [Shape.parts]))) h₂
  · next p _ =>
    refine .bind (compares_currentBounds p) fun w₁ bounds hle₁ hw₁ hbounds => ?_
    have h₂ := D.grow hle₁ h₂
    split
    · refine .orElse (hsub (hbounds _ _ rfl).2 h₂) (.bind (.lift (makes_bounds (hD.builtin .nothing hw₁) h₂)) ?_)
      exact fun _ _ _ _ hbound => asks_narrow hsub p hbound
    · exact asks_third hsub hD (D.grow hle₁ h₁) h₂
  · exact asks_third hsub hD h₁ h₂

theorem asks_first (h₁ : D.inside w₀ (.ty t₁)) (h₂ : D.inside w₀ (.ty t₂)) : D.Asks w₀ (first fuel sub t₁ t₂) := by
  refine .world_bind fun w hle hw => ?_
  have h₁ := D.grow hle h₁
  have h₂ := D.grow hle h₂
  split
  · exact .ite (fun _ => asks_names hsub h₁ h₂) fun _ => asks_second hsub hD h₁ h₂
  · exact .ite (fun _ => asks_names hsub h₁ h₂) fun _ => asks_second hsub hD h₁ h₂
  · exact .done _
  · exact .done _
  · next hd => exact hsub h₁ (hw.varUnderlying (hw.parts h₂ hd _ (by simp [Shape.parts])))
  · next p _ =>
    refine .bind (compares_currentBounds p) fun w₁ bounds hle₁ hw₁ hbounds => ?_
    have h₁ := D.grow hle₁ h₁
    split
    · refine .orElse (hsub h₁ (hbounds _ _ rfl).1) (.bind (.lift (makes_bounds h₁ (hD.builtin .any hw₁))) ?_)
      exact fun _ _ _ _ hbound => asks_narrow hsub p hbound
    · exact asks_second hsub hD h₁ (D.grow hle₁ h₂)
  · exact asks_second hsub hD h₁ h₂

theorem asks_matchesWith (simple : Bool) (n : Nat) : ∀ {w₀ : World} {t u : Ty}, D.inside w₀ (.ty t) → D.inside w₀ (.ty u) →
    D.Asks w₀ (matchesWith sub simple n t u) := by
  induction n with
  | zero => exact fun _ _ => .throw
  | succ n ih =>
    intro w₀ t u ht hu
    refine .world_bind fun w hle hw => ?_
    have ht := D.grow hle ht
    have hu := D.grow hle hu
    split
    · next b₁ b₂ hd₁ hd₂ =>
      have hb₁ : D.inside w (.binder b₁) := hw.parts ht hd₁ _ (by simp [Shape.parts])
      have hb₂ : D.inside w (.binder b₂) := hw.parts hu hd₂ _ (by simp [Shape.parts])
      split
      · next m₁ m₂ hm₁ hm₂ =>
        obtain ⟨hinfos₁, hresult₁⟩ := hw.binder_parts hb₁ hm₁
        obtain ⟨hinfos₂, hresult₂⟩ := hw.binder_parts hb₂ hm₂
        refine .bind (compares_infosUnder hD (hw.bound hb₁) hinfos₂) fun v formals₂ hv _ hformals₂ => ?_
        refine .ite (fun _ => .done _) fun _ => .andThen ?_ ?_
        · exact asks_sameParams hsub (fun t ht => D.grow hv (hinfos₁ t ht)) hformals₂ _ _
        · exact asks_renamed hD ih (fun i => D.grow hv (hw.bound hb₁ i)) (D.grow hv hresult₁) (D.grow hv hresult₂)
      · exact .done _
    · next hd₁ hd₂ =>
      split
      · next hm₁ =>
        have hresult₁ := (hw.binder_parts (hw.parts ht hd₁ _ (by simp [Shape.parts])) hm₁).2
        exact .ite (fun _ => ih hresult₁ (hw.parts hu hd₂ _ (by simp [Shape.parts]))) fun _ => .done _
      · exact .done _
    · exact .done _
    · next hd₁ hd₂ =>
      split
      · next hm₂ =>
        have hresult₂ := (hw.binder_parts (hw.parts hu hd₂ _ (by simp [Shape.parts])) hm₂).2
        exact .ite (fun _ => ih (hw.parts ht hd₁ _ (by simp [Shape.parts])) hresult₂) fun _ => .done _
      · exact .done _
    · next hd₁ _ => exact ih (hw.parts ht hd₁ _ (by simp [Shape.parts])) hu
    · next b₁ b₂ hd₁ hd₂ =>
      have hb₁ : D.inside w (.binder b₁) := hw.parts ht hd₁ _ (by simp [Shape.parts])
      have hb₂ : D.inside w (.binder b₂) := hw.parts hu hd₂ _ (by simp [Shape.parts])
      split
      · next p₁ p₂ hp₁ hp₂ =>
        refine .ite (fun _ => .done _) fun _ => ?_
        exact asks_renamed hD ih (hw.bound hb₁) (hw.binder_parts hb₁ hp₁).2 (hw.binder_parts hb₂ hp₂).2
      · exact .done _
    · exact .done _
    · exact .done _
    · exact .done _
    · next hd₂ _ _ _ => exact ih ht (hw.parts hu hd₂ _ (by simp [Shape.parts]))
    · exact .ite (fun _ => .done _) fun _ => asks_same hsub ht hu

end Cascade

/-! ## The relations -/

section Relations

theorem asks_orFault {γ : Type} (x : Except Fault γ) : D.Asks w₀ (liftM (Walk.orFault x) : CompareM γ) := by
  cases x with
  | ok a => exact .lift (.done a)
  | error f => exact .lift .throw

theorem asks_frame {body : DepthMode → CompareM Bool} (hbody : ∀ mode, D.Asks w₀ (body mode)) :
    D.Asks w₀ (frame body) := by
  have henter : D.Asks w₀ enterLevel := fun c w r w' _ hw hc hrun => by
    cases hrun
    exact ⟨le_rfl, hw, trivial, hc⟩
  have hleave (w : World) : D.Asks w leaveLevel :=
    .get_bind fun _ _ _ _ => .bind (asks_orFault _) fun _ _ _ _ _ => .modify fun _ _ _ hc => hc
  exact asks_atomically (.bind henter fun _ mode hle _ _ => .bind ((hbody mode).later hle) fun w _ _ _ _ =>
    .bind (hleave w) fun _ _ _ _ _ => .done _)

theorem asks_withPending (pair : Ty × Ty) {body : CompareM Bool} (hbody : D.Asks w₀ body) :
    D.Asks w₀ (withPending pair body) := by
  refine .get_bind fun c w hle _ => .bind (.modify fun _ _ _ hc => hc) fun w₁ _ hle₁ _ _ => .ite (fun _ => ?_) fun _ => .done _
  refine .bind (hbody.later (le_trans hle hle₁)) fun _ _ _ _ _ => .get_bind fun _ _ _ _ => ?_
  exact .bind (asks_orFault _) fun _ _ _ _ _ => .bind (.modify fun _ _ _ hc => hc) fun _ _ _ _ _ => .done _

/-- **Comparisons of inside types keep to the domain.** -/
theorem asks_isSubType (hD : D.Rebuilds) (n : Nat) : ∀ {w : World} {t₁ t₂ : Ty}, D.inside w (.ty t₁) → D.inside w (.ty t₂) →
    D.Asks w (isSubType n t₁ t₂) := by
  induction n with
  | zero => exact fun _ _ => .throw
  | succ n ih =>
    intro w t₁ t₂ h₁ h₂
    refine .ite (fun _ => .done _) fun _ => .ite (fun _ => .done _) fun _ => asks_frame fun mode => ?_
    cases mode with
    | direct => exact asks_first ih hD h₁ h₂
    | monitored => exact asks_withPending _ (asks_first ih hD h₁ h₂)

end Relations

/-! ## Stores and parameters under inference -/

section Inference

variable {S : ConstraintStore}

/-- The store is inside, and the world is kept. -/
abbrev MakesStore (D : Domain) (w₀ : World) (m : WorldM ConstraintStore) : Prop := D.Makes w₀ D.Stocks m

theorem makes_ofSlots {slots : InsertionMap BinderId (List Ty)} (h : ∀ e ∈ slots.entries, ∀ t ∈ e.2, D.inside w₀ (.ty t)) :
    D.MakesStore w₀ (ConstraintStore.ofSlots slots) :=
  .bind makes_freshSnapshot fun _ _ hle _ _ => .pure fun _ hle' e he t ht => D.grow (le_trans hle hle') (h e he t ht)

theorem makes_newStore : D.MakesStore w₀ ConstraintStore.new :=
  makes_ofSlots fun _ he => nomatch he

theorem makes_withSlots {b : BinderId} {slots : List Ty} (hS : D.Stocks w₀ S) (h : ∀ t ∈ slots, D.inside w₀ (.ty t)) :
    D.MakesStore w₀ (S.withSlots b slots) := makes_ofSlots (hS.insert h 0)

theorem makes_add {b : BinderId} (hS : D.Stocks w₀ S)
    (hb : ∀ w d, w₀ ≤ w → D.Holds w → w.binder? b = some d → ∀ t ∈ d.infos, D.inside w (.ty t)) :
    D.MakesStore w₀ (S.add b) := by
  unfold ConstraintStore.add
  split
  · exact .throw
  refine .get_bind fun w hle hw => ?_
  split
  · exact .pure fun _ hle' => hS.grow (le_trans hle hle')
  · next d hd => exact makes_withSlots (hS.grow hle) (hb w d hle hw hd)

theorem makes_without (hS : D.Stocks w₀ S) (p : Param) : D.MakesStore w₀ (S.without p) := by
  unfold ConstraintStore.without
  split
  · exact .pure fun _ hle => hS.grow hle
  · next slots hslots =>
    refine .ite (fun _ => .pure fun _ hle => hS.grow hle) fun _ => .ite (fun _ => ?_) fun _ => .of_holds fun w hle hw => ?_
    · exact makes_ofSlots fun e he => hS e (List.mem_filter.1 he).1
    · refine makes_withSlots (hS.grow hle) fun t ht => ?_
      exact (List.mem_or_eq_of_mem_set ht).elim ((hS.grow hle).slots hslots t) fun ht => ht ▸ D.noType hw

variable {fuel : Nat} (hD : D.Rebuilds)

include hD

theorem makes_subst (hS : D.Stocks w₀ S) (p : Param) {r : Ty} (hr : D.inside w₀ (.ty r)) :
    D.MakesStore w₀ (S.subst fuel p r) := by
  refine .bind (makes_without hS p) fun w₁ cleared hle₁ _ hcleared => ?_
  have hr := D.grow hle₁ hr
  have hentries : D.Makes w₁ (fun w es => ∀ e ∈ es, ∀ t ∈ e.2, D.inside w (.ty t)) (cleared.slots.entries.mapM fun e => do
      return (e.1, ← ConstraintStore.mapOpenSlots (Ty.substParam p r fuel) e.2)) := by
    refine .mapM (Q := fun w (e : BinderId × List Ty) => ∀ t ∈ e.2, D.inside w (.ty t)) (fun e he => ?_) fun hle h t ht => D.grow hle (h t ht)
    refine .bind (.mapM (Q := fun w t => D.inside w (.ty t)) (fun t ht => ?_) D.grow) fun w slots _ _ hslots => ?_
    · exact .ite (fun _ => hD.substParam p fuel hr (hcleared e he t ht)) fun _ => .pure_ty (hcleared e he t ht)
    · exact .pure fun _ hle t ht => D.grow hle (hslots t ht)
  refine .bind hentries fun w₂ mapped hle₂ _ hmapped => .ite (fun _ => ?_) fun _ => makes_ofSlots hmapped
  exact .pure fun _ hle => hcleared.grow (le_trans hle₂ hle)

theorem compares_replace (p : Param) {inst : Ty} (hinst : D.inside w₀ (.ty inst)) :
    D.Compares w₀ D.Stocks (replace fuel p inst) := by
  intro c w r w' hle hw hc hrun
  have hstored (w₁ : World) (store : ConstraintStore) (hstore : D.Stocks w₁ store) :
      D.Compares w₁ D.Stocks (do setConstraint store; return store) :=
    .bind (.modify fun _ _ hle _ => hstore.grow hle) fun _ _ hle _ _ => .pure fun _ hle' => hstore.grow (le_trans hle hle')
  exact Compares.bind (.lift (makes_subst hD hc p (D.grow hle hinst))) (fun w₁ store _ _ => hstored w₁ store)
    c w r w' le_rfl hw hc hrun

theorem compares_approximate (p : Param) (fromBelow : Bool) :
    D.Compares w₀ (fun w t => D.inside w (.ty t)) (approximate fuel p fromBelow) := by
  refine .bind (compares_currentBounds p) fun w₁ bounds _ hw₁ hbounds => ?_
  split
  · exact .pure fun _ hle => D.grow hle (D.noType hw₁)
  · next lo hi =>
    obtain ⟨hlo, hhi⟩ := hbounds lo hi rfl
    have hend : D.inside w₁ (.ty (if fromBelow then lo else hi)) := by cases fromBelow <;> assumption
    refine .bind (.lift (hD.dropRefinements p fuel hend)) fun w₂ inst _ _ hinst => ?_
    refine .bind (P := fun _ _ => True) (.bind (compares_replace hD p hinst) fun _ _ _ _ _ => .done _) fun w₃ _ hle₃ _ _ => ?_
    exact .pure fun _ hle => D.grow (le_trans hle₃ hle) hinst

/-- What is tracked is the type itself, or the type of a copy of its binder. -/
theorem compares_track {poly : Ty} (hpoly : D.inside w₀ (.ty poly)) :
    D.Compares w₀ (fun w r => ∀ t, r = .ok t → D.inside w (.ty t)) (track fuel poly) := by
  intro c w r w' hle hw hc hrun
  have hpoly := D.grow hle hpoly
  by_cases hshape : ∃ b, w.shape poly = .universal b
  · obtain ⟨b, hd⟩ := hshape
    rw [track_universal hd] at hrun
    have hb : D.inside w (.binder b) := hw.parts hpoly hd _ (by simp [Shape.parts])
    have hinfos {b : BinderId} {v : World} (hb : D.inside v (.binder b)) (v' : World) (d : Binder) (hv : v ≤ v')
        (hv' : D.Holds v') (hd : v'.binder? b = some d) : ∀ t ∈ d.infos, D.inside v' (.ty t) :=
      (hv'.binder_parts (D.grow hv hb) hd).1
    have hanswer : D.Makes w (fun w r => (∀ t, r.1 = .ok t → D.inside w (.ty t)) ∧ D.Stocks w r.2.constraint)
        (if c.constraint.tracks b then do
          let copy ← b.copy fuel
          let store ← c.constraint.add copy
          let t ← copy.type
          return (.ok t, { c with constraint := store })
        else do
          let store ← c.constraint.add b
          return (.ok poly, { c with constraint := store }) : WorldM (Except BuildError Ty × Comparer)) := by
      refine .ite (fun _ => ?_) fun _ => ?_
      · refine .bind (hD.copy fuel hb) fun w₁ copy hle₁ _ hcopy => ?_
        refine .bind (makes_add (hc.grow hle₁) (hinfos hcopy)) fun w₂ store hle₂ _ hstore => ?_
        refine .bind (makes_binderType (D.grow hle₂ hcopy)) fun w₃ t hle₃ _ ht => .pure fun v hv => ⟨?_, ?_⟩
        · rintro _ ⟨⟩
          exact D.grow hv ht
        · exact hstore.grow (le_trans hle₃ hv)
      · refine .bind (makes_add hc (hinfos hb)) fun w₁ store hle₁ _ hstore => .pure fun v hv => ⟨?_, hstore.grow hv⟩
        rintro _ ⟨⟩
        exact D.grow (le_trans hle₁ hv) hpoly
    exact hanswer w r w' le_rfl hw hrun
  · rw [track_other fun b hd => hshape ⟨b, hd⟩] at hrun
    cases hrun
    exact ⟨le_rfl, hw, (fun _ h => by cases h), hc⟩

end Inference

end Domain

end Conformance
