import Conformance.Proofs.Frames
import Conformance.Proofs.Region

/-!
# Two runs at a time

What a comparison does with the constraints is followed here for two comparers side by side, `Twins` that differ in their
constraints only: as long as what they read from their constraints is the same, they ask the same nested comparisons,
make the same types and end with the same answer. `Lockstep R J P m` says so of a computation `m`, where `R` is a region
that holds the world, `J` relates the two stores, and `P` is what becomes of the results; `Supports R J` are the laws
that `J` has to obey, the only interesting one being that it survives a narrowing by types of the region. There is one
lemma for each function of the cascade, and `lockstep_isSubType` closes them into the relation itself.

Statements about one run are the case of a comparer beside itself.
-/

namespace Conformance

namespace CompareM

/-- A relation between the constraints of two comparers. -/
abbrev StoreRel := World → ConstraintStore → ConstraintStore → Prop

/-- Two comparers that differ in their constraints only, which are related by `J`. -/
structure Twins (J : StoreRel) (w : World) (c₁ c₂ : Comparer) : Prop where
  rest : c₂ = { c₁ with constraint := c₂.constraint }
  stores : J w c₁.constraint c₂.constraint

/-- `J` is kept by what comparisons do, as long as they deal with types and parameters of the region. -/
structure Supports (R : Region) (J : StoreRel) : Prop where
  grow : ∀ {w w' S₁ S₂}, J w S₁ S₂ → w ≤ w' → R.Holds w' → J w' S₁ S₂
  /-- The slots of a parameter of the region read the same. -/
  slots : ∀ {w S₁ S₂} {p : Param}, J w S₁ S₂ → R.inside (.param p) → S₁.slots? p.binder = S₂.slots? p.binder
  /-- An open slot holds a type of the region, and so are the types that bounds are made with. -/
  open_slot : ∀ {w S₁ S₂} {p : Param} {t : Ty}, J w S₁ S₂ → R.inside (.param p) → S₁.bounds? p = some t →
    R.inside (.ty t) ∧ R.inside (.ty Builtin.nothing.type) ∧ R.inside (.ty Builtin.any.type)
  narrow : ∀ {w w' S₁ S₂} {p : Param} {slots : List Ty} {old bound narrowed : Ty}, J w S₁ S₂ → R.inside (.param p) →
    S₁.slots? p.binder = some slots → slots[p.index]? = some old → old.present → R.Holds w' → R.inside (.ty narrowed) →
    Ty.boundsInter old bound w = .ok (narrowed, w') → ∀ n,
      J w' ⟨S₁.slots.insert p.binder (slots.set p.index narrowed), n⟩
        ⟨S₂.slots.insert p.binder (slots.set p.index narrowed), n⟩

section

variable {R : Region} {J : StoreRel} {α β : Type} {P : α → Prop} {Q : β → Prop}

/-- How two runs that start in `w` end: with the same error, or with the same result in the same world, as twins. -/
def Abreast (R : Region) (J : StoreRel) (P : α → Prop) (w : World) :
    Except Halt ((α × Comparer) × World) → Except Halt ((α × Comparer) × World) → Prop
  | .ok ((a₁, c₁), w₁), .ok ((a₂, c₂), w₂) =>
    a₁ = a₂ ∧ w₁ = w₂ ∧ P a₁ ∧ w ≤ w₁ ∧ R.Holds w₁ ∧ Twins J w₁ c₁ c₂
  | .error e₁, .error e₂ => e₁ = e₂
  | _, _ => False

/-- Twins that run `m` end abreast. -/
def Lockstep (R : Region) (J : StoreRel) (P : α → Prop) (m : CompareM α) : Prop :=
  ∀ c₁ c₂ w, R.Holds w → Twins J w c₁ c₂ → Abreast R J P w (m c₁ w) (m c₂ w)

/-- `Lockstep` of a question. -/
abbrev InStep (R : Region) (J : StoreRel) (m : CompareM Bool) : Prop := Lockstep R J (fun _ => True) m

theorem Abreast.trans {w w' : World} {x y : Except Halt ((α × Comparer) × World)} (h : Abreast R J P w' x y)
    (hle : w ≤ w') : Abreast R J P w x y := by
  match x, y, h with
  | .error _, .error _, h => exact h
  | .ok _, .ok _, ⟨ha, hww, hP, hle', h⟩ => exact ⟨ha, hww, hP, le_trans hle hle', h⟩

theorem Lockstep.pure {a : α} (ha : P a) : Lockstep R J P (pure a : CompareM α) :=
  fun _ _ _ hw hc => ⟨rfl, rfl, ha, le_rfl, hw, hc⟩

theorem Lockstep.throw {e : Halt} : Lockstep R J P (throw e : CompareM α) := fun _ _ _ _ _ => rfl

theorem Lockstep.bind {m : CompareM α} {f : α → CompareM β} (hm : Lockstep R J P m)
    (hf : ∀ a, P a → Lockstep R J Q (f a)) : Lockstep R J Q (m >>= f) := by
  intro c₁ c₂ w hw hc
  show Abreast R J Q w (Except.bind (m c₁ w) _) (Except.bind (m c₂ w) _)
  match m c₁ w, m c₂ w, hm c₁ c₂ w hw hc with
  | .error _, .error _, h => exact h
  | .ok ((a₁, c₁'), w₁), .ok ((a₂, c₂'), w₂), ⟨ha, hww, hP, hle, hw', hc'⟩ =>
    subst ha hww
    show Abreast R J Q w (f a₁ c₁' w₁) (f a₁ c₂' w₁)
    match f a₁ c₁' w₁, f a₁ c₂' w₁, hf a₁ hP c₁' c₂' w₁ hw' hc' with
    | .error _, .error _, h => exact h
    | .ok _, .ok _, ⟨hb, hww, hQ, hle', h⟩ => exact ⟨hb, hww, hQ, le_trans hle hle', h⟩

theorem Lockstep.ite {p : Prop} [Decidable p] {m₁ m₂ : CompareM α} (h₁ : p → Lockstep R J P m₁)
    (h₂ : ¬ p → Lockstep R J P m₂) : Lockstep R J P (if p then m₁ else m₂) := by
  split
  · next hp => exact h₁ hp
  · next hp => exact h₂ hp

theorem Lockstep.orElse {x y : CompareM Bool} (hx : InStep R J x) (hy : InStep R J y) : InStep R J (x <||> y) :=
  .bind hx fun b _ => by cases b <;> [exact hy; exact .pure trivial]

theorem Lockstep.andThen {x y : CompareM Bool} (hx : InStep R J x) (hy : InStep R J y) : InStep R J (x <&&> y) :=
  .bind hx fun b _ => by cases b <;> [exact .pure trivial; exact hy]

theorem Lockstep.mapM {f : α → CompareM β} (hf : ∀ a, P a → Lockstep R J Q (f a)) {l : List α} (hl : ∀ a ∈ l, P a) :
    Lockstep R J (fun bs => ∀ b ∈ bs, Q b) (l.mapM f) := by
  induction l with
  | nil =>
    rw [List.mapM_nil]
    exact .pure fun _ h => nomatch h
  | cons a l ih =>
    rw [List.mapM_cons]
    refine .bind (hf a (hl a (by simp))) fun b hb => .bind (ih fun a ha => hl a (by simp [ha])) fun bs hbs => ?_
    exact .pure (by simpa using ⟨hb, hbs⟩)

theorem Lockstep.allM {f : α → CompareM Bool} (hf : ∀ a, P a → InStep R J (f a)) :
    ∀ {l : List α}, (∀ a ∈ l, P a) → InStep R J (l.allM f)
  | [], _ => .pure trivial
  | a :: l, hl => .bind (hf a (hl a (by simp))) fun b _ => by
      cases b <;> [exact .pure trivial; exact Lockstep.allM hf fun a ha => hl a (by simp [ha])]

variable (hJ : Supports R J)

include hJ in
/-- A computation on the world alone. -/
theorem Lockstep.lift {m : WorldM α} (hgrows : Grows True m) (hm : R.Makes P m) :
    Lockstep R J P (liftM m : CompareM α) := by
  intro c₁ c₂ w hw hc
  show Abreast R J P w (Except.bind (m w) _) (Except.bind (m w) _)
  match hr : m w, hgrows w with
  | .error _, _ => exact rfl
  | .ok (a, w'), hle =>
    obtain ⟨-, hw', ha⟩ := hm w a w' hw.le hw hr
    exact ⟨rfl, rfl, ha, hle, hw', hc.rest, hJ.grow hc.stores hle hw'⟩

theorem Lockstep.world_bind {f : World → CompareM β} (hf : ∀ w, R.Holds w → Lockstep R J Q (f w)) :
    Lockstep R J Q (world >>= f) := fun c₁ c₂ w hw hc => hf w hw c₁ c₂ w hw hc

/-- What twins read of anything but their constraints is the same. -/
theorem Lockstep.reads {γ : Type} {π : Comparer → γ} (hπ : ∀ c S, π { c with constraint := S } = π c)
    {f : γ → CompareM β} (hf : ∀ x, Lockstep R J Q (f x)) : Lockstep R J Q (get >>= fun c => f (π c)) := by
  intro c₁ c₂ w hw hc
  rw [run_get_bind, run_get_bind]
  have hsame : π c₂ = π c₁ := by rw [hc.rest, hπ]
  rw [hsame]
  exact hf (π c₁) c₁ c₂ w hw hc

/-- Changing anything but the constraints. -/
theorem Lockstep.modify {f : Comparer → Comparer} (hf : ∀ c S, f { c with constraint := S } = { f c with constraint := S })
    (hkeep : ∀ c, (f c).constraint = c.constraint) : Lockstep R J (fun _ => True) (modify f : CompareM PUnit) := by
  intro c₁ c₂ w hw hc
  refine ⟨rfl, rfl, trivial, le_rfl, hw, ?_, ?_⟩
  · show f c₂ = { f c₁ with constraint := (f c₂).constraint }
    rw [hkeep c₂, ← hf c₁, ← hc.rest]
  · show J w (f c₁).constraint (f c₂).constraint
    rw [hkeep, hkeep]
    exact hc.stores

end

/-! ## Narrowing taken apart -/

section Narrowing

variable {sub : Ty → Ty → CompareM Bool} {p : Param} {bound old : Ty} {slots : List Ty} {c : Comparer} {w : World}

/-- The last step of a narrowing: the ends of the narrowed bounds are compared with each other. -/
def compareEnds (sub : Ty → Ty → CompareM Bool) (narrowed : Ty) : CompareM Bool := do
  match (← world).boundsParts? narrowed with
  | none => return false
  | some (lo, hi) => sub lo hi

theorem slot_of_bounds {S : ConstraintStore} (h : S.bounds? p = some old) :
    ∃ slots, S.slots? p.binder = some slots ∧ slots[p.index]? = some old ∧ old.present := by
  obtain ⟨hold, hpresent⟩ := Option.filter_eq_some_iff.1 h
  obtain ⟨slots, hslots, hold⟩ := Option.bind_eq_some_iff.1 hold
  exact ⟨slots, hslots, hold, hpresent⟩

/-- A parameter that has no open slot is left alone. -/
theorem narrow_run_closed (h : c.constraint.bounds? p = none) : narrow sub p bound c w = .ok ((false, c), w) := by
  simp only [narrow, constraint, bind_assoc, pure_bind, run_get_bind]
  simp only [ConstraintStore.bounds?] at h
  cases hslots : c.constraint.slots? p.binder with
  | none => rfl
  | some slots =>
    simp only [hslots, Option.bind_some] at h
    simp only [h]
    rfl

theorem narrow_run (hslots : c.constraint.slots? p.binder = some slots) (hold : slots[p.index]? = some old)
    (hpresent : old.present) : narrow sub p bound c w =
      match Ty.boundsInter old bound w with
      | .error e => .error e
      | .ok (narrowed, w₁) =>
        if narrowed = old then compareEnds sub narrowed c w₁
        else
          compareEnds sub narrowed
            { c with constraint := ⟨c.constraint.slots.insert p.binder (slots.set p.index narrowed), w₁.snapshots⟩ }
            { w₁ with snapshots := w₁.snapshots + 1 } := by
  have hopen : (slots[p.index]?).filter (·.present) = some old := by simpa [hold] using hpresent
  simp only [narrow, constraint, bind_assoc, pure_bind, run_get_bind, hslots, hopen]
  show Except.bind (Except.bind (Ty.boundsInter old bound w) _) _ = _
  rcases Ty.boundsInter old bound w with _ | ⟨narrowed, w₁⟩
  · rfl
  · show (ite (narrowed ≠ old) _ _ : CompareM Bool) c w₁ = _
    by_cases h : narrowed = old
    · simp only [h, ne_eq, not_true_eq_false, if_false, if_true]
      rfl
    · simp only [h, ne_eq, not_false_eq_true, if_true, if_false]
      rfl

end Narrowing

/-! ## The cascade -/

section Cascade

variable {R : Region} {J : StoreRel} (hJ : Supports R J) {fuel : Nat} {sub : Ty → Ty → CompareM Bool}
  {t₁ t₂ : Ty} {b₁ b₂ : BinderId} {p : Param}

/-- Two runs that save the constraints and take them back stay twins. -/
theorem inStep_atomically (hJ : Supports R J) {body : CompareM Bool} (h : InStep R J body) :
    InStep R J (atomically body) := by
  intro c₁ c₂ w hw hc
  show Abreast R J _ w (Except.bind (body c₁ w) _) (Except.bind (body c₂ w) _)
  match body c₁ w, body c₂ w, h c₁ c₂ w hw hc with
  | .error _, .error _, h => exact h
  | .ok ((a₁, c₁'), w₁), .ok ((a₂, c₂'), w₂), ⟨ha, hww, _, hle, hw', hc'⟩ =>
    subst ha hww
    cases a₁ with
    | true => exact ⟨rfl, rfl, trivial, hle, hw', hc'⟩
    | false =>
      refine ⟨rfl, rfl, trivial, hle, hw', ?_, hJ.grow hc.stores hle hw'⟩
      show { c₂' with constraint := c₂.constraint } = { c₁' with constraint := c₂.constraint }
      rw [hc'.rest]

include hJ in
/-- The current bounds of a parameter of the region are the same for both, and types of the region. -/
theorem lockstep_currentBounds (hp : R.inside (.param p)) :
    Lockstep R J (fun bounds => ∀ lo hi, bounds = some (lo, hi) → R.inside (.ty lo) ∧ R.inside (.ty hi) ∧
      R.inside (.ty Builtin.nothing.type) ∧ R.inside (.ty Builtin.any.type)) (currentBounds p) := by
  intro c₁ c₂ w hw hc
  rw [currentBounds_run, currentBounds_run]
  have hsame : c₂.constraint.bounds? p = c₁.constraint.bounds? p := by
    simp only [ConstraintStore.bounds?, hJ.slots hc.stores hp]
  rw [hsame]
  refine ⟨rfl, rfl, fun lo hi hbounds => ?_, le_rfl, hw, hc⟩
  cases hopen : c₁.constraint.bounds? p with
  | none => rw [hopen] at hbounds; cases hbounds
  | some t =>
    rw [hopen] at hbounds
    obtain ⟨ht, hends⟩ := hJ.open_slot hc.stores hp hopen
    obtain ⟨hlo, hhi⟩ := hw.boundsParts ht hbounds
    exact ⟨hlo, hhi, hends⟩

variable (hsub : ∀ a b, R.inside (.ty a) → R.inside (.ty b) → InStep R J (sub a b))

include hJ hsub

theorem inStep_same {a b : Ty} (ha : R.inside (.ty a)) (hb : R.inside (.ty b)) : InStep R J (same sub a b) :=
  .ite (fun _ => .pure trivial) fun _ => .ite (fun _ => .pure trivial) fun _ =>
    inStep_atomically hJ (.andThen (hsub a b ha hb) (hsub b a hb ha))

omit hJ in
theorem inStep_compareEnds {narrowed : Ty} (h : R.inside (.ty narrowed)) : InStep R J (compareEnds sub narrowed) := by
  refine .world_bind fun w hw => ?_
  split
  · exact .pure trivial
  · next hends =>
    obtain ⟨hlo, hhi⟩ := hw.boundsParts h hends
    exact hsub _ _ hlo hhi

theorem inStep_narrow (hp : R.inside (.param p)) {bound : Ty} (hbound : R.inside (.ty bound)) :
    InStep R J (narrow sub p bound) := by
  intro c₁ c₂ w hw hc
  have hslots := hJ.slots hc.stores hp
  cases hopen : c₁.constraint.bounds? p with
  | none =>
    have hopen₂ : c₂.constraint.bounds? p = none := by simpa only [ConstraintStore.bounds?, hslots] using hopen
    rw [narrow_run_closed hopen, narrow_run_closed hopen₂]
    exact ⟨rfl, rfl, trivial, le_rfl, hw, hc⟩
  | some old =>
    obtain ⟨slots, hs₁, hold, hpresent⟩ := slot_of_bounds hopen
    have hs₂ : c₂.constraint.slots? p.binder = some slots := hslots ▸ hs₁
    rw [narrow_run hs₁ hold hpresent, narrow_run hs₂ hold hpresent]
    match hr : Ty.boundsInter old bound w, (grows_boundsInter old bound : Grows True _) w with
    | .error _, _ => exact rfl
    | .ok (narrowed, w₁), hle =>
      obtain ⟨hw₁, hnarrowed⟩ :=
        (Domain.makes_boundsInter (D := R.domain) (hJ.open_slot hc.stores hp hopen).1 hbound w narrowed w₁ hw.le hw hr).2
      have hends := inStep_compareEnds hsub hnarrowed
      dsimp only
      split
      · exact (hends c₁ c₂ w₁ hw₁ ⟨hc.rest, hJ.grow hc.stores hle hw₁⟩).trans hle
      · have hle₁ : w₁ ≤ { w₁ with snapshots := w₁.snapshots + 1 } := (grows_freshSnapshot : Grows True _) w₁
        have hw₂ : R.Holds { w₁ with snapshots := w₁.snapshots + 1 } :=
          (Domain.makes_freshSnapshot (D := R.domain) w₁ _ _ hw₁.le hw₁ rfl).2.1
        refine (hends _ _ _ hw₂ ⟨?_, ?_⟩).trans (le_trans hle hle₁)
        · conv_lhs => rw [hc.rest]
        · exact hJ.grow (hJ.narrow hc.stores hp hs₁ hold hpresent hw₁ hnarrowed hr w₁.snapshots) hle₁ hw₂

theorem inStep_sameParams {formals₁ formals₂ : List Ty} (h₁ : ∀ t ∈ formals₁, R.inside (.ty t))
    (h₂ : ∀ t ∈ formals₂, R.inside (.ty t)) (foreign₁ foreign₂ : Bool) :
    InStep R J (sameParams sub formals₁ formals₂ foreign₁ foreign₂) := by
  refine .ite (fun _ => .pure trivial) fun _ =>
    .allM (P := fun ab => R.inside (.ty ab.1) ∧ R.inside (.ty ab.2)) (fun ab h => ?_) fun ab h => ?_
  · exact .orElse (inStep_same hJ hsub h.1 h.2) (.pure trivial)
  · exact ⟨h₁ _ (List.of_mem_zip h).1, h₂ _ (List.of_mem_zip h).2⟩

omit hsub in
theorem lockstep_substBinder (hb₁ : R.inside (.binder b₁)) {t : Ty} (ht : R.inside (.ty t)) :
    Lockstep R J (fun t => R.inside (.ty t)) (liftM (Ty.substBinder fuel b₂ b₁ t) : CompareM Ty) :=
  .lift hJ (grows_substBinder _ _ _ _) (Region.makes_substBinder fuel b₂ b₁ t (fun i => R.step (.bound b₁ i) hb₁) ht)

omit hsub in
theorem lockstep_infosUnder (hb₁ : R.inside (.binder b₁)) {d : Binder} (hd : ∀ t ∈ d.infos, R.inside (.ty t)) :
    Lockstep R J (fun infos => ∀ t ∈ infos, R.inside (.ty t)) (infosUnder fuel b₂ b₁ d) :=
  .mapM (fun _ ht => lockstep_substBinder hJ hb₁ ht) hd

/-- The opaque instance is a new type, and its members are looked up by the names of the parameters alone. -/
theorem inStep_conformsAsConstructor (h₁ : R.inside (.ty t₁)) (h₂ : R.inside (.ty t₂)) :
    InStep R J (conformsAsConstructor fuel sub t₁ t₂) := by
  refine .bind (P := fun _ => True) (.lift hJ (grows_reading fun w => starves_openTypeParams w fuel t₁)
    (Domain.Makes.reading fun _ _ _ _ _ => trivial)) fun params _ => ?_
  have hargs : R.Makes (fun args => ∀ a ∈ args, R.inside (.ty a)) (WorldM.reading (·.typeArgs fuel t₂)) :=
    Domain.makes_typeArgs fuel h₂
  refine .bind (.lift hJ (grows_reading fun w => starves_typeArgs w fuel t₂) hargs) fun args hargs => ?_
  refine .ite (fun _ => .pure trivial) fun _ => .bind (.lift hJ (grows_skolem t₁) (Domain.makes_skolem h₁))
    fun base hbase => ?_
  refine .bind (.allM (P := fun pa => R.inside (.ty pa.2)) (fun pa hpa => ?_) fun pa hpa => ?_) fun _ _ =>
    .world_bind fun _ _ => .pure trivial
  · refine .world_bind fun w hw => .bind (.lift hJ (grows_member base _) (Domain.makes_member hbase _))
      fun info hinfo => ?_
    refine .bind (.lift hJ (grows_asBounds info) (Domain.makes_asBounds hinfo)) fun a ha => ?_
    exact .bind (.lift hJ (grows_asBounds pa.2) (Domain.makes_asBounds hpa)) fun b hb => hsub a b ha hb
  · exact hargs _ (List.of_mem_zip hpa).2

theorem inStep_fourth (h₁ : R.inside (.ty t₁)) (h₂ : R.inside (.ty t₂)) : InStep R J (fourth sub t₁ t₂) := by
  refine .world_bind fun w hw => ?_
  split
  · refine .ite (fun _ => .pure trivial) fun _ => .orElse (.ite (fun _ => ?_) fun _ => .pure trivial) <|
      .ite (fun _ => .pure trivial) fun _ => ?_
    · exact .lift hJ (grows_nullConforms t₂) (Domain.makes_nullConforms h₂)
    · exact .bind (.lift hJ (grows_upperBound t₁) (Domain.makes_upperBound h₁)) fun a ha => hsub a t₂ ha h₂
  · next hd => exact hsub _ _ (hw.parts h₁ hd _ (by simp [Shape.parts])) h₂
  · next hd =>
    exact .orElse (hsub _ _ (hw.parts h₁ hd _ (by simp [Shape.parts])) h₂)
      (hsub _ _ (hw.parts h₁ hd _ (by simp [Shape.parts])) h₂)
  · next hd =>
    exact .andThen (hsub _ _ (hw.parts h₁ hd _ (by simp [Shape.parts])) h₂)
      (hsub _ _ (hw.parts h₁ hd _ (by simp [Shape.parts])) h₂)
  · refine .ite (fun _ => ?_) fun _ => .pure trivial
    exact .bind (.lift hJ (grows_underlying t₁) (Domain.makes_underlying h₁)) fun a ha => hsub a t₂ ha h₂

theorem inStep_thirdNamed (h₁ : R.inside (.ty t₁)) (h₂ : R.inside (.ty t₂)) :
    InStep R J (thirdNamed fuel sub t₁ t₂) := by
  refine .bind (.lift hJ (grows_infoOf t₂) (Domain.makes_infoOf h₂)) fun info hinfo => .world_bind fun w hw => ?_
  split
  · next hends => exact .orElse (hsub _ _ h₁ (hw.boundsParts hinfo hends).1) (inStep_fourth hJ hsub h₁ h₂)
  · refine .orElse (.ite (fun _ => ?_) fun _ => .pure trivial) <|
      .orElse (.ite (fun _ => ?_) fun _ => .pure trivial) <| .orElse (.ite (fun _ => ?_) fun _ => .pure trivial) ?_
    · exact .lift hJ (grows_reading fun w => starves_isStable w fuel t₁) (Domain.Makes.reading fun _ _ _ _ _ => trivial)
    · exact .lift hJ (grows_isNotNull t₁) (Domain.makes_isNotNull h₁)
    · exact inStep_conformsAsConstructor hJ hsub h₁ h₂
    · exact inStep_fourth hJ hsub h₁ h₂

theorem inStep_names (h₁ : R.inside (.ty t₁)) (h₂ : R.inside (.ty t₂)) : InStep R J (names fuel sub t₁ t₂) := by
  refine .world_bind fun w hw => ?_
  split
  · next pre₁ s₁ isType₁ pre₂ s₂ isType₂ hd₁ hd₂ =>
    have hpre : ∀ {t pre s isType}, R.inside (.ty t) → nameParts? (w.shape t) = some (pre, s, isType) →
        R.inside (.ty pre) := by
      intro t pre s isType ht hd
      cases hshape : w.shape t with
      | named pre' s' | path pre' s' =>
        rw [hshape] at hd
        cases hd
        exact hw.parts ht hshape _ (by simp [Shape.parts])
      | _ => rw [hshape] at hd; cases hd
    have hpre₁ := hpre h₁ hd₁
    have hpre₂ := hpre h₂ hd₂
    refine .ite (fun _ => ?_) fun _ => .orElse (.ite (fun _ => hsub _ _ hpre₁ hpre₂) fun _ => .pure trivial) <|
      .orElse (.ite (fun _ => ?_) fun _ => .pure trivial) (inStep_thirdNamed hJ hsub h₁ h₂)
    · have herased : ∀ erased : Bool,
          InStep R J (if erased || w.decls.isStatic s₁ then return true else sub pre₁ pre₂) :=
        fun _ => .ite (fun _ => .pure trivial) fun _ => hsub _ _ hpre₁ hpre₂
      exact .reads (π := fun c => c.options.erasedTypes) (fun _ _ => rfl) herased
    · refine .bind (.lift hJ (grows_baseType t₁ s₂) (Domain.makes_baseType h₁ s₂)) fun base hbase => ?_
      exact .ite (fun _ => hsub _ _ hbase h₂) fun _ => .pure trivial
  · exact .pure trivial

theorem inStep_methods (h₁ : R.inside (.ty t₁)) (h₂ : R.inside (.ty t₂)) (hb₁ : R.inside (.binder b₁))
    (hb₂ : R.inside (.binder b₂)) : InStep R J (methods fuel sub t₁ b₁ t₂ b₂) := by
  refine .world_bind fun w hw => ?_
  split
  · next m₁ m₂ hm₁ hm₂ =>
    obtain ⟨hinfos₁, hresult₁⟩ := hw.binder_parts hb₁ hm₁
    obtain ⟨hinfos₂, hresult₂⟩ := hw.binder_parts hb₂ hm₂
    refine .bind (lockstep_infosUnder hJ hb₁ hinfos₂) fun formals₂ hformals₂ => ?_
    refine .bind (.lift hJ (grows_signature fuel t₁) (Domain.makes_signature fuel h₁)) fun sig₁ _ => ?_
    refine .bind (.lift hJ (grows_signature fuel t₂) (Domain.makes_signature fuel h₂)) fun sig₂ _ => ?_
    refine .ite (fun _ => .pure trivial) fun _ => .andThen (inStep_sameParams hJ hsub hinfos₁ hformals₂ _ _) ?_
    refine .ite (fun _ => .pure trivial) fun _ => ?_
    exact .bind (lockstep_substBinder hJ hb₁ hresult₂) fun result hresult => hsub _ _ hresult₁ hresult
  · exact .pure trivial

theorem inStep_universals (h₁ : R.inside (.ty t₁)) (h₂ : R.inside (.ty t₂)) (hb₁ : R.inside (.binder b₁))
    (hb₂ : R.inside (.binder b₂)) : InStep R J (universals fuel sub t₁ b₁ t₂ b₂) := by
  refine .world_bind fun w hw => ?_
  split
  · next p₁ p₂ hp₁ hp₂ =>
    obtain ⟨hinfos₁, hresult₁⟩ := hw.binder_parts hb₁ hp₁
    obtain ⟨hinfos₂, hresult₂⟩ := hw.binder_parts hb₂ hp₂
    refine .bind (.lift hJ (grows_signature fuel t₁) (Domain.makes_signature fuel h₁)) fun sig₁ _ => ?_
    refine .bind (.lift hJ (grows_signature fuel t₂) (Domain.makes_signature fuel h₂)) fun sig₂ _ => ?_
    refine .ite (fun _ => .pure trivial) fun _ => .andThen
      (.allM (P := fun ab => R.inside (.ty ab.1) ∧ R.inside (.ty ab.2)) (fun ab h => ?_) fun ab h => ?_) ?_
    · exact .bind (lockstep_substBinder hJ hb₁ h.2) fun bounds hbounds => inStep_same hJ hsub h.1 hbounds
    · exact ⟨hinfos₁ _ (List.of_mem_zip h).1, hinfos₂ _ (List.of_mem_zip h).2⟩
    · exact .bind (lockstep_substBinder hJ hb₁ hresult₂) fun result hresult => hsub _ _ hresult₁ hresult
  · exact .pure trivial

theorem inStep_third (h₁ : R.inside (.ty t₁)) (h₂ : R.inside (.ty t₂)) : InStep R J (third fuel sub t₁ t₂) := by
  refine .world_bind fun w hw => ?_
  split
  · exact inStep_thirdNamed hJ hsub h₁ h₂
  · exact inStep_thirdNamed hJ hsub h₁ h₂
  · next parent name info hd =>
    obtain ⟨hparent, hinfo⟩ : R.inside (.ty parent) ∧ R.inside (.ty info) := by
      simpa [Shape.parts] using hw.parts h₂ hd
    refine .orElse (.andThen (hsub _ _ h₁ hparent) (.ite (fun _ => .pure trivial) fun _ => ?_))
      (inStep_fourth hJ hsub h₁ h₂)
    exact .bind (.lift hJ (grows_member t₁ _) (Domain.makes_member h₁ _)) fun a ha => hsub a info ha hinfo
  · next a b hd =>
    obtain ⟨ha, hb⟩ : R.inside (.ty a) ∧ R.inside (.ty b) := by simpa [Shape.parts] using hw.parts h₂ hd
    exact .andThen (hsub _ _ h₁ ha) (hsub _ _ h₁ hb)
  · next a b hd =>
    obtain ⟨ha, hb⟩ : R.inside (.ty a) ∧ R.inside (.ty b) := by simpa [Shape.parts] using hw.parts h₂ hd
    exact .orElse (hsub _ _ h₁ ha) (.orElse (hsub _ _ h₁ hb) (inStep_fourth hJ hsub h₁ h₂))
  · next hd₂ hd₁ =>
    exact inStep_methods hJ hsub h₁ h₂ (hw.parts h₁ hd₁ _ (by simp [Shape.parts]))
      (hw.parts h₂ hd₂ _ (by simp [Shape.parts]))
  · next hd₂ hd₁ =>
    exact inStep_universals hJ hsub h₁ h₂ (hw.parts h₁ hd₁ _ (by simp [Shape.parts]))
      (hw.parts h₂ hd₂ _ (by simp [Shape.parts]))
  · next hd₂ hd₁ =>
    exact hsub _ _ (hw.parts h₁ hd₁ _ (by simp [Shape.parts])) (hw.parts h₂ hd₂ _ (by simp [Shape.parts]))
  · next lo₂ hi₂ lo₁ hi₁ hd₂ hd₁ =>
    obtain ⟨hlo₁, hhi₁⟩ : R.inside (.ty lo₁) ∧ R.inside (.ty hi₁) := by simpa [Shape.parts] using hw.parts h₁ hd₁
    obtain ⟨hlo₂, hhi₂⟩ : R.inside (.ty lo₂) ∧ R.inside (.ty hi₂) := by simpa [Shape.parts] using hw.parts h₂ hd₂
    exact .andThen (hsub _ _ hlo₂ hlo₁) (hsub _ _ hhi₁ hhi₂)
  · next lo₂ hi₂ pre cls hd₂ hd₁ =>
    obtain ⟨hpre, hcls⟩ : R.inside (.ty pre) ∧ R.inside (.sym cls) := by simpa [Shape.parts] using hw.parts h₁ hd₁
    obtain ⟨hlo₂, hhi₂⟩ : R.inside (.ty lo₂) ∧ R.inside (.ty hi₂) := by simpa [Shape.parts] using hw.parts h₂ hd₂
    refine .bind (.lift hJ (grows_named pre cls) (Domain.makes_named hpre hcls)) fun ref href => ?_
    exact .andThen (hsub _ _ hlo₂ href) (hsub _ _ href hhi₂)
  · exact inStep_fourth hJ hsub h₁ h₂

theorem inStep_second (h₁ : R.inside (.ty t₁)) (h₂ : R.inside (.ty t₂)) : InStep R J (second fuel sub t₁ t₂) := by
  refine .world_bind fun w hw => ?_
  split
  · exact .pure trivial
  · exact .pure trivial
  · next hd => exact hsub _ _ (hw.varUnderlying (hw.parts h₁ hd _ (by simp [Shape.parts]))) h₂
  · next p hd =>
    have hp : R.inside (.param p) := hw.parts h₁ hd _ (by simp [Shape.parts])
    refine .bind (lockstep_currentBounds hJ hp) fun bounds hbounds => ?_
    split
    · obtain ⟨-, hhi, hnothing, -⟩ := hbounds _ _ rfl
      refine .orElse (hsub _ _ hhi h₂) (.bind (.lift hJ (grows_bounds _ _) (Domain.makes_bounds hnothing h₂)) ?_)
      exact fun bound hbound => inStep_narrow hJ hsub hp hbound
    · exact inStep_third hJ hsub h₁ h₂
  · exact inStep_third hJ hsub h₁ h₂

theorem inStep_first (h₁ : R.inside (.ty t₁)) (h₂ : R.inside (.ty t₂)) : InStep R J (first fuel sub t₁ t₂) := by
  refine .world_bind fun w hw => ?_
  split
  · exact .ite (fun _ => inStep_names hJ hsub h₁ h₂) fun _ => inStep_second hJ hsub h₁ h₂
  · exact .ite (fun _ => inStep_names hJ hsub h₁ h₂) fun _ => inStep_second hJ hsub h₁ h₂
  · exact .pure trivial
  · exact .pure trivial
  · next hd => exact hsub _ _ h₁ (hw.varUnderlying (hw.parts h₂ hd _ (by simp [Shape.parts])))
  · next p hd =>
    have hp : R.inside (.param p) := hw.parts h₂ hd _ (by simp [Shape.parts])
    refine .bind (lockstep_currentBounds hJ hp) fun bounds hbounds => ?_
    split
    · obtain ⟨hlo, -, -, hany⟩ := hbounds _ _ rfl
      refine .orElse (hsub _ _ h₁ hlo) (.bind (.lift hJ (grows_bounds _ _) (Domain.makes_bounds h₁ hany)) ?_)
      exact fun bound hbound => inStep_narrow hJ hsub hp hbound
    · exact inStep_second hJ hsub h₁ h₂
  · exact inStep_second hJ hsub h₁ h₂

/-- Matching reads binders and compares by `sub` where neither side is a method or universal type. -/
theorem inStep_matchesWith (simple : Bool) : ∀ (n : Nat) {t₁ t₂ : Ty}, R.inside (.ty t₁) → R.inside (.ty t₂) →
    InStep R J (matchesWith sub simple n t₁ t₂) := by
  intro n
  induction n with
  | zero => exact fun _ _ => .throw
  | succ n ih =>
    intro t₁ t₂ h₁ h₂
    refine .world_bind fun w hw => ?_
    split
    · next b₁ b₂ hd₁ hd₂ =>
      have hb₁ : R.inside (.binder b₁) := hw.parts h₁ hd₁ _ (by simp [Shape.parts])
      have hb₂ : R.inside (.binder b₂) := hw.parts h₂ hd₂ _ (by simp [Shape.parts])
      split
      · next m₁ m₂ hm₁ hm₂ =>
        obtain ⟨hinfos₁, hresult₁⟩ := hw.binder_parts hb₁ hm₁
        obtain ⟨hinfos₂, hresult₂⟩ := hw.binder_parts hb₂ hm₂
        refine .bind (lockstep_infosUnder hJ hb₁ hinfos₂) fun formals₂ hformals₂ => ?_
        refine .ite (fun _ => .pure trivial) fun _ => .andThen (inStep_sameParams hJ hsub hinfos₁ hformals₂ _ _) ?_
        exact .bind (lockstep_substBinder hJ hb₁ hresult₂) fun result hresult => ih hresult₁ hresult
      · exact .pure trivial
    · next hd₁ hd₂ =>
      split
      · next hm₁ =>
        have hresult₁ := (hw.binder_parts (hw.parts h₁ hd₁ _ (by simp [Shape.parts])) hm₁).2
        exact .ite (fun _ => ih hresult₁ (hw.parts h₂ hd₂ _ (by simp [Shape.parts]))) fun _ => .pure trivial
      · exact .pure trivial
    · exact .pure trivial
    · next hd₁ hd₂ =>
      split
      · next hm₂ =>
        have hresult₂ := (hw.binder_parts (hw.parts h₂ hd₂ _ (by simp [Shape.parts])) hm₂).2
        exact .ite (fun _ => ih (hw.parts h₁ hd₁ _ (by simp [Shape.parts])) hresult₂) fun _ => .pure trivial
      · exact .pure trivial
    · next hd₁ _ => exact ih (hw.parts h₁ hd₁ _ (by simp [Shape.parts])) h₂
    · next b₁ b₂ hd₁ hd₂ =>
      have hb₁ : R.inside (.binder b₁) := hw.parts h₁ hd₁ _ (by simp [Shape.parts])
      have hb₂ : R.inside (.binder b₂) := hw.parts h₂ hd₂ _ (by simp [Shape.parts])
      split
      · next p₁ p₂ hp₁ hp₂ =>
        refine .ite (fun _ => .pure trivial) fun _ => ?_
        refine .bind (lockstep_substBinder hJ hb₁ (hw.binder_parts hb₂ hp₂).2) fun result hresult => ?_
        exact ih (hw.binder_parts hb₁ hp₁).2 hresult
      · exact .pure trivial
    · exact .pure trivial
    · exact .pure trivial
    · exact .pure trivial
    · next hd₂ _ _ _ => exact ih h₁ (hw.parts h₂ hd₂ _ (by simp [Shape.parts]))
    · exact .ite (fun _ => .pure trivial) fun _ => inStep_same hJ hsub h₁ h₂

end Cascade

/-! ## The relations -/

section Relations

variable {R : Region} {J : StoreRel} (hJ : Supports R J)

theorem lockstep_enterLevel : Lockstep R J (fun _ => True) enterLevel := by
  intro c₁ c₂ w hw hc
  obtain ⟨S, rfl⟩ : ∃ S, c₂ = { c₁ with constraint := S } := ⟨_, hc.rest⟩
  exact ⟨rfl, rfl, trivial, le_rfl, hw, rfl, hc.stores⟩

include hJ

theorem lockstep_orFault {α : Type} (x : Except Fault α) :
    Lockstep R J (fun _ => True) (liftM (Walk.orFault x) : CompareM α) := by
  cases x with
  | ok a => exact .lift hJ (.pure a) (.done a)
  | error f => exact fun _ _ _ _ _ => rfl

theorem lockstep_leaveLevel : Lockstep R J (fun _ => True) leaveLevel := by
  have hleft : ∀ left : Except Fault DepthCounter, Lockstep R J (fun _ => True)
      (liftM (Walk.orFault left) >>= fun depth => modify fun c : Comparer => { c with depth }) :=
    fun left => .bind (lockstep_orFault hJ left) fun _ _ => .modify (fun _ _ => rfl) fun _ => rfl
  exact .reads (π := fun c => c.depth.leave) (fun _ _ => rfl) hleft

theorem inStep_frame {body : DepthMode → CompareM Bool} (hbody : ∀ mode, InStep R J (body mode)) :
    InStep R J (frame body) :=
  inStep_atomically hJ <| .bind lockstep_enterLevel fun mode _ => .bind (hbody mode) fun _ _ =>
    .bind (lockstep_leaveLevel hJ) fun _ _ => .pure trivial

theorem inStep_withPending (pair : Ty × Ty) {body : CompareM Bool} (hbody : InStep R J body) :
    InStep R J (withPending pair body) := by
  have hleft : ∀ (answer : Bool) (left : Except Fault (Guard (Ty × Ty))), InStep R J (do
      let pending ← (liftM (Walk.orFault left) : CompareM (Guard (Ty × Ty)))
      modify fun c => { c with pending }
      return answer) :=
    fun _ left => .bind (lockstep_orFault hJ left) fun _ _ =>
      .bind (.modify (fun _ _ => rfl) fun _ => rfl) fun _ _ => .pure trivial
  have hentered : ∀ entered : Guard.Entry × Guard (Ty × Ty), InStep R J (do
      modify fun c => { c with pending := entered.2 }
      if entered.1.isEntered then
        let answer ← body
        let pending ← Walk.orFault ((← get).pending.leave pair)
        modify fun c => { c with pending }
        return answer
      else
        return false) := by
    intro entered
    refine .bind (.modify (fun _ _ => rfl) fun _ => rfl) fun _ _ => .ite (fun _ => ?_) fun _ => .pure trivial
    exact .bind hbody fun answer _ => .reads (π := fun c => c.pending.leave pair) (fun _ _ => rfl) (hleft answer)
  exact .reads (π := fun c => c.pending.enter pair) (fun _ _ => rfl) hentered

/-- **Twins compare in step.** The induction is on the allowance, for all pairs of the region at once. -/
theorem inStep_isSubType (n : Nat) :
    ∀ t₁ t₂, R.inside (.ty t₁) → R.inside (.ty t₂) → InStep R J (isSubType n t₁ t₂) := by
  induction n with
  | zero => exact fun _ _ _ _ => .throw
  | succ n ih =>
    intro t₁ t₂ h₁ h₂
    refine .ite (fun _ => .pure trivial) fun _ => .ite (fun _ => .pure trivial) fun _ => ?_
    refine inStep_frame hJ fun mode => ?_
    cases mode with
    | direct => exact inStep_first hJ ih h₁ h₂
    | monitored => exact inStep_withPending hJ _ (inStep_first hJ ih h₁ h₂)

end Relations

end CompareM

end Conformance
