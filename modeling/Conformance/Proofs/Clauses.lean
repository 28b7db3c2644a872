import Conformance.Proofs.InterSource
import Conformance.Proofs.Transport
import Conformance.Proofs.Trees

/-!
# The clauses of conformance

What one step of the cascade asks, shape by shape. Nested comparisons are looked up in a relation `S` that does not
depend on the world (`Carried S S`), such as conformance itself, so every clause is an equivalence between what `S` says
of two types and what it says of their parts, all in one world. `Holds` of a pair comes down to `Below`, the clause
for the source, and to what the target asks before it.
-/

namespace Conformance

open CompareM

namespace World

theorem varUnderlying_later {w v : World} (hv : w ≤ v) (i : VarId) : v.varUnderlying i = w.varUnderlying i := by
  simp only [varUnderlying, varInstance?, varOrigin, hv.vars]

/-- The two ends of what a name stands for; a class and a value have none. -/
def ends? (w : World) (u : Ty) : Option (Ty × Ty) :=
  match w.shape u with
  | .named _ s =>
    match w.decls.kind? s with
    | some .synonym => some (w.decls.info s, w.decls.info s)
    | some .abstractType | some .typeParam => w.boundsParts? (w.decls.info s)
    | _ => none
  | .path _ s => w.boundsParts? (w.decls.info s)
  | _ => none

/-- What the member `name` of `t` stands for is related to `x`. -/
def MemberFits (S : World → Ty → Ty → Prop) (w : World) (t : Ty) (name : String) (x : Ty) :
    Prop :=
  ∃ i w', t.member name w = .ok (i, w') ∧ S w' i x

/-- The base type of `t` at `s` is another type, and related to `x`. -/
def BaseFits (S : World → Ty → Ty → Prop) (w : World) (t : Ty) (s : Symbol) (x : Ty) : Prop :=
  ∃ base w', t.baseType s w = .ok (base, w') ∧ base.present ∧ base ≠ t ∧ S w' base x

end World

/-! ## Handles that stand for themselves -/

section Selves

variable {ρ : Corr} {w v : World} {t x : Ty} {m : WorldM Ty}

theorem Corr.Matches.parts {d : Shape} (hM : ρ.Matches w w) (ht : ρ.ty t t) (hd : w.shape? t = some d) :
    ρ.Shapes d d := by
  have hparts := hM.shape ht
  rwa [World.shape_of_shape? hd] at hparts

/-- What a variable that stands for itself stands for. -/
theorem Corr.Matches.held {i : VarId} (hM : ρ.Matches w w) (ht : ρ.ty t t) (hd : w.shape? t = some (.var i)) :
    ρ.ty (w.varUnderlying i) (w.varUnderlying i) := by
  cases hM.parts ht hd with | var hv => exact hM.varUnderlying hv

theorem Corr.Matches.body {b : BinderId} {d : Binder} (ho : ρ.opens) (hM : ρ.Matches w w)
    (hb : ρ.binder b b) (hd : w.binder? b = some d) : ρ.Binders d d := by
  obtain ⟨d₁, d₂, h₁, h₂, hparts⟩ := hM.binder ho hb
  cases h₁.symm.trans hd
  cases h₂.symm.trans hd
  exact hparts

/-- What is made from handles that stand for themselves stands for itself. -/
theorem Corr.Matches.made (hM : ρ.Matches w w) (hsim : Sim False ρ Corr.ty m m) (hm : m w = .ok (x, v)) :
    ∃ σ, ρ ≤ σ ∧ σ.Matches v v ∧ σ.ty x x := by
  have hagree := hsim ρ w w le_rfl hM
  rw [hm] at hagree
  exact hagree

end Selves

namespace CompareM

/-! ## Answers -/

section Answers

variable {erased : Bool} {ρ : Corr} {w v : World} {x y : CompareM Bool} {P Q : Prop}

/-- Asked in `w` with nothing under inference, the computation answers true. -/
def Affirmed (erased : Bool) (w : World) (x : CompareM Bool) : Prop :=
  ∃ c c' w', Vacant (Comparer.vacant erased).place c ∧ x c w = .ok ((true, c'), w')

/-- In `w` and later the computation comes to an end, and it answers whether `P` holds. -/
def Tells (erased : Bool) (w : World) (x : CompareM Bool) (P : Prop) : Prop :=
  ∀ v c, w ≤ v → Vacant (Comparer.vacant erased).place c →
    ∃ b c' v', x c v = .ok ((b, c'), v') ∧ Vacant (Comparer.vacant erased).place c' ∧ v ≤ v' ∧ (b = true ↔ P)

/-- The answer is the same for handles that are paired. -/
abbrev Steady (erased : Bool) (ρ : Corr) (x : CompareM Bool) : Prop :=
  Follows False (Comparer.vacant erased).place (Comparer.vacant erased).place ρ x x

theorem Affirmed.run (h : Affirmed erased w x) (hx : Steady erased ρ x) (hM : ρ.Matches w w) (hv : w ≤ v) {c : Comparer}
    (hc : Vacant (Comparer.vacant erased).place c) : ∃ c' v', x c v = .ok ((true, c'), v') := by
  obtain ⟨d, d', w', hd, hr⟩ := h
  obtain ⟨b, c', v', -, hr', hb, -⟩ := hx ρ d c w v true d' w' le_rfl (hM.grow le_rfl hv) hd hc hr (.inr rfl)
  obtain rfl := hb rfl
  exact ⟨c', v', hr'⟩

/-- What follows from an answer is answered. -/
theorem Affirmed.follows (h : Affirmed erased w x)
    (hxy : Follows False (Comparer.vacant erased).place (Comparer.vacant erased).place ρ x y) (hM : ρ.Matches w w) :
    Affirmed erased w y := by
  obtain ⟨c, c', w', hc, hr⟩ := h
  obtain ⟨b, d', v', -, hr', hb, -⟩ := hxy ρ c _ w w true c' w' le_rfl hM hc (vacant_place erased) hr (.inr rfl)
  obtain rfl := hb rfl
  exact ⟨_, d', v', vacant_place erased, hr'⟩

/-- What is answered later is answered now. -/
theorem Affirmed.now (hx : Steady erased ρ x) (hM : ρ.Matches w w) (hv : w ≤ v) {c c' : Comparer} {v' : World}
    (hc : Vacant (Comparer.vacant erased).place c) (hr : x c v = .ok ((true, c'), v')) : Affirmed erased w x := by
  obtain ⟨b, d', w', -, hr', hb, -⟩ := hx ρ c _ v w true c' v' le_rfl (hM.grow hv le_rfl) hc (vacant_place erased) hr
    (.inr rfl)
  obtain rfl := hb rfl
  exact ⟨_, d', w', vacant_place erased, hr'⟩

namespace Tells

theorem affirmed_iff (h : Tells erased w x P) : Affirmed erased w x ↔ P := by
  constructor
  · rintro ⟨c, c', w', hc, hr⟩
    obtain ⟨b, d, v, hr', -, -, hb⟩ := h w c le_rfl hc
    cases hr.symm.trans hr'
    exact hb.1 rfl
  · intro hP
    obtain ⟨b, d, v, hr, -, -, hb⟩ := h w _ le_rfl (vacant_place erased)
    obtain rfl := hb.2 hP
    exact ⟨_, d, v, vacant_place erased, hr⟩

theorem later (h : Tells erased w x P) (hv : w ≤ v) : Tells erased v x P := fun u c hu => h u c (hv.trans hu)

theorem congr (h : Tells erased w x P) (hPQ : P ↔ Q) : Tells erased w x Q := by
  intro v c hv hc
  obtain ⟨b, c', v', hr, hc', hle, hb⟩ := h v c hv hc
  exact ⟨b, c', v', hr, hc', hle, hb.trans hPQ⟩

theorem of_return {b : Bool} (h : b = true ↔ P) : Tells erased w (return b) P :=
  fun v c _ hc => ⟨b, c, v, rfl, hc, le_rfl, h⟩

theorem yes : Tells erased w (return true) True := .of_return (by simp)

theorem no : Tells erased w (return false) False := .of_return (by simp)

theorem orElse (hx : Tells erased w x P) (hy : Tells erased w y Q) : Tells erased w (x <||> y) (P ∨ Q) := by
  intro v c hv hc
  obtain ⟨b, c₁, v₁, hr, hc₁, hle, hb⟩ := hx v c hv hc
  cases b with
  | true => exact ⟨true, c₁, v₁, run_bind hr, hc₁, hle, by simp [hb.1 rfl]⟩
  | false =>
    obtain ⟨b', c', v', hr', hc', hle', hb'⟩ := hy v₁ c₁ (hv.trans hle) hc₁
    have hP : ¬ P := fun hP => nomatch hb.2 hP
    exact ⟨b', c', v', (run_bind hr).trans hr', hc', hle.trans hle', hb'.trans (or_iff_right hP).symm⟩

theorem andThen (hx : Tells erased w x P) (hy : Tells erased w y Q) : Tells erased w (x <&&> y) (P ∧ Q) := by
  intro v c hv hc
  obtain ⟨b, c₁, v₁, hr, hc₁, hle, hb⟩ := hx v c hv hc
  cases b with
  | false =>
    have hP : ¬ P := fun hP => nomatch hb.2 hP
    exact ⟨false, c₁, v₁, run_bind hr, hc₁, hle, by simp [hP]⟩
  | true =>
    obtain ⟨b', c', v', hr', hc', hle', hb'⟩ := hy v₁ c₁ (hv.trans hle) hc₁
    exact ⟨b', c', v', (run_bind hr).trans hr', hc', hle.trans hle', hb'.trans (and_iff_right (hb.1 rfl)).symm⟩

theorem ite {p : Prop} [Decidable p] (hx : p → Tells erased w x P) (hy : ¬ p → Tells erased w y P) :
    Tells erased w (if p then x else y) P := by
  split
  · next h => exact hx h
  · next h => exact hy h

/-- An alternative that is only tried under a condition. -/
theorem guarded {p : Prop} [Decidable p] (hx : p → Tells erased w x P) :
    Tells erased w (if p then x else return false) (p ∧ P) :=
  .ite (fun hp => (hx hp).congr (and_iff_right hp).symm) fun hp => no.congr (by simp [hp])

theorem world_bind {f : World → CompareM Bool} (hf : ∀ v, w ≤ v → Tells erased v (f v) P) :
    Tells erased w (world >>= f) P := fun v c hv hc => hf v hv v c le_rfl hc

end Tells

theorem orElse_assoc (x y z : CompareM Bool) : ((x <||> y) <||> z) = (x <||> y <||> z) := by
  show (x >>= _) >>= _ = x >>= _
  rw [bind_assoc]
  exact bind_congr fun b => by cases b <;> rfl

/-- What is asked last need not come to an end, as long as it does so in one world if it does in another. -/
theorem affirmed_orElse (hx : Tells erased w x P) (hy : Steady erased ρ y) (hM : ρ.Matches w w) :
    Affirmed erased w (x <||> y) ↔ P ∨ Affirmed erased w y := by
  constructor
  · rintro ⟨c, c', w', hc, hr⟩
    obtain ⟨b, c₁, v, hx', hrest⟩ := run_bind_ok hr
    obtain ⟨b', c₂, v', hr', hc₂, hle, hb⟩ := hx w c le_rfl hc
    cases hx'.symm.trans hr'
    cases b with
    | true => exact .inl (hb.1 rfl)
    | false => exact .inr (.now hy hM hle hc₂ hrest)
  · intro h
    obtain ⟨b, c, v, hr, hc, hle, hb⟩ := hx w _ le_rfl (vacant_place erased)
    cases b with
    | true => exact ⟨_, c, v, vacant_place erased, run_bind hr⟩
    | false =>
      obtain ⟨c', v', hr'⟩ := (h.resolve_left fun hP => nomatch hb.2 hP).run hy hM hle hc
      exact ⟨_, c', v', vacant_place erased, (run_bind hr).trans hr'⟩

/-- A computation that always ends tells its own answer. -/
theorem tells_of_ends (hend : AlwaysEnds (Comparer.vacant erased).place x) (hx : Steady erased ρ x)
    (hM : ρ.Matches w w) : Tells erased w x (Affirmed erased w x) := by
  intro v c hv hc
  obtain ⟨b, c', v', hr, hc', hle⟩ := hend.run hc v
  refine ⟨b, c', v', hr, hc', hle, fun hb => ?_, fun h => ?_⟩
  · subst hb
    exact .now hx hM hv hc hr
  · obtain ⟨d, u, hr'⟩ := h.run hx hM hv hc
    cases hr.symm.trans hr'
    rfl

/-- What answers the same from a comparer with nothing under inference says the same. -/
theorem affirmed_congr (h : ∀ c, Vacant (Comparer.vacant erased).place c → x c w = y c w) :
    Affirmed erased w x ↔ Affirmed erased w y := by
  constructor
  · rintro ⟨c, c', w', hc, hr⟩
    exact ⟨c, c', w', hc, (h c hc).symm.trans hr⟩
  · rintro ⟨c, c', w', hc, hr⟩
    exact ⟨c, c', w', hc, (h c hc).trans hr⟩

end Answers

/-! ## Looking up -/

section LookingUp

variable {erased : Bool} {ρ : Corr} {w w' : World} {S : World → Ty → Ty → Prop} {t u x : Ty} {m : WorldM Ty}
  (hS : Carried S S) (hM : ρ.Matches w w)
include hS hM

theorem tells_asking (ht : ρ.ty t t) (hu : ρ.ty u u) : Tells erased w (asking S t u) (S w t u) := by
  classical
  intro v c hv hc
  have hlater : ρ.Matches w v := hM.grow le_rfl hv
  have hnow : ρ.Matches v w := hM.grow hv le_rfl
  refine ⟨_, c, v, rfl, hc, le_rfl, ?_⟩
  rw [decide_eq_true_iff]
  exact ⟨hS ρ v w t t u u hnow ht hu, hS ρ w v t t u u hlater ht hu⟩

/-- The left side is worked out first. -/
theorem tells_asking_left (hgrow : Grows False m) (hsim : Sim False ρ Corr.ty m m) (hm : m w = .ok (x, w'))
    (hu : ρ.ty u u) : Tells erased w (do asking S (← m) u) (S w' x u) := by
  classical
  intro v c hv hc
  obtain ⟨y, v', hr, hle⟩ := hgrow.total v
  have hagree := hsim ρ w v le_rfl (hM.grow le_rfl hv)
  rw [hm, hr] at hagree
  obtain ⟨σ, hσ, hMσ, hxy⟩ := hagree
  refine ⟨decide (S v' y u), c, v', run_bind (run_lift hr c), hc, hle, ?_⟩
  rw [decide_eq_true_iff]
  exact ⟨hS σ.symm v' w' y x u u hMσ.symm hxy (hσ.ty hu), hS σ w' v' x y u u hMσ hxy (hσ.ty hu)⟩

end LookingUp

/-- A question about the world. -/
theorem tells_lift {erased : Bool} {ρ : Corr} {w : World} {m : WorldM Bool} (hM : ρ.Matches w w)
    (hgrow : Grows False m) (hsim : Sim False ρ Corr.equal m m) :
    Tells erased w (liftM m) (∃ v, m w = .ok (true, v)) := by
  intro v c hv hc
  obtain ⟨a, v', hr, hle⟩ := hgrow.total v
  obtain ⟨b, w', hr', -⟩ := hgrow.total w
  have hagree := hsim ρ w v le_rfl (hM.grow le_rfl hv)
  rw [hr, hr'] at hagree
  obtain ⟨_, _, _, rfl⟩ := hagree
  refine ⟨b, c, v', run_lift hr c, hc, hle, fun hb => ⟨w', hb ▸ hr'⟩, ?_⟩
  rintro ⟨u, hu⟩
  cases hr'.symm.trans hu
  rfl

/-! ## The clause for the source -/

/-- The source step of the cascade holds of `t` and `u`. -/
def Below (erased : Bool) (S : World → Ty → Ty → Prop) (w : World) (t u : Ty) : Prop :=
  Affirmed erased w (fourth (asking S) t u)

/-- Whether the shape stands for no other type, so that its kind alone is compared. -/
def isInert : Shape → Bool
  | .fixed _ | .var _ | .param _ | .method _ | .universal _ | .byName _ | .bounds .. | .classInfo .. => true
  | _ => false

theorem ends_fourth {q : Place} (S : World → Ty → Ty → Prop) (t u : Ty) : AlwaysEnds q (fourth (asking S) t u) := by
  have hask := fun a b => ends_looking (q := q) S a b
  refine .bind .world fun w => ?_
  split
  · refine .ite (.pure _) (.orElse (.ite (.lift (grows_nullConforms u)) (.pure _)) (.ite (.pure _) ?_))
    exact .bind (.lift (grows_upperBound t)) fun _ => hask _ _
  · exact hask _ _
  · exact .orElse (hask _ _) (hask _ _)
  · exact .andThen (hask _ _) (hask _ _)
  · exact .ite (.bind (.lift (grows_underlying t)) fun _ => hask _ _) (.pure _)

section Source

variable {erased : Bool} {ρ : Corr} {w w' : World} {S : World → Ty → Ty → Prop} {t u a b x : Ty} {s : Symbol}
  (hS : Carried S S) (hM : ρ.Matches w w) (ht : ρ.ty t t) (hu : ρ.ty u u)
include hS hM ht hu

theorem tells_fourth : Tells erased w (fourth (asking S) t u) (Below erased S w t u) :=
  tells_of_ends (ends_fourth S t u) (follows_fourth hS ht hu) hM

theorem below_refined {name : String} {info : Ty} (hshape : w.shape? t = some (.refined a name info)) :
    Below erased S w t u ↔ S w a u := by
  cases hM.parts ht hshape with | refined ha _ _ =>
  refine Tells.affirmed_iff (.world_bind fun v hv => ?_)
  rw [World.shape_of_shape? (hv.shape hshape)]
  exact (tells_asking hS hM ha hu).later hv

theorem below_inter (hshape : w.shape? t = some (.inter a b)) : Below erased S w t u ↔ S w a u ∨ S w b u := by
  cases hM.parts ht hshape with | inter ha hb =>
  refine Tells.affirmed_iff (.world_bind fun v hv => ?_)
  rw [World.shape_of_shape? (hv.shape hshape)]
  exact ((tells_asking hS hM ha hu).orElse (tells_asking hS hM hb hu)).later hv

theorem below_union (hshape : w.shape? t = some (.union a b)) : Below erased S w t u ↔ S w a u ∧ S w b u := by
  cases hM.parts ht hshape with | union ha hb =>
  refine Tells.affirmed_iff (.world_bind fun v hv => ?_)
  rw [World.shape_of_shape? (hv.shape hshape)]
  exact ((tells_asking hS hM ha hu).andThen (tells_asking hS hM hb hu)).later hv

theorem below_single {d : Shape} (hshape : w.shape? t = some d) (hd : d.isSingleton)
    (hunder : t.underlying w = .ok (x, w')) : Below erased S w t u ↔ S w' x u := by
  refine Tells.affirmed_iff (.world_bind fun v hv => ?_)
  have hask : Tells erased v (do asking S (← t.underlying) u) (S w' x u) :=
    (tells_asking_left hS hM (grows_underlying t) (sim_underlying ht) hunder hu).later hv
  rw [World.shape_of_shape? (hv.shape hshape)]
  cases d <;> first | exact hask | cases hd

/-- A name that is no class stands for its upper end; the bottom class and the null class have rules of their own. -/
theorem below_named (hshape : w.shape? t = some (.named a s)) (hupper : t.upperBound w = .ok (x, w')) :
    Below erased S w t u ↔ s = Builtin.nothing.symbol ∨
      (s = Builtin.null.symbol ∧ ∃ v, nullConforms u w = .ok (true, v)) ∨ (¬ w.decls.isClass s ∧ S w' x u) := by
  refine Tells.affirmed_iff (.world_bind fun v hv => ?_)
  rw [World.shape_of_shape? (hv.shape hshape)]
  have hnull : Tells erased v (liftM (nullConforms u)) (∃ v, nullConforms u w = .ok (true, v)) :=
    (tells_lift hM (grows_nullConforms u) (sim_nullConforms hu)).later hv
  have hask : Tells erased v (do asking S (← t.upperBound) u) (S w' x u) :=
    (tells_asking_left hS hM (grows_upperBound t) (sim_upperBound ht) hupper hu).later hv
  rw [← hv.decls]
  dsimp only
  by_cases hs : s = Builtin.nothing.symbol
  · rw [if_pos hs]
    exact Tells.yes.congr (by simp [hs])
  · rw [if_neg hs]
    refine Tells.congr (.orElse (.guarded fun _ => hnull) (.ite (P := ¬ v.decls.isClass s ∧ S w' x u) (fun hc => ?_)
      fun hc => ?_)) (by simp [hs])
    · exact Tells.no.congr (by simp [hc])
    · exact hask.congr (by simp [hc])

omit hS hM ht hu in
/-- What stands for no other type has no clause of its own. -/
theorem not_below {d : Shape} (hshape : w.shape? t = some d) (hd : isInert d) : ¬ Below erased S w t u := by
  refine (Tells.affirmed_iff (P := False) (.world_bind fun v hv => ?_)).1
  rw [World.shape_of_shape? (hv.shape hshape)]
  cases d <;> first | exact .no | cases hd

end Source

/-! ## The clauses for the target -/

/-- Whether a target of the first shape leaves a source of the second one to the source clause. -/
def leaves : Shape → Shape → Bool
  | .named .., _ | .path .., _ | .refined .., _ | .inter .., _ | .union .., _ => false
  | .method _, .method _ | .universal _, .universal _ | .byName _, .byName _ => false
  | .bounds .., .bounds .. | .bounds .., .classInfo .. => false
  | _, _ => true

section Target

variable {erased : Bool} {ρ : Corr} {w w' v : World} {S : World → Ty → Ty → Prop} {n : Nat} {t u a b x : Ty} {s : Symbol}
  {name : String} {sub : Ty → Ty → CompareM Bool}

theorem boundsParts?_later (hM : ρ.Matches w w) (hx : ρ.ty x x) (hv : w ≤ v) :
    v.boundsParts? x = w.boundsParts? x := by
  obtain ⟨d, -, hd, -, -⟩ := hM.ty hx
  simp only [World.boundsParts?, hd, hv.shape hd]

theorem boundsParts?_known (hM : ρ.Matches w w) (hx : ρ.ty x x) (hends : w.boundsParts? x = some (a, b)) :
    ρ.ty a a ∧ ρ.ty b b := by
  have hself := hM.boundsParts? hx
  rw [hends] at hself
  cases hself with | some h => exact h

theorem ends?_known (hM : ρ.Matches w w) (hu : ρ.ty u u) (hends : w.ends? u = some (a, b)) :
    ρ.ty a a ∧ ρ.ty b b := by
  have hself := hM.shape hu
  rw [World.ends?] at hends
  generalize w.shape u = d at hself hends
  cases hself with
  | named _ hs =>
    have hinfo := hM.info hs
    dsimp only at hends
    split at hends
    · cases hends
      exact ⟨hinfo, hinfo⟩
    · exact boundsParts?_known hM hinfo hends
    · exact boundsParts?_known hM hinfo hends
    · cases hends
  | path _ hs => exact boundsParts?_known hM (hM.info hs) hends
  | _ => cases hends

theorem nameParts?_known (hM : ρ.Matches w w) (ht : ρ.ty t t) {q : Ty} {k : Bool}
    (h : nameParts? (w.shape t) = some (q, s, k)) : ρ.ty q q := by
  have hself := nameParts?_related (hM.shape ht)
  rw [h] at hself
  cases hself with | some h => exact h.1

/-- The info of a name has the ends that the name stands for. -/
theorem boundsParts?_infoOf (hw : w.Standard) (hM : ρ.Matches w w) (hu : ρ.ty u u) (hv : w ≤ v) {v' : World}
    (hinfo : u.infoOf v = .ok (x, v')) : v'.boundsParts? x = w.ends? u := by
  have hdeclared : ∀ {s}, ρ.sym s → v.boundsParts? (w.decls.info s) = w.boundsParts? (w.decls.info s) :=
    fun hs => boundsParts?_later hM (hM.info hs) hv
  have habsent : v.boundsParts? .noType = none := by simp only [World.boundsParts?, hv.shape hw.absent]
  have hinterned : ∀ {d : Shape}, WorldM.intern d v = .ok (x, v') → v'.shape? x = some d := by
    intro d h
    cases h
    exact TypeTable.shape?_intern v.types d
  obtain ⟨d, -, hd, -, -⟩ := hM.ty hu
  have hself := hM.parts hu hd
  rw [Ty.infoOf, get_bind_run, World.shape_of_shape? (hv.shape hd), hv.decls] at hinfo
  rw [World.ends?, World.shape_of_shape? hd]
  cases hself with
  | @named q _ _ s hs =>
    dsimp only at hinfo ⊢
    generalize w.decls.kind? s = kind at hinfo ⊢
    cases kind with
    | none =>
      cases hinfo
      exact habsent
    | some kind =>
      cases kind with
      | value =>
        cases hinfo
        exact habsent
      | cls | synonym => simp only [World.boundsParts?, hinterned hinfo]
      | abstractType | typeParam =>
        cases hinfo
        exact hdeclared hs
  | path _ hs =>
    cases hinfo
    exact hdeclared hs
  | _ =>
    cases hinfo
    exact habsent

/-- A named target is asked for what its info says. -/
theorem thirdNamed_run (hw : w.Standard) (n : Nat) (sub : Ty → Ty → CompareM Bool) (t : Ty) (c : Comparer)
    (hM : ρ.Matches w w) (hu : ρ.ty u u) (hv : w ≤ v) : ∃ v', v ≤ v' ∧
    thirdNamed n sub t u c v = (match w.ends? u with
      | some (lo₂, _) => sub t lo₂ <||> fourth sub t u
      | none => (if targetSymbol w u = Builtin.singleton.symbol then WorldM.reading (·.isStable n t) else return false) <||>
        (if targetSymbol w u = Builtin.notNull.symbol then (t.isNotNull : WorldM Bool) else return false) <||>
        (if Builtin.isTrait (targetSymbol w u) then conformsAsConstructor n sub t u else return false) <||>
        fourth sub t u : CompareM Bool) c v' := by
  obtain ⟨i, v', hinfo, hle⟩ := (grows_infoOf u).total v
  refine ⟨v', hle, ?_⟩
  have hends := boundsParts?_infoOf hw hM hu hv hinfo
  have hsymbol : targetSymbol v' u = targetSymbol w u := by
    obtain ⟨d, -, hd, -, -⟩ := hM.ty hu
    simp only [targetSymbol, World.shape_of_shape? hd, World.shape_of_shape? ((hv.trans hle).shape hd)]
  unfold thirdNamed
  rw [run_bind (run_lift hinfo c), run_world_bind, hends]
  cases hends : w.ends? u with
  | some ends => rfl
  | none =>
    rw [← hsymbol]
    rfl

variable (hS : Carried S S) (hM : ρ.Matches w w) (ht : ρ.ty t t) (hu : ρ.ty u u)
include hS hM ht hu

theorem tells_third_inter (hshape : w.shape? u = some (.inter a b)) :
    Tells erased w (third n (asking S) t u) (S w t a ∧ S w t b) := by
  cases hM.parts hu hshape with | inter ha hb =>
  refine .world_bind fun v hv => ?_
  rw [World.shape_of_shape? (hv.shape hshape)]
  exact ((tells_asking hS hM ht ha).andThen (tells_asking hS hM ht hb)).later hv

theorem tells_third_union (hshape : w.shape? u = some (.union a b)) :
    Tells erased w (third n (asking S) t u) (S w t a ∨ S w t b ∨ Below erased S w t u) := by
  cases hM.parts hu hshape with | union ha hb =>
  refine .world_bind fun v hv => ?_
  rw [World.shape_of_shape? (hv.shape hshape)]
  exact ((tells_asking hS hM ht ha).orElse ((tells_asking hS hM ht hb).orElse (tells_fourth hS hM ht hu))).later hv

theorem tells_third_refined (hshape : w.shape? u = some (.refined a name x)) :
    Tells erased w (third n (asking S) t u)
      ((S w t a ∧ (name = Builtin.anyName ∨ w.MemberFits S t name x)) ∨ Below erased S w t u) := by
  cases hM.parts hu hshape with | refined ha _ hx =>
  obtain ⟨i, w', hi, -⟩ := (grows_member t name).total w
  have hmember : Tells erased w (do asking S (← t.member name) x) (w.MemberFits S t name x) := by
    refine (tells_asking_left hS hM (grows_member t name) (sim_member ht name) hi hx).congr ⟨fun h => ⟨i, w', hi, h⟩, ?_⟩
    rintro ⟨j, v, hj, h⟩
    cases hi.symm.trans hj
    exact h
  refine .world_bind fun v hv => ?_
  rw [World.shape_of_shape? (hv.shape hshape)]
  have hrest : Tells erased w (if name = Builtin.anyName then return true else do asking S (← t.member name) x)
      (name = Builtin.anyName ∨ w.MemberFits S t name x) :=
    .ite (fun h => Tells.yes.congr (by simp [h])) fun h => hmember.congr (by simp [h])
  exact (((tells_asking hS hM ht ha).andThen hrest).orElse (tells_fourth hS hM ht hu)).later hv

/-- Bounds are met from within. -/
theorem tells_third_bounds {lo hi lo' hi' : Ty} (hshape : w.shape? u = some (.bounds lo hi))
    (hshape' : w.shape? t = some (.bounds lo' hi')) :
    Tells erased w (third n (asking S) t u) (S w lo lo' ∧ S w hi' hi) := by
  cases hM.parts hu hshape with | bounds hlo hhi =>
  cases hM.parts ht hshape' with | bounds hlo' hhi' =>
  refine .world_bind fun v hv => ?_
  rw [World.shape_of_shape? (hv.shape hshape), World.shape_of_shape? (hv.shape hshape')]
  exact ((tells_asking hS hM hlo hlo').andThen (tells_asking hS hM hhi' hhi)).later hv

theorem tells_third_leaves {d e : Shape} (hd : w.shape? u = some d) (he : w.shape? t = some e) (h : leaves d e) :
    Tells erased w (third n (asking S) t u) (Below erased S w t u) := by
  refine .world_bind fun v hv => ?_
  rw [World.shape_of_shape? (hv.shape hd), World.shape_of_shape? (hv.shape he)]
  have hfourth : Tells erased v (fourth (asking S) t u) (Below erased S w t u) := (tells_fourth hS hM ht hu).later hv
  cases d <;> cases e <;> first | exact hfourth | cases h

/-- A name that stands for bounds is met through its lower end. -/
theorem tells_thirdNamed_ends (hw : w.Standard) (hends : w.ends? u = some (a, b)) :
    Tells erased w (thirdNamed n (asking S) t u) (S w t a ∨ Below erased S w t u) := by
  intro v c hv hc
  obtain ⟨v', hle, hrun⟩ := thirdNamed_run hw n (asking S) t c hM hu hv
  rw [hrun, hends]
  have hpair : Tells erased w (asking S t a <||> fourth (asking S) t u) (S w t a ∨ Below erased S w t u) :=
    (tells_asking hS hM ht (ends?_known hM hu hends).1).orElse (tells_fourth hS hM ht hu)
  obtain ⟨r, c', w', hr, hc', hle', hb⟩ := hpair v' c (hv.trans hle) hc
  exact ⟨r, c', w', hr, hc', hle.trans hle', hb⟩

omit hS hu in
theorem isStable_later {r : Bool} (hv : w ≤ v) : v.isStable n t = .ok r ↔ w.isStable n t = .ok r := by
  have hlater : SimRead False Eq (w.isStable n t) (v.isStable n t) :=
    simRead_isStable (hM.grow le_rfl hv) (.inr (Nat.le_refl n)) ht
  have hnow : SimRead False Eq (v.isStable n t) (w.isStable n t) :=
    simRead_isStable (hM.grow hv le_rfl) (.inr (Nat.le_refl n)) ht
  generalize w.isStable n t = x, v.isStable n t = y at hlater hnow ⊢
  cases x <;> cases y <;> simp_all [SimRead]

omit hS hu in
theorem openTypeParams_later {r : List Symbol} (hv : w ≤ v) :
    v.openTypeParams n t = .ok r ↔ w.openTypeParams n t = .ok r := by
  have hlater : SimRead False Eq (w.openTypeParams n t) (v.openTypeParams n t) :=
    simRead_openTypeParams (hM.grow le_rfl hv) (.inr (Nat.le_refl n)) ht
  have hnow : SimRead False Eq (v.openTypeParams n t) (w.openTypeParams n t) :=
    simRead_openTypeParams (hM.grow hv le_rfl) (.inr (Nat.le_refl n)) ht
  generalize w.openTypeParams n t = x, v.openTypeParams n t = y at hlater hnow ⊢
  cases x <;> cases y <;> simp_all [SimRead]

omit hS ht in
theorem typeArgs_later (hv : w ≤ v) : (∃ r, v.typeArgs n u = .ok r) ↔ ∃ r, w.typeArgs n u = .ok r := by
  have hlater : SimRead False ρ.tys (w.typeArgs n u) (v.typeArgs n u) :=
    simRead_typeArgs (hM.grow le_rfl hv) (.inr (Nat.le_refl n)) hu
  have hnow : SimRead False ρ.tys (v.typeArgs n u) (w.typeArgs n u) :=
    simRead_typeArgs (hM.grow hv le_rfl) (.inr (Nat.le_refl n)) hu
  generalize w.typeArgs n u = x, v.typeArgs n u = y at hlater hnow ⊢
  cases x <;> cases y <;> simp_all [SimRead]

theorem tells_conformsAsConstructor {params : List Symbol} {args : List Ty} (hparams : w.openTypeParams n t = .ok params)
    (hargs : w.typeArgs n u = .ok args) : Tells erased w (conformsAsConstructor n (asking S) t u)
      (Affirmed erased w (conformsAsConstructor n (asking S) t u)) := by
  have hsteady : Steady erased ρ (conformsAsConstructor n (asking S) t u) := follows_conformsAsConstructor hS ht hu
  intro v c hv hc
  obtain ⟨args', hargs'⟩ := (typeArgs_later hM hu hv).2 ⟨args, hargs⟩
  have hends := ends_conformsAsConstructor_asking (p := c.place) (s := c.constraint) (S := S)
    ((openTypeParams_later hM ht hv).2 hparams) hargs'
  obtain ⟨r, c', v', hr, hp, hle, hstore⟩ := hends c ⟨rfl, rfl⟩
  have hc' : Vacant (Comparer.vacant erased).place c' := ⟨hp.trans hc.place, hstore ▸ hc.store⟩
  refine ⟨r, c', v', hr, hc', hle, fun h => ?_, fun h => ?_⟩
  · subst h
    exact .now hsteady hM hv hc hr
  · obtain ⟨d, u', hr'⟩ := h.run hsteady hM hv hc
    cases hr.symm.trans hr'
    rfl

/-- A name without bounds is met through the markers, through the rule for traits, or by the source. -/
theorem tells_thirdNamed_none (hw : w.Standard) (hends : w.ends? u = none) (hread : Readable n w t u) :
    Tells erased w (thirdNamed n (asking S) t u)
      ((targetSymbol w u = Builtin.singleton.symbol ∧ w.isStable n t = .ok true) ∨
        (targetSymbol w u = Builtin.notNull.symbol ∧ ∃ v, t.isNotNull w = .ok (true, v)) ∨
        (Builtin.isTrait (targetSymbol w u) ∧ Affirmed erased w (conformsAsConstructor n (asking S) t u)) ∨
        Below erased S w t u) := by
  intro v c hv hc
  obtain ⟨v', hle, hrun⟩ := thirdNamed_run hw n (asking S) t c hM hu hv
  have hstable : targetSymbol w u = Builtin.singleton.symbol →
      Tells erased w (liftM (WorldM.reading (·.isStable n t))) (w.isStable n t = .ok true) := by
    intro hs v c hv hc
    obtain ⟨r, hr⟩ := hread.stable hs
    refine ⟨r, c, v, run_lift (reading_run ((isStable_later hM ht hv).2 hr)) c, hc, le_rfl, ?_⟩
    simp [hr]
  have hconstructor : Builtin.isTrait (targetSymbol w u) → Tells erased w (conformsAsConstructor n (asking S) t u)
      (Affirmed erased w (conformsAsConstructor n (asking S) t u)) := by
    intro hs
    obtain ⟨params, args, hparams, hargs⟩ := hread.constructor hs
    exact tells_conformsAsConstructor hS hM ht hu hparams hargs
  have hnotNull : Tells erased w (liftM t.isNotNull) (∃ v, t.isNotNull w = .ok (true, v)) :=
    tells_lift hM (grows_isNotNull t) (sim_isNotNull ht)
  have hfourth : Tells erased w (fourth (asking S) t u) (Below erased S w t u) := tells_fourth hS hM ht hu
  have hchain (s : Symbol) (hs : s = targetSymbol w u) := Tells.orElse
    (.guarded (p := s = Builtin.singleton.symbol) fun h => hstable (hs ▸ h))
    (.orElse (.guarded (p := s = Builtin.notNull.symbol) fun _ => hnotNull)
      (.orElse (.guarded (p := Builtin.isTrait s = true) fun h => hconstructor (hs ▸ h)) hfourth))
  obtain ⟨r, c', w', hr, hc', hle', hb⟩ := hchain _ rfl v' c (hv.trans hle) hc
  rw [hrun, hends]
  exact ⟨r, c', w', hr, hc', hle.trans hle', hb⟩

omit hS ht in
/-- A name without bounds that is met has taken its readings. -/
theorem readable_of_affirmed (hw : w.Standard) (hends : w.ends? u = none)
    (h : Affirmed erased w (thirdNamed n (asking S) t u)) (ht : ρ.ty t t) : Readable n w t u := by
  obtain ⟨c, c', w', -, hr⟩ := h
  obtain ⟨i, v, hinfo, hle⟩ := (grows_infoOf u).total w
  have hbounds := (boundsParts?_infoOf hw hM hu le_rfl hinfo).trans hends
  have hread := readable_of_run hinfo hbounds hr
  have hsymbol : targetSymbol v u = targetSymbol w u := by
    obtain ⟨d, -, hd, -, -⟩ := hM.ty hu
    simp only [targetSymbol, World.shape_of_shape? hd, World.shape_of_shape? (hle.shape hd)]
  refine ⟨fun hs => ?_, fun hs => ?_⟩
  · obtain ⟨r, hr⟩ := hread.stable (hsymbol.trans hs)
    exact ⟨r, (isStable_later hM ht hle).1 hr⟩
  · obtain ⟨params, args, hparams, hargs⟩ := hread.constructor (hsymbol ▸ hs)
    obtain ⟨args', hargs'⟩ := (typeArgs_later hM hu hle).1 ⟨args, hargs⟩
    exact ⟨params, args', (openTypeParams_later hM ht hle).1 hparams, hargs'⟩

omit hS hu in
theorem shape_later (hv : w ≤ v) : v.shape t = w.shape t := by
  obtain ⟨d, -, hd, -, -⟩ := hM.ty ht
  rw [World.shape_of_shape? hd, World.shape_of_shape? (hv.shape hd)]

/-- References to one symbol are told apart by their prefixes, unless it is static or types are erased. -/
theorem tells_names_same {q₁ q₂ : Ty} {k₁ k₂ : Bool} (h₁ : nameParts? (w.shape t) = some (q₁, s, k₁))
    (h₂ : nameParts? (w.shape u) = some (q₂, s, k₂)) :
    Tells erased w (names n (asking S) t u) (erased = true ∨ w.decls.isStatic s ∨ S w q₁ q₂) := by
  refine .world_bind fun v hv => ?_
  rw [shape_later hM ht hv, shape_later hM hu hv, h₁, h₂, hv.decls]
  have hpre : Tells erased w (asking S q₁ q₂) (S w q₁ q₂) :=
    tells_asking hS hM (nameParts?_known hM ht h₁) (nameParts?_known hM hu h₂)
  intro v' c hv' hc
  have hoptions : c.options.erasedTypes = erased := congrArg (·.options.erasedTypes) hc.place
  show ∃ b c' v'', (if s = s then get >>= fun c => if c.options.erasedTypes || w.decls.isStatic s then return true
    else asking S q₁ q₂ else _ : CompareM Bool) c v' = _ ∧ _
  rw [if_pos rfl, run_get_bind, hoptions]
  cases hcond : erased || w.decls.isStatic s with
  | true =>
    refine ⟨true, c, v', rfl, hc, le_rfl, iff_of_true rfl ?_⟩
    rw [Bool.or_eq_true] at hcond
    exact hcond.imp_right .inl
  | false =>
    obtain ⟨he, hs⟩ := Bool.or_eq_false_iff.1 hcond
    obtain ⟨b, c', v'', hr, hc', hle, hb⟩ := hpre v' c (hv.trans hv') hc
    exact ⟨b, c', v'', hr, hc', hle, hb.trans (by simp [he, hs])⟩

theorem tells_base {cls : Symbol} : Tells erased w (do
      let base ← Ty.baseType t cls
      if base.present && base ≠ t then asking S base u else return false) (w.BaseFits S t cls u) := by
  classical
  intro v c hv hc
  obtain ⟨base, w', hbase, -⟩ := (grows_baseType t cls).total w
  obtain ⟨base', v', hbase', hle⟩ := (grows_baseType t cls).total v
  have hsim : Sim False ρ Corr.ty (t.baseType cls) (t.baseType cls) := sim_baseType ht cls
  have hagree := hsim ρ w v le_rfl (hM.grow le_rfl hv)
  rw [hbase, hbase'] at hagree
  obtain ⟨σ, hσ, hMσ, hpair⟩ := hagree
  have hcond : (base'.present && decide (base' ≠ t)) = (base.present && decide (base ≠ t)) := by
    simp only [hMσ.present hpair, ne_eq, hMσ.ty_inj hpair (hσ.ty ht)]
  have hS' : S v' base' u ↔ S w' base u :=
    ⟨hS σ.symm v' w' base' base u u hMσ.symm hpair (hσ.ty hu), hS σ w' v' base base' u u hMσ hpair (hσ.ty hu)⟩
  rw [run_bind (run_lift hbase' c), hcond]
  cases hb : base.present && decide (base ≠ t) with
  | false =>
    refine ⟨false, c, v', rfl, hc, hle, iff_of_false nofun ?_⟩
    rintro ⟨b, v, hr, hp, hne, -⟩
    cases hbase.symm.trans hr
    simp [hp, hne] at hb
  | true =>
    rw [Bool.and_eq_true, decide_eq_true_iff] at hb
    refine ⟨decide (S v' base' u), c, v', rfl, hc, hle, ?_⟩
    rw [decide_eq_true_iff, hS']
    constructor
    · exact fun h => ⟨base, w', hbase, hb.1, hb.2, h⟩
    · rintro ⟨b, v, hr, -, -, h⟩
      cases hbase.symm.trans hr
      exact h

/-- References to different symbols are compared by their names, then by the base type, and then as other types are. -/
theorem affirmed_names_other {q₁ q₂ : Ty} {s₁ s₂ : Symbol} {k₁ k₂ : Bool}
    (h₁ : nameParts? (w.shape t) = some (q₁, s₁, k₁)) (h₂ : nameParts? (w.shape u) = some (q₂, s₂, k₂))
    (hne : s₁ ≠ s₂) : Affirmed erased w (names n (asking S) t u) ↔
      ((k₁ = k₂ ∧ w.decls.name s₁ = w.decls.name s₂) ∧ S w q₁ q₂) ∨ (w.decls.isClass s₂ ∧ w.BaseFits S t s₂ u) ∨
        Affirmed erased w (thirdNamed n (asking S) t u) := by
  have hpre : Tells erased w (asking S q₁ q₂) (S w q₁ q₂) :=
    tells_asking hS hM (nameParts?_known hM ht h₁) (nameParts?_known hM hu h₂)
  have hsteady : Steady erased ρ (thirdNamed n (asking S) t u) := follows_thirdNamed hS ht hu
  have hbase : Tells erased w (if w.decls.isClass s₂ then do
      let base ← Ty.baseType t s₂
      if base.present && base ≠ t then asking S base u else return false
    else return false) (w.decls.isClass s₂ ∧ w.BaseFits S t s₂ u) := .guarded fun _ => tells_base hS hM ht hu
  have hrun (c : Comparer) : names n (asking S) t u c w =
      (((if k₁ = k₂ ∧ w.decls.name s₁ = w.decls.name s₂ then asking S q₁ q₂ else return false) <||>
        (if w.decls.isClass s₂ then do
            let base ← Ty.baseType t s₂
            if base.present && base ≠ t then asking S base u else return false
          else return false)) <||> thirdNamed n (asking S) t u : CompareM Bool) c w := by
    rw [orElse_assoc]
    unfold names
    rw [run_world_bind, h₁, h₂]
    show (if s₁ = s₂ then _ else _ : CompareM Bool) c w = _
    rw [if_neg hne]
  rw [affirmed_congr fun c _ => hrun c, affirmed_orElse (.orElse (.guarded fun _ => hpre) hbase) hsteady hM, or_assoc]

end Target

/-! ## Holding -/

/-- What a shape is compared as: placeholders and inference variables are dealt with before the other side is looked
at. -/
def intercepts : Shape → Bool
  | .fixed .wildcard | .fixed .error | .var _ => true
  | _ => false

/-- The placeholder and what an earlier failure left behind. -/
def isHole : Shape → Bool
  | .fixed .wildcard | .fixed .error => true
  | _ => false

theorem currentBounds_vacant {p : Place} {c : Comparer} (hc : Vacant p c) (x : Param) (w : World) :
    currentBounds x c w = .ok ((none, c), w) := by
  have hbounds : c.constraint.bounds? x = none := by
    rw [ConstraintStore.bounds?, ConstraintStore.slots?, InsertionMap.find?, hc.store]
    rfl
  rw [currentBounds_run, hbounds]
  rfl

section Runs

variable {p : Place} {c : Comparer} {w : World} {n : Nat} {sub : Ty → Ty → CompareM Bool} {t u : Ty}

theorem second_run_third (hc : Vacant p c) (ht : intercepts (w.shape t) = false) :
    second n sub t u c w = third n sub t u c w := by
  unfold second
  rw [run_world_bind]
  generalize w.shape t = d at ht ⊢
  cases d with
  | fixed k => cases k <;> first | rfl | cases ht
  | var v => cases ht
  | param x => exact run_bind (currentBounds_vacant hc x w)
  | _ => rfl

theorem first_run_second (hc : Vacant p c) (hu : intercepts (w.shape u) = false)
    (hnames : ((w.shape t).isNamed && (w.shape u).isNamed) = false) :
    first n sub t u c w = second n sub t u c w := by
  unfold first
  rw [run_world_bind]
  generalize w.shape u = d at hu hnames ⊢
  cases d with
  | fixed k => cases k <;> first | rfl | cases hu
  | var v => cases hu
  | param x => exact run_bind (currentBounds_vacant hc x w)
  | named | path =>
    have hnot : (w.shape t).isNamed = false := (Bool.and_true _).symm.trans hnames
    simp only [hnot]
    rfl
  | _ => rfl

theorem first_run_names (ht : (w.shape t).isNamed) (hu : (w.shape u).isNamed) :
    first n sub t u c w = names n sub t u c w := by
  unfold first
  rw [run_world_bind]
  generalize w.shape u = d at hu ⊢
  cases d <;> first | (simp only [ht]; rfl) | cases hu

end Runs

section Holding

variable {erased : Bool} {ρ : Corr} {w w' : World} {S : World → Ty → Ty → Prop} {n : Nat} {t u a b x : Ty} {i : VarId}
  (hS : Carried S S) (hM : ρ.Matches w w) (ht : ρ.ty t t) (hu : ρ.ty u u)
include hS hM ht hu

theorem holds_iff : Holds erased S w t u ↔ ∃ n, Affirmed erased w (first n (asking S) t u) := by
  constructor
  · rintro ⟨n, c, w', hr⟩
    exact ⟨n, _, c, w', vacant_place erased, hr⟩
  · rintro ⟨n, h⟩
    obtain ⟨σ, hM, ht, hu, hopens⟩ := hM.exists_opensFor ht hu
    obtain ⟨c, w', hr⟩ := h.run (follows_first hS id hopens ht hu) hM le_rfl (vacant_place erased)
    exact ⟨n, c, w', hr⟩

theorem holds_hole_right (h : isHole (w.shape u)) : Holds erased S w t u := by
  refine (holds_iff hS hM ht hu).2 ⟨0, Tells.affirmed_iff (P := True) ?_ |>.2 trivial⟩
  intro v c hv hc
  have hshape : v.shape u = w.shape u := by
    obtain ⟨d, -, hd, -, -⟩ := hM.ty hu
    rw [World.shape_of_shape? hd, World.shape_of_shape? (hv.shape hd)]
  refine ⟨true, c, v, ?_, hc, le_rfl, by simp⟩
  unfold first
  rw [run_world_bind, hshape]
  generalize w.shape u = d at h ⊢
  cases d with
  | fixed k => cases k <;> first | rfl | cases h
  | _ => cases h

theorem holds_var_right (h : w.shape? u = some (.var i)) : Holds erased S w t u ↔ S w t (w.varUnderlying i) := by
  have hask (n : Nat) : Tells erased w (first n (asking S) t u) (S w t (w.varUnderlying i)) := by
    refine .world_bind fun v hv => ?_
    rw [World.shape_of_shape? (hv.shape h)]
    show Tells erased v (asking S t (v.varUnderlying i)) _
    rw [World.varUnderlying_later hv]
    exact (tells_asking hS hM ht (hM.held hu h)).later hv
  rw [holds_iff hS hM ht hu]
  exact ⟨fun ⟨n, h⟩ => (hask n).affirmed_iff.1 h, fun h => ⟨0, (hask 0).affirmed_iff.2 h⟩⟩

theorem holds_second (hnot : intercepts (w.shape u) = false)
    (hnames : ((w.shape t).isNamed && (w.shape u).isNamed) = false) :
    Holds erased S w t u ↔ ∃ n, Affirmed erased w (second n (asking S) t u) := by
  rw [holds_iff hS hM ht hu]
  exact exists_congr fun n => affirmed_congr fun c hc => first_run_second hc hnot hnames

theorem holds_hole_left (h : isHole (w.shape t)) (hnot : intercepts (w.shape u) = false) : Holds erased S w t u := by
  have hnames : ((w.shape t).isNamed && (w.shape u).isNamed) = false := by
    generalize w.shape t = d at h
    cases d <;> first | rfl | cases h
  refine (holds_second hS hM ht hu hnot hnames).2 ⟨0, _, .vacant erased, w, vacant_place erased, ?_⟩
  unfold second
  rw [run_world_bind]
  generalize w.shape t = d at h ⊢
  cases d with
  | fixed k => cases k <;> first | rfl | cases h
  | _ => cases h

theorem holds_var_left (h : w.shape? t = some (.var i)) (hnot : intercepts (w.shape u) = false) :
    Holds erased S w t u ↔ S w (w.varUnderlying i) u := by
  have hask (n : Nat) : Tells erased w (second n (asking S) t u) (S w (w.varUnderlying i) u) := by
    refine .world_bind fun v hv => ?_
    rw [World.shape_of_shape? (hv.shape h)]
    show Tells erased v (asking S (v.varUnderlying i) u) _
    rw [World.varUnderlying_later hv]
    exact (tells_asking hS hM (hM.held ht h) hu).later hv
  rw [holds_second hS hM ht hu hnot (by rw [World.shape_of_shape? h]; rfl)]
  exact ⟨fun ⟨n, h⟩ => (hask n).affirmed_iff.1 h, fun h => ⟨0, (hask 0).affirmed_iff.2 h⟩⟩

theorem holds_third (hnot : intercepts (w.shape u) = false) (hnot' : intercepts (w.shape t) = false)
    (hnames : ((w.shape t).isNamed && (w.shape u).isNamed) = false) :
    Holds erased S w t u ↔ ∃ n, Affirmed erased w (third n (asking S) t u) := by
  rw [holds_second hS hM ht hu hnot hnames]
  exact exists_congr fun n => affirmed_congr fun c hc => second_run_third hc hnot'

theorem holds_names (ht' : (w.shape t).isNamed) (hu' : (w.shape u).isNamed) :
    Holds erased S w t u ↔ ∃ n, Affirmed erased w (names n (asking S) t u) := by
  rw [holds_iff hS hM ht hu]
  exact exists_congr fun n => affirmed_congr fun c hc => first_run_names ht' hu'

/-- A clause that comes to an end whatever the allowance decides. -/
theorem holds_of_tells {P : Prop} (hnot : intercepts (w.shape u) = false) (hnot' : intercepts (w.shape t) = false)
    (hnames : ((w.shape t).isNamed && (w.shape u).isNamed) = false)
    (h : ∀ n, Tells erased w (third n (asking S) t u) P) : Holds erased S w t u ↔ P := by
  rw [holds_third hS hM ht hu hnot hnot' hnames]
  exact ⟨fun ⟨n, ha⟩ => (h n).affirmed_iff.1 ha, fun hP => ⟨0, (h 0).affirmed_iff.2 hP⟩⟩

theorem holds_named (hu' : (w.shape u).isNamed) (ht' : (w.shape t).isNamed = false)
    (hnot : intercepts (w.shape t) = false) :
    Holds erased S w t u ↔ ∃ n, Affirmed erased w (thirdNamed n (asking S) t u) := by
  have hnot' : intercepts (w.shape u) = false := by
    generalize w.shape u = d at hu'
    cases d <;> first | rfl | cases hu'
  rw [holds_third hS hM ht hu hnot' hnot (by rw [ht']; rfl)]
  refine exists_congr fun n => affirmed_congr fun c _ => ?_
  unfold third
  rw [run_world_bind]
  generalize w.shape u = d at hu'
  cases d <;> first | rfl | cases hu'

omit hS hM ht hu in
/-- The readings that a named target takes of the source come to an end if the test for stability does. -/
theorem exists_readable (hstable : targetSymbol w u = Builtin.singleton.symbol →
    ∃ k r, ∀ n, k ≤ n → w.isStable n t = .ok r) : ∃ n, Readable n w t u := by
  obtain ⟨params, hparams⟩ := w.openTypeParams_finishes t
  obtain ⟨args, hargs⟩ := w.typeArgs_finishes u
  by_cases hs : targetSymbol w u = Builtin.singleton.symbol
  · obtain ⟨k, r, hr⟩ := hstable hs
    refine ⟨max k (Limits.walkDepth.toNat + 1), fun _ => ⟨r, hr _ (Nat.le_max_left _ _)⟩, fun _ => ?_⟩
    exact ⟨params, args, hparams _ (Nat.le_max_right _ _), hargs _ (Nat.le_max_right _ _)⟩
  · exact ⟨_, fun h => absurd h hs, fun _ => ⟨params, args, hparams _ (Nat.le_refl _), hargs _ (Nat.le_refl _)⟩⟩

/-- The source clause is the last resort of names. -/
theorem affirmed_thirdNamed_of_below (hw : w.Standard)
    (hstable : targetSymbol w u = Builtin.singleton.symbol → ∃ k r, ∀ n, k ≤ n → w.isStable n t = .ok r)
    (h : Below erased S w t u) : ∃ n, Affirmed erased w (thirdNamed n (asking S) t u) := by
  match hends : w.ends? u with
  | some (lo, hi) => exact ⟨0, (tells_thirdNamed_ends hS hM ht hu hw hends).affirmed_iff.2 (.inr h)⟩
  | none =>
    obtain ⟨n, hread⟩ := exists_readable hstable
    exact ⟨n, (tells_thirdNamed_none hS hM ht hu hw hends hread).affirmed_iff.2 (.inr (.inr (.inr h)))⟩

/-- **The source clause is the last resort of every target** but intersections, variables and, for names, references. -/
theorem holds_of_below (hw : w.Standard) (hnot : intercepts (w.shape u) = false)
    (hinter : ∀ a b, w.shape? u ≠ some (.inter a b))
    (hnames : ((w.shape t).isNamed && (w.shape u).isNamed) = false)
    (hstable : targetSymbol w u = Builtin.singleton.symbol → ∃ k r, ∀ n, k ≤ n → w.isStable n t = .ok r)
    (h : Below erased S w t u) : Holds erased S w t u := by
  obtain ⟨d, -, hd, -, -⟩ := hM.ty ht
  obtain ⟨e, -, he, -, -⟩ := hM.ty hu
  have hsource : isInert d = false := Bool.eq_false_iff.2 fun hinert => not_below hd hinert h
  have hnot' : intercepts (w.shape t) = false := by
    rw [World.shape_of_shape? hd]
    cases d <;> first | rfl | cases hsource
  by_cases hnamed : (w.shape u).isNamed
  · have ht' : (w.shape t).isNamed = false := by simpa [hnamed] using hnames
    exact (holds_named hS hM ht hu hnamed ht' hnot').2 (affirmed_thirdNamed_of_below hS hM ht hu hw hstable h)
  · have hthird : ∃ P, (Below erased S w t u → P) ∧ ∀ n, Tells erased w (third n (asking S) t u) P := by
      rw [World.shape_of_shape? he] at hnamed
      cases e with
      | named | path => exact absurd rfl hnamed
      | inter a b => exact absurd he (hinter a b)
      | refined => exact ⟨_, Or.inr, fun n => tells_third_refined hS hM ht hu he⟩
      | union => exact ⟨_, fun h => Or.inr (Or.inr h), fun n => tells_third_union hS hM ht hu he⟩
      | _ =>
        refine ⟨_, id, fun n => tells_third_leaves hS hM ht hu he hd ?_⟩
        cases d <;> first | rfl | cases hsource
    obtain ⟨P, hP, htells⟩ := hthird
    exact (holds_of_tells hS hM ht hu hnot hnot' hnames htells).2 (hP h)

end Holding

end CompareM

/-- Types that conform are equal or conform by a step of the cascade. -/
theorem conforms_iff {erased : Bool} {ρ : Corr} {w : World} {t u : Ty} (hM : ρ.Matches w w) (ht : ρ.ty t t)
    (hu : ρ.ty u u) : Conforms erased w t u ↔ t.present ∧ u.present ∧ (t = u ∨ Holds erased (Conforms erased) w t u) := by
  constructor
  · exact fun h => ⟨h.present.1, h.present.2, h.unfold hM ht hu⟩
  · rintro ⟨hpt, hpu, rfl | h⟩
    · exact .refl hpt
    · exact .step _ hpt hpu (fun _ _ _ => id) h

end Conformance
