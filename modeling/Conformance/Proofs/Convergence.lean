import Conformance.Proofs.Trees
import Conformance.Proofs.Twins

/-!
# Comparisons with a large enough allowance

`CompareM.Converges` is the logic of comparisons that come to an end. It follows a family of runs at once: one without a
limit on the nested levels, which may be watched for faults, and one for each limit, all of them with every allowance.
A family converges if, unless the watched run ends in a fault, all its runs with a large enough limit and allowance end
alike, in a founded world. There is one lemma for each function of the cascade: if nested comparisons converge from all
founded worlds, so does the function. What the cascade computes on types comes to an end there, since types are finite
trees and the tests for stability end.
-/

namespace Conformance

open World (Finite Founded trees)

/-- All slots hold finite trees. -/
def World.Stocks (w : World) (S : ConstraintStore) : Prop :=
  ∀ b slots, S.slots? b = some slots → ∀ t ∈ slots, w.Finite (.ty t)

theorem World.Stocks.grow {w w' : World} {S : ConstraintStore} (h : w.Stocks S) (hle : w ≤ w') : w'.Stocks S :=
  fun b slots hslots t ht => (h b slots hslots t ht).grow hle

theorem World.Stocks.insert {w : World} {S : ConstraintStore} (h : w.Stocks S) {b : BinderId} {slots : List Ty}
    (hslots : S.slots? b = some slots) {t : Ty} (ht : w.Finite (.ty t)) (i n : Nat) :
    w.Stocks ⟨S.slots.insert b (slots.set i t), n⟩ := by
  intro b' slots' hslots' u hu
  simp only [ConstraintStore.slots?, InsertionMap.find?_insert] at hslots'
  split at hslots'
  · obtain rfl := Option.some.inj hslots'
    rcases List.mem_or_eq_of_mem_set hu with hu | rfl
    · exact h b slots hslots u hu
    · exact ht
  · exact h b' slots' hslots' u hu

namespace CompareM

/-- The runs of a computation: without a limit on the nested levels or within one, with each allowance. -/
abbrev Family (α : Type) := Option Nat → Nat → CompareM α

/-- The limit, if there is one, lets in `levels` nested levels. -/
def Lets (levels : Nat) (limit : Option Nat) : Prop := ∀ l ∈ limit, levels ≤ l

section

variable {α β : Type} {levels : Nat} {p q r : Place} {w w₀ : World} {P : World → α → Prop} {Q : World → β → Prop}
  {F : Family α}

/-- From comparers that stand at `p` in founded worlds beyond `w₀`, unless the runs without a limit go on to end in a
fault, the runs that let in `levels` nested levels come to one end: at `q`, in a founded world, with a result that
has `P`. -/
def Converges (levels : Nat) (p q : Place) (w₀ : World) (P : World → α → Prop) (F : Family α) : Prop :=
  ∀ c w, w₀ ≤ w → w.Founded → Stands w.Stocks p c → (∃ k, ∀ n, k ≤ n → ∀ f, F none n c w ≠ .error (.fault f)) →
    ∃ k x c' w', w ≤ w' ∧ w'.Founded ∧ Stands w'.Stocks q c' ∧ P w' x ∧
      ∀ n, k ≤ n → ∀ limit, Lets levels limit → F limit n c w = .ok ((x, c'), w')

/-- `Converges` of a question. -/
abbrev Concludes (levels : Nat) (p : Place) (w₀ : World) (F : Family Bool) : Prop :=
  Converges levels p p w₀ (fun _ _ => True) F

theorem run_bind_error {m : CompareM α} {f : α → CompareM β} {e : Halt} {c : Comparer} (h : m c w = .error e) :
    (m >>= f) c w = .error e := by
  show Except.bind (m c w) _ = _
  rw [h]
  rfl

theorem Stands.grow {c : Comparer} {w' : World} (hc : Stands w.Stocks p c) (hle : w ≤ w') : Stands w'.Stocks p c :=
  ⟨hc.place, hc.store.grow hle⟩

theorem Converges.later (hF : Converges levels p q w₀ P F) (hle : w₀ ≤ w) : Converges levels p q w P F :=
  fun c w' hle' => hF c w' (le_trans hle hle')

theorem Converges.pure {x : α} (hx : ∀ w, w₀ ≤ w → P w x) : Converges levels p p w₀ P fun _ _ => pure x :=
  fun c w hle hw hc _ => ⟨0, x, c, w, le_rfl, hw, hc, hx w hle, fun _ _ _ _ => rfl⟩

theorem Converges.done (answer : Bool) : Concludes levels p w₀ fun _ _ => Pure.pure answer := .pure fun _ _ => trivial

theorem Converges.bind {G : Option Nat → Nat → α → CompareM β} (hF : Converges levels p q w₀ P F)
    (hG : ∀ w x, w₀ ≤ w → w.Founded → P w x → Converges levels q r w Q fun limit n => G limit n x) :
    Converges levels p r w₀ Q fun limit n => F limit n >>= G limit n := by
  intro c w hle hw hc ⟨k₀, hfault⟩
  obtain ⟨k₁, x, c₁, w₁, hle₁, hw₁, hc₁, hx, hrun₁⟩ :=
    hF c w hle hw hc ⟨k₀, fun n hn f h => hfault n hn f (run_bind_error h)⟩
  have hnone : ∀ l ∈ (none : Option Nat), levels ≤ l := fun _ h => nomatch h
  -- Where the second part starts is known from `k₁` on, and only from there on are its faults ruled out.
  obtain ⟨k₂, y, c₂, w₂, hle₂, hw₂, hc₂, hy, hrun₂⟩ :=
    hG w₁ x (le_trans hle hle₁) hw₁ hx c₁ w₁ le_rfl hw₁ hc₁ ⟨max k₀ k₁, fun n hn f h =>
      hfault n (Nat.le_trans (Nat.le_max_left ..) hn) f
        ((run_bind (hrun₁ n (Nat.le_trans (Nat.le_max_right ..) hn) none hnone)).trans h)⟩
  refine ⟨max k₁ k₂, y, c₂, w₂, le_trans hle₁ hle₂, hw₂, hc₂, hy, fun n hn limit hlimit => ?_⟩
  exact (run_bind (hrun₁ n (Nat.le_trans (Nat.le_max_left ..) hn) limit hlimit)).trans
    (hrun₂ n (Nat.le_trans (Nat.le_max_right ..) hn) limit hlimit)

theorem Converges.ite {φ : Prop} [Decidable φ] {G : Family α} (hF : φ → Converges levels p q w₀ P F)
    (hG : ¬ φ → Converges levels p q w₀ P G) :
    Converges levels p q w₀ P fun limit n => if φ then F limit n else G limit n := by
  split
  · next hφ => exact hF hφ
  · next hφ => exact hG hφ

theorem Converges.orElse {F G : Family Bool} (hF : Concludes levels p w₀ F) (hG : Concludes levels p w₀ G) :
    Concludes levels p w₀ fun limit n => F limit n <||> G limit n :=
  .bind hF fun _ b hle _ _ => by cases b <;> [exact hG.later hle; exact .done _]

theorem Converges.andThen {F G : Family Bool} (hF : Concludes levels p w₀ F) (hG : Concludes levels p w₀ G) :
    Concludes levels p w₀ fun limit n => F limit n <&&> G limit n :=
  .bind hF fun _ b hle _ _ => by cases b <;> [exact .done _; exact hG.later hle]

theorem Converges.mapM {f : Option Nat → Nat → β → CompareM α} (hP : ∀ w w' x, w ≤ w' → P w x → P w' x) {l : List β}
    (hf : ∀ y ∈ l, Converges levels p p w₀ P fun limit n => f limit n y) :
    Converges levels p p w₀ (fun w xs => ∀ x ∈ xs, P w x) fun limit n => l.mapM (f limit n) := by
  induction l generalizing w₀ with
  | nil => simpa only [List.mapM_nil] using .pure fun _ _ _ hx => nomatch hx
  | cons y l ih =>
    simp only [List.mapM_cons]
    refine .bind (hf y (by simp)) fun w₁ x hle₁ _ hx => ?_
    refine .bind (ih fun y hy => (hf y (by simp [hy])).later hle₁) fun w₂ xs hle₂ _ hxs => ?_
    exact .pure fun w hle => by simpa using ⟨hP _ _ _ (le_trans hle₂ hle) hx, fun x hx => hP _ _ _ hle (hxs x hx)⟩

theorem Converges.allM {f : Option Nat → Nat → α → CompareM Bool} {l : List α}
    (hf : ∀ x ∈ l, Concludes levels p w₀ fun limit n => f limit n x) :
    Concludes levels p w₀ fun limit n => l.allM (f limit n) := by
  induction l generalizing w₀ with
  | nil => exact .done _
  | cons x l ih =>
    refine .bind (hf x (by simp)) fun w₁ b hle₁ _ _ => ?_
    cases b with
    | false => exact .done _
    | true => exact ih fun y hy => (hf y (by simp [hy])).later hle₁

/-- A computation on the world alone. -/
theorem Converges.lift {k : Nat} {m : Nat → WorldM α} (hm : WorldM.Finishes k w₀ P m) :
    Converges levels p p w₀ P fun _ n => liftM (m n) := by
  intro c w hle hw hc _
  obtain ⟨x, w', hle', hw', hx, hrun⟩ := hm w hle hw
  exact ⟨k, x, c, w', hle', hw', hc.grow hle', hx, fun n hn _ _ => run_lift (hrun n hn) c⟩

/-- One that does not depend on the allowance. -/
theorem Converges.lift_total {m : WorldM α} (hm : trees.Makes w₀ P m) (hgrows : Grows False m) :
    Converges levels p p w₀ P fun _ _ => liftM m := .lift (k := 0) (.of_makes hm hgrows)

theorem Converges.world_bind {G : Option Nat → Nat → World → CompareM β}
    (hG : ∀ w, w₀ ≤ w → trees.Holds w → Converges levels p q w Q fun limit n => G limit n w) :
    Converges levels p q w₀ Q fun limit n => world >>= G limit n :=
  fun c w hle hw hc => hG w hle hw c w le_rfl hw hc

theorem Converges.get_bind {G : Option Nat → Nat → Comparer → CompareM β}
    (hG : ∀ c, Converges levels p q w₀ Q fun limit n => G limit n c) :
    Converges levels p q w₀ Q fun limit n => get >>= G limit n := fun c w hle hw hc => hG c c w hle hw hc

end

/-! ## The cascade -/

section Cascade

variable {levels : Nat} {p : Place} {w w₀ : World} {sub : Option Nat → Nat → Ty → Ty → CompareM Bool}
  {t₁ t₂ : Ty} {b₁ b₂ : BinderId} {x : Param}

theorem atomically_error {body : CompareM Bool} {c : Comparer} {e : Halt} (h : body c w = .error e) :
    atomically body c w = .error e := by
  show Except.bind (body c w) _ = _
  rw [h]
  rfl

theorem atomically_ok {body : CompareM Bool} {c c' : Comparer} {w' : World} {answer : Bool}
    (h : body c w = .ok ((answer, c'), w')) : atomically body c w =
      .ok ((answer, if answer then c' else { c' with constraint := c.constraint }), w') := by
  show Except.bind (body c w) _ = _
  rw [h]
  cases answer <;> rfl

theorem concludes_atomically {F : Family Bool} (hF : Concludes levels p w₀ F) :
    Concludes levels p w₀ fun limit n => atomically (F limit n) := by
  intro c w hle hw hc ⟨k₀, hfault⟩
  obtain ⟨k, answer, c', w', hle', hw', hc', -, hrun⟩ :=
    hF c w hle hw hc ⟨k₀, fun n hn f h => hfault n hn f (atomically_error h)⟩
  refine ⟨k, answer, _, w', hle', hw', ?_, trivial, fun n hn limit hlimit => atomically_ok (hrun n hn limit hlimit)⟩
  cases answer with
  | true => exact hc'
  | false => exact ⟨hc'.place, hc.store.grow hle'⟩

/-- The current bounds of a parameter are finite trees. -/
theorem converges_currentBounds : Converges levels p p w₀
    (fun w bounds => ∀ lo hi, bounds = some (lo, hi) → w.Finite (.ty lo) ∧ w.Finite (.ty hi))
    fun _ _ => currentBounds x := by
  intro c w hle hw hc _
  refine ⟨0, _, c, w, le_rfl, hw, hc, fun lo hi hbounds => ?_, fun _ _ _ _ => currentBounds_run x c w⟩
  cases hopen : c.constraint.bounds? x with
  | none => rw [hopen] at hbounds; cases hbounds
  | some t =>
    rw [hopen] at hbounds
    obtain ⟨slots, hslots, hold, -⟩ := slot_of_bounds hopen
    exact Domain.Holds.boundsParts (D := trees) hw (hc.store _ _ hslots t (List.mem_of_getElem? hold)) hbounds

variable (hsub : ∀ {w a b}, w.Finite (.ty a) → w.Finite (.ty b) → Concludes levels p w fun limit n => sub limit n a b)

include hsub

theorem concludes_same {a b : Ty} (ha : w₀.Finite (.ty a)) (hb : w₀.Finite (.ty b)) :
    Concludes levels p w₀ fun limit n => same (sub limit n) a b :=
  .ite (fun _ => .done _) fun _ => .ite (fun _ => .done _) fun _ =>
    concludes_atomically (.andThen (hsub ha hb) (hsub hb ha))

theorem concludes_compareEnds {narrowed : Ty} (h : w₀.Finite (.ty narrowed)) :
    Concludes levels p w₀ fun limit n => compareEnds (sub limit n) narrowed := by
  refine .world_bind fun w hle hw => ?_
  split
  · exact .done _
  · next hends =>
    obtain ⟨hlo, hhi⟩ := hw.boundsParts (h.grow hle) hends
    exact hsub hlo hhi

/-- Narrowing leaves alone what is not open; otherwise it makes narrowed bounds, stores them if they are new, and
compares their ends. -/
theorem concludes_narrow {bound : Ty} (hbound : w₀.Finite (.ty bound)) :
    Concludes levels p w₀ fun limit n => narrow (sub limit n) x bound := by
  intro c w hle hw hc ⟨k₀, hfault⟩
  cases hopen : c.constraint.bounds? x with
  | none => exact ⟨0, false, c, w, le_rfl, hw, hc, trivial, fun _ _ _ _ => narrow_run_closed hopen⟩
  | some old =>
    obtain ⟨slots, hslots, hold, hpresent⟩ := slot_of_bounds hopen
    obtain ⟨narrowed, w₁, hinter, -⟩ := (grows_boundsInter old bound : Grows False _).total w
    have hfinite : w.Finite (.ty old) := hc.store _ _ hslots old (List.mem_of_getElem? hold)
    obtain ⟨hle₁, hw₁, hnarrowed⟩ :=
      Domain.makes_boundsInter (D := trees) hfinite (hbound.grow hle) w narrowed w₁ le_rfl hw hinter
    have hrun : ∀ sub : Ty → Ty → CompareM Bool, narrow sub x bound c w =
        if narrowed = old then compareEnds sub narrowed c w₁
        else
          compareEnds sub narrowed
            { c with constraint := ⟨c.constraint.slots.insert x.binder (slots.set x.index narrowed), w₁.snapshots⟩ }
            { w₁ with snapshots := w₁.snapshots + 1 } := fun sub => by
      rw [narrow_run hslots hold hpresent, hinter]
    have hends := concludes_compareEnds hsub hnarrowed
    simp only [hrun] at hfault ⊢
    split at hfault
    · next heq =>
      simp only [if_pos heq]
      obtain ⟨k, answer, c', w', hle', h⟩ := hends c w₁ le_rfl hw₁ (hc.grow hle₁) ⟨k₀, hfault⟩
      exact ⟨k, answer, c', w', le_trans hle₁ hle', h⟩
    · next hne =>
      simp only [if_neg hne]
      have hle₂ : w₁ ≤ { w₁ with snapshots := w₁.snapshots + 1 } := (grows_freshSnapshot : Grows True _) w₁
      have hw₂ := trees.snapshot hw₁
      let c₂ : Comparer :=
        { c with constraint := ⟨c.constraint.slots.insert x.binder (slots.set x.index narrowed), w₁.snapshots⟩ }
      have hstore := ((hc.store.grow hle₁).insert hslots hnarrowed x.index w₁.snapshots).grow hle₂
      have hc₂ : Stands _ p c₂ := ⟨hc.place, hstore⟩
      obtain ⟨k, answer, c', w', hle', h⟩ := hends c₂ _ hle₂ hw₂ hc₂ ⟨k₀, hfault⟩
      exact ⟨k, answer, c', w', le_trans hle₁ (le_trans hle₂ hle'), h⟩

theorem concludes_sameParams {formals₁ formals₂ : List Ty} (h₁ : ∀ t ∈ formals₁, w₀.Finite (.ty t))
    (h₂ : ∀ t ∈ formals₂, w₀.Finite (.ty t)) (foreign₁ foreign₂ : Bool) :
    Concludes levels p w₀ fun limit n => sameParams (sub limit n) formals₁ formals₂ foreign₁ foreign₂ := by
  refine .ite (fun _ => .done _) fun _ => .allM fun ab h => .orElse (concludes_same hsub ?_ ?_) (.done _)
  · exact h₁ _ (List.of_mem_zip h).1
  · exact h₂ _ (List.of_mem_zip h).2

omit hsub

theorem converges_substBinder {t : Ty} (ht : w₀.Finite (.ty t)) : Converges levels p p w₀ (fun w t => w.Finite (.ty t))
    fun _ n => (liftM (Ty.substBinder n b₂ b₁ t) : CompareM Ty) := by
  obtain ⟨h, htree⟩ := ht
  exact .lift (.imp (WorldM.finishes_substBinder h w₀ b₂ b₁ t htree) fun _ _ ht => ⟨h, ht⟩)

theorem converges_infosUnder {d : Binder} (hd : ∀ t ∈ d.infos, w₀.Finite (.ty t)) :
    Converges levels p p w₀ (fun w infos => ∀ t ∈ infos, w.Finite (.ty t)) fun _ n => infosUnder n b₂ b₁ d :=
  .mapM (fun _ _ _ hle ht => ht.grow hle) fun t ht => converges_substBinder (hd t ht)

theorem converges_signature {t : Ty} (ht : w₀.Finite (.ty t)) :
    Converges levels p p w₀ (fun _ _ => True) fun _ n => (liftM (t.signature n) : CompareM Signature) := by
  obtain ⟨h, htree⟩ := ht
  exact .lift (WorldM.finishes_signature h w₀ t htree)

include hsub

theorem concludes_conformsAsConstructor (h₁ : w₀.Finite (.ty t₁)) (h₂ : w₀.Finite (.ty t₂)) :
    Concludes levels p w₀ fun limit n => conformsAsConstructor n (sub limit n) t₁ t₂ := by
  refine .bind (.lift (WorldM.finishes_openTypeParams t₁)) fun w₁ params hle₁ _ _ => ?_
  refine .bind (.lift (WorldM.finishes_typeArgs (h₂.grow hle₁))) fun w₂ args hle₂ _ hargs => ?_
  refine .ite (fun _ => .done _) fun _ => ?_
  refine .bind (.lift_total (Domain.makes_skolem (h₁.grow (le_trans hle₁ hle₂))) (grows_skolem t₁))
    fun w₃ base hle₃ _ hbase => ?_
  refine .bind (.allM fun pa hpa => ?_) fun _ _ _ _ _ => .world_bind fun _ _ _ => .done _
  refine .world_bind fun w₄ hle₄ _ => ?_
  refine .bind (.lift_total (Domain.makes_member (hbase.grow hle₄) _) (grows_member base _))
    fun w₅ info hle₅ _ hinfo => ?_
  refine .bind (.lift_total (Domain.makes_asBounds hinfo) (grows_asBounds info)) fun w₆ a hle₆ _ ha => ?_
  have harg := (hargs pa.2 (List.of_mem_zip hpa).2).grow (le_trans hle₃ (le_trans hle₄ (le_trans hle₅ hle₆)))
  exact .bind (.lift_total (Domain.makes_asBounds harg) (grows_asBounds pa.2)) fun w₇ b hle₇ _ hb =>
    hsub (ha.grow hle₇) hb

theorem concludes_fourth (h₁ : w₀.Finite (.ty t₁)) (h₂ : w₀.Finite (.ty t₂)) :
    Concludes levels p w₀ fun limit n => fourth (sub limit n) t₁ t₂ := by
  refine .world_bind fun w hle hw => ?_
  have h₁ := h₁.grow hle
  have h₂ := h₂.grow hle
  split
  · refine .ite (fun _ => .done _) fun _ => .orElse (.ite (fun _ => ?_) fun _ => .done _) <|
      .ite (fun _ => .done _) fun _ => ?_
    · exact .lift_total (Domain.makes_nullConforms h₂) (grows_nullConforms t₂)
    · exact .bind (.lift_total (Domain.makes_upperBound h₁) (grows_upperBound t₁)) fun _ _ hle _ ha =>
        hsub ha (h₂.grow hle)
  · next hd => exact hsub (hw.parts h₁ hd _ (by simp [Shape.parts])) h₂
  · next hd =>
    exact .orElse (hsub (hw.parts h₁ hd _ (by simp [Shape.parts])) h₂)
      (hsub (hw.parts h₁ hd _ (by simp [Shape.parts])) h₂)
  · next hd =>
    exact .andThen (hsub (hw.parts h₁ hd _ (by simp [Shape.parts])) h₂)
      (hsub (hw.parts h₁ hd _ (by simp [Shape.parts])) h₂)
  · refine .ite (fun _ => ?_) fun _ => .done _
    exact .bind (.lift_total (Domain.makes_underlying h₁) (grows_underlying t₁)) fun _ _ hle _ ha =>
      hsub ha (h₂.grow hle)

theorem concludes_thirdNamed (h₁ : w₀.Finite (.ty t₁)) (h₂ : w₀.Finite (.ty t₂)) :
    Concludes levels p w₀ fun limit n => thirdNamed n (sub limit n) t₁ t₂ := by
  refine .bind (.lift_total (Domain.makes_infoOf h₂) (grows_infoOf t₂)) fun w₁ info hle₁ _ hinfo => ?_
  refine .world_bind fun w hle hw => ?_
  have h₁ := h₁.grow (le_trans hle₁ hle)
  have h₂ := h₂.grow (le_trans hle₁ hle)
  split
  · next hends => exact .orElse (hsub h₁ (hw.boundsParts (hinfo.grow hle) hends).1) (concludes_fourth hsub h₁ h₂)
  · refine .orElse (.ite (fun _ => ?_) fun _ => .done _) <|
      .orElse (.ite (fun _ => ?_) fun _ => .done _) <| .orElse (.ite (fun _ => ?_) fun _ => .done _) ?_
    · exact (WorldM.finishes_isStable hw h₁.has).elim fun _ => .lift
    · exact .lift_total (Domain.makes_isNotNull h₁) (grows_isNotNull t₁)
    · exact concludes_conformsAsConstructor hsub h₁ h₂
    · exact concludes_fourth hsub h₁ h₂

theorem concludes_names (h₁ : w₀.Finite (.ty t₁)) (h₂ : w₀.Finite (.ty t₂)) :
    Concludes levels p w₀ fun limit n => names n (sub limit n) t₁ t₂ := by
  refine .world_bind fun w hle hw => ?_
  have h₁ := h₁.grow hle
  have h₂ := h₂.grow hle
  split
  · next pre₁ s₁ isType₁ pre₂ s₂ isType₂ hd₁ hd₂ =>
    have hpre : ∀ {t pre s isType}, w.Finite (.ty t) → nameParts? (w.shape t) = some (pre, s, isType) →
        w.Finite (.ty pre) := by
      intro t pre s isType ht hd
      cases hshape : w.shape t with
      | named pre' s' | path pre' s' =>
        rw [hshape] at hd
        cases hd
        exact hw.parts ht hshape _ (by simp [Shape.parts])
      | _ => rw [hshape] at hd; cases hd
    have hpre₁ := hpre h₁ hd₁
    have hpre₂ := hpre h₂ hd₂
    refine .ite (fun _ => ?_) fun _ => .orElse (.ite (fun _ => hsub hpre₁ hpre₂) fun _ => .done _) <|
      .orElse (.ite (fun _ => ?_) fun _ => .done _) (concludes_thirdNamed hsub h₁ h₂)
    · exact .get_bind fun _ => .ite (fun _ => .done _) fun _ => hsub hpre₁ hpre₂
    · refine .bind (.lift_total (Domain.makes_baseType h₁ s₂) (grows_baseType t₁ s₂)) fun _ base hle _ hbase => ?_
      exact .ite (fun _ => hsub hbase (h₂.grow hle)) fun _ => .done _
  · exact .done _

theorem concludes_methods (h₁ : w₀.Finite (.ty t₁)) (h₂ : w₀.Finite (.ty t₂)) (hb₁ : w₀.Finite (.binder b₁))
    (hb₂ : w₀.Finite (.binder b₂)) : Concludes levels p w₀ fun limit n => methods n (sub limit n) t₁ b₁ t₂ b₂ := by
  refine .world_bind fun w hle hw => ?_
  split
  · next m₁ m₂ hm₁ hm₂ =>
    obtain ⟨hinfos₁, hresult₁⟩ := hw.binder_parts (hb₁.grow hle) hm₁
    obtain ⟨hinfos₂, hresult₂⟩ := hw.binder_parts (hb₂.grow hle) hm₂
    refine .bind (converges_infosUnder hinfos₂) fun w₁ formals₂ hle₁ _ hformals₂ => ?_
    refine .bind (converges_signature (h₁.grow (le_trans hle hle₁))) fun w₂ sig₁ hle₂ _ _ => ?_
    refine .bind (converges_signature (h₂.grow (le_trans hle (le_trans hle₁ hle₂)))) fun w₃ sig₂ hle₃ _ _ => ?_
    have hle' := le_trans hle₁ (le_trans hle₂ hle₃)
    refine .ite (fun _ => .done _) fun _ => .andThen (concludes_sameParams hsub ?_ ?_ _ _) ?_
    · exact fun t ht => (hinfos₁ t ht).grow hle'
    · exact fun t ht => (hformals₂ t ht).grow (le_trans hle₂ hle₃)
    · refine .ite (fun _ => .done _) fun _ => ?_
      refine .bind (converges_substBinder (hresult₂.grow hle')) fun w₄ _ hle₄ _ hresult => ?_
      exact hsub (hresult₁.grow (le_trans hle' hle₄)) hresult
  · exact .done _

theorem concludes_universals (h₁ : w₀.Finite (.ty t₁)) (h₂ : w₀.Finite (.ty t₂)) (hb₁ : w₀.Finite (.binder b₁))
    (hb₂ : w₀.Finite (.binder b₂)) : Concludes levels p w₀ fun limit n => universals n (sub limit n) t₁ b₁ t₂ b₂ := by
  refine .world_bind fun w hle hw => ?_
  split
  · next p₁ p₂ hp₁ hp₂ =>
    obtain ⟨hinfos₁, hresult₁⟩ := hw.binder_parts (hb₁.grow hle) hp₁
    obtain ⟨hinfos₂, hresult₂⟩ := hw.binder_parts (hb₂.grow hle) hp₂
    refine .bind (converges_signature (h₁.grow hle)) fun w₁ sig₁ hle₁ _ _ => ?_
    refine .bind (converges_signature (h₂.grow (le_trans hle hle₁))) fun w₂ sig₂ hle₂ _ _ => ?_
    have hle' := le_trans hle₁ hle₂
    refine .ite (fun _ => .done _) fun _ => .andThen (.allM fun ab h => ?_) ?_
    · have hbounds₂ := (hinfos₂ _ (List.of_mem_zip h).2).grow hle'
      refine .bind (converges_substBinder hbounds₂) fun w₃ _ hle₃ _ hbounds => ?_
      exact concludes_same hsub ((hinfos₁ _ (List.of_mem_zip h).1).grow (le_trans hle' hle₃)) hbounds
    · refine .bind (converges_substBinder (hresult₂.grow hle')) fun w₃ _ hle₃ _ hresult => ?_
      exact hsub (hresult₁.grow (le_trans hle' hle₃)) hresult
  · exact .done _

theorem concludes_third (h₁ : w₀.Finite (.ty t₁)) (h₂ : w₀.Finite (.ty t₂)) :
    Concludes levels p w₀ fun limit n => third n (sub limit n) t₁ t₂ := by
  refine .world_bind fun w hle hw => ?_
  have h₁ := h₁.grow hle
  have h₂ := h₂.grow hle
  split
  · exact concludes_thirdNamed hsub h₁ h₂
  · exact concludes_thirdNamed hsub h₁ h₂
  · next parent name info hd =>
    obtain ⟨hparent, hinfo⟩ : w.Finite (.ty parent) ∧ w.Finite (.ty info) := by
      simpa [Shape.parts] using hw.parts h₂ hd
    refine .orElse (.andThen (hsub h₁ hparent) (.ite (fun _ => .done _) fun _ => ?_)) (concludes_fourth hsub h₁ h₂)
    exact .bind (.lift_total (Domain.makes_member h₁ _) (grows_member t₁ _)) fun _ a hle _ ha =>
      hsub ha (hinfo.grow hle)
  · next a b hd =>
    obtain ⟨ha, hb⟩ : w.Finite (.ty a) ∧ w.Finite (.ty b) := by simpa [Shape.parts] using hw.parts h₂ hd
    exact .andThen (hsub h₁ ha) (hsub h₁ hb)
  · next a b hd =>
    obtain ⟨ha, hb⟩ : w.Finite (.ty a) ∧ w.Finite (.ty b) := by simpa [Shape.parts] using hw.parts h₂ hd
    exact .orElse (hsub h₁ ha) (.orElse (hsub h₁ hb) (concludes_fourth hsub h₁ h₂))
  · next hd₂ hd₁ =>
    exact concludes_methods hsub h₁ h₂ (hw.parts h₁ hd₁ _ (by simp [Shape.parts]))
      (hw.parts h₂ hd₂ _ (by simp [Shape.parts]))
  · next hd₂ hd₁ =>
    exact concludes_universals hsub h₁ h₂ (hw.parts h₁ hd₁ _ (by simp [Shape.parts]))
      (hw.parts h₂ hd₂ _ (by simp [Shape.parts]))
  · next hd₂ hd₁ =>
    exact hsub (hw.parts h₁ hd₁ _ (by simp [Shape.parts])) (hw.parts h₂ hd₂ _ (by simp [Shape.parts]))
  · next lo₂ hi₂ lo₁ hi₁ hd₂ hd₁ =>
    obtain ⟨hlo₁, hhi₁⟩ : w.Finite (.ty lo₁) ∧ w.Finite (.ty hi₁) := by simpa [Shape.parts] using hw.parts h₁ hd₁
    obtain ⟨hlo₂, hhi₂⟩ : w.Finite (.ty lo₂) ∧ w.Finite (.ty hi₂) := by simpa [Shape.parts] using hw.parts h₂ hd₂
    exact .andThen (hsub hlo₂ hlo₁) (hsub hhi₁ hhi₂)
  · next lo₂ hi₂ pre cls hd₂ hd₁ =>
    obtain ⟨hpre, hcls⟩ : w.Finite (.ty pre) ∧ w.Finite (.sym cls) := by simpa [Shape.parts] using hw.parts h₁ hd₁
    obtain ⟨hlo₂, hhi₂⟩ : w.Finite (.ty lo₂) ∧ w.Finite (.ty hi₂) := by simpa [Shape.parts] using hw.parts h₂ hd₂
    refine .bind (.lift_total (Domain.makes_named hpre hcls) (grows_named pre cls)) fun _ ref hle _ href => ?_
    exact .andThen (hsub (hlo₂.grow hle) href) (hsub href (hhi₂.grow hle))
  · exact concludes_fourth hsub h₁ h₂

theorem concludes_second (h₁ : w₀.Finite (.ty t₁)) (h₂ : w₀.Finite (.ty t₂)) :
    Concludes levels p w₀ fun limit n => second n (sub limit n) t₁ t₂ := by
  refine .world_bind fun w hle hw => ?_
  have h₁ := h₁.grow hle
  have h₂ := h₂.grow hle
  split
  · exact .done _
  · exact .done _
  · next hd => exact hsub (hw.varUnderlying (hw.parts h₁ hd _ (by simp [Shape.parts]))) h₂
  · refine .bind converges_currentBounds fun w₁ bounds hle₁ hw₁ hbounds => ?_
    have h₂ := h₂.grow hle₁
    split
    · refine .orElse (hsub (hbounds _ _ rfl).2 h₂) ?_
      have hnothing : w₁.Finite (.ty Builtin.nothing.type) := hw₁.tree (hw₁.fixed _ (by decide))
      exact .bind (.lift_total (Domain.makes_bounds hnothing h₂) (grows_bounds _ _)) fun _ _ _ _ =>
        concludes_narrow hsub
    · exact concludes_third hsub (h₁.grow hle₁) h₂
  · exact concludes_third hsub h₁ h₂

theorem concludes_first (h₁ : w₀.Finite (.ty t₁)) (h₂ : w₀.Finite (.ty t₂)) :
    Concludes levels p w₀ fun limit n => first n (sub limit n) t₁ t₂ := by
  refine .world_bind fun w hle hw => ?_
  have h₁ := h₁.grow hle
  have h₂ := h₂.grow hle
  split
  · exact .ite (fun _ => concludes_names hsub h₁ h₂) fun _ => concludes_second hsub h₁ h₂
  · exact .ite (fun _ => concludes_names hsub h₁ h₂) fun _ => concludes_second hsub h₁ h₂
  · exact .done _
  · exact .done _
  · next hd => exact hsub h₁ (hw.varUnderlying (hw.parts h₂ hd _ (by simp [Shape.parts])))
  · refine .bind converges_currentBounds fun w₁ bounds hle₁ hw₁ hbounds => ?_
    have h₁ := h₁.grow hle₁
    split
    · refine .orElse (hsub h₁ (hbounds _ _ rfl).1) ?_
      have hany : w₁.Finite (.ty Builtin.any.type) := hw₁.tree (hw₁.fixed _ (by decide))
      exact .bind (.lift_total (Domain.makes_bounds h₁ hany) (grows_bounds _ _)) fun _ _ _ _ => concludes_narrow hsub
    · exact concludes_second hsub h₁ (h₂.grow hle₁)
  · exact concludes_second hsub h₁ h₂

end Cascade

end CompareM

end Conformance
