import Conformance.Proofs.InterSource

/-!
# What an affirmative answer takes

`Demands w x P`: asked in `w` or later, the computation `x` answers true only if `P` holds. For each step of the cascade
there is one rule that says which of its alternatives may have answered, as far as the shapes of the two types leave
them. With the rules a derivation of `Conforms` is taken apart (`Conforms.invert`).
-/

namespace Conformance

open CompareM

namespace CompareM

/-! ## Rules -/

section Rules

variable {α : Type} {w v : World} {x y : CompareM Bool} {P Q R : Prop}

/-- In `w` or later the computation only adds to the world, and it answers true only if `P` holds. -/
def Demands (w : World) (x : CompareM Bool) (P : Prop) : Prop :=
  ∀ c v answer c' v', w ≤ v → x c v = .ok ((answer, c'), v') → v ≤ v' ∧ (answer = true → P)

namespace Demands

theorem mono (h : Demands w x P) (hPQ : P → Q) : Demands w x Q := by
  intro c v answer c' v' hv hr
  obtain ⟨hv', hP⟩ := h c v answer c' v' hv hr
  exact ⟨hv', fun ha => hPQ (hP ha)⟩

theorem later (h : Demands w x P) (hv : w ≤ v) : Demands v x P :=
  fun c v answer c' v' hv' => h c v answer c' v' (hv.trans hv')

theorem of_return {answer : Bool} (h : answer = true → P) : Demands w (return answer) P := by
  intro c v answer' c' v' _ hr
  cases hr
  exact ⟨le_rfl, h⟩

theorem false : Demands w (return false) P := .of_return nofun

theorem orElse (hx : Demands w x P) (hy : Demands w y Q) : Demands w (x <||> y) (P ∨ Q) := by
  intro c v answer c' v' hv hr
  obtain ⟨a, c₁, v₁, hx', hrest⟩ := run_bind_ok hr
  obtain ⟨hv₁, hP⟩ := hx c v a c₁ v₁ hv hx'
  cases a with
  | true =>
    cases hrest
    exact ⟨hv₁, fun _ => .inl (hP rfl)⟩
  | false =>
    obtain ⟨hv', hQ⟩ := hy c₁ v₁ answer c' v' (hv.trans hv₁) hrest
    exact ⟨hv₁.trans hv', fun ha => .inr (hQ ha)⟩

theorem andThen (hx : Demands w x P) (hy : Demands w y Q) : Demands w (x <&&> y) (P ∧ Q) := by
  intro c v answer c' v' hv hr
  obtain ⟨a, c₁, v₁, hx', hrest⟩ := run_bind_ok hr
  obtain ⟨hv₁, hP⟩ := hx c v a c₁ v₁ hv hx'
  cases a with
  | true =>
    obtain ⟨hv', hQ⟩ := hy c₁ v₁ answer c' v' (hv.trans hv₁) hrest
    exact ⟨hv₁.trans hv', fun ha => ⟨hP rfl, hQ ha⟩⟩
  | false =>
    cases hrest
    exact ⟨hv₁, nofun⟩

theorem ite {p : Prop} [Decidable p] (hx : p → Demands w x P) (hy : ¬ p → Demands w y P) :
    Demands w (if p then x else y) P := by
  split
  · next h => exact hx h
  · next h => exact hy h

/-- An alternative that is only tried under a condition. -/
theorem guarded {p : Prop} [Decidable p] (hx : p → Demands w x P) :
    Demands w (if p then x else return Bool.false) (p ∧ P) :=
  .ite (fun hp => (hx hp).mono fun h => ⟨hp, h⟩) fun _ => .false

theorem world_bind {f : World → CompareM Bool} (hf : ∀ v, w ≤ v → Demands v (f v) P) : Demands w (world >>= f) P :=
  fun c v answer c' v' hv hr => hf v hv c v answer c' v' le_rfl hr

/-- What an answer takes can be used in what follows it. -/
theorem bind {f : Bool → CompareM Bool} (hx : Demands w x P)
    (hf : ∀ a v, w ≤ v → (a = true → P) → Demands v (f a) Q) : Demands w (x >>= f) Q := by
  intro c v answer c' v' hv hr
  obtain ⟨a, c₁, v₁, hx', hrest⟩ := run_bind_ok hr
  obtain ⟨hv₁, hP⟩ := hx c v a c₁ v₁ hv hx'
  obtain ⟨hv', hQ⟩ := hf a v₁ (hv.trans hv₁) hP c₁ v₁ answer c' v' le_rfl hrest
  exact ⟨hv₁.trans hv', hQ⟩

theorem allM {f : α → CompareM Bool} {l : List α} (hf : ∀ a v, w ≤ v → Demands v (f a) True) :
    Demands w (l.allM f) True := by
  induction l generalizing w with
  | nil => exact .of_return fun _ => trivial
  | cons a l ih =>
    refine (hf a w le_rfl).bind fun b v hv _ => ?_
    cases b with
    | true => exact ih fun a v' hv' => hf a v' (hv.trans hv')
    | false => exact .of_return nofun

/-- What a computation on the world came to can be used in what follows it. -/
theorem lift_bind {m : WorldM α} {f : α → CompareM Bool} (hm : Grows True m)
    (hf : ∀ a v v', w ≤ v → m v = .ok (a, v') → Demands v' (f a) P) : Demands w (liftM m >>= f) P := by
  intro c v answer c' v' hv hr
  obtain ⟨a, c₁, v₁, hm', hrest⟩ := run_bind_ok hr
  obtain ⟨hlift, rfl⟩ := run_lift_ok hm'
  have hv₁ := hm.le_of_ok hlift
  obtain ⟨hv', hP⟩ := hf a v v₁ hv hlift c₁ v₁ answer c' v' le_rfl hrest
  exact ⟨hv₁.trans hv', hP⟩

theorem lift {m : WorldM Bool} (hm : Grows True m) (h : ∀ v v', w ≤ v → m v = .ok (true, v') → P) :
    Demands w (liftM m) P := by
  intro c v answer c' v' hv hr
  obtain ⟨hm', rfl⟩ := run_lift_ok hr
  refine ⟨hm.le_of_ok hm', fun ha => ?_⟩
  subst ha
  exact h v v' hv hm'

end Demands

theorem demands_reading {f : World → Except Halt Bool} (h : ∀ v, w ≤ v → f v = .ok true → P) :
    Demands w (liftM (WorldM.reading f)) P := by
  intro c v answer c' v' hv hr
  obtain ⟨hread, -, rfl⟩ := run_reading_ok hr
  refine ⟨le_rfl, fun ha => ?_⟩
  subst ha
  exact h _ hv hread

theorem demands_asking (S : World → Ty → Ty → Prop) (t u : Ty) : Demands w (asking S t u) (∃ v, w ≤ v ∧ S v t u) := by
  classical
  intro c v answer c' v' hv hr
  cases hr
  exact ⟨le_rfl, fun ha => ⟨v, hv, of_decide_eq_true ha⟩⟩

end Rules

/-! ## Steps of the cascade -/

section Steps

variable {w : World} {n : Nat} {sub : Ty → Ty → CompareM Bool} {t u : Ty} {P Q R : Prop} {S : World → Ty → Ty → Prop}

theorem demands_second {d : Shape} (ht : w.shape? t = some d) (hd : isPlain d) (h : Demands w (third n sub t u) P) :
    Demands w (second n sub t u) P := by
  refine .world_bind fun v hv => ?_
  rw [World.shape_of_shape? (hv.shape ht)]
  have h := h.later hv
  split
  · cases hd
  · cases hd
  · cases hd
  · cases hd
  · exact h

/-- A plain target that is no name leaves the decision to the third step. -/
theorem demands_first {d e : Shape} (ht : w.shape? t = some d) (hd : isPlain d) (hu : w.shape? u = some e)
    (he : isPlain e) (hnamed : e.isNamed = false) (h : Demands w (third n sub t u) P) :
    Demands w (first n sub t u) P := by
  refine .world_bind fun v hv => ?_
  have hsecond := (demands_second ht hd h).later hv
  rw [World.shape_of_shape? (hv.shape hu)]
  split
  · cases hnamed
  · cases hnamed
  · cases he
  · cases he
  · cases he
  · cases he
  · exact hsecond

/-- So does a named target with a source that is no name. -/
theorem demands_first_named {d : Shape} {q : Ty} {s : Symbol} (ht : w.shape? t = some d) (hd : isPlain d)
    (hnamed : d.isNamed = false) (hu : w.shape? u = some (.named q s)) (h : Demands w (thirdNamed n sub t u) P) :
    Demands w (first n sub t u) P := by
  refine .world_bind fun v hv => ?_
  rw [World.shape_of_shape? (hv.shape hu), World.shape_of_shape? (hv.shape ht)]
  simp only [hnamed]
  refine demands_second (hv.shape ht) hd (.world_bind fun v' hv' => ?_)
  rw [World.shape_of_shape? (hv'.shape (hv.shape hu))]
  exact h.later (hv.trans hv')

/-- Two classes are compared by their names, then by the base type, and then the third step decides. -/
theorem demands_first_names {q₁ q₂ : Ty} {s₁ s₂ : Symbol} (ht : w.shape? t = some (.named q₁ s₁))
    (hu : w.shape? u = some (.named q₂ s₂)) (hne : s₁ ≠ s₂) (hname : w.decls.name s₁ ≠ w.decls.name s₂)
    (hsub : ∀ a b, Demands w (sub a b) True) (h : Demands w (thirdNamed n sub t u) P) :
    Demands w (first n sub t u)
      ((∃ base v v', w ≤ v ∧ t.baseType s₂ v = .ok (base, v') ∧ base.present) ∨ P) := by
  refine .world_bind fun v hv => ?_
  rw [World.shape_of_shape? (hv.shape hu), World.shape_of_shape? (hv.shape ht)]
  refine .world_bind fun v' hv' => ?_
  have hv := hv.trans hv'
  rw [World.shape_of_shape? (hv.shape hu), World.shape_of_shape? (hv.shape ht)]
  simp only [nameParts?, if_neg hne, true_and, hv.decls, if_neg hname]
  have hbase : Demands v' (do
      let base ← Ty.baseType t s₂
      if base.present && base ≠ t then sub base u else return false)
      (∃ base v v', w ≤ v ∧ t.baseType s₂ v = .ok (base, v') ∧ base.present) := by
    refine .lift_bind (grows_baseType t s₂) fun base v₁ v₂ hv₁ hr => ?_
    have hle := hv₁.trans ((grows_baseType t s₂).le_of_ok hr)
    refine .ite (fun hpresent => ?_) fun _ => .false
    rw [Bool.and_eq_true] at hpresent
    exact ((hsub base u).later (hv.trans hle)).mono fun _ => ⟨base, v₁, v₂, hv.trans hv₁, hr, hpresent.1⟩
  exact (Demands.orElse .false (.orElse (.ite (fun _ => hbase) fun _ => .false) (h.later hv))).mono (or_iff_right id).1

/-- A target class is met by the markers, by the rule for traits, or by the fourth step. -/
theorem demands_thirdNamed {q : Ty} {s : Symbol} (hu : w.shape? u = some (.named q s)) (hcls : w.decls.isClass s)
    (hstable : s = Builtin.singleton.symbol → Demands w (liftM (WorldM.reading (·.isStable n t))) P)
    (htrait : Builtin.isTrait s → Demands w (conformsAsConstructor n sub t u) Q)
    (h : Demands w (fourth sub t u) R) :
    Demands w (thirdNamed n sub t u) ((s = Builtin.singleton.symbol ∧ P) ∨
      (s = Builtin.notNull.symbol ∧ ∃ v v', w ≤ v ∧ t.isNotNull v = .ok (true, v')) ∨ (Builtin.isTrait s ∧ Q) ∨ R) := by
  refine .lift_bind (grows_infoOf u) fun info v v' hv hinfo => ?_
  rw [infoOf_class (hv.shape hu) (hv.decls ▸ hcls)] at hinfo
  have hv' : v ≤ v' := by
    cases hinfo
    exact le_intern _ v
  have hshape : v'.shape? info = some (.classInfo q s) := by
    cases hinfo
    exact TypeTable.shape?_intern v.types _
  refine .world_bind fun v₁ hv₁ => ?_
  have hle := (hv.trans hv').trans hv₁
  have hparts : v₁.boundsParts? info = none := by simp only [World.boundsParts?, hv₁.shape hshape]
  rw [hparts, World.shape_of_shape? (hle.shape hu)]
  refine .orElse (.guarded fun hs => (hstable hs).later hle) (.orElse (.guarded fun _ => ?_)
    (.orElse (.guarded fun hs => (htrait hs).later hle) (h.later hle)))
  exact .lift (grows_isNotNull t) fun v v' hv hr => ⟨v, v', hle.trans hv, hr⟩

theorem demands_third_refined {parent info : Ty} {name : String} (hu : w.shape? u = some (.refined parent name info))
    (hsub : ∀ v, w ≤ v → ∀ a b, Demands v (sub a b) (S v a b)) (h : Demands w (fourth sub t u) R) :
    Demands w (third n sub t u) ((∃ v, w ≤ v ∧ S v t parent) ∧
      (name = Builtin.anyName ∨ ∃ m v v', w ≤ v ∧ t.member name v = .ok (m, v') ∧ S v' m info) ∨ R) := by
  refine .world_bind fun v hv => ?_
  rw [World.shape_of_shape? (hv.shape hu)]
  have hparent := (hsub v hv t parent).mono fun h => (⟨v, hv, h⟩ : ∃ v, w ≤ v ∧ S v t parent)
  refine .orElse (.andThen hparent (.ite (fun hname => ?_) fun _ => ?_)) (h.later hv)
  · exact .of_return fun _ => .inl hname
  · refine .lift_bind (grows_member t name) fun m v₁ v₂ hv₁ hr => ?_
    have hle := (grows_member t name).le_of_ok hr
    exact (hsub v₂ (hv.trans (hv₁.trans hle)) m info).mono fun hm => .inr ⟨m, v₁, v₂, hv.trans hv₁, hr, hm⟩

theorem demands_third_inter {a b : Ty} (hu : w.shape? u = some (.inter a b)) (ha : Demands w (sub t a) P)
    (hb : Demands w (sub t b) Q) : Demands w (third n sub t u) (P ∧ Q) := by
  refine .world_bind fun v hv => ?_
  rw [World.shape_of_shape? (hv.shape hu)]
  exact (ha.later hv).andThen (hb.later hv)

theorem demands_third_union {a b : Ty} (hu : w.shape? u = some (.union a b)) (ha : Demands w (sub t a) P)
    (hb : Demands w (sub t b) Q) (h : Demands w (fourth sub t u) R) : Demands w (third n sub t u) (P ∨ Q ∨ R) := by
  refine .world_bind fun v hv => ?_
  rw [World.shape_of_shape? (hv.shape hu)]
  exact (ha.later hv).orElse ((hb.later hv).orElse (h.later hv))

/-- Among the classes only the bottom class and the null class have a rule of their own as the source. -/
theorem demands_fourth_class {q : Ty} {s : Symbol} (ht : w.shape? t = some (.named q s)) (hcls : w.decls.isClass s) :
    Demands w (fourth sub t u) (s = Builtin.nothing.symbol ∨
      (s = Builtin.null.symbol ∧ ∃ v v', w ≤ v ∧ nullConforms u v = .ok (true, v'))) := by
  refine .world_bind fun v hv => ?_
  rw [World.shape_of_shape? (hv.shape ht)]
  refine .ite (fun hs => .of_return fun _ => .inl hs) fun _ => ?_
  have hcls : v.decls.isClass s := hv.decls ▸ hcls
  rw [if_pos hcls]
  refine (Demands.orElse (.guarded fun _ => ?_) .false (Q := False)).mono fun h => .inr (h.resolve_right id)
  exact .lift (grows_nullConforms u) fun v₁ v' hv₁ hr => ⟨v₁, v', hv.trans hv₁, hr⟩

theorem demands_fourth_refined {parent info : Ty} {name : String} (ht : w.shape? t = some (.refined parent name info))
    (h : Demands w (sub parent u) P) : Demands w (fourth sub t u) P := by
  refine .world_bind fun v hv => ?_
  rw [World.shape_of_shape? (hv.shape ht)]
  exact h.later hv

theorem demands_fourth_inter {a b : Ty} (ht : w.shape? t = some (.inter a b)) (ha : Demands w (sub a u) P)
    (hb : Demands w (sub b u) Q) : Demands w (fourth sub t u) (P ∨ Q) := by
  refine .world_bind fun v hv => ?_
  rw [World.shape_of_shape? (hv.shape ht)]
  exact (ha.later hv).orElse (hb.later hv)

theorem demands_fourth_union {a b : Ty} (ht : w.shape? t = some (.union a b)) (ha : Demands w (sub a u) P)
    (hb : Demands w (sub b u) Q) : Demands w (fourth sub t u) (P ∧ Q) := by
  refine .world_bind fun v hv => ?_
  rw [World.shape_of_shape? (hv.shape ht)]
  exact (ha.later hv).andThen (hb.later hv)

/-- A type constructor does not fit a trait with another number of parameters. -/
theorem demands_conformsAsConstructor
    (hlength : ∀ v params args, w ≤ v → v.openTypeParams n t = .ok params → v.typeArgs n u = .ok args →
      params.length ≠ args.length) : Demands w (conformsAsConstructor n sub t u) False := by
  intro c v answer c' v' hv hr
  obtain ⟨params, args, hparams, hargs⟩ := readings_of_conformsAsConstructor hr
  have hdecides : Decides c.place c.constraint v (conformsAsConstructor n sub t u) false :=
    decides_conformsAsConstructor hparams hargs (hlength v params args hv hparams hargs)
  obtain ⟨answer', c'', v'', hr', -, hle, hanswer, -⟩ := hdecides c ⟨rfl, rfl⟩
  cases hr.symm.trans hr'
  exact ⟨hle, fun ha => nomatch ha.symm.trans hanswer⟩

end Steps

end CompareM

/-- A derivation of conformance is of one type with itself, or by a step of the cascade whose nested comparisons are
derived, in the same world or later. -/
theorem Conforms.invert {erased : Bool} {w : World} {t u : Ty} {P : Prop} (h : Conforms erased w t u)
    (hsame : t = u → P)
    (hstep : ∀ sub n, (∀ v, w ≤ v → ∀ a b, Demands v (sub a b) (∃ v', v ≤ v' ∧ Conforms erased v' a b)) →
      Demands w (first n sub t u) P) : P := by
  cases h with
  | refl => exact hsame rfl
  | step S _ _ hS h =>
    obtain ⟨n, c, w', hr⟩ := h
    have hsub : ∀ v, w ≤ v → ∀ a b, Demands v (asking S a b) (∃ v', v ≤ v' ∧ Conforms erased v' a b) :=
      fun _ _ a b => (demands_asking S a b).mono fun ⟨v, hv, hab⟩ => ⟨v, hv, hS v a b hab⟩
    exact (hstep (asking S) n hsub _ _ _ _ _ le_rfl hr).2 rfl

end Conformance
