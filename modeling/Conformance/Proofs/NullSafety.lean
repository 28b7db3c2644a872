import Conformance.Proofs.Hierarchy
import Conformance.Proofs.Inversion

/-!
# Types that exclude `null`

Whether a type excludes `null` is asked in two ways: of the type (`Ty.isNotNull`), and by comparing it with the marker
for types without `null`. What both take is laid out as one property of the way in which the type is built
(`World.Excluding`). The null class conforms to no such type, as long as no class under the root class carries the
marker, unless it is a value class (`World.NullApart`): the rule for the null class does not look at the marker.
-/

namespace Conformance

open CompareM

namespace World

variable {w v v' : World} {C E : Symbol → Prop} {s base : Symbol} {t : Ty} {answer : Bool}

/-! ## Classes -/

/-- The class is `base` or is found to inherit from it. -/
def Under (w : World) (s base : Symbol) : Prop := ∃ v, s.derivesFrom base w = .ok (true, v)

instance (w : World) (s base : Symbol) : Decidable (w.Under s base) :=
  decidable_of_iff ((s.derivesFrom base w).toOption.any (·.1)) <| by
    rw [Under]
    generalize s.derivesFrom base w = r
    rcases r with _ | ⟨_ | _, v⟩
    · exact ⟨nofun, nofun⟩
    · exact ⟨nofun, nofun⟩
    · exact ⟨fun _ => ⟨v, rfl⟩, fun _ => rfl⟩

/-- Whether a class is found to inherit from another one does not change as the world grows. -/
theorem Closed.under_iff (hw : w.Closed) (hv : w ≤ v) (hr : s.derivesFrom base v = .ok (answer, v')) :
    answer = true ↔ w.Under s base := by
  obtain ⟨b, w₁, b', v₁, σ, h, h', -, -, -, heq⟩ := hw.repeats (grows_derivesFrom s base) (sim_derivesFrom trivial base) hv
  obtain rfl : b = b' := heq
  cases hr.symm.trans h'
  constructor
  · rintro rfl
    exact ⟨w₁, h⟩
  · rintro ⟨w₂, h₂⟩
    cases h.symm.trans h₂
    rfl

theorem under_self (hs : w.decls.isClass s) : w.Under s s := by
  refine ⟨w, ?_⟩
  rw [Symbol.derivesFrom, get_bind_run, if_neg (by simp [hs]), if_pos rfl]
  rfl

/-- A class that has a base type inherits from the class of that. -/
theorem Closed.under_of_baseType {found : Ty} (hw : w.Closed) (ht : w.shape? t = some (.named .noPrefix s))
    (hcls : w.decls.isClass s) (hv : w ≤ v) (hr : t.baseType base v = .ok (found, v')) (hpresent : found.present) :
    w.Under s base := by
  have hrun : s.derivesFrom base v = .ok (true, if s = base then v else v') := by
    rw [Symbol.derivesFrom, get_bind_run, if_neg (by simp [hv.decls, hcls])]
    split
    · rfl
    · rw [bind_run (ref_run (hv.shape ht)), bind_run hr, hpresent]
      rfl
  exact (hw.under_iff hv hrun).1 rfl

/-- The class is the bottom class, a value class, or carries the marker for types without `null`. -/
def Excludes (w : World) (s : Symbol) : Prop :=
  s = Builtin.nothing.symbol ∨ w.Under s Builtin.anyVal.symbol ∨ w.Under s Builtin.notNull.symbol

instance (w : World) (s : Symbol) : Decidable (w.Excludes s) := inferInstanceAs (Decidable (_ ∨ _ ∨ _))

theorem Closed.excludes_of_run (hw : w.Closed) (hstd : w.Standard) (hv : w ≤ v)
    (hr : Nullability.classExcludes s v = .ok (true, v')) : w.Excludes s := by
  unfold Nullability.classExcludes at hr
  split at hr
  · next hs =>
    simp only [Bool.or_eq_true, decide_eq_true_eq] at hs
    rcases hs with rfl | rfl
    · exact .inr (.inr (under_self (hstd.isClass .notNull)))
    · exact .inl rfl
  · obtain ⟨b, v₁, hval, hr⟩ := bind_ok hr
    cases b with
    | true => exact .inr (.inl ((hw.under_iff hv hval).1 rfl))
    | false => exact .inr (.inr ((hw.under_iff (hv.trans ((grows_derivesFrom s _).le_of_ok hval)) hr).1 rfl))

/-- A class that has `null` lies under the root class and is no value class. -/
theorem Closed.under_of_isReferenceClass (hw : w.Closed) (hv : w ≤ v) (hr : s.isReferenceClass v = .ok (true, v')) :
    s ≠ Builtin.nothing.symbol ∧ ¬ w.Under s Builtin.anyVal.symbol ∧ w.Under s Builtin.object.symbol := by
  rw [Symbol.isReferenceClass, get_bind_run] at hr
  split at hr
  · cases hr
  · next hs =>
    obtain ⟨b, v₁, hval, hr⟩ := bind_ok hr
    have hval' := hw.under_iff hv hval
    have hv₁ := hv.trans ((grows_derivesFrom s _).le_of_ok hval)
    cases b with
    | true => cases hr
    | false =>
      simp only [Bool.or_eq_true, not_or, decide_eq_true_eq] at hs
      exact ⟨hs.2, fun h => Bool.false_ne_true (hval'.2 h), (hw.under_iff hv₁ hr).1 rfl⟩

/-! ## Types -/

/-- The type is built from references to classes in `C` by refinements, intersections and unions. -/
inductive ClassType (w : World) (C : Symbol → Prop) : Ty → Prop
  | ref {t : Ty} {s : Symbol} (ht : w.shape? t = some (.named .noPrefix s)) (hs : C s) : ClassType w C t
  | refined {t parent info : Ty} {name : String} (ht : w.shape? t = some (.refined parent name info))
    (h : ClassType w C parent) : ClassType w C t
  | inter {t a b : Ty} (ht : w.shape? t = some (.inter a b)) (ha : ClassType w C a) (hb : ClassType w C b) :
    ClassType w C t
  | union {t a b : Ty} (ht : w.shape? t = some (.union a b)) (ha : ClassType w C a) (hb : ClassType w C b) :
    ClassType w C t

/-- The type excludes `null`, if the classes in `E` do: such a class, a refinement of such a type, an intersection with
one, or a union of two. -/
inductive Excluding (w : World) (E : Symbol → Prop) : Ty → Prop
  | ref {t : Ty} {s : Symbol} (ht : w.shape? t = some (.named .noPrefix s)) (hs : E s) : Excluding w E t
  | refined {t parent info : Ty} {name : String} (ht : w.shape? t = some (.refined parent name info))
    (h : Excluding w E parent) : Excluding w E t
  | interLeft {t a b : Ty} (ht : w.shape? t = some (.inter a b)) (ha : Excluding w E a) : Excluding w E t
  | interRight {t a b : Ty} (ht : w.shape? t = some (.inter a b)) (hb : Excluding w E b) : Excluding w E t
  | union {t a b : Ty} (ht : w.shape? t = some (.union a b)) (ha : Excluding w E a) (hb : Excluding w E b) :
    Excluding w E t

/-- The test for `null` affirms only of types that exclude it. -/
theorem Closed.ensures_isNotNull (hw : w.Closed) (hstd : w.Standard) (hC : ∀ {s}, C s → w.decls.isClass s) (n : Nat)
    (ht : w.ClassType C t) :
    Ensures w (Walk.descend false Nullability.step n t) fun answer =>
      answer = true → w.Excluding (fun s => C s ∧ w.Excludes s) t := by
  have hstep : ∀ next t, w.ClassType C t →
      (∀ u, w.ClassType C u → Ensures w (next u) fun answer =>
        answer = true → w.Excluding (fun s => C s ∧ w.Excludes s) u) →
      Ensures w (Nullability.step next t) fun answer =>
        answer = true → w.Excluding (fun s => C s ∧ w.Excludes s) t := by
    intro next t ht hnext
    refine .world_bind fun v hv => ?_
    cases ht with
    | ref hshape hs =>
      rw [shape_of_shape? (hv.shape hshape)]
      refine .ite (fun _ => .lift (grows_classExcludes _) fun v₁ answer v₂ hv₁ hr hanswer => ?_) fun hcls => ?_
      · subst hanswer
        exact .ref hshape ⟨hs, hw.excludes_of_run hstd hv₁ hr⟩
      · exact absurd (hv.decls ▸ hC hs) hcls
    | refined hshape h =>
      rw [shape_of_shape? (hv.shape hshape)]
      exact (hnext _ h).mono fun _ hparent hanswer => .refined hshape (hparent hanswer)
    | inter hshape ha hb =>
      rw [shape_of_shape? (hv.shape hshape)]
      refine ((hnext _ ha).orElse (hnext _ hb)).mono fun _ h hanswer => ?_
      rcases h hanswer with h | h
      · exact .interLeft hshape h
      · exact .interRight hshape h
    | union hshape ha hb =>
      rw [shape_of_shape? (hv.shape hshape)]
      refine ((hnext _ ha).andThen (hnext _ hb)).mono fun _ h hanswer => ?_
      exact .union hshape (h hanswer).1 (h hanswer).2
  exact ensures_descend (fun _ h => absurd h Bool.false_ne_true) hstep n t ht

theorem Closed.excluding_of_isNotNull (hw : w.Closed) (hstd : w.Standard) (hC : ∀ {s}, C s → w.decls.isClass s)
    (ht : w.ClassType C t) (hv : w ≤ v) (hr : t.isNotNull v = .ok (true, v')) :
    w.Excluding (fun s => C s ∧ w.Excludes s) t :=
  ensures_run (hw.ensures_isNotNull hstd hC _ ht) hv hr rfl

/-- The head of a type that excludes `null` is one of the classes that do. -/
theorem Excluding.of_typeSymbolFrom (h : w.Excluding E t) (hE : ∀ {s}, E s → w.decls.isClass s) (hv : w ≤ v)
    {n : Nat} {g : Guard Ty} (hs : v.typeSymbolFrom n g t = some s) : E s := by
  induction h generalizing n g with
  | ref hshape hs' =>
    obtain ⟨m, g', hs⟩ := typeSymbolFrom_some hs
    rw [shape_of_shape? (hv.shape hshape)] at hs
    have hcls := hE hs'
    simp only [Declarations.isClass, decide_eq_true_eq] at hcls
    simp [hv.decls, Declarations.isSynonym, hcls] at hs
    exact hs ▸ hs'
  | refined hshape _ ih =>
    obtain ⟨m, g', hs⟩ := typeSymbolFrom_some hs
    rw [shape_of_shape? (hv.shape hshape)] at hs
    exact ih hs
  | interLeft hshape | interRight hshape | union hshape =>
    obtain ⟨m, g', hs⟩ := typeSymbolFrom_some hs
    rw [shape_of_shape? (hv.shape hshape)] at hs
    cases hs

theorem Excluding.aliased? (h : w.Excluding E t) (hE : ∀ {s}, E s → w.decls.isClass s) (hv : w ≤ v) :
    v.aliased? t = none := by
  cases h with
  | ref hshape hs =>
    have hcls := hE hs
    simp only [Declarations.isClass, decide_eq_true_eq] at hcls
    simp [World.aliased?, shape_of_shape? (hv.shape hshape), hv.decls, Declarations.isSynonym, hcls]
  | refined hshape | interLeft hshape | interRight hshape | union hshape =>
    simp [World.aliased?, shape_of_shape? (hv.shape hshape)]

/-- Where the null class has its own rule for such a type, it is because the class at its head has `null`. -/
theorem Excluding.of_nullConforms (h : w.Excluding E t) (hE : ∀ {s}, E s → w.decls.isClass s) (hv : w ≤ v)
    (hr : nullConforms t v = .ok (true, v')) : ∃ s, E s ∧ s.isReferenceClass v = .ok (true, v') := by
  have hdealias : v.dealias t = t := by
    unfold dealias dealiasFrom
    rw [h.aliased? hE hv]
  rw [nullConforms, get_bind_run, hdealias] at hr
  cases hs : v.typeSymbol? t with
  | some s =>
    rw [hs] at hr
    exact ⟨s, h.of_typeSymbolFrom hE hv hs, hr⟩
  | none =>
    rw [hs] at hr
    cases hr

/-! ## Type constructors -/

theorem ne_nil_of_mapM {α β : Type} {f : α → Except Halt β} {l : List α} {bs : List β} (hl : l ≠ [])
    (h : l.mapM f = .ok bs) : bs ≠ [] := by
  obtain ⟨a, l, rfl⟩ := List.exists_cons_of_ne_nil hl
  rw [List.mapM_cons] at h
  cases ha : f a with
  | error e => rw [ha] at h; cases h
  | ok b =>
    cases hl : l.mapM f with
    | error e => rw [ha, hl] at h; cases h
    | ok bs' =>
      rw [ha, hl] at h
      cases h
      exact List.cons_ne_nil b bs'

theorem typeArgs_ne_nil {q : Ty} {n : Nat} {args : List Ty} (ht : w.shape? t = some (.named q s))
    (hcls : w.decls.isClass s) (hparams : w.decls.typeParams s ≠ []) (h : w.typeArgs n t = .ok args) : args ≠ [] := by
  rw [typeArgs, typeSymbol?_class ht hcls] at h
  exact ne_nil_of_mapM hparams h

theorem typeParams_register {ds : Declarations} (d : Declaration) (hs : ds.typeParams s ≠ []) :
    (ds.register d).2.typeParams s ≠ [] := by
  obtain ⟨e, he⟩ : ∃ e, ds.get? s = some e := by
    cases he : ds.get? s with
    | none => simp [Declarations.typeParams, he] at hs
    | some e => exact ⟨e, rfl⟩
  simp only [Declarations.typeParams, he] at hs
  simp only [Declarations.typeParams, Declarations.register, Declarations.get?_update, get?_push he]
  split
  · cases d.kind <;> simp_all [Declaration.enroll]
  · exact hs

/-- Each trait of type constructors has a parameter. -/
theorem Built.typeParams_trait (hw : w.Built) (hs : Builtin.isTrait s) : w.decls.typeParams s ≠ [] := by
  induction hw with
  | initial =>
    have htraits : ∀ t ∈ Builtin.traits, World.initial.decls.typeParams t.2 ≠ [] := by decide +kernel
    obtain ⟨t, ht, hts⟩ := List.any_eq_true.1 hs
    exact of_decide_eq_true hts ▸ htraits t ht
  | register _ d _ _ ih => exact typeParams_register d ih
  | parents _ s' parents _ ih =>
    simp only [Declarations.typeParams, Declarations.setParents, Declarations.get?_update] at ih ⊢
    split
    · rw [Option.map_map]
      exact ih
    · exact ih
  | _ => assumption

/-! ## The null class -/

/-- What keeps the null class apart from the classes in `C` that exclude `null`. -/
structure NullApart (w : World) (C : Symbol → Prop) : Prop where
  isClass : ∀ {s}, C s → w.decls.isClass s
  null : C Builtin.null.symbol
  marker : C Builtin.notNull.symbol
  /-- A class under the root class that carries the marker is a value class. -/
  marked : ∀ {s}, C s → w.Under s Builtin.notNull.symbol → w.Under s Builtin.object.symbol →
    w.Under s Builtin.anyVal.symbol
  /-- Nothing that the null class inherits from excludes `null`. -/
  above : ∀ {s}, C s → w.Under Builtin.null.symbol s → ¬ w.Excludes s
  /-- No other class is called like the null class or the marker. -/
  name : ∀ {s b}, C s → b ∈ [Builtin.null, .notNull] → w.decls.name s = b.name → s = b.symbol
  params : w.decls.typeParams Builtin.null.symbol = []

namespace NullApart

variable {erased : Bool}

theorem ne_null (hstd : w.Standard) (h : w.NullApart C) (hs : w.Excludes s) : s ≠ Builtin.null.symbol := by
  rintro rfl
  exact h.above h.null (under_self (hstd.isClass .null)) hs

theorem not_isReferenceClass (h : w.NullApart C) (hw : w.Closed) (hv : w ≤ v) (hs : C s) (hexcludes : w.Excludes s)
    (hr : s.isReferenceClass v = .ok (true, v')) : False := by
  obtain ⟨hnothing, hval, hobject⟩ := hw.under_of_isReferenceClass hv hr
  rcases hexcludes with hs' | hs' | hs'
  · exact hnothing hs'
  · exact hval hs'
  · exact hval (h.marked hs hs' hobject)

/-- No rule for the null class as the source applies. -/
theorem demands_fourth (h : w.NullApart C) (hw : w.Closed) (hstd : w.Standard)
    (ht : w.Excluding (fun s => C s ∧ w.Excludes s) t) (hv : w ≤ v) (sub : Ty → Ty → CompareM Bool) :
    Demands v (fourth sub Builtin.null.type t) False := by
  refine (demands_fourth_class (hv.shape (hstd.shape .null)) (hv.decls ▸ hstd.isClass .null)).mono ?_
  rintro (hnothing | ⟨-, v₁, v₂, hv₁, hr⟩)
  · exact absurd hnothing (by decide)
  · obtain ⟨s, hs, hr⟩ := ht.of_nullConforms (fun hs => h.isClass hs.1) (hv.trans hv₁) hr
    exact h.not_isReferenceClass hw (hv.trans hv₁) hs.1 hs.2 hr

/-- The null class is not stable, it has no parameters that a trait could bind, and it does not carry the marker. -/
theorem demands_thirdNamed (h : w.NullApart C) (hw : w.Built) (ht : w.shape? t = some (.named .noPrefix s)) (hs : C s)
    (hexcludes : w.Excludes s) (hv : w ≤ v) {n : Nat} {sub : Ty → Ty → CompareM Bool} :
    Demands v (thirdNamed n sub Builtin.null.type t) False := by
  have hcls : v.decls.isClass s := hv.decls ▸ h.isClass hs
  have hnull : v.shape? Builtin.null.type = some (.named .noPrefix Builtin.null.symbol) :=
    hv.shape (hw.standard.shape .null)
  refine (CompareM.demands_thirdNamed (hv.shape ht) hcls (P := False) (Q := False) (fun _ => ?_) (fun htrait => ?_)
    (h.demands_fourth hw.closed hw.standard (.ref ht ⟨hs, hexcludes⟩) hv sub)).mono ?_
  · refine demands_reading fun v₁ hv₁ hstable => ?_
    cases n with
    | zero => cases hstable
    | succ n =>
      rw [isStable, shape_of_shape? (hv₁.shape hnull)] at hstable
      cases hstable
  · refine demands_conformsAsConstructor fun v₁ params args hv₁ hparams hargs hlength => ?_
    have hdecls := (hv.trans hv₁).decls
    rw [openTypeParams, typeSymbol?_class (hv₁.shape hnull) (hdecls ▸ hw.standard.isClass .null)] at hparams
    simp only [hdecls, h.params] at hparams
    obtain rfl : [] = params := by cases hparams; rfl
    have hopen := hdecls ▸ hw.typeParams_trait htrait
    exact typeArgs_ne_nil ((hv.trans hv₁).shape ht) (hdecls ▸ h.isClass hs) hopen hargs
      (List.length_eq_zero_iff.1 hlength.symm)
  · rintro (⟨-, h⟩ | ⟨-, v₁, v₂, hv₁, hr⟩ | ⟨-, h⟩ | h)
    · exact h
    · have hnullType : w.ClassType (· = Builtin.null.symbol) Builtin.null.type := .ref (hw.standard.shape .null) rfl
      have hexcluding := hw.closed.excluding_of_isNotNull hw.standard (by rintro s rfl; exact hw.standard.isClass .null)
        hnullType (hv.trans hv₁) hr
      cases hexcluding with
      | ref hshape hs' => exact h.ne_null hw.standard hs'.2 hs'.1
      | refined hshape | interLeft hshape | interRight hshape | union hshape =>
        cases hshape.symm.trans (hw.standard.shape .null)
    · exact h
    · exact h

/-- The null class does not conform to a class that excludes `null`. -/
theorem not_conforms_ref (h : w.NullApart C) (hw : w.Built) (ht : w.shape? t = some (.named .noPrefix s)) (hs : C s)
    (hexcludes : w.Excludes s) (hv : w ≤ v) : ¬ Conforms erased v Builtin.null.type t := by
  intro hconforms
  have hne := h.ne_null hw.standard hexcludes
  refine hconforms.invert (fun heq => ?_) fun sub n hsub => ?_
  · cases (hw.standard.shape .null).symm.trans (heq ▸ ht)
    exact hne rfl
  · have hname : v.decls.name Builtin.null.symbol ≠ v.decls.name s := by
      rw [hv.decls, hw.standard.name]
      exact fun hname => hne (h.name hs (by simp) hname.symm)
    refine (demands_first_names (hv.shape (hw.standard.shape .null)) (hv.shape ht) (Ne.symm hne) hname
      (fun a b => (hsub _ le_rfl a b).mono fun _ => trivial) (h.demands_thirdNamed hw ht hs hexcludes hv)).mono ?_
    rintro (⟨base, v₁, v₂, hv₁, hr, hpresent⟩ | h)
    · have hnull := hw.standard.shape .null
      exact h.above hs (hw.closed.under_of_baseType hnull (hw.standard.isClass .null) (hv.trans hv₁) hr hpresent)
        hexcludes
    · exact h

/-- The null class conforms to a type that is built from others by the rules for that type alone. -/
theorem not_conforms_of_third {d : Shape} (hw : w.Built) (ht : w.shape? t = some d) (hd : isPlain d)
    (hnamed : d.isNamed = false) (hv : w ≤ v)
    (hthird : ∀ sub n, (∀ v₁, v ≤ v₁ → ∀ a b, Demands v₁ (sub a b) (∃ v', v₁ ≤ v' ∧ Conforms erased v' a b)) →
      Demands v (third n sub Builtin.null.type t) False) : ¬ Conforms erased v Builtin.null.type t := by
  have hnull := hw.standard.shape .null
  intro hconforms
  refine hconforms.invert (fun heq => ?_) fun sub n hsub => ?_
  · cases hnull.symm.trans (heq ▸ ht)
    cases hnamed
  · exact demands_first (hv.shape hnull) rfl (hv.shape ht) hd hnamed (hthird sub n hsub)

/-- **The null class conforms to no type that excludes `null`.** The induction is on how the type does. -/
theorem not_conforms (h : w.NullApart C) (hw : w.Built) (ht : w.Excluding (fun s => C s ∧ w.Excludes s) t)
    (hv : w ≤ v) : ¬ Conforms erased v Builtin.null.type t := by
  induction ht generalizing v with
  | ref hshape hs => exact h.not_conforms_ref hw hshape hs.1 hs.2 hv
  | refined hshape hparent ih =>
    refine not_conforms_of_third hw hshape rfl rfl hv fun sub n hsub => ?_
    have hfourth := h.demands_fourth hw.closed hw.standard (.refined hshape hparent) hv sub
    refine (demands_third_refined (hv.shape hshape) hsub hfourth).mono ?_
    rintro (⟨⟨v₁, hv₁, v', hv', hc⟩, -⟩ | h)
    · exact ih (hv.trans (hv₁.trans hv')) hc
    · exact h
  | interLeft hshape _ ih =>
    refine not_conforms_of_third hw hshape rfl rfl hv fun sub n hsub => ?_
    refine (demands_third_inter (hv.shape hshape) (hsub _ le_rfl _ _) (hsub _ le_rfl _ _)).mono ?_
    rintro ⟨⟨v', hv', hc⟩, -⟩
    exact ih (hv.trans hv') hc
  | interRight hshape _ ih =>
    refine not_conforms_of_third hw hshape rfl rfl hv fun sub n hsub => ?_
    refine (demands_third_inter (hv.shape hshape) (hsub _ le_rfl _ _) (hsub _ le_rfl _ _)).mono ?_
    rintro ⟨-, v', hv', hc⟩
    exact ih (hv.trans hv') hc
  | union hshape ha hb iha ihb =>
    refine not_conforms_of_third hw hshape rfl rfl hv fun sub n hsub => ?_
    have hfourth := h.demands_fourth hw.closed hw.standard (.union hshape ha hb) hv sub
    refine (demands_third_union (hv.shape hshape) (hsub _ le_rfl _ _) (hsub _ le_rfl _ _) hfourth).mono ?_
    rintro (⟨v', hv', hc⟩ | ⟨v', hv', hc⟩ | h)
    · exact iha (hv.trans hv') hc
    · exact ihb (hv.trans hv') hc
    · exact h

/-! ### Types with the marker -/

/-- As a source of the marker a type is taken for what it is, or by the rules for it alone. -/
theorem demands_marker {P : Prop} {n : Nat} {sub : Ty → Ty → CompareM Bool} (h : w.NullApart C) (hw : w.Built)
    (ht : w.ClassType C t) (hv : w ≤ v) (hfourth : Demands v (fourth sub t Builtin.notNull.type) P)
    (hP : P → w.Excluding (fun s => C s ∧ w.Excludes s) t) :
    Demands v (CompareM.thirdNamed n sub t Builtin.notNull.type) (w.Excluding (fun s => C s ∧ w.Excludes s) t) := by
  have hcls : v.decls.isClass Builtin.notNull.symbol := hv.decls ▸ hw.standard.isClass .notNull
  refine (CompareM.demands_thirdNamed (hv.shape (hw.standard.shape .notNull)) hcls (P := False) (Q := False)
    (fun hs => absurd hs (by decide)) (fun hs => absurd hs (by decide)) hfourth).mono ?_
  rintro (⟨-, h⟩ | ⟨-, v₁, v₂, hv₁, hr⟩ | ⟨-, h⟩ | h)
  · exact h.elim
  · exact hw.closed.excluding_of_isNotNull hw.standard h.isClass ht (hv.trans hv₁) hr
  · exact h.elim
  · exact hP h

/-- A class that conforms to the marker excludes `null`. -/
theorem excluding_of_conforms_ref (h : w.NullApart C) (hw : w.Built) (ht : w.shape? t = some (.named .noPrefix s))
    (hs : C s) (hv : w ≤ v) (hconforms : Conforms erased v t Builtin.notNull.type) :
    w.Excluding (fun s => C s ∧ w.Excludes s) t := by
  have hmarker := hw.standard.shape .notNull
  have hunder : w.Under s Builtin.notNull.symbol → w.Excluding (fun s => C s ∧ w.Excludes s) t := fun hunder =>
    .ref ht ⟨hs, .inr (.inr hunder)⟩
  by_cases hne : s = Builtin.notNull.symbol
  · subst hne
    exact hunder (under_self (hw.standard.isClass .notNull))
  have hname : v.decls.name s ≠ v.decls.name Builtin.notNull.symbol := by
    rw [hv.decls, hw.standard.name]
    exact fun hname => hne (h.name hs (by simp) hname)
  have hcls : v.decls.isClass s := hv.decls ▸ h.isClass hs
  refine hconforms.invert (fun heq => ?_) fun sub n hsub => ?_
  · cases (heq ▸ ht).symm.trans hmarker
    exact absurd rfl hne
  · have hthird : Demands v (CompareM.thirdNamed n sub t Builtin.notNull.type) _ :=
      h.demands_marker hw (.ref ht hs) hv (demands_fourth_class (hv.shape ht) hcls) ?_
    · refine (demands_first_names (hv.shape ht) (hv.shape hmarker) hne hname
        (fun a b => (hsub _ le_rfl a b).mono fun _ => trivial) hthird).mono ?_
      rintro (⟨base, v₁, v₂, hv₁, hr, hpresent⟩ | h')
      · exact hunder (hw.closed.under_of_baseType ht (h.isClass hs) (hv.trans hv₁) hr hpresent)
      · exact h'
    · rintro (hnothing | ⟨-, v₁, v₂, hv₁, hr⟩)
      · exact .ref ht ⟨hs, .inl hnothing⟩
      · -- the null class would conform to the marker itself
        have hexcludes : w.Excludes Builtin.notNull.symbol := .inr (.inr (under_self (hw.standard.isClass .notNull)))
        have hexcluding : w.Excluding (fun s => C s ∧ w.Excludes s) Builtin.notNull.type :=
          .ref hmarker ⟨h.marker, hexcludes⟩
        obtain ⟨s', hs', hr⟩ := hexcluding.of_nullConforms (fun hs => h.isClass hs.1) (hv.trans hv₁) hr
        exact (h.not_isReferenceClass hw.closed (hv.trans hv₁) hs'.1 hs'.2 hr).elim

/-- **A type that conforms to the marker excludes `null`.** The induction is on how the type is built. -/
theorem excluding_of_conforms (h : w.NullApart C) (hw : w.Built) (ht : w.ClassType C t) (hv : w ≤ v)
    (hconforms : Conforms erased v t Builtin.notNull.type) : w.Excluding (fun s => C s ∧ w.Excludes s) t := by
  have hmarker := hw.standard.shape .notNull
  induction ht generalizing v with
  | ref hshape hs => exact h.excluding_of_conforms_ref hw hshape hs hv hconforms
  | refined hshape hparent ih =>
    refine hconforms.invert (fun heq => ?_) fun sub n hsub => ?_
    · cases (heq ▸ hshape).symm.trans hmarker
    · have hfourth := demands_fourth_refined (hv.shape hshape) (hsub _ le_rfl _ Builtin.notNull.type)
      refine demands_first_named (hv.shape hshape) rfl rfl (hv.shape hmarker) ?_
      refine h.demands_marker hw (.refined hshape hparent) hv hfourth ?_
      rintro ⟨v', hv', hc⟩
      exact .refined hshape (ih (hv.trans hv') hc)
  | inter hshape ha hb iha ihb =>
    refine hconforms.invert (fun heq => ?_) fun sub n hsub => ?_
    · cases (heq ▸ hshape).symm.trans hmarker
    · refine demands_first_named (hv.shape hshape) rfl rfl (hv.shape hmarker) ?_
      refine h.demands_marker hw (.inter hshape ha hb) hv
        (demands_fourth_inter (hv.shape hshape) (hsub _ le_rfl _ _) (hsub _ le_rfl _ _)) ?_
      rintro (⟨v', hv', hc⟩ | ⟨v', hv', hc⟩)
      · exact .interLeft hshape (iha (hv.trans hv') hc)
      · exact .interRight hshape (ihb (hv.trans hv') hc)
  | union hshape ha hb iha ihb =>
    refine hconforms.invert (fun heq => ?_) fun sub n hsub => ?_
    · cases (heq ▸ hshape).symm.trans hmarker
    · refine demands_first_named (hv.shape hshape) rfl rfl (hv.shape hmarker) ?_
      refine h.demands_marker hw (.union hshape ha hb) hv
        (demands_fourth_union (hv.shape hshape) (hsub _ le_rfl _ _) (hsub _ le_rfl _ _)) ?_
      rintro ⟨⟨v', hv', hc⟩, v'', hv'', hc'⟩
      exact .union hshape (iha (hv.trans hv') hc) (ihb (hv.trans hv'') hc')

end NullApart

end World

namespace CompareM

/-! ## Comparisons -/

variable {w w' : World} {C : Symbol → Prop} {t : Ty} {fuel : Nat} {c c' : Comparer}

/-- **A type that the null class conforms to has `null`.** Nothing is under inference, and no class in `C` has both
the root class and the marker above it, unless it is a value class. If the null class conforms to a type that is built
from classes in `C`, then the type is not taken for one without `null`, and it does not conform to the marker. -/
theorem isSubType_null_safe (hw : w.Built) (hC : w.NullApart C) (ht : w.ClassType C t) (hc : c.AtRest)
    (hrun : isSubType fuel Builtin.null.type t c w = .ok ((true, c'), w')) :
    (∀ v, w ≤ v → ∃ v', t.isNotNull v = .ok (false, v')) ∧
      ∀ {fuel : Nat} {d d' : Comparer} {w' : World} {answer : Bool}, d.AtRest →
        isSubType fuel t Builtin.notNull.type d w = .ok ((answer, d'), w') → answer = false := by
  have hhas : w.Has t := by cases ht <;> simp [World.Has, *]
  have hconforms : Conforms c.options.erasedTypes w Builtin.null.type t :=
    conforms_of_run hw.closed (hw.closed.fixed _ (by decide)) hhas hc hrun le_rfl
  have hnot : ¬ w.Excluding (fun s => C s ∧ w.Excludes s) t := fun h => hC.not_conforms hw h le_rfl hconforms
  constructor
  · intro v hv
    obtain ⟨answer, v', hr, -⟩ := (grows_isNotNull t).total v
    cases answer with
    | false => exact ⟨v', hr⟩
    | true => exact absurd (hw.closed.excluding_of_isNotNull hw.standard hC.isClass ht hv hr) hnot
  · intro fuel d d' w' answer hd hrun
    cases answer with
    | false => rfl
    | true =>
      have hmarker := conforms_of_run hw.closed hhas (hw.closed.fixed _ (by decide)) hd hrun le_rfl
      exact absurd (hC.excluding_of_conforms hw ht le_rfl hmarker) hnot

/-- `Int | String` among the built-in classes: `null` is a value of it. -/
theorem isSubType_null_safe_either :
    let either := World.initial.types.intern (.union Builtin.int.type Builtin.string.type)
    let w := { World.initial with types := either.2 }
    let c : Comparer := { options := {}, constraint := ⟨{}, 0⟩, depth := { threshold := 50 },
                          pending := { bounds := .none } }
    w.NullApart (· ∈ Builtin.all.map Builtin.symbol) ∧
      (∃ c' w', isSubType 60 Builtin.null.type either.1 c w = .ok ((true, c'), w')) ∧
      ∃ v, either.1.isNotNull w = .ok (false, v) := by
  intro either w c
  have hbuilt : w.Built := .intern .initial _ (.union ⟨rfl, by decide +kernel⟩ ⟨rfl, by decide +kernel⟩)
  let classes := Builtin.all.map Builtin.symbol
  have hmarked : ∀ s ∈ classes, w.Under s Builtin.notNull.symbol → w.Under s Builtin.object.symbol →
      w.Under s Builtin.anyVal.symbol := by decide +kernel
  have habove : ∀ s ∈ classes, w.Under Builtin.null.symbol s → ¬ w.Excludes s := by decide +kernel
  have hname : ∀ s ∈ classes, ∀ b ∈ [Builtin.null, .notNull], w.decls.name s = b.name → s = b.symbol := by
    decide +kernel
  have happart : w.NullApart (· ∈ classes) :=
    { isClass := fun {s} => (by decide +kernel : ∀ s ∈ classes, w.decls.isClass s) s
      null := by decide
      marker := by decide
      marked := fun {s} => hmarked s
      above := fun {s} => habove s
      name := fun {s b} hs => hname s hs b
      params := by decide +kernel }
  obtain ⟨c', w', hrun⟩ : ∃ c' w', isSubType 60 Builtin.null.type either.1 c w = .ok ((true, c'), w') :=
    exists_of_answer (by decide +kernel)
  have htype : w.ClassType (· ∈ classes) either.1 :=
    .union (TypeTable.shape?_intern _ _) (.ref (hbuilt.standard.shape .int) (by decide))
      (.ref (hbuilt.standard.shape .string) (by decide))
  have hsafe := isSubType_null_safe hbuilt happart htype ⟨rfl, rfl, rfl, rfl, rfl⟩ hrun
  exact ⟨happart, ⟨c', w', hrun⟩, hsafe.1 w le_rfl⟩

/-- A class `S` under the root class that carries the marker: it is taken for a type without `null`, and it conforms to
the marker, but the null class conforms to it. -/
theorem isNotNull_of_null :
    let S := World.initial.types.intern (.named .noPrefix ⟨44⟩)
    let declared := World.initial.decls.register
      { kind := .cls, name := "S", owner := .absent, flags := { static := true } }
    let w := { World.initial with
                types := S.2, decls := declared.2.setParents declared.1 [Builtin.object.type, Builtin.notNull.type] }
    let c : Comparer := { options := {}, constraint := ⟨{}, 0⟩, depth := { threshold := 50 },
                          pending := { bounds := .none } }
    w.Built ∧ w.ClassType (w.decls.isClass ·) S.1 ∧ c.AtRest ∧
      ((S.1.isNotNull w).toOption.map (·.1)) = some true ∧
      ((isSubType 60 Builtin.null.type S.1 c w).toOption.map (·.1.1)) = some true ∧
      ((isSubType 60 S.1 Builtin.notNull.type c w).toOption.map (·.1.1)) = some true := by
  intro S declared w c
  have hS : World.Built { World.initial with types := S.2 } :=
    .intern .initial _ (World.mentions_named (by decide +kernel) _)
  have hdeclared : World.Built { World.initial with types := S.2, decls := declared.2 } :=
    .register hS _ (by decide +kernel) (by intro _ ht; cases ht)
  refine ⟨.parents hdeclared _ _ (by decide +kernel), .ref (TypeTable.shape?_intern _ _) (by decide +kernel),
    ⟨rfl, rfl, rfl, rfl, rfl⟩, by decide +kernel, by decide +kernel, by decide +kernel⟩

end CompareM

end Conformance
