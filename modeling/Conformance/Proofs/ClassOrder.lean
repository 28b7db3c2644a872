import Conformance.Proofs.NullSafety
import Conformance.Proofs.Transport

/-!
# The order of classes

A class leans on another one if a type that it heads conforms to one that the other heads: a reference to the class, bare
or under refinements. The cascade compares such types by the names of the classes, by inheritance, or by the rules for
the bottom class, for null, for the marker of types without null and for traits (`World.Leans.cases`). So where the names
of the classes can be ranked such that each of these goes up (`World.Ranked`), classes that lie beneath each other have
one name (`World.Ranked.name_eq`).
-/

namespace Conformance

open Relation CompareM

/-- What conforms later, of what was given out, conforms now. -/
theorem Conforms.now {erased : Bool} {w v : World} {t u : Ty} (h : Conforms erased v t u) (hw : w.Closed) (hv : w ≤ v)
    (ht : w.Has t) (hu : w.Has u) : Conforms erased w t u :=
  h.transport (hw.identity_matches.grow hv le_rfl) ⟨rfl, ht⟩ ⟨rfl, hu⟩

namespace World

/-! ## Steps between classes -/

/-- The type is a reference to the class under refinements. -/
inductive HeadedBy (w : World) (s : Symbol) : Ty → Prop
  | ref {t q : Ty} (ht : w.shape? t = some (.named q s)) (hs : w.decls.isClass s) : HeadedBy w s t
  | refined {t parent info : Ty} {name : String} (ht : w.shape? t = some (.refined parent name info))
    (h : HeadedBy w s parent) : HeadedBy w s t

/-- A type that the first class heads conforms to one that the second heads. -/
def Leans (erased : Bool) (w : World) (s s' : Symbol) : Prop :=
  ∃ t u, w.HeadedBy s t ∧ w.HeadedBy s' u ∧ Conforms erased w t u

/-- The first class leans on the second, or on a class that lies beneath it. -/
abbrev Beneath (erased : Bool) (w : World) : Symbol → Symbol → Prop := ReflTransGen (Leans erased w)

variable {erased : Bool} {w v v' : World} {t u q : Ty} {s s' c cls : Symbol} {n : Nat}

namespace HeadedBy

theorem has (h : w.HeadedBy s t) : w.Has t := by
  cases h with
  | ref ht | refined ht => exact Option.isSome_of_eq_some ht

theorem grow (h : w.HeadedBy s t) (hv : w ≤ v) : v.HeadedBy s t := by
  induction h with
  | ref ht hs => exact .ref (hv.shape ht) (hv.decls ▸ hs)
  | refined ht _ ih => exact .refined (hv.shape ht) ih

theorem isClass (h : w.HeadedBy s t) : w.decls.isClass s := by
  induction h with
  | ref _ hs => exact hs
  | refined _ _ ih => exact ih

theorem unique (h : w.HeadedBy s t) (h' : w.HeadedBy s' t) : s = s' := by
  induction h with
  | ref ht _ =>
    cases h' with
    | ref ht' =>
      cases ht.symm.trans ht'
      rfl
    | refined ht' => cases ht.symm.trans ht'
  | refined ht _ ih =>
    cases h' with
    | ref ht' => cases ht.symm.trans ht'
    | refined ht' h' =>
      cases ht.symm.trans ht'
      exact ih h'

theorem not_isStable (h : w.HeadedBy s t) (n : Nat) : w.isStable n t ≠ .ok true := by
  cases n with
  | zero => rintro ⟨⟩
  | succ n =>
    cases h with
    | ref ht | refined ht =>
      rw [isStable, shape_of_shape? ht]
      rintro ⟨⟩

theorem typeSymbolFrom {g : Guard Ty} (h : w.HeadedBy s t) (hc : w.typeSymbolFrom n g t = some c) : c = s := by
  induction h generalizing n g with
  | ref ht hs =>
    have hsynonym : w.decls.isSynonym s = false := by
      simp only [Declarations.isClass, decide_eq_true_eq] at hs
      simp [Declarations.isSynonym, hs]
    obtain ⟨m, g', hc⟩ := typeSymbolFrom_some hc
    simp only [shape_of_shape? ht, hsynonym] at hc
    exact (Option.some.inj hc).symm
  | refined ht _ ih =>
    obtain ⟨m, g', hc⟩ := typeSymbolFrom_some hc
    rw [shape_of_shape? ht] at hc
    exact ih hc

theorem dealias (h : w.HeadedBy s t) : w.dealias t = t := by
  have haliased : w.aliased? t = none := by
    cases h with
    | ref ht hs =>
      simp only [Declarations.isClass, decide_eq_true_eq] at hs
      rw [aliased?, shape_of_shape? ht]
      simp [Declarations.isSynonym, hs]
    | refined ht => rw [aliased?, shape_of_shape? ht]
  rw [World.dealias, dealiasFrom, haliased]

/-- Null conforms to the type only if it does so to the class. -/
theorem isReferenceClass (h : w.HeadedBy s t) (hr : nullConforms t w = .ok (true, v)) :
    s.isReferenceClass w = .ok (true, v) := by
  rw [nullConforms, get_bind_run, h.dealias] at hr
  cases hc : w.typeSymbol? t with
  | none => rw [hc] at hr; cases hr
  | some c =>
    rw [hc] at hr
    exact h.typeSymbolFrom hc ▸ hr

/-- The type is never null only if the class excludes null. -/
theorem excludes (hw : w.Closed) (hstd : w.Standard) (h : w.HeadedBy s t) (hv : w ≤ v)
    (hr : t.isNotNull v = .ok (true, v')) : w.Excludes s := by
  refine ensures_run (ensures_descend (D := w.HeadedBy s) (P := fun _ answer => answer = true → w.Excludes s)
    (fun _ h => absurd h Bool.false_ne_true) ?_ _ t h) hv hr rfl
  intro next t ht hnext
  refine .world_bind fun v₁ hv₁ => ?_
  cases ht with
  | ref ht hs =>
    rw [shape_of_shape? (hv₁.shape ht)]
    refine .ite (fun _ => .lift (grows_classExcludes s) fun v₂ answer v₃ hv₂ hr hanswer => ?_) fun hcls => ?_
    · subst hanswer
      exact hw.excludes_of_run hstd hv₂ hr
    · exact absurd (hv₁.decls ▸ hs) hcls
  | refined ht h =>
    rw [shape_of_shape? (hv₁.shape ht)]
    exact hnext _ h

end HeadedBy

/-! ### The parameters of a trait -/

theorem sublist_of_filterM {α : Type} {f : α → Except Halt Bool} {l r : List α} (h : l.filterM f = .ok r) :
    r.Sublist l := by
  have haux : ∀ (l acc r : List α), List.filterAuxM f l acc = .ok r → ∃ k : List α, k.Sublist l ∧ r = k.reverse ++ acc := by
    intro l
    induction l with
    | nil =>
      intro acc r hr
      cases hr
      exact ⟨[], .slnil, rfl⟩
    | cons a l ih =>
      intro acc r hr
      rw [List.filterAuxM] at hr
      cases hf : f a with
      | error e => rw [hf] at hr; cases hr
      | ok b =>
        rw [hf] at hr
        obtain ⟨k, hk, rfl⟩ := ih (cond b (a :: acc) acc) r hr
        cases b with
        | true => exact ⟨a :: k, hk.cons_cons a, by simp⟩
        | false => exact ⟨k, hk.cons a, rfl⟩
  rw [List.filterM] at h
  cases hl : List.filterAuxM f l [] with
  | error e => rw [hl] at h; cases h
  | ok r' =>
    rw [hl] at h
    obtain ⟨k, hk, rfl⟩ := haux l [] r' hl
    cases h
    simpa using hk

theorem length_of_mapM {α β : Type} {f : α → Except Halt β} {l : List α} {r : List β} (h : l.mapM f = .ok r) :
    r.length = l.length := by
  induction l generalizing r with
  | nil => cases h; rfl
  | cons a l ih =>
    rw [List.mapM_cons] at h
    cases ha : f a with
    | error e => rw [ha] at h; cases h
    | ok b =>
      cases hl : l.mapM f with
      | error e => rw [ha, hl] at h; cases h
      | ok r' =>
        rw [ha, hl] at h
        cases h
        exact congrArg (· + 1) (ih hl)

/-- The variances of the parameters of the second class are among those of the first one, in order. -/
def Fits (w : World) (s s' : Symbol) : Prop :=
  ((w.decls.typeParams s').map w.decls.variance).Sublist ((w.decls.typeParams s).map w.decls.variance)

instance : Decidable (w.Fits s s') := inferInstanceAs (Decidable (List.Sublist _ _))

theorem map_eq_of_zip {α β : Type} [DecidableEq β] {f : α → β} {l l' : List α} (hlength : l.length = l'.length)
    (h : (l.zip l').all fun (a, b) => f a = f b) : l.map f = l'.map f := by
  have hpairs : List.Forall₂ (fun a b => f a = f b) l l' :=
    List.forall₂_iff_zip.2 ⟨hlength, fun {a b} hab => of_decide_eq_true (List.all_eq_true.1 h (a, b) hab)⟩
  rwa [← List.forall₂_eq_eq_eq, List.forall₂_map_left_iff, List.forall₂_map_right_iff]

/-- The open parameters of the type are parameters of the class, in order. -/
theorem HeadedBy.openTypeParams {params : List Symbol} (h : w.HeadedBy s t) (hr : w.openTypeParams n t = .ok params) :
    params.Sublist (w.decls.typeParams s) := by
  rw [World.openTypeParams] at hr
  cases hc : w.typeSymbol? t with
  | none =>
    rw [hc] at hr
    cases hr
    exact List.nil_sublist _
  | some c =>
    rw [hc] at hr
    exact h.typeSymbolFrom hc ▸ sublist_of_filterM hr

/-- A class that is compared with a trait by its parameters fits it. -/
theorem HeadedBy.demands_conformsAsConstructor {sub : Ty → Ty → CompareM Bool} (ht : w.HeadedBy s t)
    (hu : w.shape? u = some (.named q s')) (hcls : w.decls.isClass s')
    (hsub : ∀ v, w ≤ v → ∀ a b, Demands v (sub a b) True) :
    Demands w (conformsAsConstructor n sub t u) (w.Fits s s') := by
  refine .lift_bind (grows_reading fun w => starves_openTypeParams w n t) fun params v v₁ hv hparams =>
    .lift_bind (grows_reading fun w => starves_typeArgs w n u) fun args v₂ v₃ hv₂ hargs => .ite (fun _ => .false)
      fun hlength => ?_
  obtain ⟨hparams, rfl⟩ := reading_ok hparams
  obtain ⟨hargs, rfl⟩ := reading_ok hargs
  have hv₂ := hv.trans hv₂
  rw [typeArgs, typeSymbol?_class (hv₂.shape hu) (hv₂.decls ▸ hcls)] at hargs
  have hargs := length_of_mapM hargs
  have hopen := (ht.grow hv).openTypeParams hparams
  rw [hv.decls] at hopen
  rw [hv₂.decls] at hargs
  refine .lift_bind (grows_skolem t) fun base v₄ v₅ hv₄ hskolem => ?_
  have hv₅ := hv₂.trans (hv₄.trans ((grows_skolem t : Grows True _).le_of_ok hskolem))
  refine .bind (P := True) (.allM fun pair v' hv' => ?_) fun fit v' hv' _ => .world_bind fun v'' hv'' => ?_
  · refine .world_bind fun v₆ hv₆ => .lift_bind (grows_member _ _) fun info v₇ v₈ hv₇ hmember =>
      .lift_bind (grows_asBounds _) fun lo v₉ v₁₀ hv₉ hlo => .lift_bind (grows_asBounds _) fun hi v₁₁ v₁₂ hv₁₁ hhi =>
        hsub v₁₂ ?_ lo hi
    have h₈ := (hv₅.trans (hv'.trans hv₆)).trans (hv₇.trans ((grows_member _ _ : Grows True _).le_of_ok hmember))
    have h₁₀ := h₈.trans (hv₉.trans ((grows_asBounds _ : Grows True _).le_of_ok hlo))
    exact h₁₀.trans (hv₁₁.trans ((grows_asBounds _ : Grows True _).le_of_ok hhi))
  · have hle := hv₅.trans (hv'.trans hv'')
    rw [typeSymbol?_class (hle.shape hu) (hle.decls ▸ hcls), hle.decls]
    refine .of_return fun hall => ?_
    rw [Bool.and_eq_true] at hall
    have hsame := map_eq_of_zip (f := w.decls.variance) ((not_not.1 hlength).trans hargs) hall.2
    rw [Fits, Option.map_some, Option.getD_some] at *
    exact hsame ▸ hopen.map _

/-! ### What a step takes -/

/-- What lets a type that the first class heads conform to one that the second heads: one name, inheritance, or a rule
for the bottom class, for null, for the marker of types without null or for traits. -/
inductive ClassStep (w : World) (s s' : Symbol) : Prop
  | name (h : w.decls.name s = w.decls.name s') : ClassStep w s s'
  | inherits {t q : Ty} (ht : w.shape? t = some (.named q s)) (h : w.Inherits t s') : ClassStep w s s'
  | bottom (h : s = Builtin.nothing.symbol) : ClassStep w s s'
  | null (h : s = Builtin.null.symbol) (hnothing : s' ≠ Builtin.nothing.symbol)
    (hval : ¬ w.Under s' Builtin.anyVal.symbol) (hobject : w.Under s' Builtin.object.symbol) : ClassStep w s s'
  | marker (h : s' = Builtin.notNull.symbol) (hs : w.Excludes s) : ClassStep w s s'
  | trait (h : Builtin.isTrait s') (hs : w.Fits s s') : ClassStep w s s'

/-- In the last step a class is the bottom class or null. -/
theorem demands_fourth_step {sub : Ty → Ty → CompareM Bool} (hw : w.Closed) (ht : w.shape? t = some (.named q s))
    (hs : w.decls.isClass s) (hu : w.HeadedBy s' u) : Demands w (fourth sub t u) (w.ClassStep s s') := by
  refine (demands_fourth_class ht hs).mono ?_
  rintro (hnothing | ⟨hnull, v, v', hv, hr⟩)
  · exact .bottom hnothing
  · obtain ⟨hnothing, hval, hobject⟩ := hw.under_of_isReferenceClass hv ((hu.grow hv).isReferenceClass hr)
    exact .null hnull hnothing hval hobject

/-- A class as the target: where the last step takes one of the rules, so does the third. -/
theorem HeadedBy.demands_thirdNamed {sub : Ty → Ty → CompareM Bool} (hw : w.Built) (ht : w.HeadedBy s t)
    (hu : w.shape? u = some (.named q s')) (hcls : w.decls.isClass s')
    (hsub : ∀ v, w ≤ v → ∀ a b, Demands v (sub a b) True) (hfourth : Demands w (fourth sub t u) (w.ClassStep s s')) :
    Demands w (thirdNamed n sub t u) (w.ClassStep s s') := by
  refine (CompareM.demands_thirdNamed (P := False) hu hcls (fun _ => ?_)
    (fun _ => ht.demands_conformsAsConstructor hu hcls hsub) hfourth).mono ?_
  · exact demands_reading fun v hv hstable => (ht.grow hv).not_isStable n hstable
  · rintro (⟨-, h⟩ | ⟨hmarker, v, v', hv, hr⟩ | ⟨htrait, hfits⟩ | h)
    · exact h.elim
    · exact .marker hmarker (ht.excludes hw.closed hw.standard hv hr)
    · exact .trait htrait hfits
    · exact h

/-- A class or a refinement as the source: where the last step takes one of the rules, so does the comparison. The
induction is on the refinements of the target. -/
theorem HeadedBy.classStep_of_fourth (hw : w.Built) (ht : w.HeadedBy s t) (hu : w.HeadedBy s' u)
    (hconforms : Conforms erased w t u)
    (hfourth : ∀ {u}, w.HeadedBy s' u → ∀ sub : Ty → Ty → CompareM Bool,
      (∀ v, w ≤ v → ∀ a b, Demands v (sub a b) (∃ v', v ≤ v' ∧ Conforms erased v' a b)) →
      Demands w (fourth sub t u) (w.ClassStep s s')) : w.ClassStep s s' := by
  induction hu with
  | @ref u q hu hcls =>
    have hfourth := fun sub => hfourth (.ref hu hcls) sub
    by_cases hname : w.decls.name s = w.decls.name s'
    · exact .name hname
    refine hconforms.invert (fun heq => ?_) fun sub n hsub => ?_
    · exact absurd (congrArg w.decls.name (ht.unique (heq ▸ .ref hu hcls))) hname
    have hsub' : ∀ v, w ≤ v → ∀ a b, Demands v (sub a b) True := fun v hv a b =>
      (hsub v hv a b).mono fun _ => trivial
    have hthird := ht.demands_thirdNamed (n := n) hw hu hcls hsub' (hfourth sub hsub)
    cases ht with
    | @ref t p htshape hs =>
      have hne : s ≠ s' := fun h => hname (congrArg w.decls.name h)
      refine (demands_first_names htshape hu hne hname (hsub' w le_rfl) hthird).mono ?_
      rintro (⟨base, v, v', hv, hr, hpresent⟩ | h)
      · obtain ⟨base', v'', hr', -, hinherits⟩ :=
          hw.closed.baseType_run (Option.isSome_of_eq_some htshape) s' hv
        cases hr.symm.trans hr'
        exact .inherits htshape (hinherits.1 hpresent)
      · exact h
    | refined htshape h => exact demands_first_named htshape rfl rfl hu hthird
  | @refined u parent info name hu hparent ih =>
    refine hconforms.invert (fun heq => ?_) fun sub n hsub => ?_
    · subst heq
      cases ht with
      | ref htshape => cases htshape.symm.trans hu
      | refined htshape h =>
        cases htshape.symm.trans hu
        exact .name (congrArg w.decls.name (h.unique hparent))
    have hthird : Demands w (third n sub t u) (w.ClassStep s s') := by
      refine (demands_third_refined hu hsub (hfourth (.refined hu hparent) sub hsub)).mono ?_
      rintro (⟨⟨v, hv, v', hv', hparent'⟩, -⟩ | h)
      · exact ih (hparent'.now hw.closed (hv.trans hv') ht.has hparent.has)
      · exact h
    cases ht with
    | ref htshape => exact demands_first htshape rfl hu rfl rfl hthird
    | refined htshape => exact demands_first htshape rfl hu rfl rfl hthird

/-- **What a step between classes takes.** The induction is on the refinements of the source. -/
theorem Leans.classStep (hw : w.Built) (h : w.Leans erased s s') : w.ClassStep s s' := by
  obtain ⟨t, u, ht, hu, hconforms⟩ := h
  induction ht generalizing u with
  | ref ht hs =>
    exact (HeadedBy.ref ht hs).classStep_of_fourth hw hu hconforms fun hu sub _ =>
      demands_fourth_step hw.closed ht hs hu
  | refined ht hparent ih =>
    refine (HeadedBy.refined ht hparent).classStep_of_fourth hw hu hconforms fun {u} hu sub hsub => ?_
    refine demands_fourth_refined ht ((hsub w le_rfl _ u).mono ?_)
    rintro ⟨v, hv, hparent'⟩
    exact ih u hu (hparent'.now hw.closed hv hparent.has hu.has)

/-! ## Ranks -/

/-- The classes have one name, or that of the second one ranks higher. -/
def Rises (w : World) (rank : String → ℕ) (s s' : Symbol) : Prop :=
  w.decls.name s = w.decls.name s' ∨ rank (w.decls.name s) < rank (w.decls.name s')

/-- The names of the classes are ranked such that nothing comes round. A class rises to its parents, which are references
to classes, bare or under refinements; the bottom class rises to every class, null to those that have it, value classes
to the marker of types without null, and a class that fits a trait to the trait. No other class is called like the top
class. -/
structure Ranked (w : World) (rank : String → ℕ) : Prop where
  parents : ∀ {s t}, w.decls.isClass s → t ∈ w.decls.parents s → ∃ s', w.HeadedBy s' t ∧ w.Rises rank s s'
  bottom : ∀ {s}, w.decls.isClass s → w.Rises rank Builtin.nothing.symbol s
  null : ∀ {s}, w.decls.isClass s → s ≠ Builtin.nothing.symbol → ¬ w.Under s Builtin.anyVal.symbol →
    w.Under s Builtin.object.symbol → w.Rises rank Builtin.null.symbol s
  marker : w.Rises rank Builtin.anyVal.symbol Builtin.notNull.symbol
  trait : ∀ {s s'}, w.decls.isClass s → Builtin.isTrait s' → w.Fits s s' → w.Rises rank s s'
  top : ∀ {s}, w.decls.isClass s → w.decls.name s = Builtin.any.name → s = Builtin.any.symbol

variable {rank : String → ℕ}

instance : Decidable (w.Rises rank s s') := inferInstanceAs (Decidable (_ ∨ _))

namespace Rises

theorem refl (s : Symbol) : w.Rises rank s s := .inl rfl

theorem trans (h : w.Rises rank s c) (h' : w.Rises rank c s') : w.Rises rank s s' := by
  rcases h with h | h
  · exact h'.imp h.trans fun h' => by rwa [h]
  · rcases h' with h' | h'
    · exact .inr (by rwa [← h'])
    · exact .inr (Nat.lt_trans h h')

theorem name_eq (h : w.Rises rank s s') (h' : w.Rises rank s' s) : w.decls.name s = w.decls.name s' := by
  rcases h with h | h
  · exact h
  · rcases h' with h' | h'
    · exact h'.symm
    · exact absurd h' (Nat.lt_asymm h)

end Rises

namespace Ranked

/-- A type that has a base type at a class is headed by one that rises to it. -/
theorem ensures_baseType (h : w.Ranked rank) (hv : w ≤ v) (ht : v.HeadedBy s t) (cls : Symbol) (n : Nat) :
    Ensures v (Walk.descend .noType (BaseType.step cls) n t) fun base => base.present → w.Rises rank s cls := by
  refine (ensures_descend (D := fun t => ∃ s, v.HeadedBy s t)
    (P := fun t base => base.present → ∀ s, v.HeadedBy s t → w.Rises rank s cls) (fun _ h => by cases h) ?_ n t
    ⟨s, ht⟩).mono fun _ hbase hpresent => hbase hpresent s ht
  rintro next t ⟨s, ht⟩ hnext
  refine .world_bind fun v₁ hv₁ => ?_
  cases ht with
  | ref hshape hs =>
    rw [shape_of_shape? (hv₁.shape hshape)]
    refine .ite (fun hcls => ?_) fun _ => ?_
    · refine .pure fun _ s' ht' => ?_
      rw [ht'.unique (.ref hshape hs), hcls]
      exact .refl cls
    · rw [hv₁.decls, if_pos hs]
      have hclass : w.decls.isClass s := hv.decls ▸ hs
      have hparents : ∀ u ∈ v.decls.parents s, ∃ s', v.HeadedBy s' u ∧ w.Rises rank s s' := fun u hu =>
        (h.parents hclass (hv.decls ▸ hu)).imp fun s' hs' => ⟨hs'.1.grow hv, hs'.2⟩
      refine (ensures_firstPresent _ fun u hu => hnext u ((hparents u hu).imp fun _ => And.left)).mono
        fun base hbase hpresent s' ht' => ?_
      obtain ⟨u, hu, hbase⟩ := hbase hpresent
      obtain ⟨c, hc, hrises⟩ := hparents u hu
      rw [ht'.unique (.ref hshape hs)]
      exact hrises.trans (hbase c hc)
  | @refined t parent info name hshape hparent =>
    rw [shape_of_shape? (hv₁.shape hshape)]
    refine .bind (hnext parent ⟨s, hparent⟩) fun base hbase => ?_
    have hheaded : base.present → ∀ s', v.HeadedBy s' t → w.Rises rank s' cls := fun hpresent s' ht' => by
      rw [ht'.unique (.refined hshape hparent)]
      exact hbase hpresent s hparent
    refine .ite (fun hdeclares => ?_) fun _ => .pure hheaded
    rw [Bool.and_eq_true] at hdeclares
    exact .lift (grows_intern _) fun _ _ _ _ _ _ => hheaded hdeclares.1

theorem rises_of_inherits (h : w.Ranked rank) (ht : w.HeadedBy s t) (hinherits : w.Inherits t cls) :
    w.Rises rank s cls := by
  obtain ⟨base, v, hr, hpresent⟩ := hinherits
  exact ensures_run (h.ensures_baseType le_rfl ht cls _) le_rfl hr hpresent

theorem rises_of_under (h : w.Ranked rank) (hs : w.decls.isClass s) (hunder : w.Under s cls) : w.Rises rank s cls := by
  obtain ⟨v, hr⟩ := hunder
  rw [Symbol.derivesFrom, get_bind_run, if_neg (by simp [hs])] at hr
  split at hr
  · next hcls => exact hcls ▸ .refl s
  · obtain ⟨t, v₁, href, hr⟩ := bind_ok hr
    obtain ⟨base, v₂, hbase, hr⟩ := bind_ok hr
    have hpresent : base.present = true := congrArg (·.1) (Except.ok.inj hr)
    have hv₁ : w ≤ v₁ := (grows_ref s : Grows True _).le_of_ok href
    have ht : v₁.HeadedBy s t := by
      cases href
      exact .ref (TypeTable.shape?_intern w.types _) hs
    exact ensures_run (h.ensures_baseType hv₁ ht cls _) le_rfl hbase hpresent

/-- A class that excludes null rises to the marker. -/
theorem rises_of_excludes (h : w.Ranked rank) (hstd : w.Standard) (hs : w.decls.isClass s) (hexcludes : w.Excludes s) :
    w.Rises rank s Builtin.notNull.symbol := by
  rcases hexcludes with rfl | hval | hmarker
  · exact h.bottom (hstd.isClass .notNull)
  · exact (h.rises_of_under hs hval).trans h.marker
  · exact h.rises_of_under hs hmarker

/-- A step between classes rises. -/
theorem rises (h : w.Ranked rank) (hw : w.Built) (hleans : w.Leans erased s s') : w.Rises rank s s' := by
  have hclasses : w.decls.isClass s ∧ w.decls.isClass s' := by
    obtain ⟨t, u, ht, hu, -⟩ := hleans
    exact ⟨ht.isClass, hu.isClass⟩
  obtain ⟨hs, hs'⟩ := hclasses
  cases hleans.classStep hw with
  | name hname => exact .inl hname
  | inherits ht hinherits => exact h.rises_of_inherits (.ref ht hs) hinherits
  | bottom hnothing => exact hnothing ▸ h.bottom hs'
  | null hnull hnothing hval hobject => exact hnull ▸ h.null hs' hnothing hval hobject
  | marker hmarker hexcludes => exact hmarker ▸ h.rises_of_excludes hw.standard hs hexcludes
  | trait htrait hfits => exact h.trait hs htrait hfits

theorem rises_of_beneath (h : w.Ranked rank) (hw : w.Built) (hbeneath : w.Beneath erased s s') : w.Rises rank s s' := by
  induction hbeneath with
  | refl => exact .refl s
  | tail _ hleans ih => exact ih.trans (h.rises hw hleans)

/-- **Classes that lie beneath each other have one name**, where the names are ranked. -/
theorem name_eq (h : w.Ranked rank) (hw : w.Built) (hab : w.Beneath erased s s') (hba : w.Beneath erased s' s) :
    w.decls.name s = w.decls.name s' :=
  (h.rises_of_beneath hw hab).name_eq (h.rises_of_beneath hw hba)

end Ranked

end World

end Conformance
