import Conformance.Declare
import Conformance.Proofs.Hierarchy
import Conformance.Proofs.Outcomes

/-!
# Searches that meet no limit

A search for a base type turns back at a type that is open and where its guard meets a limit, and in both cases answers
that there is nothing. Turning back at an open type loses nothing, since what lies beyond it is searched from the type
itself (`Climbs.skip`). So a search that has found nothing and met no limit started from no descendant of the class
(`Climbs.found`), and with parents that are searched in this way `setParents` refuses all that would make a class
inherit from itself (`setParents_run`).
-/

namespace Conformance

namespace World

variable {w v : World} {cls s : Symbol} {t u : Ty} {avoided avoided' : List Ty}

/-- Parents that are references to classes lead from `t` to a reference to `cls`, along types that are all different and
not among `avoided`. -/
inductive Climbs (w : World) (cls : Symbol) : List Ty → Ty → Prop
  | here {avoided : List Ty} {t pre : Ty} (ht : w.shape? t = some (.named pre cls)) (hnew : t ∉ avoided) :
    Climbs w cls avoided t
  | up {avoided : List Ty} {t u pre : Ty} {s : Symbol} (ht : w.shape? t = some (.named pre s)) (hs : w.decls.isClass s)
    (hnew : t ∉ avoided) (hu : u ∈ w.decls.parents s) (h : Climbs w cls (t :: avoided) u) : Climbs w cls avoided t

namespace Climbs

theorem mono (h : w.Climbs cls avoided t) (hsub : avoided' ⊆ avoided) : w.Climbs cls avoided' t := by
  induction h generalizing avoided' with
  | here ht hnew => exact .here ht fun hmem => hnew (hsub hmem)
  | up ht hs hnew hu _ ih =>
    exact .up ht hs (fun hmem => hnew (hsub hmem)) hu (ih (List.cons_subset_cons _ hsub))

/-- A way up that passes `u` can start there; one that does not, avoids it. -/
theorem skip (h : w.Climbs cls avoided t) (u : Ty) : w.Climbs cls (u :: avoided) t ∨ w.Climbs cls avoided u := by
  induction h with
  | @here avoided t pre ht hnew =>
    by_cases hut : t = u
    · exact .inr (hut ▸ .here ht hnew)
    · exact .inl (.here ht (by simp [hut, hnew]))
  | @up avoided t t' pre s ht hs hnew hu h ih =>
    by_cases hut : t = u
    · exact .inr (hut ▸ .up ht hs hnew hu h)
    · rcases ih with ih | ih
      · refine .inl (.up ht hs (by simp [hut, hnew]) hu (ih.mono fun x hx => ?_))
        simp only [List.mem_cons] at hx ⊢
        tauto
      · exact .inr (ih.mono (List.subset_cons_self t avoided))

/-- A descendant climbs to its ancestor without passing a type twice. -/
theorem of_derives (hclass : ∀ {s s'}, w.Parent s s' → w.decls.isClass s) (h : w.Derives s cls) {pre : Ty}
    (ht : w.shape? t = some (.named pre s)) : w.Climbs cls [] t := by
  induction h using Relation.ReflTransGen.head_induction_on generalizing t pre with
  | refl => exact .here ht List.not_mem_nil
  | @head s s' hparent _ ih =>
    obtain ⟨u, hu, pre', hshape⟩ := hparent
    rcases (ih hshape).skip t with h | h
    · exact .up ht (hclass ⟨u, hu, pre', hshape⟩) List.not_mem_nil hu h
    · exact h

/-! ## Searches -/

/-- The guard has the types `ks` open in a world that has grown from `w`. -/
def Open (w : World) (ks : List Ty) (d : Nat) (g : Guard Ty) (v : World) : Prop := g.Stands .walk ks d ∧ w ≤ v

theorem Open.grow {d : Nat} {g : Guard Ty} {v' : World} (h : Open w avoided d g v) (hv : v ≤ v') :
    Open w avoided d g v' :=
  ⟨h.1, h.2.trans hv⟩

theorem Open.enter {d : Nat} {g g' : Guard Ty} (h : Open w avoided d g v) (he : g.enter t = (.entered, g')) :
    Open w (t :: avoided) (d + 1) g' v := by
  rcases Guard.enter_cases h.1 t with ⟨g₁, he', hg₁⟩ | ⟨e, g₁, he', hne, -⟩
  · cases he.symm.trans he'
    exact ⟨hg₁, h.2⟩
  · cases he.symm.trans he'
    cases hne

theorem open_baseType (n d : Nat) (cls : Symbol) (t : Ty) :
    Retains (Open w avoided d) (Walk.descend .noType (BaseType.step cls) n t) :=
  .of_leads (balanced_descend _ (fun _ _ h => balanced_baseTypeStep h cls) n t _ _ _ (.inl trivial)) w

theorem limit_baseType (n : Nat) (cls : Symbol) (t : Ty) :
    Retains (fun g _ => g.exceeded = true) (Walk.descend .noType (BaseType.step cls) n t) :=
  retains_exceeded _ (fun _ h => retains_baseTypeStep (fun _ _ _ _ => id) h cls) n t

/-- **A search that meets no limit finds** the class that its start climbs to, whatever is open that the way avoids. -/
theorem found (h : w.Climbs cls avoided t) (hw : w.Standard) (n : Nat) : ∀ d : Nat,
    Tells (Open w avoided d) (Walk.descend .noType (BaseType.step cls) n t)
      fun base g _ => g.exceeded = true ∨ base.present := by
  induction n generalizing avoided t with
  | zero => exact fun _ => .throw
  | succ n ih =>
    intro d g v base g' v' ⟨hg, hv⟩ hr
    have hnew : t ∉ avoided := by cases h <;> assumption
    rcases inside_run hr with ⟨g₁, g₂, he, hb, hl⟩ | ⟨e, he, hne, -⟩
    · rw [Guard.exceeded_leave hl]
      suffices hstep : Tells (Open w (t :: avoided) (d + 1))
          (BaseType.step cls (Walk.descend .noType (BaseType.step cls) n) t)
          fun base g _ => g.exceeded = true ∨ base.present from hstep (Open.enter ⟨hg, hv⟩ he) hb
      refine .world_bind fun v => .assume (fun _ _ h => h.1 ▸ h.2.2) fun hv => ?_
      have hpresent : ∀ {pre s}, w.shape? t = some (.named pre s) → t.present :=
        fun hshape => hw.present hshape (by simp)
      cases h with
      | here ht =>
        rw [World.shape_of_shape? (hv.shape ht)]
        dsimp only
        rw [if_pos rfl]
        exact .pure fun _ _ _ => .inr (hpresent ht)
      | @up _ _ u pre s ht hs _ hu h =>
        rw [World.shape_of_shape? (hv.shape ht)]
        refine .ite (fun _ => .pure fun _ _ _ => .inr (hpresent ht)) fun _ => ?_
        rw [hv.decls, if_pos hs]
        refine (tells_firstPresent (open_baseType n _ cls) (limit_baseType n cls) (ih h _) hu).mono (fun _ _ h => h.2)
          fun _ _ _ => id
    · rw [← hg.openKeys] at hnew
      exact .inl (Guard.exceeded_of_enter he hne hnew)

end Climbs

/-- From each of the types in turn, up to the first that inherits from `cls`, the search for `cls` meets no limit. -/
def searchesFully (cls : Symbol) : List Ty → World → Bool
  | [], _ => true
  | t :: ts, w =>
    match Walk.descend .noType (BaseType.step cls) (Limits.walkDepth.toNat + 1) t { bounds := .walk } w with
    | .ok ((base, g), v) => base.present || (!g.exceeded && searchesFully cls ts v)
    | .error _ => false

end World

/-! ## Setting parents -/

section Parents

variable {w v : World} {cls : Symbol} {base t : Ty}

/-- Refuses `t` as a parent of `cls` if it inherits from `cls`. -/
def checkParent (cls : Symbol) (t : Ty) : BuildM Unit := do
  if (← t.baseType cls).present then throw (.cyclicInheritance cls)

theorem setParents_eq (cls : Symbol) (parents : List Ty) : setParents cls parents = (do
    cls.expectClass
    (effectiveParents cls parents).forM (checkParent cls)
    modify fun w => { w with decls := w.decls.setParents cls (effectiveParents cls parents) }) := rfl

theorem checkParent_run (h : t.baseType cls w = .ok (base, v)) :
    checkParent cls t w = .ok (if base.present then .error (.cyclicInheritance cls) else .ok ⟨⟩, v) := by
  show Except.bind (Except.bind (t.baseType cls w) _) _ = _
  rw [h]
  show (if base.present then _ else _ : BuildM Unit) v = _
  split <;> rfl

theorem checkParents_cons (t : Ty) (ts : List Ty) (w : World) :
    ((t :: ts).forM (checkParent cls) : BuildM Unit) w =
      Except.bind (checkParent cls t w) fun r => match r with
        | (.ok _, v) => (ts.forM (checkParent cls) : BuildM Unit) v
        | (.error e, v) => .ok (.error e, v) := by
  show Except.bind (checkParent cls t w) _ = _
  congr 1
  funext r
  obtain ⟨_ | _, v⟩ := r <;> rfl

/-- The check of a list of parents comes to an end without a declaration having changed, and refuses the list if one of
them climbs to the class within the limits. -/
theorem checkParents_run (ts : List Ty) (cls : Symbol) (hw : w.Standard) : ∀ {v}, w ≤ v →
    ∃ r v', (ts.forM (checkParent cls) : BuildM Unit) v = .ok (r, v') ∧ v ≤ v' ∧
      (r = .ok ⟨⟩ ∨ r = .error (.cyclicInheritance cls)) ∧
      (World.searchesFully cls ts v → ∀ t ∈ ts, w.Climbs cls [] t → r = .error (.cyclicInheritance cls)) := by
  induction ts with
  | nil => exact fun {v} _ => ⟨.ok ⟨⟩, v, rfl, le_rfl, .inl rfl, fun _ _ h => nomatch h⟩
  | cons t ts ih =>
    intro v hv
    obtain ⟨base, v₁, hbase, hle⟩ := (grows_baseType t cls).total v
    obtain ⟨g, hdescend⟩ := descend_of_run hbase
    rw [checkParents_cons, checkParent_run hbase]
    by_cases hpresent : base.present
    · rw [if_pos hpresent]
      exact ⟨_, v₁, rfl, hle, .inr rfl, fun _ _ _ _ => rfl⟩
    · rw [if_neg hpresent]
      obtain ⟨r, v', hr, hle', hcases, hrefused⟩ := ih (hv.trans hle)
      refine ⟨r, v', hr, hle.trans hle', hcases, fun hsearch u hu hclimbs => ?_⟩
      simp only [World.searchesFully, hdescend, hpresent, Bool.false_or, Bool.and_eq_true,
        Bool.not_eq_eq_eq_not, Bool.not_true] at hsearch
      rcases List.mem_cons.1 hu with rfl | hu
      · have hfound := hclimbs.found hw _ 0 ⟨⟨rfl, rfl, rfl⟩, hv⟩ hdescend
        exact absurd (Or.resolve_left hfound (Bool.eq_false_iff.1 hsearch.1)) hpresent
      · exact hrefused hsearch.2 u hu hclimbs

theorem expectClass_run (hcls : w.decls.isClass cls) : cls.expectClass w = .ok (.ok ⟨⟩, w) := by
  show (if !w.decls.isClass cls then throw _ else pure _ : BuildM Unit) w = _
  rw [hcls]
  rfl

/-- Only classes are given parents. -/
theorem setParents_badSymbol (hcls : ¬ w.decls.isClass cls) (parents : List Ty) :
    setParents cls parents w = .ok (.error (.badSymbol cls), w) := by
  have hexpect : cls.expectClass w = .ok (.error (.badSymbol cls), w) := by
    show (if !w.decls.isClass cls then throw _ else pure _ : BuildM Unit) w = _
    rw [Bool.eq_false_iff.2 hcls]
    rfl
  rw [setParents_eq]
  show Except.bind (cls.expectClass w) _ = _
  rw [hexpect]
  rfl

/-- The parents of a class are stored once they have passed the check. -/
theorem setParents_of_isClass (hcls : w.decls.isClass cls) (parents : List Ty) : setParents cls parents w =
    Except.bind ((effectiveParents cls parents).forM (checkParent cls) w) fun r => match r with
      | (.ok _, v) => .ok (.ok ⟨⟩, { v with decls := v.decls.setParents cls (effectiveParents cls parents) })
      | (.error e, v) => .ok (.error e, v) := by
  rw [setParents_eq]
  show Except.bind (cls.expectClass w) _ = _
  rw [expectClass_run hcls]
  show Except.bind ((effectiveParents cls parents).forM (checkParent cls) w) _ = _
  congr 1
  funext r
  obtain ⟨_ | _, v⟩ := r <;> rfl

/-- **Setting parents** either stores them or answers that the class would inherit from itself, and answers so, within
the limits, if one of the parents climbs to the class. -/
theorem setParents_run (hw : w.Standard) (hcls : w.decls.isClass cls) (parents : List Ty) : ∃ v, w ≤ v ∧
    (setParents cls parents w = .ok (.error (.cyclicInheritance cls), v) ∨
      setParents cls parents w =
          .ok (.ok ⟨⟩, { v with decls := v.decls.setParents cls (effectiveParents cls parents) }) ∧
        (World.searchesFully cls (effectiveParents cls parents) w →
          ∀ t ∈ effectiveParents cls parents, ¬ w.Climbs cls [] t)) := by
  obtain ⟨r, v, hr, hle, hcases, hrefused⟩ := checkParents_run (effectiveParents cls parents) cls hw le_rfl
  have hrun := setParents_of_isClass hcls parents
  rw [hr] at hrun
  refine ⟨v, hle, ?_⟩
  rcases hcases with rfl | rfl
  · refine .inr ⟨hrun, fun hsearch t ht hclimbs => ?_⟩
    cases hrefused hsearch t ht hclimbs
  · exact .inl hrun

end Parents

end Conformance
