import Conformance.Proofs.BoundedWalks
import Conformance.Proofs.Frames

/-!
# Related comparisons

The cascade is a function of the comparison that it asks. A relation between computations that passes through binds and
relates to itself whatever asks nothing (`Congruent`) relates the functions of the cascade as soon as it relates what
they ask; there is one lemma for each of them.

One such relation counts levels. The counter of open frames stops at the largest word, but a level that is not counted
is missed on the way back. So a comparison that starts at depth zero and comes to an answer never had more frames open
than the counter counts (`run_within`).
-/

namespace Conformance

namespace CompareM

/-- Binds pass through `R`, and `R` relates to itself what asks for no comparison and leaves the depth alone. -/
structure Congruent (R : ∀ α : Type, CompareM α → CompareM α → Prop) : Prop where
  bind : ∀ {α β : Type} {x y : CompareM α} {f g : α → CompareM β}, R α x y → (∀ a, R β (f a) (g a)) →
    R β (x >>= f) (y >>= g)
  lift : ∀ {α : Type} {x y : WorldM α}, WorldM.Extends x y → R α (liftM x) (liftM y)
  get : R Comparer get get
  modify : ∀ f : Comparer → Comparer, (∀ c, (f c).depth = c.depth) → R PUnit (modify f) (modify f)

/-- What is read and rewritten with the allowance `n` comes out the same with `m`. -/
structure Allows (n m : Nat) : Prop where
  openTypeParams : ∀ t, WorldM.Extends (.reading (·.openTypeParams n t)) (.reading (·.openTypeParams m t))
  typeArgs : ∀ t, WorldM.Extends (.reading (·.typeArgs n t)) (.reading (·.typeArgs m t))
  isStable : ∀ t, WorldM.Extends (.reading (·.isStable n t)) (.reading (·.isStable m t))
  substBinder : ∀ b c t, WorldM.Extends (Ty.substBinder n b c t) (Ty.substBinder m b c t)
  signature : ∀ t, WorldM.Extends (Ty.signature n t) (Ty.signature m t)

theorem Allows.refl (n : Nat) : Allows n n where
  openTypeParams _ := .refl _
  typeArgs _ := .refl _
  isStable _ := .refl _
  substBinder _ _ _ := .refl _
  signature _ := .refl _

/-! ## The cascade -/

namespace Congruent

variable {R : ∀ α : Type, CompareM α → CompareM α → Prop} (hR : Congruent R)

include hR

section Combinators

variable {α β : Type}

theorem lifted (x : WorldM α) : R α (liftM x) (liftM x) := hR.lift (.refl x)

theorem pure (a : α) : R α (pure a) (pure a) := hR.lifted (Pure.pure a)

theorem throw (e : Halt) : R α (throw e) (throw e) := hR.lifted (MonadExcept.throw e)

theorem world : R World world world := hR.lifted _

omit hR in
theorem branches {p : Prop} [Decidable p] {x x' y y' : CompareM α} (hx : R α x x') (hy : R α y y') :
    R α (if p then x else y) (if p then x' else y') := by
  split
  · exact hx
  · exact hy

theorem orElse {x x' y y' : CompareM Bool} (hx : R Bool x x') (hy : R Bool y y') :
    R Bool (x <||> y) (x' <||> y') :=
  hR.bind hx fun b => by cases b <;> [exact hy; exact hR.pure _]

theorem andThen {x x' y y' : CompareM Bool} (hx : R Bool x x') (hy : R Bool y y') :
    R Bool (x <&&> y) (x' <&&> y') :=
  hR.bind hx fun b => by cases b <;> [exact hR.pure _; exact hy]

theorem mapM {f f' : α → CompareM β} (hf : ∀ a, R β (f a) (f' a)) (l : List α) : R (List β) (l.mapM f) (l.mapM f') := by
  induction l with
  | nil => exact hR.pure _
  | cons a l ih =>
    rw [List.mapM_cons, List.mapM_cons]
    exact hR.bind (hf a) fun _ => hR.bind ih fun _ => hR.pure _

theorem allM {f f' : α → CompareM Bool} (hf : ∀ a, R Bool (f a) (f' a)) (l : List α) :
    R Bool (l.allM f) (l.allM f') := by
  induction l with
  | nil => exact hR.pure _
  | cons a l ih => exact hR.bind (hf a) fun b => by cases b <;> [exact hR.pure _; exact ih]

theorem constraint : R ConstraintStore constraint constraint := hR.bind hR.get fun _ => hR.pure _

theorem setConstraint (s : ConstraintStore) : R PUnit (setConstraint s) (setConstraint s) := hR.modify _ fun _ => rfl

theorem currentBounds (p : Param) : R (Option (Ty × Ty)) (currentBounds p) (currentBounds p) := by
  refine hR.bind hR.constraint fun store => ?_
  split
  · exact hR.pure _
  · exact hR.bind hR.world fun _ => hR.pure _

theorem atomically {x x' : CompareM Bool} (h : R Bool x x') : R Bool (atomically x) (atomically x') :=
  hR.bind hR.constraint fun _ => hR.bind h fun _ => branches (hR.bind (hR.setConstraint _) fun _ => hR.pure _) (hR.pure _)

theorem withPending (pair : Ty × Ty) {x x' : CompareM Bool} (h : R Bool x x') :
    R Bool (withPending pair x) (withPending pair x') := by
  refine hR.bind hR.get fun c => hR.bind (hR.modify _ fun _ => rfl) fun _ => branches (hR.bind h fun _ => ?_) (hR.pure _)
  exact hR.bind hR.get fun _ => hR.bind (hR.lifted _) fun _ => hR.bind (hR.modify _ fun _ => rfl) fun _ => hR.pure _

end Combinators

variable {n m : Nat} (hnm : Allows n m) {sub sub' : Ty → Ty → CompareM Bool} (hsub : ∀ a b, R Bool (sub a b) (sub' a b))

section Comparing

include hsub

theorem same (a b : Ty) : R Bool (same sub a b) (same sub' a b) :=
  branches (hR.pure _) (branches (hR.pure _) (hR.atomically (hR.andThen (hsub a b) (hsub b a))))

theorem narrow (p : Param) (bound : Ty) : R Bool (narrow sub p bound) (narrow sub' p bound) := by
  refine hR.bind hR.constraint fun store => ?_
  split
  · exact hR.pure _
  · split
    · exact hR.pure _
    · refine hR.bind (hR.lifted _) fun narrowed =>
        branches (hR.bind (hR.lifted _) fun _ => hR.bind (hR.setConstraint _) fun _ => ?_) ?_
      -- the ends of the bounds are compared whether they were narrowed or not
      all_goals
        refine hR.bind hR.world fun w => ?_
        split
        · exact hR.pure _
        · exact hsub _ _

theorem sameParams (formals₁ formals₂ : List Ty) (foreign₁ foreign₂ : Bool) :
    R Bool (sameParams sub formals₁ formals₂ foreign₁ foreign₂) (sameParams sub' formals₁ formals₂ foreign₁ foreign₂) :=
  branches (hR.pure _) (hR.allM (fun _ => hR.orElse (hR.same hsub _ _) (hR.pure _)) _)

theorem matchesWith (simple : Bool) (k : Nat) (t u : Ty) :
    R Bool (matchesWith sub simple k t u) (matchesWith sub' simple k t u) := by
  induction k generalizing t u with
  | zero => exact hR.throw _
  | succ k ih =>
    refine hR.bind hR.world fun w => ?_
    split
    · split
      · refine hR.bind (hR.mapM (fun _ => hR.lifted _) _) fun formals => branches (hR.pure _) ?_
        exact hR.andThen (hR.sameParams hsub _ _ _ _) (hR.bind (hR.lifted _) fun _ => ih _ _)
      · exact hR.pure _
    · split
      · exact branches (ih _ _) (hR.pure _)
      · exact hR.pure _
    · exact hR.pure _
    · split
      · exact branches (ih _ _) (hR.pure _)
      · exact hR.pure _
    · exact ih _ _
    · split
      · exact branches (hR.pure _) (hR.bind (hR.lifted _) fun _ => ih _ _)
      · exact hR.pure _
    · exact hR.pure _
    · exact hR.pure _
    · exact hR.pure _
    · exact ih _ _
    · exact branches (hR.pure _) (hR.same hsub _ _)

theorem fourth (t u : Ty) : R Bool (fourth sub t u) (fourth sub' t u) := by
  refine hR.bind hR.world fun w => ?_
  split
  · refine branches (hR.pure _) (hR.orElse (branches (hR.lifted _) (hR.pure _)) (branches (hR.pure _) ?_))
    exact hR.bind (hR.lifted _) fun _ => hsub _ _
  · exact hsub _ _
  · exact hR.orElse (hsub _ _) (hsub _ _)
  · exact hR.andThen (hsub _ _) (hsub _ _)
  · exact branches (hR.bind (hR.lifted _) fun _ => hsub _ _) (hR.pure _)

end Comparing

include hnm hsub

theorem conformsAsConstructor (t u : Ty) :
    R Bool (conformsAsConstructor n sub t u) (conformsAsConstructor m sub' t u) := by
  refine hR.bind (hR.lift (hnm.openTypeParams t)) fun params => ?_
  refine hR.bind (hR.lift (hnm.typeArgs u)) fun args => branches (hR.pure _) ?_
  refine hR.bind (hR.lifted _) fun base => hR.bind (hR.allM (fun _ => ?_) _) fun fit =>
    hR.bind hR.world fun _ => hR.pure _
  exact hR.bind hR.world fun _ => hR.bind (hR.lifted _) fun _ => hR.bind (hR.lifted _) fun _ =>
    hR.bind (hR.lifted _) fun _ => hsub _ _

theorem thirdNamed (t u : Ty) : R Bool (thirdNamed n sub t u) (thirdNamed m sub' t u) := by
  have hfourth := hR.fourth hsub t u
  refine hR.bind (hR.lifted _) fun info => hR.bind hR.world fun w => ?_
  split
  · exact hR.orElse (hsub _ _) hfourth
  · refine hR.orElse (branches (hR.lift (hnm.isStable t)) (hR.pure _)) ?_
    refine hR.orElse (branches (hR.lifted _) (hR.pure _)) ?_
    exact hR.orElse (branches (hR.conformsAsConstructor hnm hsub t u) (hR.pure _)) hfourth

theorem methods (t : Ty) (b : BinderId) (u : Ty) (c : BinderId) :
    R Bool (methods n sub t b u c) (methods m sub' t b u c) := by
  refine hR.bind hR.world fun w => ?_
  split
  · refine hR.bind (hR.mapM (fun _ => hR.lift (hnm.substBinder _ _ _)) _) fun formals => ?_
    refine hR.bind (hR.lift (hnm.signature t)) fun _ => hR.bind (hR.lift (hnm.signature u)) fun _ =>
      branches (hR.pure _) (hR.andThen (hR.sameParams hsub _ _ _ _) (branches (hR.pure _) ?_))
    exact hR.bind (hR.lift (hnm.substBinder _ _ _)) fun _ => hsub _ _
  · exact hR.pure _

theorem universals (t : Ty) (b : BinderId) (u : Ty) (c : BinderId) :
    R Bool (universals n sub t b u c) (universals m sub' t b u c) := by
  refine hR.bind hR.world fun w => ?_
  split
  · refine hR.bind (hR.lift (hnm.signature t)) fun _ => hR.bind (hR.lift (hnm.signature u)) fun _ =>
      branches (hR.pure _) (hR.andThen (hR.allM (fun _ => ?_) _) ?_)
    · exact hR.bind (hR.lift (hnm.substBinder _ _ _)) fun _ => hR.same hsub _ _
    · exact hR.bind (hR.lift (hnm.substBinder _ _ _)) fun _ => hsub _ _
  · exact hR.pure _

theorem third (t u : Ty) : R Bool (third n sub t u) (third m sub' t u) := by
  have hfourth := hR.fourth hsub t u
  refine hR.bind hR.world fun w => ?_
  split
  · exact hR.thirdNamed hnm hsub t u
  · exact hR.thirdNamed hnm hsub t u
  · refine hR.orElse (hR.andThen (hsub _ _) (branches (hR.pure _) ?_)) hfourth
    exact hR.bind (hR.lifted _) fun _ => hsub _ _
  · exact hR.andThen (hsub _ _) (hsub _ _)
  · exact hR.orElse (hsub _ _) (hR.orElse (hsub _ _) hfourth)
  · exact hR.methods hnm hsub t _ u _
  · exact hR.universals hnm hsub t _ u _
  · exact hsub _ _
  · exact hR.andThen (hsub _ _) (hsub _ _)
  · exact hR.bind (hR.lifted _) fun _ => hR.andThen (hsub _ _) (hsub _ _)
  · exact hfourth

theorem second (t u : Ty) : R Bool (second n sub t u) (second m sub' t u) := by
  have hthird := hR.third hnm hsub t u
  refine hR.bind hR.world fun w => ?_
  split
  · exact hR.pure _
  · exact hR.pure _
  · exact hsub _ _
  · refine hR.bind (hR.currentBounds _) fun bounds => ?_
    split
    · exact hR.orElse (hsub _ _) (hR.bind (hR.lifted _) fun _ => hR.narrow hsub _ _)
    · exact hthird
  · exact hthird

theorem names (t u : Ty) : R Bool (names n sub t u) (names m sub' t u) := by
  refine hR.bind hR.world fun w => ?_
  split
  · refine branches (hR.bind hR.get fun c => branches (hR.pure _) (hsub _ _)) ?_
    refine hR.orElse (branches (hsub _ _) (hR.pure _)) (hR.orElse (branches ?_ (hR.pure _)) (hR.thirdNamed hnm hsub t u))
    exact hR.bind (hR.lifted _) fun _ => branches (hsub _ _) (hR.pure _)
  · exact hR.pure _

theorem first (t u : Ty) : R Bool (first n sub t u) (first m sub' t u) := by
  have hsecond := hR.second hnm hsub t u
  refine hR.bind hR.world fun w => ?_
  split
  · exact branches (hR.names hnm hsub t u) hsecond
  · exact branches (hR.names hnm hsub t u) hsecond
  · exact hR.pure _
  · exact hR.pure _
  · exact hsub _ _
  · refine hR.bind (hR.currentBounds _) fun bounds => ?_
    split
    · exact hR.orElse (hsub _ _) (hR.bind (hR.lifted _) fun _ => hR.narrow hsub _ _)
    · exact hsecond
  · exact hsecond

/-- A comparison in a frame of its own is related as frames are. -/
theorem framed {S : CompareM Bool → CompareM Bool → Prop}
    (hframe : ∀ f g : DepthMode → CompareM Bool, (∀ mode, R Bool (f mode) (g mode)) → S (frame f) (frame g)) (t u : Ty) :
    S (framed n sub t u) (framed m sub' t u) := by
  refine hframe _ _ fun mode => ?_
  cases mode with
  | direct => exact hR.first hnm hsub t u
  | monitored => exact hR.withPending _ (hR.first hnm hsub t u)

end Congruent

/-! ## Levels -/

/-- No run of `x` comes back deeper than it started. If it starts at level `d` and comes back there, `y` runs the same
way. -/
def KeepsLevel (d : Nat) (α : Type) (x y : CompareM α) : Prop :=
  ∀ ⦃c w a c' w'⦄, x c w = .ok ((a, c'), w') → c'.depth.depth ≤ c.depth.depth ∧
    (c.depth.depth = d → c'.depth.depth = d → y c w = .ok ((a, c'), w'))

theorem congruent_keepsLevel (d : Nat) : Congruent (KeepsLevel d) where
  bind := by
    intro α β x y f g hx hf c w b c' w' h
    obtain ⟨a, c₁, w₁, hrun, hrest⟩ := run_bind_ok h
    obtain ⟨hle, hsame⟩ := hx hrun
    obtain ⟨hle', hsame'⟩ := hf a hrest
    refine ⟨Nat.le_trans hle' hle, fun hc hc' => ?_⟩
    -- between two ends at one level the run is at that level
    have hc₁ : c₁.depth.depth = d := by omega
    exact (run_bind (hsame hc hc₁)).trans (hsame' hc₁ hc')
  lift := by
    intro α x y h c w a c' w' hrun
    obtain ⟨hx, rfl⟩ := run_lift_ok hrun
    exact ⟨Nat.le_refl _, fun _ _ => run_lift (h w _ hx) _⟩
  get := by
    intro c w a c' w' h
    cases h
    exact ⟨Nat.le_refl _, fun _ _ => rfl⟩
  modify := by
    intro f hf c w a c' w' h
    cases h
    exact ⟨Nat.le_of_eq (congrArg _ (hf c)), fun _ _ => rfl⟩

theorem leaveLevel_ok {c c' : Comparer} {w w' : World} (h : leaveLevel c w = .ok (((), c'), w')) :
    c.depth.depth = c'.depth.depth + 1 ∧ w' = w := by
  have hrun : (liftM (Walk.orFault c.depth.leave) >>= fun depth => modify fun c : Comparer => { c with depth } :
      CompareM PUnit) c w = .ok (((), c'), w') := h
  obtain ⟨depth, w₁, hleave, hrun⟩ := run_lift_bind_ok hrun
  cases hrun
  unfold DepthCounter.leave at hleave
  split at hleave
  · cases hleave
  · next hne =>
    cases hleave
    exact ⟨(Nat.succ_pred_eq_of_ne_zero hne).symm, rfl⟩

/-- The body of a frame runs a level deeper, unless the counter is at its end. It comes back a level deeper than the
frame. -/
theorem level_ok {f : DepthMode → CompareM Bool} {c c' : Comparer} {w w' : World} {a : Bool}
    (h : (enterLevel >>= f >>= fun answer => leaveLevel >>= fun _ => pure answer) c w = .ok ((a, c'), w')) :
    ∃ mode c₁ c₂, enterLevel c w = .ok ((mode, c₁), w) ∧ c₁.depth.depth = Limits.tally c.depth.depth ∧
      f mode c₁ w = .ok ((a, c₂), w') ∧ c₂.depth.depth = c'.depth.depth + 1 ∧ leaveLevel c₂ w' = .ok (((), c'), w') := by
  obtain ⟨answer, c₂, w₂, hbody, hrun⟩ := run_bind_ok h
  obtain ⟨mode, c₁, w₁, henter, hbody⟩ := run_bind_ok hbody
  obtain ⟨⟨⟩, c₃, w₃, hleave, hrun⟩ := run_bind_ok hrun
  cases henter
  cases hrun
  obtain ⟨hlevel, rfl⟩ := leaveLevel_ok hleave
  exact ⟨_, _, c₂, rfl, c.depth.depth_enter, hbody, hlevel, hleave⟩

/-- A run that misses no level on the way back was one level deeper inside. -/
theorem keepsLevel_frame {d : Nat} {f g : DepthMode → CompareM Bool} (h : ∀ mode, KeepsLevel (d + 1) Bool (f mode) (g mode))
    (hd : d < Limits.unlimited.toNat) : KeepsLevel d Bool (frame f) (frame g) := by
  refine (congruent_keepsLevel d).atomically fun c w a c' w' hrun => ?_
  obtain ⟨mode, c₁, c₂, henter, hdeeper, hbody, hlevel, hleave⟩ := level_ok hrun
  obtain ⟨hle, hsame⟩ := h mode hbody
  have htally : Limits.tally c.depth.depth ≤ c.depth.depth + 1 := by unfold Limits.tally; omega
  refine ⟨by omega, fun hc hc' => ?_⟩
  have hcounted : c₁.depth.depth = d + 1 := hc ▸ hdeeper.trans (Limits.tally_of_lt (hc ▸ hd))
  exact (run_bind henter).trans ((run_bind (hsame hcounted (by omega))).trans (run_bind hleave))

/-- A frame that is entered with the counter at its end comes back above where it started. -/
theorem keepsLevel_frame_end {d : Nat} {f g : DepthMode → CompareM Bool} (h : ∀ mode, KeepsLevel d Bool (f mode) (g mode))
    (e : Halt) : KeepsLevel Limits.unlimited.toNat Bool (frame f) (throw e) := by
  have hmissed : KeepsLevel Limits.unlimited.toNat Bool
      (enterLevel >>= f >>= fun answer => leaveLevel >>= fun _ => pure answer) (throw e) := by
    intro c w a c' w' hrun
    obtain ⟨mode, c₁, c₂, -, hdeeper, hbody, hlevel, -⟩ := level_ok hrun
    obtain ⟨hle, -⟩ := h mode hbody
    have htally : Limits.tally c.depth.depth ≤ c.depth.depth + 1 := by unfold Limits.tally; omega
    have hend := Limits.tally_le c.depth.depth
    exact ⟨by omega, fun hc hc' => by omega⟩
  exact (congruent_keepsLevel _).atomically hmissed

/-- The allowance of nested steps decides nothing here: the levels that are left run out first, if they run out. -/
theorem keepsLevel_isSubType (n : Nat) : ∀ {d : Nat}, d ≤ Limits.unlimited.toNat →
    ∀ a b, KeepsLevel d Bool (isSubType n a b) (isSubTypeWithin (Limits.unlimited.toNat - d) n a b) := by
  induction n with
  | zero =>
    intro d hd a b c w r c' w' h
    cases h
  | succ n ih =>
    intro d hd a b
    have hR := congruent_keepsLevel d
    rcases Nat.eq_or_lt_of_le hd with rfl | hlt
    · rw [Nat.sub_self]
      refine Congruent.branches (hR.pure _) (Congruent.branches (hR.pure _) ?_)
      exact hR.framed (.refl n) (ih hd) (S := fun x _ => KeepsLevel _ Bool x (throw .outOfFuel))
        (fun _ _ h => keepsLevel_frame_end h _) a b
    · obtain ⟨left, hleft⟩ := Nat.exists_eq_add_of_lt hlt
      have hlevels : Limits.unlimited.toNat - d = left + 1 := by omega
      have hnested : Limits.unlimited.toNat - (d + 1) = left := by omega
      rw [hlevels]
      refine Congruent.branches (hR.pure _) (Congruent.branches (hR.pure _) ?_)
      exact (congruent_keepsLevel (d + 1)).framed (.refl n) (hnested ▸ ih hlt) (S := KeepsLevel d Bool)
        (fun _ _ h => keepsLevel_frame h hlt) a b

/-- Related comparisons make `F` related computations, whatever the relation. -/
def Uniform (F : (Ty → Ty → CompareM Bool) → CompareM Bool) : Prop :=
  ∀ ⦃R⦄, Congruent R → ∀ ⦃sub sub'⦄, (∀ a b, R Bool (sub a b) (sub' a b)) → R Bool (F sub) (F sub')

theorem uniform_apply (a b : Ty) : Uniform (· a b) := fun _ _ _ _ hsub => hsub a b

/-- **What starts at depth zero and comes to an answer opens no more frames at a time than the counter counts.** -/
theorem run_within {F : (Ty → Ty → CompareM Bool) → CompareM Bool} {n : Nat} {c : Comparer} {w : World}
    {r : (Bool × Comparer) × World} (hF : Uniform F) (hc : c.depth.depth = 0) (hrun : F (isSubType n) c w = .ok r) :
    F (isSubTypeWithin Limits.unlimited.toNat n) c w = .ok r := by
  obtain ⟨hle, hsame⟩ := hF (congruent_keepsLevel 0) (keepsLevel_isSubType n (Nat.zero_le _)) hrun
  exact hsame hc (by omega)

theorem opensAtMost_of_run {n : Nat} {a b : Ty} {c : Comparer} {w : World} {r : (Bool × Comparer) × World}
    (hc : c.depth.depth = 0) (hrun : isSubType n a b c w = .ok r) :
    OpensAtMost Limits.unlimited.toNat n (· a b) c w :=
  (run_within (uniform_apply a b) hc hrun).trans hrun.symm

end CompareM

end Conformance
