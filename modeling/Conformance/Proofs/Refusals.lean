import Conformance.Proofs.InterSource

/-!
# What a refused match leaves behind

Comparisons give the constraints back when they answer false. Matching, the comparison of parameter lists and that of
type constructors do not: they walk along lists and curried results, and what the components before the refused one
have narrowed stays (`matchingParams_refused_narrows`). The constraints that they leave are those that some comparisons
made, each accepted and each started where the one before ended (`Commits`), so they are the ones from before where no
component was accepted, or none narrowed: `refused_commits`. Types without parameters have one component.
-/

namespace Conformance

open CompareM

namespace CompareM

variable {α : Type} {rel sub : Ty → Ty → CompareM Bool} {f : α → CompareM Bool} {l l' : List α} {c c' c₁ : Comparer}
  {w w' w₁ : World} {n : Nat} {answer : Bool}

/-- The constraints that comparisons of the pairs make, each of them accepted and started with what the one before
left. -/
inductive Commits (rel : Ty → Ty → CompareM Bool) : List (Ty × Ty) → ConstraintStore → ConstraintStore → Prop
  | nil (s : ConstraintStore) : Commits rel [] s s
  | cons {a b : Ty} {l : List (Ty × Ty)} {c c' : Comparer} {w w' : World} {s : ConstraintStore}
    (h : rel a b c w = .ok ((true, c'), w')) (hl : Commits rel l c'.constraint s) :
    Commits rel ((a, b) :: l) c.constraint s

theorem Commits.append {l l' : List (Ty × Ty)} {s s' s'' : ConstraintStore} (h : Commits rel l s s')
    (h' : Commits rel l' s' s'') : Commits rel (l ++ l') s s'' := by
  induction h with
  | nil => exact h'
  | cons hrun _ ih => exact .cons hrun (ih h')

/-! ## Lists of components -/

/-- The components are accepted one after the other, from `c` and `w` on to `c'` and `w'`. -/
inductive Accepts (f : α → CompareM Bool) : List α → Comparer → World → Comparer → World → Prop
  | nil (c : Comparer) (w : World) : Accepts f [] c w c w
  | cons {a : α} {l : List α} {c c₁ c' : Comparer} {w w₁ w' : World} (h : f a c w = .ok ((true, c₁), w₁))
    (hl : Accepts f l c₁ w₁ c' w') : Accepts f (a :: l) c w c' w'

/-- A walk along a list accepts all of it, or some part at the front and refuses the next component. -/
theorem accepts_of_allM (l : List α) : ∀ {c : Comparer} {w : World}, l.allM f c w = .ok ((answer, c'), w') →
    (answer = true ∧ Accepts f l c w c' w') ∨ (answer = false ∧ ∃ l₁ a l₂ c₁ w₁, l = l₁ ++ a :: l₂ ∧
      Accepts f l₁ c w c₁ w₁ ∧ f a c₁ w₁ = .ok ((false, c'), w')) := by
  induction l with
  | nil =>
    intro c w h
    cases h
    exact .inl ⟨rfl, .nil _ _⟩
  | cons a l ih =>
    intro c w h
    obtain ⟨first, c₁, w₁, hfirst, hrest⟩ := run_bind_ok h
    cases first with
    | false =>
      cases hrest
      exact .inr ⟨rfl, [], a, l, c, w, rfl, .nil _ _, hfirst⟩
    | true =>
      rcases ih hrest with ⟨ha, hl⟩ | ⟨ha, l₁, b, l₂, c₂, w₂, rfl, hl₁, hb⟩
      · exact .inl ⟨ha, .cons hfirst hl⟩
      · exact .inr ⟨ha, a :: l₁, b, l₂, c₂, w₂, rfl, .cons hfirst hl₁, hb⟩

/-! ## Parameter lists and type constructors -/

theorem rollsBack_orElse_return {x : CompareM Bool} (hx : RollsBack x) (b : Bool) : RollsBack (x <||> return b) := by
  intro c w c' w' h
  obtain ⟨answer, c₁, w₁, hrun, hrest⟩ := run_bind_ok h
  cases answer with
  | true => cases hrest
  | false =>
    cases hrest
    exact hx _ _ _ _ hrun

/-- A walk along pairs that are compared, or let through without a comparison that is accepted. -/
theorem Accepts.commits {pairs : List (Ty × Ty)} {g : Ty × Ty → Bool}
    (hrel : ∀ a b, RollsBack (rel a b))
    (h : Accepts (fun pair => rel pair.1 pair.2 <||> return g pair) pairs c w c' w') :
    ∃ l, l.Sublist pairs ∧ Commits rel l c.constraint c'.constraint := by
  induction h with
  | nil c w => exact ⟨[], .slnil, .nil _⟩
  | @cons pair pairs c c₁ c' w w₁ w' hrun _ ih =>
    obtain ⟨l, hl, hcommits⟩ := ih
    obtain ⟨answer, c₂, w₂, hcompared, hrest⟩ := run_bind_ok hrun
    cases answer with
    | true =>
      cases hrest
      exact ⟨pair :: l, hl.cons_cons pair, .cons hcompared hcommits⟩
    | false =>
      obtain ⟨⟨-, rfl⟩, rfl⟩ : (g pair = true ∧ c₂ = _) ∧ w₂ = _ := by simpa using Except.ok.inj hrest
      exact ⟨l, hl.cons pair, hrel _ _ _ _ _ _ hcompared ▸ hcommits⟩

/-- Parameter lists that are refused leave what a part at the front has made of the constraints. -/
theorem sameParams_commits {formals₁ formals₂ : List Ty} {foreign₁ foreign₂ : Bool}
    (h : sameParams sub formals₁ formals₂ foreign₁ foreign₂ c w = .ok ((answer, c'), w')) :
    ∃ k l, l.Sublist ((formals₁.zip formals₂).take k) ∧ Commits (same sub) l c.constraint c'.constraint ∧
      (answer = false → l = [] ∨ k < formals₁.length) := by
  unfold sameParams at h
  split at h
  · cases h
    exact ⟨0, [], .slnil, .nil _, fun _ => .inl rfl⟩
  · next hlength =>
    rcases accepts_of_allM _ h with ⟨rfl, hall⟩ | ⟨rfl, l₁, a, l₂, c₁, w₁, hpairs, haccepts, hrefused⟩
    · obtain ⟨l, hl, hcommits⟩ := hall.commits (rollsBack_same sub)
      exact ⟨_, l, by rwa [List.take_length], hcommits, nofun⟩
    · obtain ⟨l, hl, hcommits⟩ := haccepts.commits (rollsBack_same sub)
      have hlt : l₁.length < formals₁.length := by
        have := congrArg List.length hpairs
        simp only [List.length_zip, List.length_append, List.length_cons] at this
        omega
      refine ⟨l₁.length, l, by rwa [hpairs, List.take_left], ?_, fun _ => .inr hlt⟩
      rw [rollsBack_orElse_return (rollsBack_same sub a.1 a.2) _ _ _ _ _ hrefused]
      exact hcommits

/-- A comparison of types that are computed first. -/
theorem run_computed {x y : WorldM Ty} {r : (Bool × Comparer) × World}
    (h : (do sub (← x) (← y) : CompareM Bool) c w = .ok r) : ∃ a b v, sub a b c v = .ok r := by
  obtain ⟨a, c₁, w₁, hx, hrest⟩ := run_bind_ok h
  obtain ⟨-, rfl⟩ := run_lift_ok hx
  obtain ⟨b, c₂, w₂, hy, hsub⟩ := run_bind_ok hrest
  obtain ⟨-, rfl⟩ := run_lift_ok hy
  exact ⟨a, b, w₂, hsub⟩

/-- A walk along components that are compared once each. -/
theorem Accepts.commits_length (hf : ∀ a c w r, f a c w = .ok r → ∃ x y v, rel x y c v = .ok r)
    (h : Accepts f l c w c' w') :
    ∃ pairs : List (Ty × Ty), pairs.length = l.length ∧ Commits rel pairs c.constraint c'.constraint := by
  induction h with
  | nil c w => exact ⟨[], rfl, .nil _⟩
  | cons hrun _ ih =>
    obtain ⟨pairs, hlength, hcommits⟩ := ih
    obtain ⟨x, y, v, hrel⟩ := hf _ _ _ _ hrun
    exact ⟨(x, y) :: pairs, congrArg (· + 1) hlength, .cons hrel hcommits⟩

/-- Type constructors, fitting or not, leave what comparisons of the bounds of some parameters have made of the
constraints. -/
theorem conformsAsConstructor_commits {t₁ t₂ : Ty} (hsub : ∀ a b, RollsBack (sub a b))
    (h : conformsAsConstructor n sub t₁ t₂ c w = .ok ((answer, c'), w')) :
    ∃ params l, w.openTypeParams n t₁ = .ok params ∧ l.length ≤ params.length ∧
      Commits sub l c.constraint c'.constraint := by
  unfold conformsAsConstructor at h
  obtain ⟨params, _, _, hrun, h₁⟩ := run_bind_ok h
  obtain ⟨hparams, rfl, rfl⟩ := run_reading_ok hrun
  obtain ⟨args, _, _, hrun, h₂⟩ := run_bind_ok h₁
  obtain ⟨-, rfl, rfl⟩ := run_reading_ok hrun
  split at h₂
  · cases h₂
    exact ⟨params, [], hparams, Nat.zero_le _, .nil _⟩
  obtain ⟨base, _, _, hrun, h₃⟩ := run_bind_ok h₂
  obtain ⟨-, rfl⟩ := run_lift_ok hrun
  obtain ⟨fit, c₁, w₁, hfit, h₄⟩ := run_bind_ok h₃
  obtain rfl : c₁ = c' := by
    cases h₄
    rfl
  have hcompared : ∀ {pair : Symbol × Ty} {c w r}, (do
      let info ← Ty.member base ((← world).decls.name pair.1)
      sub (← info.asBounds) (← pair.2.asBounds) : CompareM Bool) c w = .ok r → ∃ x y v, sub x y c v = .ok r := by
    intro pair c w r hrun
    rw [run_world_bind] at hrun
    obtain ⟨info, c₂, w₂, hmember, hrest⟩ := run_bind_ok hrun
    obtain ⟨-, rfl⟩ := run_lift_ok hmember
    exact run_computed hrest
  rcases accepts_of_allM _ hfit with ⟨-, hall⟩ | ⟨-, l₁, pair, l₂, c₂, w₂, hpairs, haccepts, hrefused⟩
  · obtain ⟨pairs, hlength, hcommits⟩ := hall.commits_length fun _ _ _ _ hrun => hcompared hrun
    refine ⟨params, pairs, hparams, ?_, hcommits⟩
    rw [hlength, List.length_zip]
    exact Nat.min_le_left _ _
  · obtain ⟨pairs, hlength, hcommits⟩ := haccepts.commits_length fun _ _ _ _ hrun => hcompared hrun
    obtain ⟨x, y, v, hrefused⟩ := hcompared hrefused
    refine ⟨params, pairs, hparams, ?_, hsub x y _ _ _ _ hrefused ▸ hcommits⟩
    have := congrArg List.length hpairs
    simp only [List.length_zip, List.length_append, List.length_cons] at this
    omega

/-! ## Matching -/

/-- Whatever the outcome, the constraints are what accepted comparisons made of those before. -/
def Committing (rel : Ty → Ty → CompareM Bool) (x : CompareM α) : Prop :=
  ∀ c w a c' w', x c w = .ok ((a, c'), w') → ∃ l, Commits rel l c.constraint c'.constraint

namespace Committing

variable {β : Type} {x y : CompareM Bool}

theorem pure (a : α) : Committing rel (return a) := by
  intro c w a c' w' h
  cases h
  exact ⟨[], .nil _⟩

theorem throw : Committing rel (throw .outOfFuel : CompareM α) := by
  intro c w a c' w' h
  cases h

theorem lift (x : WorldM α) : Committing rel (liftM x) := by
  intro c w a c' w' h
  obtain ⟨-, rfl⟩ := run_lift_ok h
  exact ⟨[], .nil _⟩

theorem bind {x : CompareM α} {f : α → CompareM β} (hx : Committing rel x) (hf : ∀ a, Committing rel (f a)) :
    Committing rel (x >>= f) := by
  intro c w b c' w' h
  obtain ⟨a, c₁, w₁, hrun, hrest⟩ := run_bind_ok h
  obtain ⟨l, hl⟩ := hx _ _ _ _ _ hrun
  obtain ⟨l', hl'⟩ := hf a _ _ _ _ _ hrest
  exact ⟨l ++ l', hl.append hl'⟩

theorem mapM {f : α → CompareM β} (hf : ∀ a, Committing rel (f a)) (l : List α) : Committing rel (l.mapM f) := by
  induction l with
  | nil => rw [List.mapM_nil]; exact pure _
  | cons a l ih => rw [List.mapM_cons]; exact .bind (hf a) fun _ => .bind ih fun _ => pure _

theorem ite {p : Prop} [Decidable p] (hx : Committing rel x) (hy : Committing rel y) :
    Committing rel (if p then x else y) := by
  split
  · exact hx
  · exact hy

theorem andThen (hx : Committing rel x) (hy : Committing rel y) : Committing rel (x <&&> y) :=
  hx.bind fun a => by cases a <;> [exact pure _; exact hy]

theorem of_rollsBack {a b : Ty} (h : RollsBack (rel a b)) : Committing rel (rel a b) := by
  intro c w answer c' w' hrun
  cases answer with
  | true => exact ⟨[(a, b)], .cons hrun (.nil _)⟩
  | false => exact ⟨[], h _ _ _ _ hrun ▸ .nil _⟩

theorem sameParams (formals₁ formals₂ : List Ty) (foreign₁ foreign₂ : Bool) :
    Committing (same sub) (sameParams sub formals₁ formals₂ foreign₁ foreign₂) := by
  intro c w answer c' w' h
  obtain ⟨-, l, -, hl, -⟩ := sameParams_commits h
  exact ⟨l, hl⟩

end Committing

/-- What a match leaves is what comparisons made of the constraints. -/
theorem committing_matchesWith (simple : Bool) (n : Nat) :
    ∀ t₁ t₂ : Ty, Committing (same sub) (matchesWith sub simple n t₁ t₂) := by
  induction n with
  | zero => exact fun _ _ => .throw
  | succ n ih =>
    intro t₁ t₂
    refine .bind (.lift get) fun w => ?_
    split
    · split
      · refine .bind (.mapM (fun _ => .lift _) _) fun formals₂ => .ite (.pure _) (.andThen (.sameParams _ _ _ _) ?_)
        exact .bind (.lift _) fun _ => ih _ _
      · exact .pure _
    · split
      · exact .ite (ih _ _) (.pure _)
      · exact .pure _
    · exact .pure _
    · split
      · exact .ite (ih _ _) (.pure _)
      · exact .pure _
    · exact ih _ _
    · split
      · exact .ite (.pure _) (.bind (.lift _) fun _ => ih _ _)
      · exact .pure _
    · exact .pure _
    · exact .pure _
    · exact .pure _
    · exact ih _ _
    · exact .ite (.pure _) (.of_rollsBack (rollsBack_same sub _ _))

end CompareM

/-! ### Types without parameters -/

/-- Along curried results and by-name results the type takes no parameters. -/
inductive World.Parameterless (w : World) : Ty → Prop
  | method {t : Ty} {b : BinderId} {m : Binder} (h : w.shape? t = some (.method b)) (hb : w.binder? b = some m)
    (hm : m.infos = []) (hr : Parameterless w m.result) : Parameterless w t
  | universal {t : Ty} {b : BinderId} {p : Binder} (h : w.shape? t = some (.universal b)) (hb : w.binder? b = some p)
    (hr : Parameterless w p.result) : Parameterless w t
  | byName {t r : Ty} (h : w.shape? t = some (.byName r)) (hr : Parameterless w r) : Parameterless w t
  | simple {t : Ty} {d : Shape} (h : w.shape? t = some d) (hbinder : ∀ b, d ≠ .method b ∧ d ≠ .universal b)
    (hbyName : ∀ r, d ≠ .byName r) : Parameterless w t

theorem World.Parameterless.grow {w v : World} {t : Ty} (h : w.Parameterless t) (hv : w ≤ v) : v.Parameterless t := by
  induction h with
  | method h hb hm _ ih => exact .method (hv.shape h) (hv.binder hb) hm ih
  | universal h hb _ ih => exact .universal (hv.shape h) (hv.binder hb) ih
  | byName h _ ih => exact .byName (hv.shape h) ih
  | simple h hbinder hbyName => exact .simple (hv.shape h) hbinder hbyName

namespace CompareM

variable {α β : Type} {sub : Ty → Ty → CompareM Bool} {w : World}

/-- From `w` on the comparer is left as it was, and the world only grows. -/
def Quiet (w : World) (x : CompareM α) : Prop := ∀ c a c' w', x c w = .ok ((a, c'), w') → c' = c ∧ w ≤ w'

/-- From `w` on the computation gives the constraints back when it answers false. -/
def RollsBackFrom (w : World) (x : CompareM Bool) : Prop :=
  ∀ c c' w', x c w = .ok ((false, c'), w') → c'.constraint = c.constraint

theorem quiet_lift {x : WorldM α} (hx : Grows True x) : Quiet w (liftM x) := by
  intro c a c' w' h
  obtain ⟨hrun, rfl⟩ := run_lift_ok h
  exact ⟨rfl, (hx w).ok hrun⟩

theorem quiet_pure (a : α) : Quiet w (return a) := by
  intro c a c' w' h
  cases h
  exact ⟨rfl, le_rfl⟩

theorem Quiet.bind {x : CompareM α} {f : α → CompareM β} (hx : Quiet w x) (hf : ∀ a v, w ≤ v → Quiet v (f a)) :
    Quiet w (x >>= f) := by
  intro c b c' w' h
  obtain ⟨a, c₁, w₁, hrun, hrest⟩ := run_bind_ok h
  obtain ⟨rfl, hw⟩ := hx _ _ _ _ hrun
  obtain ⟨rfl, hw'⟩ := hf a w₁ hw _ _ _ _ hrest
  exact ⟨rfl, hw.trans hw'⟩

theorem Quiet.mapM {f : α → CompareM β} (hf : ∀ a v, Quiet v (f a)) (l : List α) : Quiet w (l.mapM f) := by
  induction l generalizing w with
  | nil => rw [List.mapM_nil]; exact quiet_pure _
  | cons a l ih => rw [List.mapM_cons]; exact .bind (hf a w) fun _ _ _ => .bind ih fun _ _ _ => quiet_pure _

theorem RollsBack.from {x : CompareM Bool} (h : RollsBack x) : RollsBackFrom w x := fun c c' w' => h c w c' w'

theorem Quiet.rollsBack {x : CompareM α} {f : α → CompareM Bool} (hx : Quiet w x)
    (hf : ∀ a v, w ≤ v → RollsBackFrom v (f a)) : RollsBackFrom w (x >>= f) := by
  intro c c' w' h
  obtain ⟨a, c₁, w₁, hrun, hrest⟩ := run_bind_ok h
  obtain ⟨rfl, hw⟩ := hx _ _ _ _ hrun
  exact hf a w₁ hw _ _ _ hrest

theorem RollsBackFrom.world_bind {f : World → CompareM Bool} (h : RollsBackFrom w (f w)) :
    RollsBackFrom w (world >>= f) := h

theorem RollsBackFrom.ite {p : Prop} [Decidable p] {x y : CompareM Bool} (hx : RollsBackFrom w x)
    (hy : RollsBackFrom w y) : RollsBackFrom w (if p then x else y) := by
  split
  · exact hx
  · exact hy

theorem quiet_sameParams_nil (formals : List Ty) (foreign₁ foreign₂ : Bool) :
    Quiet w (sameParams sub [] formals foreign₁ foreign₂) := by
  unfold sameParams
  split
  · exact quiet_pure _
  · exact quiet_pure _

section Parameterless

variable {simple : Bool} {n : Nat} {t₁ t₂ : Ty} {b : BinderId}
  (hnested : ∀ {w : World} {t₁ : Ty} (t₂ : Ty), w.Parameterless t₁ → RollsBackFrom w (matchesWith sub simple n t₁ t₂))

include hnested

theorem rollsBack_method {m : Binder} (h : w.shape? t₁ = some (.method b)) (hb : w.binder? b = some m)
    (hm : m.infos = []) (hr : w.Parameterless m.result) : RollsBackFrom w (matchesWith sub simple (n + 1) t₁ t₂) := by
  refine .world_bind ?_
  rw [World.shape_of_shape? h]
  generalize w.shape t₂ = d
  cases d with
  | method b₂ =>
    simp only [hb]
    split
    · next m₁ m₂ heq _ =>
      cases heq
      refine Quiet.rollsBack (.mapM (fun _ _ => quiet_lift (grows_substBinder _ _ _ _)) _) fun formals₂ v hv => ?_
      refine .ite (rollsBack_pure _).from ?_
      rw [hm]
      refine (quiet_sameParams_nil _ _ _).rollsBack fun answer v' hv' => ?_
      cases answer with
      | false => exact (rollsBack_pure _).from
      | true =>
        refine (quiet_lift (grows_substBinder _ _ _ _)).rollsBack fun result v'' hv'' => ?_
        exact hnested _ (hr.grow (hv.trans (hv'.trans hv'')))
    · exact (rollsBack_pure _).from
  | byName r =>
    simp only [hb]
    exact .ite (hnested _ hr) (rollsBack_pure _).from
  | _ => exact (rollsBack_pure _).from

theorem rollsBack_universal {p : Binder} (h : w.shape? t₁ = some (.universal b)) (hb : w.binder? b = some p)
    (hr : w.Parameterless p.result) : RollsBackFrom w (matchesWith sub simple (n + 1) t₁ t₂) := by
  refine .world_bind ?_
  rw [World.shape_of_shape? h]
  generalize w.shape t₂ = d
  cases d with
  | universal b₂ =>
    simp only [hb]
    split
    · next p₁ p₂ heq _ =>
      cases heq
      refine .ite (rollsBack_pure _).from ((quiet_lift (grows_substBinder _ _ _ _)).rollsBack fun result v hv => ?_)
      exact hnested _ (hr.grow hv)
    · exact (rollsBack_pure _).from
  | _ => exact (rollsBack_pure _).from

theorem rollsBack_byName {r : Ty} (h : w.shape? t₁ = some (.byName r)) (hr : w.Parameterless r) :
    RollsBackFrom w (matchesWith sub simple (n + 1) t₁ t₂) := by
  refine .world_bind ?_
  rw [World.shape_of_shape? h]
  generalize w.shape t₂ = d
  cases d with
  | method b₂ =>
    dsimp only
    split
    · exact .ite (hnested _ hr) (rollsBack_pure _).from
    · exact (rollsBack_pure _).from
  | _ => exact hnested _ hr

theorem rollsBack_simple {d₁ : Shape} (h : w.shape? t₁ = some d₁) (hbinder : ∀ b, d₁ ≠ .method b ∧ d₁ ≠ .universal b)
    (hbyName : ∀ r, d₁ ≠ .byName r) : RollsBackFrom w (matchesWith sub simple (n + 1) t₁ t₂) := by
  have hlast : RollsBackFrom w (if simple then return true else same sub t₁ t₂) :=
    .ite (rollsBack_pure _).from (rollsBack_same sub t₁ t₂).from
  have hresult : ∀ r, RollsBackFrom w (matchesWith sub simple n t₁ r) := fun r =>
    hnested r (.simple h hbinder hbyName)
  refine .world_bind ?_
  rw [World.shape_of_shape? h]
  generalize w.shape t₂ = d
  cases d₁ with
  | method b => exact absurd rfl (hbinder b).1
  | universal b => exact absurd rfl (hbinder b).2
  | byName r => exact absurd rfl (hbyName r)
  | _ =>
    cases d with
    | method | universal => exact (rollsBack_pure _).from
    | byName r => exact hresult r
    | _ => exact hlast

end Parameterless

/-- A match of a type without parameters gives the constraints back when it fails: it compares once, at the end. -/
theorem rollsBack_matchesWith (simple : Bool) (n : Nat) : ∀ {w : World} {t₁ : Ty} (t₂ : Ty), w.Parameterless t₁ →
    RollsBackFrom w (matchesWith sub simple n t₁ t₂) := by
  induction n with
  | zero =>
    intro w t₁ t₂ _ c c' w' h
    cases h
  | succ n ih =>
    intro w t₁ t₂ ht
    cases ht with
    | method h hb hm hr => exact rollsBack_method ih h hb hm hr
    | universal h hb hr => exact rollsBack_universal ih h hb hr
    | byName h hr => exact rollsBack_byName ih h hr
    | simple h hbinder hbyName => exact rollsBack_simple ih h hbinder hbyName

/-! ## Refusals -/

/-- **What a refusal leaves.** A match, a comparison of parameter lists or one of type constructors that answers false
leaves what accepted comparisons of components have made of the constraints, one after the other: of places in front of
one that is refused, or of parameters of the constructor. A match of a type without parameters gives the constraints
back. -/
theorem refused_commits (fuel : Nat) (t₁ t₂ : Ty) (simple : Bool) (formals₁ formals₂ : List Ty)
    (foreign₁ foreign₂ : Bool) (c c' : Comparer) (w w' : World) :
    (matchesType fuel t₁ t₂ simple c w = .ok ((false, c'), w') →
      (∃ l, Commits (isSameType fuel) l c.constraint c'.constraint) ∧
        (w.Parameterless t₁ → c'.constraint = c.constraint)) ∧
    (matchingParams fuel formals₁ formals₂ foreign₁ foreign₂ c w = .ok ((false, c'), w') →
      ∃ k l, l.Sublist ((formals₁.zip formals₂).take k) ∧ (l = [] ∨ k < formals₁.length) ∧
        Commits (isSameType fuel) l c.constraint c'.constraint) ∧
    (isSubTypeConstructor fuel t₁ t₂ c w = .ok ((false, c'), w') →
      ∃ params l, w.openTypeParams fuel t₁ = .ok params ∧ l.length ≤ params.length ∧
        Commits (isSubType fuel) l c.constraint c'.constraint) := by
  refine ⟨fun h => ⟨?_, fun ht => ?_⟩, fun h => ?_, fun h => ?_⟩
  · exact committing_matchesWith simple fuel t₁ t₂ _ _ _ _ _ h
  · exact rollsBack_matchesWith simple fuel t₂ ht _ _ _ h
  · obtain ⟨k, l, hl, hcommits, hfront⟩ := sameParams_commits h
    exact ⟨k, l, hl, hfront rfl, hcommits⟩
  · exact conformsAsConstructor_commits (rollsBack_isSubType fuel) h

/-- `X, Int` against `Int, String`, with the unbounded `X` under inference: refused, and what is left are the
constraints that an accepted comparison of `X` and `Int` made, if any. -/
theorem refused_commits_least : ∃ c w,
    matchingParams 8 [SoleParam.least.x, Builtin.int.type] [Builtin.int.type, Builtin.string.type] false false
      SoleParam.leastComparer SoleParam.leastWorld = .ok ((false, c), w) ∧
    ∃ k l, l.Sublist (([SoleParam.least.x, Builtin.int.type].zip [Builtin.int.type, Builtin.string.type]).take k) ∧
      (l = [] ∨ k < 2) ∧ Commits (isSameType 8) l SoleParam.leastComparer.constraint c.constraint := by
  obtain ⟨c, w, hrun⟩ : ∃ c w,
      matchingParams 8 [SoleParam.least.x, Builtin.int.type] [Builtin.int.type, Builtin.string.type] false false
        SoleParam.leastComparer SoleParam.leastWorld = .ok ((false, c), w) := exists_of_answer (by decide +kernel)
  have h := refused_commits 8 SoleParam.least.x Builtin.int.type false [SoleParam.least.x, Builtin.int.type]
    [Builtin.int.type, Builtin.string.type] false false SoleParam.leastComparer c SoleParam.leastWorld w
  exact ⟨c, w, hrun, h.2.1 hrun⟩

/-- The narrowing of `X` to `Int` is left behind when `Int` and `String` are refused. -/
theorem matchingParams_refused_narrows :
    SoleParam.leastComparer.constraint.bounds? ⟨⟨0⟩, 0⟩ = some SoleParam.least.bounds ∧
    SoleParam.leastWorld.boundsParts? SoleParam.least.bounds = some (Builtin.nothing.type, Builtin.any.type) ∧
    ((matchingParams 8 [SoleParam.least.x, Builtin.int.type] [Builtin.int.type, Builtin.string.type] false false
      SoleParam.leastComparer SoleParam.leastWorld).toOption.map fun ⟨⟨answer, c⟩, w⟩ =>
        (answer, (c.constraint.bounds? ⟨⟨0⟩, 0⟩).bind w.boundsParts?)) =
      some (false, some (Builtin.int.type, Builtin.int.type)) :=
  ⟨by decide +kernel, by decide +kernel, by decide +kernel⟩

end CompareM

end Conformance
