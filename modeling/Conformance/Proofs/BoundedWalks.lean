import Conformance.Proofs.Growth

/-!
# Walks come to an end

The loops that follow aliases and refinements and the recursive walks are written with an allowance of levels. The
allowance decides nothing: the loops are described without one (`World.Dealiases`, `World.Locates`), and a recursive
walk answers alike at every allowance that covers the levels its guard still lets in (`Walk.Query.answers`). What is
left of the depth limit shrinks with every type that is entered, whatever the declarations say.
-/

namespace Conformance

section Levels

variable {n : Nat} {b : Guard.Bounds} {d : Nat}

theorem Admitted.positive (h : Admitted False n b d) : 0 < n := by
  obtain h | ⟨-, hn, -⟩ := h
  · exact h.elim
  · exact hn

theorem Admitted.entered {g g' : Guard Ty} {t : Ty} (h : Admitted False (n + 1) g.bounds g.depth)
    (he : g.enter t = (.entered, g')) : Admitted False n g'.bounds g'.depth := by
  have hlevels := h.enter ⟨rfl, rfl, rfl⟩ he
  obtain ⟨g'', he', hg''⟩ | ⟨e, g'', he', hne, -⟩ := Guard.enter_cases ⟨rfl, rfl, rfl⟩ t
  · cases he.symm.trans he'
    rwa [hg''.bounds, hg''.depth]
  · cases he.symm.trans he'
    cases hne

theorem exists_refusal {g : Guard Ty} {t : Ty} (h : ∀ g', g.enter t = (.entered, g') → False) :
    ∃ e g', g.enter t = (e, g') ∧ e.isEntered = false := by
  obtain ⟨g', he, -⟩ | ⟨e, g', he, hne, -⟩ := Guard.enter_cases ⟨rfl, rfl, rfl⟩ t
  · exact (h g' he).elim
  · exact ⟨e, g', he, hne⟩

end Levels

/-! ## Loops -/

namespace World

/-- The loop that follows aliases goes from `t` under `g` to `r`, and leaves its guard as `g'`. -/
inductive Dealiases (w : World) : Guard Ty → Ty → Ty → Guard Ty → Prop
  | stops {g t} (ht : w.aliased? t = none) : Dealiases w g t t g
  | refused {g g' t next e} (ht : w.aliased? t = some next) (he : g.enter t = (e, g')) (hne : e.isEntered = false) :
      Dealiases w g t t g'
  | follows {g g' g'' t next r} (ht : w.aliased? t = some next) (he : g.enter t = (.entered, g'))
      (hrest : Dealiases w g' next r g'') : Dealiases w g t r g''

/-- What the search for the symbol of a type constructor makes of `t` once it is entered: the type it goes on to, or
its answer. -/
def towardsSymbol (w : World) (t : Ty) : Ty ⊕ Option Symbol :=
  match w.shape t with
  | .named _ s => if w.decls.isSynonym s then .inl (w.decls.info s) else .inr (some s)
  | .classInfo _ cls => .inr (some cls)
  | .refined parent _ _ => .inl parent
  | _ => .inr none

/-- The search for the symbol of the type constructor of `t` under `g` answers `r`, and leaves its guard as `g'`. -/
inductive Locates (w : World) : Guard Ty → Ty → Option Symbol → Guard Ty → Prop
  | refused {g g' t e} (he : g.enter t = (e, g')) (hne : e.isEntered = false) : Locates w g t none g'
  | stops {g g' t r} (he : g.enter t = (.entered, g')) (ht : w.towardsSymbol t = .inr r) : Locates w g t r g'
  | follows {g g' g'' t next r} (he : g.enter t = (.entered, g')) (ht : w.towardsSymbol t = .inl next)
      (hrest : Locates w g' next r g'') : Locates w g t r g''

variable {w : World} {g g₁ g₂ : Guard Ty} {t : Ty}

theorem Dealiases.unique {r₁ r₂ : Ty} (h₁ : w.Dealiases g t r₁ g₁) (h₂ : w.Dealiases g t r₂ g₂) :
    r₁ = r₂ ∧ g₁ = g₂ := by
  induction h₁ with
  | stops ht =>
    cases h₂ with
    | stops => exact ⟨rfl, rfl⟩
    | refused ht' => cases ht.symm.trans ht'
    | follows ht' => cases ht.symm.trans ht'
  | refused ht he hne =>
    cases h₂ with
    | stops ht' => cases ht.symm.trans ht'
    | refused _ he' => cases he.symm.trans he'; exact ⟨rfl, rfl⟩
    | follows _ he' => cases he.symm.trans he'; cases hne
  | follows ht he _ ih =>
    cases h₂ with
    | stops ht' => cases ht.symm.trans ht'
    | refused _ he' hne => cases he.symm.trans he'; cases hne
    | follows ht' he' hrest =>
      cases ht.symm.trans ht'
      cases he.symm.trans he'
      exact ih hrest

theorem Locates.unique {r₁ r₂ : Option Symbol} (h₁ : w.Locates g t r₁ g₁) (h₂ : w.Locates g t r₂ g₂) :
    r₁ = r₂ ∧ g₁ = g₂ := by
  induction h₁ with
  | refused he hne =>
    cases h₂ with
    | refused he' => cases he.symm.trans he'; exact ⟨rfl, rfl⟩
    | stops he' => cases he.symm.trans he'; cases hne
    | follows he' => cases he.symm.trans he'; cases hne
  | stops he ht =>
    cases h₂ with
    | refused he' hne => cases he.symm.trans he'; cases hne
    | stops he' ht' => cases he.symm.trans he'; cases ht.symm.trans ht'; exact ⟨rfl, rfl⟩
    | follows _ ht' => cases ht.symm.trans ht'
  | follows he ht _ ih =>
    cases h₂ with
    | refused he' hne => cases he.symm.trans he'; cases hne
    | stops _ ht' => cases ht.symm.trans ht'
    | follows he' ht' hrest =>
      cases he.symm.trans he'
      cases ht.symm.trans ht'
      exact ih hrest

/-- The loop ends where the function with an allowance of levels does, if the allowance covers what `g` lets in. -/
theorem dealiases_dealiasFrom : ∀ {n : Nat} {g : Guard Ty} {t : Ty}, Admitted False n g.bounds g.depth →
    ∃ g', w.Dealiases g t (w.dealiasFrom n g t) g'
  | 0, _, _, hn => absurd hn.positive (Nat.lt_irrefl 0)
  | n + 1, g, t, hn => by
    unfold World.dealiasFrom
    split
    · next ht => exact ⟨g, .stops ht⟩
    · next next ht =>
      split
      · next g' he =>
        obtain ⟨g'', hrest⟩ := dealiases_dealiasFrom (t := next) (hn.entered he)
        exact ⟨g'', .follows ht he hrest⟩
      · next hne =>
        obtain ⟨e, g', he, hrefused⟩ := exists_refusal hne
        exact ⟨g', .refused ht he hrefused⟩

/-- The search ends with the answer of the function with an allowance of levels, if that covers what `g` lets in. -/
theorem locates_typeSymbolFrom : ∀ {n : Nat} {g : Guard Ty} {t : Ty}, Admitted False n g.bounds g.depth →
    ∃ g', w.Locates g t (w.typeSymbolFrom n g t) g'
  | 0, _, _, hn => absurd hn.positive (Nat.lt_irrefl 0)
  | n + 1, g, t, hn => by
    unfold World.typeSymbolFrom
    split
    · next g' he =>
      split
      · next pre s hshape =>
        split
        · next hs =>
          obtain ⟨g'', hrest⟩ := locates_typeSymbolFrom (t := w.decls.info s) (hn.entered he)
          exact ⟨g'', .follows he (by simp [towardsSymbol, hshape, hs]) hrest⟩
        · next hs => exact ⟨g', .stops he (by simp [towardsSymbol, hshape, hs])⟩
      · next pre cls hshape => exact ⟨g', .stops he (by simp [towardsSymbol, hshape])⟩
      · next parent name info hshape =>
        obtain ⟨g'', hrest⟩ := locates_typeSymbolFrom (t := parent) (hn.entered he)
        exact ⟨g'', .follows he (by simp [towardsSymbol, hshape]) hrest⟩
      · next hnamed hinfo hrefined =>
        refine ⟨g', .stops he ?_⟩
        unfold towardsSymbol
        split <;> first | rfl | simp_all
    · next hne =>
      obtain ⟨e, g', he, hrefused⟩ := exists_refusal hne
      exact ⟨g', .refused he hrefused⟩

end World

/-! ## Larger allowances -/

section Extends

variable {σ α β : Type}

/-- Wherever `m` gives an answer, `m'` gives the same. -/
def Extends (m m' : StateT σ WorldM α) : Prop := ∀ s w r, m s w = .ok r → m' s w = .ok r

theorem Extends.refl (m : StateT σ WorldM α) : Extends m m := fun _ _ _ h => h

theorem Extends.bind {m m' : StateT σ WorldM α} {f f' : α → StateT σ WorldM β} (hm : Extends m m')
    (hf : ∀ a, Extends (f a) (f' a)) : Extends (m >>= f) (m' >>= f') := by
  intro s w r h
  obtain ⟨a, s₁, w₁, hrun, hrest⟩ := run_bind_ok h
  rw [run_bind (hm s w _ hrun)]
  exact hf a s₁ w₁ r hrest

theorem Extends.ite {p : Prop} [Decidable p] {m₁ m₁' m₂ m₂' : StateT σ WorldM α} (h₁ : Extends m₁ m₁')
    (h₂ : Extends m₂ m₂') : Extends (if p then m₁ else m₂) (if p then m₁' else m₂') := by
  split
  · exact h₁
  · exact h₂

theorem Extends.orElse {x x' y y' : StateT σ WorldM Bool} (hx : Extends x x') (hy : Extends y y') :
    Extends (x <||> y) (x' <||> y') :=
  .bind hx fun b => by cases b <;> [exact hy; exact .refl _]

theorem Extends.andThen {x x' y y' : StateT σ WorldM Bool} (hx : Extends x x') (hy : Extends y y') :
    Extends (x <&&> y) (x' <&&> y') :=
  .bind hx fun b => by cases b <;> [exact .refl _; exact hy]

end Extends

namespace WorldM

variable {α β : Type}

/-- Wherever `m` gives an answer, `m'` gives the same. -/
def Extends (m m' : WorldM α) : Prop := ∀ w r, m w = .ok r → m' w = .ok r

theorem Extends.refl (m : WorldM α) : Extends m m := fun _ _ h => h

theorem Extends.bind {m m' : WorldM α} {f f' : α → WorldM β} (hm : Extends m m') (hf : ∀ a, Extends (f a) (f' a)) :
    Extends (m >>= f) (m' >>= f') := by
  intro w r h
  obtain ⟨a, w₁, hrun, hrest⟩ := bind_ok (b := r.1) h
  rw [bind_run (hm w _ hrun)]
  exact hf a w₁ r hrest

theorem Extends.ite {p : Prop} [Decidable p] {m₁ m₁' m₂ m₂' : WorldM α} (h₁ : Extends m₁ m₁') (h₂ : Extends m₂ m₂') :
    Extends (if p then m₁ else m₂) (if p then m₁' else m₂') := by
  split
  · exact h₁
  · exact h₂

theorem Extends.mapM {f f' : α → WorldM β} (hf : ∀ a, Extends (f a) (f' a)) (l : List α) :
    Extends (l.mapM f) (l.mapM f') := by
  induction l with
  | nil => exact .refl _
  | cons a l ih =>
    rw [List.mapM_cons, List.mapM_cons]
    exact .bind (hf a) fun _ => .bind ih fun _ => .refl _

end WorldM

/-! ## Recursive walks -/

namespace Walk

variable {α : Type}

theorem extends_inside (refused : α) (t : Ty) {body body' : WalkM α} (h : Extends body body') :
    Extends (inside refused t body) (inside refused t body') := by
  refine .bind (.refl _) fun g => ?_
  refine .bind (.refl _) fun _ => .ite (.bind h fun _ => .refl _) (.refl _)

/-- A larger allowance changes no answer. -/
theorem extends_descend {refused : α} {step : (Ty → WalkM α) → Ty → WalkM α}
    (hstep : ∀ next next', (∀ t, Extends (next t) (next' t)) → ∀ t, Extends (step next t) (step next' t)) :
    ∀ {n n' : Nat} (t : Ty), n ≤ n' → Extends (descend refused step n t) (descend refused step n' t)
  | 0, _, _, _ => fun _ _ _ h => nomatch h
  | n + 1, 0, _, hn => absurd hn (Nat.not_succ_le_zero n)
  | _ + 1, _ + 1, t, hn =>
    extends_inside refused t (hstep _ _ (fun _ => extends_descend hstep _ (Nat.le_of_succ_le_succ hn)) t)

theorem extends_firstPresent {next next' : Ty → WalkM Ty} (h : ∀ t, Extends (next t) (next' t)) :
    ∀ l : List Ty, Extends (firstPresent next l) (firstPresent next' l)
  | [] => .refl _
  | t :: l => .bind (h t) fun _ => .ite (.refl _) (extends_firstPresent h l)

section Steps

variable {next next' : Ty → WalkM Ty} (h : ∀ t, Extends (next t) (next' t))
include h

theorem extends_ofClass (name : String) (cls : Symbol) :
    Extends (Member.ofClass name next cls) (Member.ofClass name next' cls) := by
  refine .bind (.refl _) fun w => ?_
  split
  · exact .refl _
  · split
    · exact .refl _
    · exact extends_firstPresent h _

theorem extends_memberStep (name : String) (t : Ty) : Extends (Member.step name next t) (Member.step name next' t) := by
  refine .bind (.refl _) fun w => ?_
  split
  · exact .ite (extends_ofClass h _ _) (.bind (.refl _) h)
  · exact extends_ofClass h _ _
  · exact .ite (.refl _) (h _)
  · exact .bind (h _) fun _ => .ite (.refl _) (h _)
  · exact .bind (h _) fun _ => .bind (h _) fun _ => .refl _
  · exact h _
  · exact .ite (.bind (.refl _) h) (.refl _)

theorem extends_baseTypeStep (cls : Symbol) (t : Ty) : Extends (BaseType.step cls next t) (BaseType.step cls next' t) := by
  refine .bind (.refl _) fun w => ?_
  split
  · exact .ite (.refl _) (.ite (extends_firstPresent h _) (.bind (.refl _) h))
  · exact .bind (.refl _) h
  · exact .bind (h _) fun _ => .refl _
  · exact .bind (h _) fun _ => .bind (h _) fun _ => .refl _
  · exact .bind (h _) fun _ => .bind (h _) fun _ => .refl _
  · exact h _
  · exact .ite (.bind (.refl _) h) (.refl _)

end Steps

theorem extends_nullabilityStep {next next' : Ty → WalkM Bool} (h : ∀ t, Extends (next t) (next' t)) (t : Ty) :
    Extends (Nullability.step next t) (Nullability.step next' t) := by
  refine .bind (.refl _) fun w => ?_
  split
  · exact .refl _
  · exact .refl _
  · exact .ite (.refl _) (.bind (.refl _) h)
  · exact h _
  · exact .orElse (h _) (h _)
  · exact .andThen (h _) (h _)
  · exact .ite (.bind (.refl _) h) (.refl _)

theorem extends_erasureStep {next next' : Ty → WalkM String} (h : ∀ t, Extends (next t) (next' t)) (t : Ty) :
    Extends (Erasure.step next t) (Erasure.step next' t) := by
  refine .bind (.refl _) fun w => ?_
  split
  · exact .ite (.refl _) (.ite (.refl _) (.bind (.refl _) h))
  · exact .refl _
  · exact h _
  · exact h _
  · exact .refl _
  · exact h _
  · exact h _
  · split
    · exact h _
    · exact .refl _
  · split
    · exact h _
    · exact .refl _
  · exact .ite (.bind (.refl _) h) (.refl _)

/-- What the recursive walks look for. -/
inductive Query
  | member (name : String)
  | baseType (cls : Symbol)
  | isNotNull
  | erasedName

namespace Query

def Answer : Query → Type
  | .member _ | .baseType _ => Ty
  | .isNotNull => Bool
  | .erasedName => String

/-- The answer where the guard refuses a type. -/
def refused : (q : Query) → q.Answer
  | .member _ | .baseType _ => Ty.noType
  | .isNotNull => false
  | .erasedName => ""

def step : (q : Query) → (Ty → WalkM q.Answer) → Ty → WalkM q.Answer
  | .member name => Member.step name
  | .baseType cls => BaseType.step cls
  | .isNotNull => Nullability.step
  | .erasedName => Erasure.step

/-- What the walk answers that starts at `t` under a guard of its own. -/
def ask : (q : Query) → Ty → WorldM q.Answer
  | .member name, t => t.member name
  | .baseType cls, t => t.baseType cls
  | .isNotNull, t => t.isNotNull
  | .erasedName, t => t.erasedName

theorem ask_eq_run (q : Query) (t : Ty) : q.ask t = run q.refused q.step t := by cases q <;> rfl

theorem balanced_step {starves : Prop} {n : Nat} (q : Query) {next : Ty → WalkM q.Answer}
    (h : ∀ t, Balanced starves n (next t)) (t : Ty) : Balanced starves n (q.step next t) := by
  cases q with
  | member name => exact balanced_memberStep h name t
  | baseType cls => exact balanced_baseTypeStep h cls t
  | isNotNull => exact balanced_nullabilityStep h t
  | erasedName => exact balanced_erasureStep h t

theorem extends_step (q : Query) (next next' : Ty → WalkM q.Answer) (h : ∀ t, Extends (next t) (next' t)) (t : Ty) :
    Extends (q.step next t) (q.step next' t) := by
  cases q with
  | member name => exact extends_memberStep h name t
  | baseType cls => exact extends_baseTypeStep h cls t
  | isNotNull => exact extends_nullabilityStep h t
  | erasedName => exact extends_erasureStep h t

/-- Under a guard in any state a walk answers, alike at every allowance that covers what the guard lets in, and leaves
open what was open. -/
theorem answers (q : Query) (t : Ty) (g : Guard Ty) (w : World) (hg : g.bounds = .walk) :
    ∃ answer g' v, g'.Stands g.bounds g.openKeys g.depth ∧ w ≤ v ∧ ∀ n, 0 < n → Limits.walkDepth.toNat < g.depth + n →
      descend q.refused q.step n t g w = .ok ((answer, g'), v) := by
  obtain ⟨n₀, hn₀, hleast⟩ : ∃ n₀, Admitted False n₀ g.bounds g.depth ∧
      ∀ n, 0 < n → Limits.walkDepth.toNat < g.depth + n → n₀ ≤ n :=
    ⟨max 1 (Limits.walkDepth.toNat + 1 - g.depth), .inr ⟨hg, by omega, by omega⟩, fun n hn hcovers => by omega⟩
  have hbalanced := balanced_descend q.refused (fun _ _ h => q.balanced_step h) n₀ t _ g.openKeys _ hn₀ g w ⟨rfl, rfl, rfl⟩
  match hrun : descend q.refused q.step n₀ t g w, hbalanced with
  | .ok ((answer, g'), v), ⟨hg', hle⟩ =>
    exact ⟨answer, g', v, hg', hle, fun n hn hcovers => extends_descend q.extends_step t (hleast n hn hcovers) g w _ hrun⟩

end Query

/-- The walks over declarations come to an end in every world and for all arguments. The loops, described without an
allowance, stop with the one answer that `dealias` and `typeSymbol?` give, and their guard can be given up. A recursive
walk answers, whatever state its guard is in and at any allowance that covers what the guard lets in, and leaves open
what was open; no key is left that is not open, since that would be a fault and no answer. -/
theorem walks_end (w : World) (t : Ty) :
    (∀ r, (∃ g, w.Dealiases { bounds := .walk } t r g ∧ g.reset.close = .ok ()) ↔ r = w.dealias t) ∧
    (∀ r, (∃ g, w.Locates { bounds := .walk } t r g ∧ g.reset.close = .ok ()) ↔ r = w.typeSymbol? t) ∧
    ∀ q : Query, (∃ answer v, q.ask t w = .ok (answer, v)) ∧
      ∀ g : Guard Ty, g.bounds = .walk → ∃ answer g' v,
        (∀ n, 0 < n → Limits.walkDepth.toNat < g.depth + n →
          descend q.refused q.step n t g w = .ok ((answer, g'), v)) ∧
        g'.openKeys = g.openKeys ∧ g'.depth = g.depth := by
  have hstart : Admitted False (Limits.walkDepth.toNat + 1) Guard.Bounds.walk 0 := .inr ⟨rfl, Nat.succ_pos _, by omega⟩
  refine ⟨fun r => ?_, fun r => ?_, fun q => ⟨?_, fun g hg => ?_⟩⟩
  · obtain ⟨g', hends⟩ := World.dealiases_dealiasFrom (w := w) (g := { bounds := .walk }) (t := t) hstart
    exact ⟨fun ⟨_, h, _⟩ => (h.unique hends).1, fun h => h ▸ ⟨g', hends, rfl⟩⟩
  · obtain ⟨g', hends⟩ := World.locates_typeSymbolFrom (w := w) (g := { bounds := .walk }) (t := t) hstart
    exact ⟨fun ⟨_, h, _⟩ => (h.unique hends).1, fun h => h ▸ ⟨g', hends, rfl⟩⟩
  · obtain ⟨answer, g', v, -, -, hrun⟩ := q.answers t { bounds := .walk } w rfl
    exact ⟨answer, v, q.ask_eq_run t ▸ run_of_descend (hrun _ (Nat.succ_pos _) (by omega))⟩
  · obtain ⟨answer, g', v, hg', -, hrun⟩ := q.answers t g w hg
    exact ⟨answer, g', v, hrun, hg'.openKeys, hg'.depth⟩

/-- An alias `A = A`, at `15`, and abstract types `B <: C`, at `16`, and `C <: B`, at `17`. -/
def loopWorld : World :=
  let w := World.initial
  let w := { w with types := (w.types.intern (.named .noPrefix ⟨44⟩)).2 }
  let w := { w with types := (w.types.intern (.named .noPrefix ⟨45⟩)).2 }
  let w := { w with types := (w.types.intern (.named .noPrefix ⟨46⟩)).2 }
  let w := { w with types := (w.types.intern (.bounds Builtin.nothing.type ⟨17⟩)).2 }
  let w := { w with types := (w.types.intern (.bounds Builtin.nothing.type ⟨16⟩)).2 }
  let w := { w with decls := (w.decls.register { kind := .synonym, name := "A", owner := .absent, info := ⟨15⟩ }).2 }
  let w := { w with decls := (w.decls.register
    { kind := .abstractType, name := "B", owner := .absent, info := ⟨18⟩ }).2 }
  { w with decls := (w.decls.register { kind := .abstractType, name := "C", owner := .absent, info := ⟨19⟩ }).2 }

/-- The loops at `A`, and a walk from `C` that comes to `B` while that is open, one level below the limit. -/
theorem walks_end_loop :
    let g : Guard Ty := { bounds := .walk, openKeys := [⟨16⟩], depth := 63, entries := 99999 }
    (∃ g', loopWorld.Dealiases { bounds := .walk } ⟨15⟩ ⟨15⟩ g' ∧ g'.reset.close = .ok ()) ∧
    (∃ g', loopWorld.Locates { bounds := .walk } ⟨15⟩ none g' ∧ g'.reset.close = .ok ()) ∧
    ∃ answer g' v, descend "" Erasure.step 2 ⟨17⟩ g loopWorld = .ok ((answer, g'), v) ∧
      g'.openKeys = [⟨16⟩] ∧ g'.depth = 63 := by
  obtain ⟨hdealias, hsymbol, -⟩ := walks_end loopWorld ⟨15⟩
  obtain ⟨answer, g', v, hrun, hopen, hdepth⟩ := ((walks_end loopWorld ⟨17⟩).2.2 .erasedName).2
    { bounds := .walk, openKeys := [⟨16⟩], depth := 63, entries := 99999 } rfl
  exact ⟨(hdealias _).2 (by decide), (hsymbol _).2 (by decide), answer, g', v,
    hrun 2 (by decide) (by decide), hopen, hdepth⟩

end Walk

end Conformance
