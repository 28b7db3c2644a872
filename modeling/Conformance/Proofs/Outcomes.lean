import Conformance.Proofs.Growth

/-!
# What is true once a computation has come to an end

`Tells I m J`: whenever the computation `m` starts in a state and a world with `I` and comes to an end, `J` holds of its
result, the state and the world then. Nothing is said of a computation that does not come to an end. `Retains I m` is
the case that `I` is found again. A walk that turns back at a type says so in its guard, unless the type was open
(`Guard.exceeded_of_enter`), and what its guard says it does not take back (`retains_exceeded`).
-/

namespace Conformance

/-! ## Rules -/

section Rules

variable {σ α β : Type} {I I' : σ → World → Prop} {J J' : α → σ → World → Prop} {K : β → σ → World → Prop}

/-- A computation that starts with `I` ends, if it ends, with `J`. -/
def Tells (I : σ → World → Prop) (m : StateT σ WorldM α) (J : α → σ → World → Prop) : Prop :=
  ∀ ⦃s w a s' w'⦄, I s w → m s w = .ok ((a, s'), w') → J a s' w'

/-- A computation that starts with `I` ends, if it ends, with `I`. -/
abbrev Retains (I : σ → World → Prop) (m : StateT σ WorldM α) : Prop := Tells I m fun _ => I

/-- What stays true as the world grows. -/
def Lasting (I : σ → World → Prop) : Prop := ∀ ⦃s v w⦄, v ≤ w → I s v → I s w

namespace Tells

theorem pure {a : α} (h : ∀ s w, I s w → J a s w) : Tells I (pure a) J := by
  intro s w b s' w' hI hr
  cases hr
  exact h s w hI

theorem throw {e : Halt} : Tells I (throw e : StateT σ WorldM α) J := fun _ _ _ _ _ _ hr => nomatch hr

theorem bind {m : StateT σ WorldM α} {f : α → StateT σ WorldM β} (hm : Tells I m J) (hf : ∀ a, Tells (J a) (f a) K) :
    Tells I (m >>= f) K := by
  intro s w b s'' w'' hI hr
  obtain ⟨a, s', w', hm', hr⟩ := run_bind_ok hr
  exact hf a (hm hI hm') hr

theorem mono {m : StateT σ WorldM α} (h : Tells I m J) (hI : ∀ s w, I' s w → I s w)
    (hJ : ∀ a s w, J a s w → J' a s w) : Tells I' m J' :=
  fun s w a s' w' hs hr => hJ a s' w' (h (hI s w hs) hr)

theorem and {m : StateT σ WorldM α} (h : Tells I m J) (h' : Tells I' m J') :
    Tells (fun s w => I s w ∧ I' s w) m fun a s w => J a s w ∧ J' a s w :=
  fun _ _ _ _ _ hs hr => ⟨h hs.1 hr, h' hs.2 hr⟩

theorem ite {p : Prop} [Decidable p] {m₁ m₂ : StateT σ WorldM α} (h₁ : p → Tells I m₁ J) (h₂ : ¬ p → Tells I m₂ J) :
    Tells I (if p then m₁ else m₂) J := by
  split
  · next h => exact h₁ h
  · next h => exact h₂ h

theorem world_bind {f : World → StateT σ WorldM β} (hf : ∀ v, Tells (fun s w => w = v ∧ I s w) (f v) K) :
    Tells I (liftM (get : WorldM World) >>= f) K :=
  fun _ w _ _ _ hI hr => hf w ⟨rfl, hI⟩ hr

/-- What follows from where the computation starts may be used. -/
theorem assume {p : Prop} {m : StateT σ WorldM α} (hp : ∀ s w, I s w → p) (h : p → Tells I m J) : Tells I m J :=
  fun s w _ _ _ hI hr => h (hp s w hI) hI hr

/-- A computation on the world alone leaves the state as it is. -/
theorem lift {m : WorldM α} (hm : Grows True m) :
    Tells I (liftM m) fun a s w' => ∃ w, I s w ∧ w ≤ w' ∧ m w = .ok (a, w') := by
  intro s w a s' w' hI hr
  obtain ⟨hm', rfl⟩ := run_lift_ok hr
  exact ⟨w, hI, hm.le_of_ok hm', hm'⟩

theorem of_leads {P Q : σ → Prop} {m : StateT σ WorldM α} (h : Leads True P Q m) (w : World) :
    Tells (fun s v => P s ∧ w ≤ v) m fun _ s v => Q s ∧ w ≤ v := by
  intro s v a s' v' ⟨hs, hv⟩ hr
  obtain ⟨hs', hle⟩ := (h s v hs).ok hr
  exact ⟨hs', hv.trans hle⟩

end Tells

theorem retains_lift (hI : Lasting I) {m : WorldM α} (hm : Grows True m) : Retains I (liftM m : StateT σ WorldM α) :=
  (Tells.lift hm).mono (fun _ _ => id) fun _ _ _ ⟨_, hw, hle, _⟩ => hI hle hw

theorem retains_world_bind {f : World → StateT σ WorldM β} (hf : ∀ v, Retains I (f v)) :
    Retains I (liftM (get : WorldM World) >>= f) :=
  Tells.world_bind fun v => (hf v).mono (fun _ _ h => h.2) fun _ _ _ => id

end Rules

/-! ## Guards -/

namespace Guard

variable {κ : Type} [DecidableEq κ] {g g' : Guard κ} {k : κ} {e : Entry}

/-- A key that is not let in is open, or a limit is met. -/
theorem exceeded_of_enter (h : g.enter k = (e, g')) (he : e.isEntered = false) (hk : k ∉ g.openKeys) :
    g'.exceeded = true := by
  unfold Guard.enter at h
  dsimp only at h
  split at h
  · cases h
    cases he
  · next hverdict =>
    simp only [verdict, isOpen] at hverdict
    split at hverdict
    · cases hverdict
    · split at hverdict
      · cases hverdict
      · simp [hk] at hverdict
        split at hverdict <;> cases hverdict
  · cases h
    rfl

theorem exceeded_enter (h : g.enter k = (e, g')) (hg : g.exceeded = true) : g'.exceeded = true := by
  unfold Guard.enter at h
  dsimp only at h
  split at h <;> cases h
  · exact hg
  · exact hg
  · rfl

theorem exceeded_leave (h : g.leave k = .ok g') : g'.exceeded = g.exceeded := by
  simp only [leave] at h
  split at h
  · cases h
    rfl
  · cases h

end Guard

/-! ## Walks -/

section Walks

variable {α : Type} {I : Guard Ty → World → Prop} {next : Ty → WalkM Ty}

/-- How a walk inside a type comes to an end: back from the type, or without having been let in. -/
theorem inside_run {refused a : α} {t : Ty} {body : WalkM α} {g g' : Guard Ty} {w w' : World}
    (h : Walk.inside refused t body g w = .ok ((a, g'), w')) :
    (∃ g₁ g₂, g.enter t = (.entered, g₁) ∧ body g₁ w = .ok ((a, g₂), w') ∧ g₂.leave t = .ok g') ∨
      ∃ e, g.enter t = (e, g') ∧ e.isEntered = false ∧ a = refused ∧ w' = w := by
  change (if (g.enter t).1.isEntered then (do
      let answer ← body
      set (← Walk.orFault ((← get).leave t))
      return answer) else return refused : WalkM α) (g.enter t).2 w = _ at h
  split at h
  · next he =>
    have hentered : (g.enter t).1 = .entered := by simpa [Guard.Entry.isEntered] using he
    obtain ⟨b, g₂, w₂, hb, h⟩ := run_bind_ok h
    change Except.bind (Except.bind (Walk.orFault (g₂.leave t) w₂) _) _ = _ at h
    cases hl : g₂.leave t with
    | error e => rw [hl] at h; cases h
    | ok g₃ =>
      rw [hl] at h
      cases h
      exact .inl ⟨_, g₂, Prod.ext hentered rfl, hb, hl⟩
  · next he =>
    cases h
    exact .inr ⟨_, rfl, Bool.eq_false_iff.2 he, rfl, rfl⟩

theorem inside_entered {refused a : α} {t : Ty} {body : WalkM α} {g g₁ g₂ g' : Guard Ty} {w w' : World}
    (he : g.enter t = (.entered, g₁)) (hb : body g₁ w = .ok ((a, g₂), w')) (hl : g₂.leave t = .ok g') :
    Walk.inside refused t body g w = .ok ((a, g'), w') := by
  rw [Walk.inside, run_get_bind, he]
  show (do
      let answer ← body
      set (← Walk.orFault ((← get).leave t))
      return answer : WalkM α) g₁ w = _
  rw [run_bind hb, run_get_bind, hl]
  rfl

theorem inside_refused {refused : α} {t : Ty} {body : WalkM α} {g g' : Guard Ty} {e : Guard.Entry} {w : World}
    (he : g.enter t = (e, g')) (hne : e.isEntered = false) :
    Walk.inside refused t body g w = .ok ((refused, g'), w) := by
  rw [Walk.inside, run_get_bind, he]
  show (if e.isEntered then _ else return refused : WalkM α) g' w = _
  rw [hne]
  rfl

theorem retains_firstPresent (h : ∀ t, Retains I (next t)) (ts : List Ty) : Retains I (Walk.firstPresent next ts) := by
  induction ts with
  | nil => exact .pure fun _ _ => id
  | cons t ts ih => exact .bind (h t) fun _ => .ite (fun _ => .pure fun _ _ => id) fun _ => ih

theorem retains_baseTypeStep (hI : Lasting I) (h : ∀ t, Retains I (next t)) (cls : Symbol) (t : Ty) :
    Retains I (BaseType.step cls next t) := by
  refine retains_world_bind fun w => ?_
  have hreturn : ∀ a : Ty, Retains I (pure a : WalkM Ty) := fun a => .pure fun _ _ => id
  split
  · exact .ite (fun _ => hreturn _) fun _ => .ite (fun _ => retains_firstPresent h _) fun _ =>
      Tells.bind (retains_lift hI (grows_upperBound t)) h
  · exact Tells.bind (retains_lift hI (grows_named _ _)) h
  · exact .bind (h _) fun _ => .ite (fun _ => retains_lift hI (grows_intern _)) fun _ => hreturn _
  · exact .bind (h _) fun _ => .bind (h _) fun _ => .ite (fun _ => retains_lift hI (grows_inter _ _)) fun _ =>
      .ite (fun _ => hreturn _) fun _ => hreturn _
  · exact .bind (h _) fun _ => .bind (h _) fun _ => .ite (fun _ => retains_lift hI (grows_union _ _)) fun _ => hreturn _
  · exact h _
  · exact .ite (fun _ => Tells.bind (retains_lift hI (grows_underlying t)) h) fun _ => hreturn _

/-- Among the types that are searched in order there is one from which the search finds something or comes to `X`, and
what comes to `X` stays there. -/
theorem tells_firstPresent {X : Guard Ty → World → Prop} {t : Ty} (hI : ∀ t, Retains I (next t))
    (hX : ∀ t, Retains X (next t)) (ht : Tells I (next t) fun base g v => X g v ∨ base.present) {ts : List Ty}
    (hmem : t ∈ ts) : Tells I (Walk.firstPresent next ts) fun base g v => X g v ∨ base.present := by
  induction ts with
  | nil => cases hmem
  | cons u ts ih =>
    by_cases hut : t = u
    · subst hut
      refine .bind ht fun base => .ite (fun hbase => .pure fun _ _ _ => .inr hbase) fun hbase => ?_
      exact (retains_firstPresent hX ts).mono (fun _ _ h => h.resolve_right hbase) fun _ _ _ => .inl
    · refine .bind (hI u) fun base => .ite (fun hbase => .pure fun _ _ _ => .inr hbase) fun _ => ?_
      exact ih ((List.mem_cons.1 hmem).resolve_left hut)

/-- What entering and leaving do not change about a guard, a walk does not change. -/
theorem retains_descend {P : Guard Ty → Prop} (henter : ∀ {g g' : Guard Ty} {t e}, g.enter t = (e, g') → P g → P g')
    (hleave : ∀ {g g' : Guard Ty} {t}, g.leave t = .ok g' → P g → P g') (refused : α)
    {step : (Ty → WalkM α) → Ty → WalkM α} (hstep : ∀ next, (∀ t, Retains (fun g _ => P g) (next t)) →
      ∀ t, Retains (fun g _ => P g) (step next t)) :
    ∀ (n : Nat) (t : Ty), Retains (fun g _ => P g) (Walk.descend refused step n t)
  | 0, _ => .throw
  | n + 1, t => by
    intro g w a g' w' hg hr
    rcases inside_run hr with ⟨g₁, g₂, he, hb, hl⟩ | ⟨e, he, -⟩
    · exact hleave hl (hstep _ (retains_descend henter hleave refused hstep n) t (henter he hg) hb)
    · exact henter he hg

/-- A walk does not forget that it met a limit. -/
theorem retains_exceeded (refused : α) {step : (Ty → WalkM α) → Ty → WalkM α}
    (hstep : ∀ next, (∀ t, Retains (fun g _ => g.exceeded = true) (next t)) →
      ∀ t, Retains (fun g _ => g.exceeded = true) (step next t)) (n : Nat) (t : Ty) :
    Retains (fun g _ => g.exceeded = true) (Walk.descend refused step n t) :=
  retains_descend (fun he hg => Guard.exceeded_enter he hg) (fun hl hg => (Guard.exceeded_leave hl).trans hg) refused
    hstep n t

end Walks

end Conformance
