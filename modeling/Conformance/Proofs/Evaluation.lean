import Conformance.Inference
import Conformance.Proofs.Closed
import Conformance.Proofs.Frames
import Conformance.Proofs.Outcomes

/-!
# Running comparisons

`Yields p s w m A`: started at the place `p` with the constraints `s` in the world `w`, the computation `m` comes to an
end, back at `p`, and `A` holds of its result, the constraints and the world. A comparison yields what the cascade
yields in the place that it opens (`yields_isSubType`), as long as its pair is not pending.
-/

namespace Conformance

namespace CompareM

section Runs

variable {α β : Type} {p : Place} {s : ConstraintStore} {w : World}

/-- From `p` with the constraints `s` in the world `w`, the computation comes to an end, back at `p`, with `A`. -/
def Yields (p : Place) (s : ConstraintStore) (w : World) (m : CompareM α)
    (A : α → ConstraintStore → World → Prop) : Prop :=
  ∀ c, Stands (· = s) p c → ∃ a c' w', m c w = .ok ((a, c'), w') ∧ c'.place = p ∧ w ≤ w' ∧ A a c'.constraint w'

/-- The computation answers `b` and leaves the constraints alone. -/
abbrev Decides (p : Place) (s : ConstraintStore) (w : World) (m : CompareM Bool) (b : Bool) : Prop :=
  Yields p s w m fun a s' _ => a = b ∧ s' = s

/-- The computation answers whether `P` holds and leaves the constraints alone. -/
abbrev DecidesIff (p : Place) (s : ConstraintStore) (w : World) (m : CompareM Bool) (P : Prop) : Prop :=
  Yields p s w m fun a s' _ => (a = true ↔ P) ∧ s' = s

/-- The computation comes to an end and leaves the constraints alone. -/
abbrev Ends (p : Place) (s : ConstraintStore) (w : World) (m : CompareM α) : Prop := Yields p s w m fun _ s' _ => s' = s

/-- The computation comes to an end and leaves the constraints alone; if `P` holds, it answers true. -/
abbrev DecidesIf (p : Place) (s : ConstraintStore) (w : World) (m : CompareM Bool) (P : Prop) : Prop :=
  Yields p s w m fun a s' _ => (P → a = true) ∧ s' = s

variable {A A' : α → ConstraintStore → World → Prop} {B : β → ConstraintStore → World → Prop}

theorem Yields.mono {m : CompareM α} (h : Yields p s w m A) (hA : ∀ a s' v, w ≤ v → A a s' v → A' a s' v) :
    Yields p s w m A' := by
  intro c hc
  obtain ⟨a, c', v, hr, hp, hle, ha⟩ := h c hc
  exact ⟨a, c', v, hr, hp, hle, hA a _ v hle ha⟩

theorem Yields.pure {a : α} (h : A a s w) : Yields p s w (pure a) A :=
  fun c hc => ⟨a, c, w, rfl, hc.place, le_rfl, hc.store.symm ▸ h⟩

theorem Yields.bind {m : CompareM α} {f : α → CompareM β} (hm : Yields p s w m A)
    (hf : ∀ a s' v, w ≤ v → A a s' v → Yields p s' v (f a) B) : Yields p s w (m >>= f) B := by
  intro c hc
  obtain ⟨a, c', v, hr, hp, hle, ha⟩ := hm c hc
  obtain ⟨b, c'', v', hr', hp', hle', hb⟩ := hf a _ v hle ha c' ⟨hp, rfl⟩
  exact ⟨b, c'', v', (run_bind hr).trans hr', hp', hle.trans hle', hb⟩

theorem Yields.world_bind {f : World → CompareM β} (hf : Yields p s w (f w) B) : Yields p s w (world >>= f) B := hf

theorem Yields.get_bind {f : Comparer → CompareM β}
    (hf : ∀ c, c.place = p → c.constraint = s → Yields p s w (f c) B) : Yields p s w (get >>= f) B :=
  fun c hc => hf c hc.place hc.store c hc

theorem Yields.ite {φ : Prop} [Decidable φ] {m m' : CompareM α} (hm : φ → Yields p s w m A)
    (hm' : ¬ φ → Yields p s w m' A) : Yields p s w (if φ then m else m') A := by
  split
  · next h => exact hm h
  · next h => exact hm' h

/-- A computation on the world that always ends leaves the constraints alone. -/
theorem Yields.lift {m : WorldM α} (hm : Grows False m) :
    Yields p s w (liftM m) fun a s' v => s' = s ∧ m w = .ok (a, v) := by
  intro c hc
  obtain ⟨a, v, hr, hle⟩ := hm.total w
  exact ⟨a, c, v, run_lift hr c, hc.place, hle, hc.store, hr⟩

theorem yields_setConstraint {s' : ConstraintStore} :
    Yields p s w (setConstraint s') fun _ s'' v => s'' = s' ∧ v = w :=
  fun _ hc => ⟨⟨⟩, _, w, rfl, hc.place, le_rfl, rfl, rfl⟩

theorem yields_run {m : WorldM α} {a : α} {v : World} (h : m w = .ok (a, v)) (hv : w ≤ v) :
    Yields p s w (liftM m) fun b s' v' => b = a ∧ s' = s ∧ v' = v :=
  fun c hc => ⟨a, c, v, run_lift h c, hc.place, hv, rfl, hc.store, rfl⟩

theorem Yields.discard {m : CompareM α} (h : Yields p s w m A) :
    Yields p s w (discard m) fun _ s' v => ∃ a, A a s' v := by
  intro c hc
  obtain ⟨a, c', v, hr, hp, hle, ha⟩ := h c hc
  refine ⟨⟨⟩, c', v, ?_, hp, hle, a, ha⟩
  show Except.bind (m c w) _ = _
  rw [hr]
  rfl

/-- Taking in a shape gives a handle for it. -/
theorem yields_intern (d : Shape) :
    Yields p s w (liftM (WorldM.intern d)) fun t s' v => s' = s ∧ v.shape? t = some d :=
  fun c hc => ⟨_, c, _, rfl, hc.place, le_intern d w, hc.store, TypeTable.shape?_intern w.types d⟩

theorem yields_reading {f : World → Except Halt α} {a : α} (h : f w = .ok a) :
    Yields p s w (liftM (WorldM.reading f)) fun b s' v => b = a ∧ s' = s ∧ v = w :=
  yields_run (reading_run h) le_rfl

/-! ### Alternatives -/

variable {x y : CompareM Bool} {b : Bool} {C : Bool → ConstraintStore → World → Prop}

theorem decides_pure : Decides p s w (return b) b := .pure ⟨rfl, rfl⟩

/-- An alternative that fails leaves the decision to the next one. -/
theorem Yields.orElse (hx : Decides p s w x false) (hy : ∀ v, w ≤ v → Yields p s v y C) :
    Yields p s w (x <||> y) C := by
  refine .bind hx fun a s' v hv ⟨ha, hs⟩ => ?_
  subst ha hs
  exact hy v hv

/-- An alternative that succeeds decides. -/
theorem Yields.orElse_true (hx : Yields p s w x fun a s' v => a = true ∧ C true s' v) : Yields p s w (x <||> y) C := by
  refine .bind hx fun a s' v hv ⟨ha, hC⟩ => ?_
  subst ha
  exact .pure hC

/-- The last alternative decides positively, whatever the ones before it say. -/
theorem Yields.orElse_last (hx : Yields p s w x fun _ s' _ => s' = s) (hy : ∀ v, w ≤ v → Decides p s v y true) :
    Decides p s w (x <||> y) true := by
  refine .bind hx fun a s' v hv hs => ?_
  subst hs
  cases a with
  | true => exact decides_pure
  | false => exact hy v hv

/-- A condition that holds leaves the decision to the next one. -/
theorem Yields.andThen {D : ConstraintStore → World → Prop} (hx : Yields p s w x fun a s' v => a = true ∧ D s' v)
    (hy : ∀ s' v, w ≤ v → D s' v → Yields p s' v y C) : Yields p s w (x <&&> y) C := by
  refine .bind hx fun a s' v hv ⟨ha, hD⟩ => ?_
  subst ha
  exact hy s' v hv hD

/-- A condition that fails decides. -/
theorem Yields.andThen_false (hx : Yields p s w x fun a s' v => a = false ∧ C false s' v) :
    Yields p s w (x <&&> y) C := by
  refine .bind hx fun a s' v hv ⟨ha, hC⟩ => ?_
  subst ha
  exact .pure hC

/-! ### Computations that answer a question -/

variable {P Q : Prop}

theorem DecidesIff.congr {m : CompareM Bool} (h : DecidesIff p s w m P) (hPQ : P ↔ Q) : DecidesIff p s w m Q :=
  h.mono fun _ _ _ _ ⟨ha, hs⟩ => ⟨ha.trans hPQ, hs⟩

theorem Yields.decidesIff_true {m : CompareM Bool} (h : Decides p s w m true) (hP : P) : DecidesIff p s w m P :=
  h.mono fun _ _ _ _ ⟨ha, hs⟩ => ⟨iff_of_true ha hP, hs⟩

theorem Yields.decidesIff_false {m : CompareM Bool} (h : Decides p s w m false) (hP : ¬ P) : DecidesIff p s w m P :=
  h.mono fun _ _ _ _ ⟨ha, hs⟩ => ⟨iff_of_false (ha ▸ Bool.false_ne_true) hP, hs⟩

theorem DecidesIff.decides {m : CompareM Bool} (h : DecidesIff p s w m P) (hP : P) : Decides p s w m true :=
  h.mono fun _ _ _ _ ⟨ha, hs⟩ => ⟨ha.2 hP, hs⟩

theorem DecidesIff.decides_false {m : CompareM Bool} (h : DecidesIff p s w m P) (hP : ¬ P) : Decides p s w m false :=
  h.mono fun _ _ _ _ ⟨ha, hs⟩ => ⟨Bool.eq_false_iff.2 (mt ha.1 hP), hs⟩

theorem DecidesIff.orElse (hx : DecidesIff p s w x P) (hy : ∀ v, w ≤ v → DecidesIff p s v y Q) :
    DecidesIff p s w (x <||> y) (P ∨ Q) := by
  by_cases hP : P
  · exact Yields.orElse_true ((hx.decides hP).mono fun _ _ _ _ ⟨ha, hs⟩ => ⟨ha, iff_of_true rfl (.inl hP), hs⟩)
  · exact Yields.orElse (hx.decides_false hP) fun v hv => (hy v hv).congr (or_iff_right hP).symm

theorem DecidesIff.andThen (hx : DecidesIff p s w x P) (hy : ∀ v, w ≤ v → DecidesIff p s v y Q) :
    DecidesIff p s w (x <&&> y) (P ∧ Q) := by
  by_cases hP : P
  · refine Yields.andThen (hx.decides hP) fun s' v hv hs => ?_
    subst hs
    exact (hy v hv).congr (and_iff_right hP).symm
  · refine Yields.andThen_false ((hx.decides_false hP).mono fun _ _ _ _ ⟨ha, hs⟩ => ⟨ha, ?_, hs⟩)
    exact iff_of_false Bool.false_ne_true fun h => hP h.1

theorem Yields.decidesIf {m : CompareM Bool} (h : Decides p s w m true) : DecidesIf p s w m P :=
  h.mono fun _ _ _ _ ⟨ha, hs⟩ => ⟨fun _ => ha, hs⟩

theorem DecidesIf.decides {m : CompareM Bool} (h : DecidesIf p s w m P) (hP : P) : Decides p s w m true :=
  h.mono fun _ _ _ _ ⟨ha, hs⟩ => ⟨ha hP, hs⟩

theorem DecidesIf.ends {m : CompareM Bool} (h : DecidesIf p s w m P) : Ends p s w m := h.mono fun _ _ _ _ h => h.2

theorem Decides.ends {m : CompareM Bool} {b : Bool} (h : Decides p s w m b) : Ends p s w m := h.mono fun _ _ _ _ h => h.2

theorem Ends.decidesIf {m : CompareM Bool} (h : Ends p s w m) (hP : ¬ P) : DecidesIf p s w m P :=
  h.mono fun _ _ _ _ hs => ⟨fun h => absurd h hP, hs⟩

/-- The last alternative decides, whatever the ones before it say. -/
theorem DecidesIf.orElse_last (hx : Ends p s w x) (hy : ∀ v, w ≤ v → DecidesIf p s v y P) : DecidesIf p s w (x <||> y) P := by
  refine Yields.bind hx fun a s' v hv hs => ?_
  subst hs
  cases a with
  | true => exact .pure ⟨fun _ => rfl, rfl⟩
  | false => exact hy v hv

theorem DecidesIf.andThen (hx : DecidesIf p s w x P) (hy : ∀ v, w ≤ v → DecidesIf p s v y P) :
    DecidesIf p s w (x <&&> y) P := by
  refine Yields.bind hx fun a s' v hv ⟨ha, hs⟩ => ?_
  subst hs
  cases a with
  | true => exact hy v hv
  | false => exact .pure ⟨ha, rfl⟩

/-! ### Computations that come to an end -/

theorem Ends.bind {m : CompareM α} {f : α → CompareM β} (hm : Ends p s w m) (hf : ∀ a v, w ≤ v → Ends p s v (f a)) :
    Ends p s w (m >>= f) := by
  refine Yields.bind hm fun a s' v hv hs => ?_
  subst hs
  exact hf a v hv

theorem ends_pure (a : α) : Ends p s w (return a) := .pure rfl

theorem ends_lift {m : WorldM α} (hm : Grows False m) : Ends p s w (liftM m) := (Yields.lift hm).mono fun _ _ _ _ h => h.1

theorem ends_reading {f : World → Except Halt α} {a : α} (h : f w = .ok a) : Ends p s w (liftM (WorldM.reading f)) :=
  (yields_reading h).mono fun _ _ _ _ h => h.2.1

theorem Ends.andThen (hx : Ends p s w x) (hy : ∀ v, w ≤ v → Ends p s v y) : Ends p s w (x <&&> y) :=
  hx.bind fun a v hv => by cases a <;> [exact ends_pure _; exact hy v hv]

theorem Ends.orElse (hx : Ends p s w x) (hy : ∀ v, w ≤ v → Ends p s v y) : Ends p s w (x <||> y) :=
  hx.bind fun a v hv => by cases a <;> [exact hy v hv; exact ends_pure _]

theorem Ends.allM {f : α → CompareM Bool} {l : List α} (hf : ∀ a ∈ l, ∀ v, w ≤ v → Ends p s v (f a)) :
    Ends p s w (l.allM f) := by
  induction l generalizing w with
  | nil => exact ends_pure _
  | cons a l ih =>
    refine Ends.bind (hf a List.mem_cons_self w le_rfl) fun answer v hv => ?_
    cases answer with
    | true => exact ih fun a ha v' hv' => hf a (List.mem_cons_of_mem _ ha) v' (hv.trans hv')
    | false => exact ends_pure _

/-! ### Comparisons -/

/-- A transaction ends as `C` says; when it answers false, the constraints are those before. -/
def Settled (s : ConstraintStore) (C : Bool → ConstraintStore → World → Prop) :
    Bool → ConstraintStore → World → Prop
  | true, s', v => C true s' v
  | false, s', v => s' = s ∧ ∃ s'', C false s'' v

theorem yields_frame {body : DepthMode → CompareM Bool} (hp : p.level < Limits.unlimited.toNat)
    (h : Yields p.deeper s w (body p.mode) C) : Yields p s w (frame body) (Settled s C) := by
  intro c hc
  obtain ⟨a, c', v, hr, hp', hle, ha⟩ := h _ (hc.enter hp)
  have hc' : Stands (fun _ => True) p.deeper c' := ⟨hp', trivial⟩
  have hback := hc'.leave.2.place
  have hrun : frame body c w = if a then .ok ((true, { c' with depth := { c'.depth with depth := p.level } }), v)
      else .ok ((false, { c' with depth := { c'.depth with depth := p.level }, constraint := c.constraint }), v) := by
    show Except.bind (Except.bind (body c.depth.enter.1 { c with depth := c.depth.enter.2 } w) _) _ = _
    rw [hc.enter_mode hp, hr]
    show Except.bind (Except.bind (leaveLevel c' v) _) _ = _
    rw [leaveLevel_run hc']
    cases a <;> rfl
  cases a with
  | true => exact ⟨true, _, v, hrun, hback, hle, ha⟩
  | false => exact ⟨false, _, v, hrun, hback, hle, hc.store, c'.constraint, ha⟩

theorem yields_withPending {body : CompareM Bool} {pair : Ty × Ty} (hbounds : p.bounds = .none)
    (hadmits : p.admits pair) (h : Yields (p.entering pair) s w body C) : Yields p s w (withPending pair body) C := by
  intro c hc
  obtain ⟨c₁, hc₁, hrun⟩ := withPending_entered hc hbounds hadmits
  obtain ⟨a, c', v, hr, hp', hle, ha⟩ := h c₁ hc₁
  obtain ⟨c₂, hback, hunpend⟩ := unpend_run (Q := (· = c'.constraint)) ⟨hp', rfl⟩
  refine ⟨a, c₂, v, ?_, hback.place, hle, hback.store ▸ ha⟩
  rw [hrun, run_bind hr, run_bind (hunpend v)]
  rfl

theorem yields_refused {body : CompareM Bool} {pair : Ty × Ty} (hbounds : p.bounds = .none)
    (hadmits : ¬ p.admits pair) : Decides p s w (withPending pair body) false := by
  intro c hc
  obtain ⟨c', hc', hr⟩ := withPending_refused hc hbounds hadmits
  exact ⟨false, c', w, hr body w, hc'.place, le_rfl, rfl, hc'.store⟩

variable {n r : Nat} {t u : Ty}

/-- Equal types are not looked at. -/
theorem decides_same (t : Ty) : Decides p s w (isSubType (n + 1) t t) t.present := by
  intro c hc
  refine ⟨t.present, c, w, ?_, hc.place, le_rfl, rfl, hc.store⟩
  simp only [isSubType]
  cases t.present <;> rfl

theorem decides_self (ht : t.present) : Decides p s w (isSubType (n + 1) t t) true := by
  have h := decides_same (p := p) (s := s) (w := w) (n := n) t
  rwa [ht] at h

theorem isSubType_framed (ht : t.present) (hu : u.present) (htu : t ≠ u) :
    isSubType (n + 1) t u = framed n (isSubType n) t u := by
  simp only [isSubType, ht, hu, if_neg htu]
  rfl

/-- A comparison ends as the cascade does in the place that the comparison opens, unless its pair is pending. -/
theorem yields_isSubType (ht : t.present) (hu : u.present) (htu : t ≠ u) (hroom : HasRoom p (r + 1))
    (hbounds : p.bounds = .none) (hfree : (t, u) ∉ p.pending)
    (h : ∀ p', Opens p (t, u) p' → Yields p' s w (first n (isSubType n) t u) C) :
    Yields p s w (isSubType (n + 1) t u) (Settled s C) := by
  have hlevel : p.level < Limits.unlimited.toNat := by
    have := hroom.level
    omega
  have hframe : Yields p s w (framed n (isSubType n) t u) (Settled s C) := by
    refine yields_frame hlevel ?_
    cases hmode : p.mode with
    | direct => exact h _ (.direct hmode)
    | monitored =>
      have hadmits : p.deeper.admits (t, u) := by
        by_contra hrefused
        exact hfree (hroom.pending_of_refused hrefused)
      exact yields_withPending hbounds hadmits (h _ (.monitored hmode hadmits))
  rw [isSubType_framed ht hu htu]
  exact hframe

theorem decides_isSubType (ht : t.present) (hu : u.present) (htu : t ≠ u) (hroom : HasRoom p (r + 1))
    (hbounds : p.bounds = .none) (hfree : (t, u) ∉ p.pending)
    (h : ∀ p', Opens p (t, u) p' → Decides p' s w (first n (isSubType n) t u) b) :
    Decides p s w (isSubType (n + 1) t u) b := by
  refine (yields_isSubType ht hu htu hroom hbounds hfree h).mono fun a s' v _ hsettled => ?_
  cases a with
  | true => exact hsettled
  | false =>
    obtain ⟨hs, _, hb, -⟩ := hsettled
    exact ⟨hb, hs⟩

theorem decidesIff_isSubType (ht : t.present) (hu : u.present) (htu : t ≠ u) (hroom : HasRoom p (r + 1))
    (hbounds : p.bounds = .none) (hfree : (t, u) ∉ p.pending)
    (h : ∀ p', Opens p (t, u) p' → DecidesIff p' s w (first n (isSubType n) t u) P) :
    DecidesIff p s w (isSubType (n + 1) t u) P := by
  by_cases hP : P
  · exact (decides_isSubType ht hu htu hroom hbounds hfree fun p' hp' => (h p' hp').decides hP).decidesIff_true hP
  · refine Yields.decidesIff_false ?_ hP
    exact decides_isSubType ht hu htu hroom hbounds hfree fun p' hp' => (h p' hp').decides_false hP

theorem holds_isSubType {D : ConstraintStore → World → Prop} (ht : t.present) (hu : u.present) (htu : t ≠ u)
    (hroom : HasRoom p (r + 1)) (hbounds : p.bounds = .none) (hfree : (t, u) ∉ p.pending)
    (h : ∀ p', Opens p (t, u) p' → Yields p' s w (first n (isSubType n) t u) fun a s' v => a = true ∧ D s' v) :
    Yields p s w (isSubType (n + 1) t u) fun a s' v => a = true ∧ D s' v := by
  refine (yields_isSubType ht hu htu hroom hbounds hfree h).mono fun a s' v _ hsettled => ?_
  cases a with
  | true => exact hsettled
  | false =>
    obtain ⟨-, _, hfalse, -⟩ := hsettled
    cases hfalse

/-- How a transaction ends that answers whether `P` holds: with `D` if so, and else with the constraints before. -/
def Settles (s : ConstraintStore) (P : Prop) (D : ConstraintStore → World → Prop) :
    Bool → ConstraintStore → World → Prop
  | true, s', v => P ∧ D s' v
  | false, s', _ => ¬ P ∧ s' = s

theorem Settles.imp {D D' : ConstraintStore → World → Prop} {a : Bool} {s' : ConstraintStore} {v : World}
    (h : Settles s P D a s' v) (hPQ : P ↔ Q) (hD : P → D s' v → D' s' v) : Settles s Q D' a s' v := by
  cases a with
  | true => exact ⟨hPQ.1 h.1, hD h.1 h.2⟩
  | false => exact ⟨mt hPQ.2 h.1, h.2⟩

theorem settles_isSubType {D : ConstraintStore → World → Prop} (ht : t.present) (hu : u.present) (htu : t ≠ u)
    (hroom : HasRoom p (r + 1)) (hbounds : p.bounds = .none) (hfree : (t, u) ∉ p.pending)
    (h : ∀ p', Opens p (t, u) p' →
      Yields p' s w (first n (isSubType n) t u) fun a s' v => (a = true ↔ P) ∧ (a = true → D s' v)) :
    Yields p s w (isSubType (n + 1) t u) (Settles s P D) := by
  refine (yields_isSubType ht hu htu hroom hbounds hfree h).mono fun a s' v _ hsettled => ?_
  cases a with
  | true => exact ⟨hsettled.1.1 rfl, hsettled.2 rfl⟩
  | false =>
    obtain ⟨hs, _, hfalse, -⟩ := hsettled
    exact ⟨mt hfalse.2 Bool.false_ne_true, hs⟩

/-- A comparison comes to an end if the cascade does in the places that it may open. -/
theorem ends_isSubType (hlevel : p.level < Limits.unlimited.toNat) (hbounds : p.bounds = .none)
    (h : ∀ p', Opens p (t, u) p' → Ends p' s w (first n (isSubType n) t u)) : Ends p s w (isSubType (n + 1) t u) := by
  refine .ite (fun _ => ends_pure _) fun _ => .ite (fun _ => ends_pure _) fun _ => ?_
  have hframe : Yields p s w (framed n (isSubType n) t u) (Settled s fun _ s' _ => s' = s) := by
    refine yields_frame hlevel ?_
    cases hmode : p.mode with
    | direct => exact h _ (.direct hmode)
    | monitored =>
      by_cases hadmits : p.deeper.admits (t, u)
      · exact yields_withPending hbounds hadmits (h _ (.monitored hmode hadmits))
      · exact Yields.mono (yields_refused hbounds hadmits) fun _ _ _ _ h => h.2
  refine hframe.mono fun a s' v _ hsettled => ?_
  cases a with
  | true => exact hsettled
  | false => exact hsettled.1

/-- A monitored comparison whose pair is pending is answered false. -/
theorem decides_pending (ht : t.present) (hu : u.present) (htu : t ≠ u) (hlevel : p.level < Limits.unlimited.toNat)
    (hbounds : p.bounds = .none) (hmode : p.mode = .monitored) (hpending : (t, u) ∈ p.pending) :
    Decides p s w (isSubType (n + 1) t u) false := by
  have hframe : Yields p s w (framed n (isSubType n) t u) (Settled s fun a s' _ => a = false ∧ s' = s) := by
    refine yields_frame hlevel ?_
    rw [hmode]
    exact yields_refused hbounds fun hadmits => hadmits.2.2 hpending
  rw [isSubType_framed ht hu htu]
  refine hframe.mono fun a s' v _ hsettled => ?_
  cases a with
  | true => exact absurd hsettled.1 (by decide)
  | false => exact ⟨rfl, hsettled.1⟩

end Runs

/-! ## Steps of the cascade -/

/-- The first two steps leave the shape to the third one. -/
def isPlain : Shape → Bool
  | .fixed .wildcard | .fixed .error | .var _ | .param _ => false
  | _ => true

section Steps

variable {p : Place} {s : ConstraintStore} {w : World} {n : Nat} {sub : Ty → Ty → CompareM Bool} {t u : Ty}
  {C : Bool → ConstraintStore → World → Prop}

theorem yields_second (ht : isPlain (w.shape t)) (h : Yields p s w (third n sub t u) C) :
    Yields p s w (second n sub t u) C := by
  refine .world_bind ?_
  generalize w.shape t = d at ht ⊢
  split
  · cases ht
  · cases ht
  · cases ht
  · cases ht
  · exact h

theorem yields_first (ht : isPlain (w.shape t)) (hu : isPlain (w.shape u)) (hnamed : (w.shape u).isNamed = false)
    (h : Yields p s w (third n sub t u) C) : Yields p s w (first n sub t u) C := by
  refine .world_bind ?_
  have hsecond := yields_second ht h
  generalize w.shape u = d at hu hnamed ⊢
  split
  · cases hnamed
  · cases hnamed
  · cases hu
  · cases hu
  · cases hu
  · cases hu
  · exact hsecond

/-- A named target leaves a source that is no name to the second step. -/
theorem yields_first_second (hnamed : (w.shape t).isNamed = false) {q : Ty} {d : Symbol}
    (hu : w.shape? u = some (.named q d)) (h : Yields p s w (second n sub t u) C) :
    Yields p s w (first n sub t u) C := by
  refine .world_bind ?_
  rw [World.shape_of_shape? hu]
  simp only [hnamed]
  exact h

/-- A named target, and a plain source that is no name. -/
theorem yields_first_named (ht : isPlain (w.shape t)) (hnamed : (w.shape t).isNamed = false)
    {q : Ty} {d : Symbol} (hu : w.shape? u = some (.named q d)) (h : Yields p s w (thirdNamed n sub t u) C) :
    Yields p s w (first n sub t u) C := by
  refine yields_first_second hnamed hu (yields_second ht (.world_bind ?_))
  rw [World.shape_of_shape? hu]
  exact h

theorem yields_third_inter {a b : Ty} (hu : w.shape? u = some (.inter a b))
    (h : Yields p s w (sub t a <&&> sub t b) C) : Yields p s w (third n sub t u) C := by
  refine .world_bind ?_
  rw [World.shape_of_shape? hu]
  exact h

theorem yields_third_union {a b : Ty} (hu : w.shape? u = some (.union a b))
    (h : Yields p s w (sub t a <||> sub t b <||> fourth sub t u) C) : Yields p s w (third n sub t u) C := by
  refine .world_bind ?_
  rw [World.shape_of_shape? hu]
  exact h

theorem yields_third_refined {parent info : Ty} {name : String} (hu : w.shape? u = some (.refined parent name info))
    (h : Yields p s w ((sub t parent <&&>
        if name = Builtin.anyName then return true else do sub (← t.member name) info) <||> fourth sub t u) C) :
    Yields p s w (third n sub t u) C := by
  refine .world_bind ?_
  rw [World.shape_of_shape? hu]
  exact h

theorem yields_third_bounds {lo₁ hi₁ lo₂ hi₂ : Ty} (ht : w.shape? t = some (.bounds lo₁ hi₁))
    (hu : w.shape? u = some (.bounds lo₂ hi₂)) (h : Yields p s w (sub lo₂ lo₁ <&&> sub hi₁ hi₂) C) :
    Yields p s w (third n sub t u) C := by
  refine .world_bind ?_
  rw [World.shape_of_shape? hu, World.shape_of_shape? ht]
  exact h

theorem yields_fourth_refined {parent info : Ty} {name : String} (ht : w.shape? t = some (.refined parent name info))
    (h : Yields p s w (sub parent u) C) : Yields p s w (fourth sub t u) C := by
  refine .world_bind ?_
  rw [World.shape_of_shape? ht]
  exact h

theorem yields_fourth_inter {a b : Ty} (ht : w.shape? t = some (.inter a b))
    (h : Yields p s w (sub a u <||> sub b u) C) : Yields p s w (fourth sub t u) C := by
  refine .world_bind ?_
  rw [World.shape_of_shape? ht]
  exact h

theorem yields_fourth_union {a b : Ty} (ht : w.shape? t = some (.union a b))
    (h : Yields p s w (sub a u <&&> sub b u) C) : Yields p s w (fourth sub t u) C := by
  refine .world_bind ?_
  rw [World.shape_of_shape? ht]
  exact h

/-! ### References to classes -/

section Classes

variable {q₁ q₂ : Ty} {s₁ s₂ : Symbol}

/-- A name against the name of a class with another symbol. -/
theorem yields_first_parts {d : Shape} {k : Bool} (ht : w.shape? t = some d) (hd : nameParts? d = some (q₁, s₁, k))
    (hu : w.shape? u = some (.named q₂ s₂)) (hne : s₁ ≠ s₂) (hcls : w.decls.isClass s₂)
    (h : Yields p s w ((if k = true ∧ w.decls.name s₁ = w.decls.name s₂ then sub q₁ q₂ else return false) <||>
      (do
        let base ← Ty.baseType t s₂
        if base.present && base ≠ t then sub base u else return false) <||>
      thirdNamed n sub t u) C) : Yields p s w (first n sub t u) C := by
  have hnamed : d.isNamed = true := by cases d <;> first | rfl | cases hd
  refine .world_bind ?_
  rw [World.shape_of_shape? hu, World.shape_of_shape? ht]
  dsimp only
  rw [if_pos hnamed]
  refine .world_bind ?_
  rw [World.shape_of_shape? hu, World.shape_of_shape? ht, hd]
  simp only [nameParts?, if_neg hne, hcls, if_true]
  exact h

theorem yields_first_names (ht : w.shape? t = some (.named q₁ s₁)) (hu : w.shape? u = some (.named q₂ s₂))
    (hne : s₁ ≠ s₂) (hcls : w.decls.isClass s₂)
    (h : Yields p s w ((if w.decls.name s₁ = w.decls.name s₂ then sub q₁ q₂ else return false) <||>
      (do
        let base ← Ty.baseType t s₂
        if base.present && base ≠ t then sub base u else return false) <||>
      thirdNamed n sub t u) C) : Yields p s w (first n sub t u) C := by
  refine yields_first_parts ht rfl hu hne hcls ?_
  simp only [true_and]
  exact h

/-- Two names of one static symbol are not told apart by their prefixes. -/
theorem decides_first_static {d : Shape} {k : Bool} (ht : w.shape? t = some d) (hd : nameParts? d = some (q₁, s₁, k))
    (hu : w.shape? u = some (.named q₂ s₁)) (hstatic : w.decls.isStatic s₁) : Decides p s w (first n sub t u) true := by
  have hnamed : d.isNamed = true := by cases d <;> first | rfl | cases hd
  refine .world_bind ?_
  rw [World.shape_of_shape? hu, World.shape_of_shape? ht]
  dsimp only
  rw [if_pos hnamed]
  refine .world_bind ?_
  rw [World.shape_of_shape? hu, World.shape_of_shape? ht, hd]
  simp only [nameParts?, if_true]
  refine .get_bind fun c _ _ => ?_
  rw [if_pos (by simp [hstatic])]
  exact decides_pure

/-- So they are compared with one answer, wherever the comparison is let in. -/
theorem decides_static {m r : Nat} (ht : w.shape? t = some (.named q₁ s₁)) (hu : w.shape? u = some (.named q₂ s₁))
    (hstatic : w.decls.isStatic s₁) (htp : t.present) (hup : u.present) (hroom : HasRoom p (r + 1))
    (hbounds : p.bounds = .none) (hfree : (t, u) ∉ p.pending) : Decides p s w (isSubType (m + 1) t u) true := by
  by_cases htu : t = u
  · subst htu
    exact decides_self htp
  · exact decides_isSubType htp hup htu hroom hbounds hfree fun _ _ => decides_first_static ht rfl hu hstatic

theorem infoOf_class (hu : w.shape? u = some (.named q₂ s₂)) (hcls : w.decls.isClass s₂) :
    u.infoOf w = WorldM.intern (.classInfo q₂ s₂) w := by
  have hkind : w.decls.kind? s₂ = some .cls := by simpa [Declarations.isClass] using hcls
  rw [Ty.infoOf, get_bind_run, World.shape_of_shape? hu]
  simp only [hkind]
  rfl

/-- A target class is asked for its markers and for the parameters of a trait, and otherwise left to the fourth step. -/
theorem yields_thirdNamed_class (hu : w.shape? u = some (.named q₂ s₂)) (hcls : w.decls.isClass s₂)
    (h : ∀ v, w ≤ v → Yields p s v
      ((if s₂ = Builtin.singleton.symbol then WorldM.reading (·.isStable n t) else return false) <||>
        (if s₂ = Builtin.notNull.symbol then (t.isNotNull : WorldM Bool) else return false) <||>
        (if Builtin.isTrait s₂ then conformsAsConstructor n sub t u else return false) <||> fourth sub t u) C) :
    Yields p s w (thirdNamed n sub t u) C := by
  refine .bind (.lift (grows_infoOf u)) fun info s' v hv ⟨hs, hinfo⟩ => ?_
  subst hs
  rw [infoOf_class hu hcls] at hinfo
  have hshape : v.shape? info = some (.classInfo q₂ s₂) := by
    cases hinfo
    exact TypeTable.shape?_intern w.types _
  refine .world_bind ?_
  have hparts : v.boundsParts? info = none := by simp only [World.boundsParts?, hshape]
  rw [hparts, World.shape_of_shape? (hv.shape hu)]
  exact h v hv

/-- A target class that is no marker and no trait is left to the fourth step. -/
theorem yields_thirdNamed (hu : w.shape? u = some (.named q₂ s₂)) (hcls : w.decls.isClass s₂)
    (hsingleton : s₂ ≠ Builtin.singleton.symbol) (hnotNull : s₂ ≠ Builtin.notNull.symbol)
    (htrait : Builtin.isTrait s₂ = false) (h : ∀ v, w ≤ v → Yields p s v (fourth sub t u) C) :
    Yields p s w (thirdNamed n sub t u) C := by
  refine yields_thirdNamed_class hu hcls fun v hv => ?_
  simp only [if_neg hsingleton, if_neg hnotNull, htrait]
  refine .orElse decides_pure fun v₁ hv₁ => .orElse decides_pure fun v₂ hv₂ => .orElse decides_pure fun v₃ hv₃ => ?_
  exact h v₃ (hv.trans (hv₁.trans (hv₂.trans hv₃)))

/-- Whatever the markers and the trait say, the target is met where the fourth step says so. -/
theorem decidesIf_thirdNamed (hu : w.shape? u = some (.named q₂ s₂)) (hcls : w.decls.isClass s₂)
    (hstable : ∀ v, w ≤ v → ∃ b, v.isStable n t = .ok b)
    (htrait : Builtin.isTrait s₂ → ∀ v, w ≤ v → Ends p s v (conformsAsConstructor n sub t u))
    (h : ∀ v, w ≤ v → DecidesIf p s v (fourth sub t u) P) : DecidesIf p s w (thirdNamed n sub t u) P := by
  refine yields_thirdNamed_class hu hcls fun v hv => ?_
  refine DecidesIf.orElse_last ?_ fun v₁ hv₁ => DecidesIf.orElse_last ?_ fun v₂ hv₂ =>
    DecidesIf.orElse_last ?_ fun v₃ hv₃ => ?_
  · refine .ite (fun _ => ?_) fun _ => ends_pure _
    obtain ⟨b, hb⟩ := hstable v hv
    exact ends_reading hb
  · exact .ite (fun _ => ends_lift (grows_isNotNull t)) fun _ => ends_pure _
  · exact .ite (fun hs₂ => htrait hs₂ v₂ (hv.trans (hv₁.trans hv₂))) fun _ => ends_pure _
  · exact h v₃ (hv.trans (hv₁.trans (hv₂.trans hv₃)))

theorem decides_thirdNamed (hu : w.shape? u = some (.named q₂ s₂)) (hcls : w.decls.isClass s₂)
    (hstable : ∀ v, w ≤ v → ∃ b, v.isStable n t = .ok b)
    (htrait : Builtin.isTrait s₂ → ∀ v, w ≤ v → Ends p s v (conformsAsConstructor n sub t u))
    (h : ∀ v, w ≤ v → Decides p s v (fourth sub t u) true) : Decides p s w (thirdNamed n sub t u) true :=
  (decidesIf_thirdNamed (P := True) hu hcls hstable htrait fun v hv => (h v hv).decidesIf).decides trivial

/-- Of a name and a static class, the names and the base types are compared first. -/
theorem decidesIf_first_parts {d : Shape} {k : Bool} (ht : w.shape? t = some d) (hd : nameParts? d = some (q₁, s₁, k))
    (hu : w.shape? u = some (.named q₂ s₂)) (hcls : w.decls.isClass s₂) (hstatic : w.decls.isStatic s₂)
    (hpre : Ends p s w (sub q₁ q₂))
    (hbase : ∀ v, w ≤ v → Ends p s v (do
      let base ← Ty.baseType t s₂
      if base.present && base ≠ t then sub base u else return false))
    (hthird : ∀ v, w ≤ v → DecidesIf p s v (thirdNamed n sub t u) P) : DecidesIf p s w (first n sub t u) P := by
  by_cases hne : s₁ = s₂
  · subst hne
    exact (decides_first_static ht hd hu hstatic).decidesIf
  · refine yields_first_parts ht hd hu hne hcls ?_
    refine DecidesIf.orElse_last ?_ fun v hv => DecidesIf.orElse_last (hbase v hv) fun v' hv' => hthird v' (hv.trans hv')
    exact .ite (fun _ => hpre) fun _ => ends_pure _

/-- A type constructor does not fit a trait with another number of parameters. -/
theorem decides_conformsAsConstructor {params : List Symbol} {args : List Ty}
    (hparams : w.openTypeParams n t = .ok params) (hargs : w.typeArgs n u = .ok args)
    (hlength : params.length ≠ args.length) :
    Decides p s w (conformsAsConstructor n sub t u) false := by
  intro c hc
  refine ⟨false, c, w, ?_, hc.place, le_rfl, rfl, hc.store⟩
  show Except.bind (Except.bind (Except.bind (w.openTypeParams n t) _) _) _ = _
  rw [hparams]
  show Except.bind (Except.bind (Except.bind (w.typeArgs n u) _) _) _ = _
  rw [hargs]
  show (if params.length ≠ args.length then return false else _ : CompareM Bool) c w = _
  rw [if_pos hlength]
  rfl

/-- The comparison with the parameters of a trait comes to an end if that of each one does. -/
theorem ends_conformsAsConstructor {params : List Symbol} {args : List Ty} (hparams : w.openTypeParams n t = .ok params)
    (hargs : w.typeArgs n u = .ok args)
    (h : ∀ base k v, w ≤ v → v.shape? base = some (.skolem k t) → ∀ x ∈ params, ∀ arg ∈ args, Ends p s v (do
      let info ← Ty.member base (v.decls.name x)
      sub (← info.asBounds) (← arg.asBounds))) : Ends p s w (conformsAsConstructor n sub t u) := by
  refine Yields.bind (yields_reading hparams) fun _ s₁ w₁ _ ⟨hp, hs, hv⟩ => ?_
  subst hp hs hv
  refine Yields.bind (yields_reading hargs) fun _ s₂ w₂ _ ⟨ha, hs, hv⟩ => ?_
  subst ha hs hv
  refine .ite (fun _ => ends_pure _) fun _ => ?_
  have hskolem : Yields p s₂ w₂ (liftM t.skolem) fun base s' v => s' = s₂ ∧ ∃ k, v.shape? base = some (.skolem k t) := by
    refine (Yields.lift (grows_skolem t)).mono fun base s' v _ ⟨hs, hrun⟩ => ⟨hs, ⟨w₂.skolems⟩, ?_⟩
    cases hrun
    exact TypeTable.shape?_intern _ _
  refine hskolem.bind fun base s' v hv ⟨hs, k, hbase⟩ => ?_
  subst hs
  refine Ends.bind (Ends.allM ?_) fun fit _ _ => Yields.world_bind (ends_pure _)
  rintro ⟨x, arg⟩ hpair v' hv'
  obtain ⟨hx, harg⟩ := List.of_mem_zip hpair
  exact Yields.world_bind (h base k v' (hv.trans hv') (hv'.shape hbase) x hx arg harg)

theorem decides_fourth_class (ht : w.shape? t = some (.named q₁ s₁)) (hcls : w.decls.isClass s₁)
    (hnothing : s₁ ≠ Builtin.nothing.symbol) (hnull : s₁ ≠ Builtin.null.symbol) :
    Decides p s w (fourth sub t u) false := by
  refine .world_bind ?_
  rw [World.shape_of_shape? ht]
  simp only [if_neg hnothing, if_neg hnull, hcls, if_true]
  exact .orElse decides_pure fun _ _ => decides_pure

theorem decides_fourth_nothing (ht : w.shape? t = some (.named q₁ Builtin.nothing.symbol)) :
    Decides p s w (fourth sub t u) true := by
  refine .world_bind ?_
  rw [World.shape_of_shape? ht]
  exact decides_pure

end Classes

end Steps

/-! ## Parameters under inference -/

/-- The slot of the parameter holds `t`. -/
def Slot (s : ConstraintStore) (x : Param) (t : Ty) : Prop :=
  ∃ slots, s.slots? x.binder = some slots ∧ slots[x.index]? = some t

section Params

variable {p : Place} {s : ConstraintStore} {w : World} {n : Nat} {sub : Ty → Ty → CompareM Bool} {t u b lo hi : Ty}
  {x : Param} {C : Bool → ConstraintStore → World → Prop}

theorem Slot.bounds? (h : Slot s x b) (hb : b.present) : s.bounds? x = some b := by
  obtain ⟨slots, hs, hi⟩ := h
  simp only [ConstraintStore.bounds?, hs, Option.bind_some, hi]
  rw [Option.filter_some, if_pos hb]

theorem yields_currentBounds (hw : w.Standard) (h : Slot s x b) (hb : w.shape? b = some (.bounds lo hi)) :
    Yields p s w (currentBounds x) fun r s' v => r = some (lo, hi) ∧ s' = s ∧ v = w := by
  intro c hc
  have hbounds : c.constraint.bounds? x = some b := hc.store ▸ h.bounds? (hw.present hb (by simp))
  refine ⟨_, c, w, currentBounds_run x c w, hc.place, le_rfl, ?_, hc.store, rfl⟩
  simp only [hbounds, Option.bind_some, World.boundsParts?, hb]

/-- A parameter under inference as the target: above its lower end, or narrowed from below. -/
theorem yields_first_param (hw : w.Standard) (hu : w.shape? u = some (.param x)) (h : Slot s x b)
    (hb : w.shape? b = some (.bounds lo hi))
    (hrun : Yields p s w (sub t lo <||> do narrow sub x (← Ty.lowerBounds t)) C) :
    Yields p s w (first n sub t u) C := by
  refine .world_bind ?_
  rw [World.shape_of_shape? hu]
  refine .bind (yields_currentBounds hw h hb) fun r s' v _ ⟨hr, hs, hv⟩ => ?_
  subst hr hs hv
  exact hrun

/-- A parameter under inference as the source: below its upper end, or narrowed from above. -/
theorem yields_second_param (hw : w.Standard) (ht : w.shape? t = some (.param x)) (h : Slot s x b)
    (hb : w.shape? b = some (.bounds lo hi))
    (hrun : Yields p s w (sub hi u <||> do narrow sub x (← Ty.upperBounds u)) C) :
    Yields p s w (second n sub t u) C := by
  refine .world_bind ?_
  rw [World.shape_of_shape? ht]
  refine .bind (yields_currentBounds hw h hb) fun r s' v _ ⟨hr, hs, hv⟩ => ?_
  subst hr hs hv
  exact hrun

theorem union_nothing_left (t : Ty) : Ty.union Builtin.nothing.type t w = .ok (t, w) := by
  unfold Ty.union
  split
  · next h => rw [← h]; rfl
  · rw [if_pos rfl]; rfl

theorem union_nothing_right (t : Ty) : Ty.union t Builtin.nothing.type w = .ok (t, w) := by
  unfold Ty.union
  split
  · rfl
  · rw [if_pos rfl]; rfl

theorem inter_any_right (t : Ty) : Ty.inter t Builtin.any.type w = .ok (t, w) := by
  unfold Ty.inter
  split
  · rfl
  · rw [if_pos rfl]; rfl

theorem inter_run (htu : t ≠ u) (hany : t ≠ Builtin.any.type ∧ u ≠ Builtin.any.type)
    (hnothing : t ≠ Builtin.nothing.type ∧ u ≠ Builtin.nothing.type) :
    Ty.inter t u w = WorldM.intern (.inter t u) w := by
  simp only [Ty.inter, htu, hany.1, hany.2, hnothing.1, hnothing.2, or_self, if_false]

theorem endsOf_bounds (hb : w.shape? b = some (.bounds lo hi)) : b.endsOf w = .ok ((lo, hi), w) := by
  have hparts : w.boundsParts? b = some (lo, hi) := by simp only [World.boundsParts?, hb]
  have hlift : b.asBounds w = .ok (b, w) := by
    show (if _ then _ else _ : WorldM Ty) w = _
    rw [hparts]
    simp
    rfl
  rw [Ty.endsOf, bind_run hlift]
  show Except.ok (((w.boundsParts? b).getD (b, b)), w) = _
  rw [hparts]
  rfl

theorem boundsInter_run {lo' hi' l r : Ty} {v₁ v₂ : World} (hb : w.shape? b = some (.bounds lo hi))
    (ht : w.shape? t = some (.bounds lo' hi')) (hl : Ty.union lo lo' w = .ok (l, v₁))
    (hr : Ty.inter hi hi' v₁ = .ok (r, v₂)) : Ty.boundsInter b t w = WorldM.intern (.bounds l r) v₂ := by
  rw [Ty.boundsInter, bind_run (endsOf_bounds hb)]
  dsimp only
  rw [bind_run (endsOf_bounds ht)]
  dsimp only
  rw [bind_run hl, bind_run hr]
  rfl

/-- The constraints `s'` hold `t` in the slot of `x`, and otherwise what `s` holds. -/
def Assigned (s : ConstraintStore) (x : Param) (t : Ty) (s' : ConstraintStore) : Prop :=
  ∃ slots, s.slots? x.binder = some slots ∧ x.index < slots.length ∧
    (slots[x.index]? = some t ∧ s' = s ∨ s'.slots = s.slots.insert x.binder (slots.set x.index t))

theorem Assigned.slot {s' : ConstraintStore} (h : Assigned s x t s') : Slot s' x t := by
  obtain ⟨slots, hslots, hlt, ⟨hslot, rfl⟩ | hs'⟩ := h
  · exact ⟨slots, hslots, hslot⟩
  · refine ⟨slots.set x.index t, ?_, by rw [List.getElem?_set_self hlt]⟩
    rw [ConstraintStore.slots?, hs', InsertionMap.find?_insert, if_pos rfl]

/-- The ends of narrowed bounds are compared with each other. -/
theorem yields_compareEnds (hb : w.shape? b = some (.bounds lo hi)) (h : Yields p s w (sub lo hi) C) :
    Yields p s w (do
      match (← world).boundsParts? b with
      | none => return false
      | some (lo, hi) => sub lo hi) C := by
  refine .world_bind ?_
  have hparts : w.boundsParts? b = some (lo, hi) := by simp only [World.boundsParts?, hb]
  rw [hparts]
  exact h

/-- Narrowing gives the parameter the joined bounds, and nothing else, and compares their ends. -/
theorem yields_narrow {lo' hi' : Ty} (hw : w.Standard) (h : Slot s x b)
    (hb : w.shape? b = some (.bounds lo hi)) (ht : w.shape? t = some (.bounds lo' hi'))
    (hrun : ∀ l v₁ r v₂ b' v₃ s', Ty.union lo lo' w = .ok (l, v₁) → Ty.inter hi hi' v₁ = .ok (r, v₂) → w ≤ v₃ →
      v₂ ≤ v₃ → v₃.shape? b' = some (.bounds l r) → Assigned s x b' s' → Yields p s' v₃ (sub l r) C) :
    Yields p s w (narrow sub x t) C := by
  obtain ⟨slots, hslots, hslot⟩ := h
  have hlt : x.index < slots.length := (List.getElem?_eq_some_iff.1 hslot).1
  obtain ⟨l, v₁, hl, hle₁⟩ := (grows_union lo lo').total w
  obtain ⟨r, v₂, hr, hle₂⟩ := (grows_inter hi hi').total v₁
  have hpresent : b.present := hw.present hb (by simp)
  simp only [narrow, constraint, bind_assoc, pure_bind]
  refine .get_bind fun c _ hc => ?_
  simp only [hc, hslots, hslot, Option.filter_some, if_pos hpresent]
  refine .bind (.lift (grows_boundsInter b t)) fun b' s' v hv hinter => ?_
  obtain ⟨rfl, hinter⟩ := hinter
  rw [boundsInter_run hb ht hl hr] at hinter
  have hv₂ : v₂ ≤ v := by
    cases hinter
    exact le_intern _ v₂
  have hb' : v.shape? b' = some (.bounds l r) := by
    cases hinter
    exact TypeTable.shape?_intern v₂.types _
  have hlast {s'' v'} (hv' : v ≤ v') (hs'' : Assigned s' x b' s'') :=
    yields_compareEnds (hv'.shape hb')
      (hrun l v₁ r v₂ b' v' s'' hl hr (hv.trans hv') (hv₂.trans hv') (hv'.shape hb') hs'')
  by_cases hold : b' = b
  · rw [if_neg (not_not.2 hold)]
    exact hlast le_rfl ⟨slots, hslots, hlt, .inl ⟨hold ▸ hslot, rfl⟩⟩
  · rw [if_pos hold]
    show Yields p s' v (liftM WorldM.freshSnapshot >>= fun n =>
      setConstraint ⟨s'.slots.insert x.binder (slots.set x.index b'), n⟩ >>= fun _ => _) C
    refine .bind (.lift grows_freshSnapshot) fun n s₁ v' hv' hfresh => ?_
    obtain ⟨rfl, -⟩ := hfresh
    refine .bind yields_setConstraint fun _ s'' v'' _ hset => ?_
    obtain ⟨rfl, rfl⟩ := hset
    exact hlast hv' ⟨slots, hslots, hlt, .inr rfl⟩

/-- A binder that is not under inference yet is added with its declared bounds. -/
theorem add_run {b : BinderId} {d : Binder} (hnew : s.tracks b = false) (hd : w.binder? b = some d) :
    s.add b w = .ok (⟨s.slots.insert b d.infos, w.snapshots⟩, { w with snapshots := w.snapshots + 1 }) := by
  simp only [ConstraintStore.add, hnew, Bool.false_eq_true, if_false, get_bind_run, hd]
  rfl

/-- A universal type put under inference in a fresh comparer: its parameters have their declared bounds. -/
theorem track_fresh {poly : Ty} {b : BinderId} {d : Binder} (hpoly : w.shape? poly = some (.universal b))
    (hd : w.binder? b = some d) (options : Options) (fuel : Nat) :
    ∃ c₀ w₀ c₁ w₁, Comparer.new options w = .ok (c₀, w₀) ∧ track fuel poly c₀ w₀ = .ok ((.ok poly, c₁), w₁) ∧ w ≤ w₁ ∧
      c₁.constraint.slots.entries = [(b, d.infos)] ∧ c₁.place = c₀.place := by
  let w₀ : World := { w with snapshots := w.snapshots + 1 }
  let c₀ : Comparer := { options, constraint := ⟨{}, w.snapshots⟩, depth := { threshold := options.monitorThreshold },
                         pending := { bounds := .none } }
  let c₁ : Comparer := { c₀ with constraint := ⟨InsertionMap.insert {} b d.infos, w₀.snapshots⟩ }
  have hadd : ConstraintStore.add ⟨{}, w.snapshots⟩ b w₀ =
      .ok (c₁.constraint, { w₀ with snapshots := w₀.snapshots + 1 }) := add_run rfl hd
  have hshape : w₀.shape poly = .universal b := World.shape_of_shape? hpoly
  have htrack : track fuel poly c₀ w₀ = .ok ((.ok poly, c₁), { w₀ with snapshots := w₀.snapshots + 1 }) := by
    rw [track, run_world_bind, hshape]
    show Except.bind (Except.bind (ConstraintStore.add ⟨{}, w.snapshots⟩ b w₀) _) _ = _
    rw [hadd]
    rfl
  exact ⟨c₀, w₀, c₁, _, rfl, htrack, ⟨id, id, rfl, Nat.le_refl _, rfl⟩, rfl, rfl⟩

end Params

end CompareM

/-! ## Walks -/

section Walks

variable {α β : Type} {ks : List Ty} {e e' e'' : Nat} {w : World}

/-- The guard of a walk with the types `ks` open that has attempted `e` entries. -/
structure Inside (ks : List Ty) (e : Nat) (g : Guard Ty) : Prop where
  bounds : g.bounds = .walk
  openKeys : g.openKeys = ks
  depth : g.depth = ks.length
  entries : g.entries = e

/-- With `ks` open the walk comes to an end within `e' - e` entries, and `A` holds of its answer. -/
def Finds (ks : List Ty) (e e' : Nat) (w : World) (m : WalkM α) (A : α → World → Prop) : Prop :=
  ∀ g, Inside ks e g → ∃ a g' w', m g w = .ok ((a, g'), w') ∧ Inside ks e' g' ∧ w ≤ w' ∧ A a w'

variable {A : α → World → Prop} {B : β → World → Prop}

theorem Finds.pure {a : α} (h : A a w) : Finds ks e e w (pure a) A := fun g hg => ⟨a, g, w, rfl, hg, le_rfl, h⟩

theorem Finds.bind {m : WalkM α} {f : α → WalkM β} (hm : Finds ks e e' w m A)
    (hf : ∀ a v, w ≤ v → A a v → Finds ks e' e'' v (f a) B) : Finds ks e e'' w (m >>= f) B := by
  intro g hg
  obtain ⟨a, g', v, hr, hg', hle, ha⟩ := hm g hg
  obtain ⟨b, g'', v', hr', hg'', hle', hb⟩ := hf a v hle ha g' hg'
  exact ⟨b, g'', v', (run_bind hr).trans hr', hg'', hle.trans hle', hb⟩

theorem Finds.mono {A' : α → World → Prop} {m : WalkM α} (h : Finds ks e e' w m A) (hA : ∀ a v, A a v → A' a v) :
    Finds ks e e' w m A' := by
  intro g hg
  obtain ⟨a, g', v, hr, hg', hle, ha⟩ := h g hg
  exact ⟨a, g', v, hr, hg', hle, hA a v ha⟩

theorem Finds.ite {p : Prop} [Decidable p] {m₁ m₂ : WalkM α} (h₁ : Finds ks e e' w m₁ A) (h₂ : Finds ks e e' w m₂ A) :
    Finds ks e e' w (if p then m₁ else m₂) A := by
  split
  · exact h₁
  · exact h₂

theorem finds_intern_present {d : Shape} {t : Ty} (h : w.shape? t = some d) :
    Finds ks e e w (liftM (WorldM.intern d)) fun u _ => u = t := by
  refine fun g hg => ⟨_, g, _, rfl, hg, le_intern d w, ?_⟩
  exact TypeTable.shape?_injective (TypeTable.shape?_intern w.types d) ((le_intern d w).shape h)

theorem Finds.world_bind {f : World → WalkM β} (hf : Finds ks e e' w (f w) B) :
    Finds ks e e' w (Walk.world >>= f) B := hf

/-- Below the limits a type that is not open is let in. -/
theorem Inside.enter {g : Guard Ty} {t : Ty} (hg : Inside ks e g) (ht : t ∉ ks) (hks : ks.length < 64)
    (he : e < 100000) : ∃ g', g.enter t = (.entered, g') ∧ Inside (t :: ks) (e + 1) g' := by
  obtain ⟨hb, hk, hd, hn⟩ := hg
  have htally : Limits.tally g.entries = e + 1 := by
    have hlimit : Limits.unlimited.toNat = 4294967295 := rfl
    rw [hn]
    exact Limits.tally_of_lt (by omega)
  have hverdict : { g with entries := Limits.tally g.entries }.verdict t = .entered := by
    have hentries : ¬ Guard.Bounds.walk.entries.toNat < e + 1 := by
      have hlimit : Guard.Bounds.walk.entries.toNat = 100000 := rfl
      omega
    have hdepth : ¬ Guard.Bounds.walk.depth.toNat ≤ ks.length := by
      have hlimit : Guard.Bounds.walk.depth.toNat = 64 := rfl
      omega
    have hopen : ¬ Guard.Bounds.walk.openKeys.toNat ≤ ks.length := by
      have hlimit : Guard.Bounds.walk.openKeys.toNat = 10000 := rfl
      omega
    simp [Guard.verdict, Guard.isOpen, Guard.count, hb, hk, hd, htally, hentries, hdepth, hopen, ht]
  refine ⟨{ g with openKeys := t :: g.openKeys, depth := g.depth + 1, entries := Limits.tally g.entries }, ?_, hb,
    congrArg (t :: ·) hk, congrArg (· + 1) hd, htally⟩
  unfold Guard.enter
  simp only [hverdict]

theorem inside_start : Inside [] 0 { bounds := .walk } := ⟨rfl, rfl, rfl, rfl⟩

/-- A class is its own type constructor. -/
theorem Inside.typeSymbolFrom_class {g : Guard Ty} {t q : Ty} {s : Symbol} {n : Nat} (hg : Inside ks e g) (ht : t ∉ ks)
    (hks : ks.length < 64) (he : e < 100000) (hshape : w.shape? t = some (.named q s)) (hcls : w.decls.isClass s) :
    w.typeSymbolFrom (n + 1) g t = some s := by
  obtain ⟨g', hr, -⟩ := hg.enter ht hks he
  have hsynonym : w.decls.isSynonym s = false := by
    simp only [Declarations.isClass, decide_eq_true_eq] at hcls
    simp [Declarations.isSynonym, hcls]
  unfold World.typeSymbolFrom
  rw [hr, World.shape_of_shape? hshape]
  simp only [hsynonym]
  rfl

theorem typeSymbol?_class {t q : Ty} {s : Symbol} (hshape : w.shape? t = some (.named q s)) (hcls : w.decls.isClass s) :
    w.typeSymbol? t = some s :=
  inside_start.typeSymbolFrom_class List.not_mem_nil (Nat.zero_lt_succ 63) (by omega) hshape hcls

/-- A walk goes on inside a type that is let in. -/
theorem finds_descend {refused : α} {step : (Ty → WalkM α) → Ty → WalkM α} {n : Nat} {t : Ty} (ht : t ∉ ks)
    (hks : ks.length < 64) (he : e < 100000)
    (h : Finds (t :: ks) (e + 1) e' w (step (Walk.descend refused step n) t) A) :
    Finds ks e e' w (Walk.descend refused step (n + 1) t) A := by
  intro g hg
  obtain ⟨g₁, he, hg₁⟩ := hg.enter ht hks he
  obtain ⟨a, g₂, v, hr, hg₂, hle, ha⟩ := h g₁ hg₁
  have hstands : Guard.Stands .walk (t :: ks) (ks.length + 1) g₂ := ⟨hg₂.bounds, hg₂.openKeys, hg₂.depth⟩
  obtain ⟨g₃, hl, hg₃⟩ := Guard.leave_last hstands
  have hentries : g₃.entries = g₂.entries := by
    simp only [Guard.leave] at hl
    split at hl
    · cases hl; rfl
    · cases hl
  refine ⟨a, g₃, v, ?_, ⟨hg₃.bounds, hg₃.openKeys, hg₃.depth, hentries.trans hg₂.entries⟩, hle, ha⟩
  exact inside_entered he hr hl

theorem finds_run {refused : α} {step : (Ty → WalkM α) → Ty → WalkM α} {t : Ty}
    (h : Finds [] 0 e w (Walk.descend refused step 65 t) A) :
    ∃ a v, Walk.run refused step t w = .ok (a, v) ∧ w ≤ v ∧ A a v := by
  obtain ⟨a, g, v, hr, hg, hle, ha⟩ := h { bounds := .walk } ⟨rfl, rfl, rfl, rfl⟩
  exact ⟨a, v, run_of_descend hr, hle, ha⟩

end Walks

/-! ## Type constructors -/

section Constructors

/-- Selecting by a condition that reads nothing. -/
theorem filterM_ok {α : Type} (f : α → Bool) (l : List α) :
    l.filterM (fun a => (.ok (f a) : Except Halt Bool)) = .ok (l.filter f) := by
  have haux : ∀ acc : List α, List.filterAuxM (fun a => (.ok (f a) : Except Halt Bool)) l acc =
      .ok ((l.filter f).reverse ++ acc) := by
    induction l with
    | nil => intro acc; rfl
    | cons a l ih =>
      intro acc
      show List.filterAuxM _ l (cond (f a) (a :: acc) acc) = _
      rw [ih]
      cases hf : f a <;> simp [hf]
  show Except.bind (List.filterAuxM _ l []) _ = _
  rw [haux]
  show Except.ok _ = _
  rw [List.append_nil, List.reverse_reverse]

theorem mapM_ok {α β : Type} (f : α → β) (l : List α) :
    l.mapM (fun a => (.ok (f a) : Except Halt β)) = .ok (l.map f) := by
  induction l with
  | nil => rfl
  | cons a l ih =>
    rw [List.mapM_cons]
    show Except.bind (l.mapM _) _ = _
    rw [ih]
    rfl

variable {w : World} {n : Nat} {t u q : Ty} {s : Symbol}

/-- How the head of a type is found. -/
theorem typeSymbolFrom_some {g : Guard Ty} (h : w.typeSymbolFrom n g t = some s) : ∃ m g',
    (match w.shape t with
      | .named _ s => if w.decls.isSynonym s then w.typeSymbolFrom m g' (w.decls.info s) else some s
      | .classInfo _ cls => some cls
      | .refined parent _ _ => w.typeSymbolFrom m g' parent
      | _ => none) = some s := by
  cases n with
  | zero => cases h
  | succ n =>
    unfold World.typeSymbolFrom at h
    generalize g.enter t = r at h
    obtain ⟨entry, g'⟩ := r
    cases entry with
    | entered => exact ⟨n, g', h⟩
    | _ => cases h

theorem refinement?_class (name : String) (ht : w.shape? t = some (.named q s)) (hcls : w.decls.isClass s) :
    w.refinement? name (n + 1) t = .ok none := by
  have hsynonym : w.decls.isSynonym s = false := by
    simp only [Declarations.isClass, decide_eq_true_eq] at hcls
    simp [Declarations.isSynonym, hcls]
  unfold World.refinement?
  rw [World.shape_of_shape? ht]
  simp only [hsynonym]
  rfl

theorem typeArgs_class (ht : w.shape? t = some (.named q s)) (hcls : w.decls.isClass s) :
    w.typeArgs (n + 1) t = .ok ((w.decls.typeParams s).map w.decls.info) := by
  simp only [World.typeArgs, typeSymbol?_class ht hcls, refinement?_class _ ht hcls]
  exact mapM_ok _ _

namespace CompareM

/-- A type that refines a parameter of a class has fewer open parameters than the class has arguments. -/
theorem decides_conformsAsConstructor_refined {p : Place} {σ : ConstraintStore} {sub : Ty → Ty → CompareM Bool}
    {info : String → Option Ty} {m : Symbol} (ht : w.typeSymbol? t = some s)
    (hinfo : ∀ name, w.refinement? name (n + 1) t = .ok (info name)) (hu : w.shape? u = some (.named q s))
    (hcls : w.decls.isClass s) (hm : m ∈ w.decls.typeParams s) (hrefined : (info (w.decls.name m)).isSome) :
    Decides p σ w (conformsAsConstructor (n + 1) sub t u) false := by
  have hparams : w.openTypeParams (n + 1) t =
      .ok ((w.decls.typeParams s).filter fun m => (info (w.decls.name m)).isNone) := by
    simp only [World.openTypeParams, ht, hinfo]
    exact filterM_ok _ _
  refine decides_conformsAsConstructor hparams (typeArgs_class hu hcls) (Nat.ne_of_lt ?_)
  rw [List.length_map]
  refine List.length_filter_lt_length_iff_exists.2 ⟨m, hm, ?_⟩
  cases hx : info (w.decls.name m) with
  | none => simp [hx] at hrefined
  | some _ => simp

end CompareM

end Constructors

end Conformance
