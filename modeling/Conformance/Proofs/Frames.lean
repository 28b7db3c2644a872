import Conformance.Relations
import Conformance.Proofs.Growth

/-!
# Comparisons as transactions

A comparison goes one level deeper, may mark its pair as pending, narrows parameters from deep inside, and comes back in
one of several ways: with an answer found directly, with one found under watch, or refused because the pair came round
again. Whichever it is, the comparer stands where it stood (`Comparer.place`), no rule of use is broken, and a negative
answer takes every narrowing back: `isSubType_transactional`.

The level counter stops at the largest word. `isSubTypeWithin levels` is the comparison that gives up where more than
`levels` frames would be open at a time, and `OpensAtMost levels` says of a run that it never comes to that.
-/

namespace Conformance

/-- Where a comparer stands: all of it but the constraints and the counts of what was attempted. -/
structure Place where
  options : Options
  threshold : UInt32
  /-- How many levels are open. -/
  level : Nat
  bounds : Guard.Bounds
  /-- The pairs that monitored comparisons are in the middle of. -/
  pending : List (Ty × Ty)
  pendingDepth : Nat

def Comparer.place (c : Comparer) : Place where
  options := c.options
  threshold := c.depth.threshold
  level := c.depth.depth
  bounds := c.pending.bounds
  pending := c.pending.openKeys
  pendingDepth := c.pending.depth

namespace Comparer

theorem place_depth (c : Comparer) (d : DepthCounter) :
    { c with depth := d }.place = { c.place with threshold := d.threshold, level := d.depth } := rfl

theorem place_pending (c : Comparer) (g : Guard (Ty × Ty)) :
    { c with pending := g }.place =
      { c.place with bounds := g.bounds, pending := g.openKeys, pendingDepth := g.depth } := rfl

end Comparer

/-- The same place one level deeper. -/
def Place.deeper (p : Place) : Place := { p with level := p.level + 1 }

/-- How a comparison that is entered from here runs. -/
def Place.mode (p : Place) : DepthMode := if p.level + 1 < p.threshold.toNat then .direct else .monitored

/-- The same place with one more pair pending. -/
def Place.entering (p : Place) (pair : Ty × Ty) : Place :=
  { p with pending := pair :: p.pending, pendingDepth := p.pendingDepth + 1 }

/-- Whether a pair is let in while it is compared: it is not pending already, and a limit was not reached. -/
def Place.admits (p : Place) (pair : Ty × Ty) : Prop :=
  p.pendingDepth < Limits.unlimited.toNat ∧ p.pending.length < Limits.unlimited.toNat ∧ pair ∉ p.pending

/-- No comparison is in progress. -/
structure Place.Idle (p : Place) : Prop where
  level : p.level = 0
  bounds : p.bounds = .none
  pending : p.pending = []
  pendingDepth : p.pendingDepth = 0

theorem Place.Idle.free {p : Place} (hp : p.Idle) (pair : Ty × Ty) : pair ∉ p.pending := by
  rw [hp.pending]
  exact List.not_mem_nil

namespace CompareM

/-! ## The cascade

One lemma for each of its functions: if each nested comparison comes back to states with `I`, so does the function.
Constraints are all that the cascade itself changes, by narrowing and by taking narrowings back. -/

/-- `I` survives narrowings, and taking them back. -/
structure Tolerant (I : Comparer → Prop) : Prop where
  narrow : ∀ {c : Comparer} {b : BinderId} {slots : List Ty}, I c → c.constraint.slots? b = some slots →
    ∀ new n, I { c with constraint := ⟨c.constraint.slots.insert b new, n⟩ }
  restore : ∀ {c c₀ : Comparer}, I c → I c₀ → I { c with constraint := c₀.constraint }

section Cascade

variable {I : Comparer → Prop} {fuel : Nat} {sub : Ty → Ty → CompareM Bool}

theorem run_world_bind {α : Type} (f : World → CompareM α) (c : Comparer) (w : World) :
    (world >>= f) c w = f w c w := rfl

/-- The current bounds of a parameter are the ends of its slot. -/
theorem currentBounds_run (p : Param) (c : Comparer) (w : World) :
    currentBounds p c w = .ok (((c.constraint.bounds? p).bind w.boundsParts?, c), w) := by
  simp only [currentBounds, constraint, bind_assoc, pure_bind, run_get_bind]
  cases c.constraint.bounds? p <;> rfl

theorem keeps_currentBounds (p : Param) : Keeps I (currentBounds p) := by
  intro c w hc
  rw [currentBounds_run]
  exact ⟨hc, le_rfl⟩

variable (hI : Tolerant I)

include hI in
theorem keeps_atomically {body : CompareM Bool} (h : Keeps I body) : Keeps I (atomically body) := by
  show Keeps I (get >>= fun c₀ => _)
  refine .get_bind fun c₀ hc₀ => .bind (J := I) (h.mono (fun _ e => e ▸ hc₀) fun _ h => h) fun answer => ?_
  cases answer
  · exact .bind (.modify _ fun c hc => hI.restore hc hc₀) fun _ => .pure _
  · exact .pure _

variable (hsub : ∀ a b, Keeps I (sub a b))

include hI hsub in
theorem keeps_same (a b : Ty) : Keeps I (same sub a b) :=
  .ite (.pure _) (.ite (.pure _) (keeps_atomically hI (.andThen (hsub a b) (hsub b a))))

include hsub in
/-- The ends of narrowed bounds are compared with each other. -/
theorem keeps_compareEnds (narrowed : Ty) : Keeps I (do
    match (← world).boundsParts? narrowed with
    | none => return false
    | some (lo, hi) => sub lo hi) := by
  refine .bind .world fun w => ?_
  split
  · exact .pure _
  · exact hsub _ _

include hI hsub in
theorem keeps_narrow (p : Param) (bound : Ty) : Keeps I (narrow sub p bound) := by
  simp only [narrow, constraint, bind_assoc, pure_bind]
  refine .get_bind fun c hc => ?_
  cases hslots : c.constraint.slots? p.binder with
  | none => exact .mono (.pure false) (fun _ h => h) fun _ h => h ▸ hc
  | some slots =>
    cases hold : (slots[p.index]?).filter (·.present) with
    | none => simp only [hold]; exact .mono (.pure false) (fun _ h => h) fun _ h => h ▸ hc
    | some old =>
      simp only [hold]
      refine .bind (.lift (grows_boundsInter old bound)) fun narrowed => ?_
      split
      · show Leads True (· = c) I (liftM WorldM.freshSnapshot >>= fun n =>
          setConstraint ⟨c.constraint.slots.insert p.binder (slots.set p.index narrowed), n⟩ >>= fun _ => _)
        refine .bind (J := (· = c)) (.lift grows_freshSnapshot) fun n =>
          .bind (J := I) (.modify _ ?_) fun _ => keeps_compareEnds hsub narrowed
        rintro _ rfl
        exact hI.narrow hc hslots _ n
      · exact (keeps_compareEnds hsub narrowed).mono (fun _ h => h ▸ hc) fun _ h => h

include hI hsub in
theorem keeps_sameParams (formals₁ formals₂ : List Ty) (foreign₁ foreign₂ : Bool) :
    Keeps I (sameParams sub formals₁ formals₂ foreign₁ foreign₂) :=
  .ite (.pure _) (.allM (fun _ => .orElse (keeps_same hI hsub _ _) (.pure _)) _)

theorem keeps_infosUnder (own b : BinderId) (d : Binder) : Keeps I (infosUnder fuel own b d) :=
  .mapM (fun _ => .lift (grows_substBinder _ _ _ _)) _

include hsub in
theorem keeps_conformsAsConstructor (t₁ t₂ : Ty) : Keeps I (conformsAsConstructor fuel sub t₁ t₂) := by
  refine .bind (.lift (grows_reading fun w => starves_openTypeParams w fuel t₁)) fun params => ?_
  refine .bind (.lift (grows_reading fun w => starves_typeArgs w fuel t₂)) fun args => ?_
  refine .ite (.pure _) (.bind (.lift (grows_skolem t₁)) fun base => ?_)
  refine .bind (.allM (fun pa => ?_) _) fun _ => .bind .world fun _ => .pure _
  refine .bind .world fun w => .bind (.lift (grows_member base _)) fun info => ?_
  exact .bind (.lift (grows_asBounds info)) fun _ => .bind (.lift (grows_asBounds _)) fun _ => hsub _ _

include hsub in
theorem keeps_fourth (t₁ t₂ : Ty) : Keeps I (fourth sub t₁ t₂) := by
  refine .bind .world fun w => ?_
  split
  · refine .ite (.pure _) (.orElse (.ite (.lift (grows_nullConforms t₂)) (.pure _)) (.ite (.pure _) ?_))
    exact .bind (.lift (grows_upperBound t₁)) fun _ => hsub _ _
  · exact hsub _ _
  · exact .orElse (hsub _ _) (hsub _ _)
  · exact .andThen (hsub _ _) (hsub _ _)
  · exact .ite (.bind (.lift (grows_underlying t₁)) fun _ => hsub _ _) (.pure _)

include hsub in
theorem keeps_thirdNamed (t₁ t₂ : Ty) : Keeps I (thirdNamed fuel sub t₁ t₂) := by
  refine .bind (.lift (grows_infoOf t₂)) fun info => .bind .world fun w => ?_
  split
  · exact .orElse (hsub _ _) (keeps_fourth hsub _ _)
  · refine .orElse (.ite (.lift (grows_reading fun w => starves_isStable w fuel t₁)) (.pure _)) ?_
    refine .orElse (.ite (.lift (grows_isNotNull t₁)) (.pure _)) ?_
    exact .orElse (.ite (keeps_conformsAsConstructor hsub _ _) (.pure _)) (keeps_fourth hsub _ _)

include hsub in
/-- A name against a name reads the options and leaves them alone. -/
theorem keeps_names (t₁ t₂ : Ty) : Keeps I (names fuel sub t₁ t₂) := by
  refine .bind .world fun w => ?_
  split
  · refine .ite (.get_bind fun c hc => ?_) (.orElse (.ite (hsub _ _) (.pure _)) (.orElse (.ite ?_ (.pure _)) ?_))
    · have hleads : ∀ {q : Prop} [Decidable q] (a b : Ty), Keeps I (if q then return true else sub a b) :=
        fun a b => .ite (.pure _) (hsub a b)
      exact (hleads _ _).mono (fun _ h => h ▸ hc) fun _ h => h
    · exact .bind (.lift (grows_baseType t₁ _)) fun _ => .ite (hsub _ _) (.pure _)
    · exact keeps_thirdNamed hsub _ _
  · exact .pure _

include hI hsub

theorem keeps_methods (t₁ : Ty) (b₁ : BinderId) (t₂ : Ty) (b₂ : BinderId) :
    Keeps I (methods fuel sub t₁ b₁ t₂ b₂) := by
  refine .bind .world fun w => ?_
  split
  · refine .bind (keeps_infosUnder _ _ _) fun formals₂ => ?_
    refine .bind (.lift (grows_signature fuel t₁)) fun sig₁ => .bind (.lift (grows_signature fuel t₂)) fun sig₂ => ?_
    refine .ite (.pure _) (.andThen (keeps_sameParams hI hsub _ _ _ _) (.ite (.pure _) ?_))
    exact .bind (.lift (grows_substBinder _ _ _ _)) fun _ => hsub _ _
  · exact .pure _

theorem keeps_universals (t₁ : Ty) (b₁ : BinderId) (t₂ : Ty) (b₂ : BinderId) :
    Keeps I (universals fuel sub t₁ b₁ t₂ b₂) := by
  refine .bind .world fun w => ?_
  split
  · refine .bind (.lift (grows_signature fuel t₁)) fun sig₁ => .bind (.lift (grows_signature fuel t₂)) fun sig₂ => ?_
    refine .ite (.pure _) (.andThen (.allM (fun _ => ?_) _) ?_)
    · exact .bind (.lift (grows_substBinder _ _ _ _)) fun _ => keeps_same hI hsub _ _
    · exact .bind (.lift (grows_substBinder _ _ _ _)) fun _ => hsub _ _
  · exact .pure _

theorem keeps_third (t₁ t₂ : Ty) : Keeps I (third fuel sub t₁ t₂) := by
  refine .bind .world fun w => ?_
  split
  · exact keeps_thirdNamed hsub _ _
  · exact keeps_thirdNamed hsub _ _
  · refine .orElse (.andThen (hsub _ _) (.ite (.pure _) ?_)) (keeps_fourth hsub _ _)
    exact .bind (.lift (grows_member t₁ _)) fun _ => hsub _ _
  · exact .andThen (hsub _ _) (hsub _ _)
  · exact .orElse (hsub _ _) (.orElse (hsub _ _) (keeps_fourth hsub _ _))
  · exact keeps_methods hI hsub _ _ _ _
  · exact keeps_universals hI hsub _ _ _ _
  · exact hsub _ _
  · exact .andThen (hsub _ _) (hsub _ _)
  · exact .bind (.lift (grows_named _ _)) fun _ => .andThen (hsub _ _) (hsub _ _)
  · exact keeps_fourth hsub _ _

theorem keeps_second (t₁ t₂ : Ty) : Keeps I (second fuel sub t₁ t₂) := by
  refine .bind .world fun w => ?_
  split
  · exact .pure _
  · exact .pure _
  · exact hsub _ _
  · refine .bind (keeps_currentBounds _) fun bounds => ?_
    split
    · refine .orElse (hsub _ _) (.bind (.lift (grows_bounds _ _)) fun _ => keeps_narrow hI hsub _ _)
    · exact keeps_third hI hsub _ _
  · exact keeps_third hI hsub _ _

theorem keeps_first (t₁ t₂ : Ty) : Keeps I (first fuel sub t₁ t₂) := by
  refine .bind .world fun w => ?_
  split
  · exact .ite (keeps_names hsub _ _) (keeps_second hI hsub _ _)
  · exact .ite (keeps_names hsub _ _) (keeps_second hI hsub _ _)
  · exact .pure _
  · exact .pure _
  · exact hsub _ _
  · refine .bind (keeps_currentBounds _) fun bounds => ?_
    split
    · refine .orElse (hsub _ _) (.bind (.lift (grows_bounds _ _)) fun _ => keeps_narrow hI hsub _ _)
    · exact keeps_second hI hsub _ _
  · exact keeps_second hI hsub _ _

end Cascade

/-! ## Frames -/

/-- The comparer stands at `p`, with constraints that have `Q`. -/
structure Stands (Q : ConstraintStore → Prop) (p : Place) (c : Comparer) : Prop where
  place : c.place = p
  store : Q c.constraint

section Frame

variable {Q : ConstraintStore → Prop} {p : Place}

theorem Stands.tolerant (hQ : ∀ {store b slots}, Q store → store.slots? b = some slots →
    ∀ new n, Q ⟨store.slots.insert b new, n⟩) (p : Place) : Tolerant (Stands Q p) where
  narrow hc hslots new n := ⟨hc.place, hQ hc.store hslots new n⟩
  restore hc hc₀ := ⟨hc.place, hc₀.store⟩

section
variable {c : Comparer}

theorem Stands.enter (hc : Stands Q p c) (hp : p.level < Limits.unlimited.toNat) :
    Stands Q p.deeper { c with depth := c.depth.enter.2 } := by
  obtain ⟨rfl, hQ⟩ := hc
  have hlevel : c.depth.enter.2.depth = c.depth.depth + 1 := by
    rw [DepthCounter.depth_enter]
    exact Limits.tally_of_lt hp
  have hthreshold : c.depth.enter.2.threshold = c.depth.threshold := by
    simp only [DepthCounter.enter]
    split
    · rfl
    · split <;> rfl
  refine ⟨?_, hQ⟩
  rw [Comparer.place_depth, hlevel, hthreshold]
  rfl

theorem Stands.enter_mode (hc : Stands Q p c) (hp : p.level < Limits.unlimited.toNat) : c.depth.enter.1 = p.mode := by
  have hlevel : c.depth.depth = p.level := congrArg Place.level hc.place
  have hthreshold : c.depth.threshold = p.threshold := congrArg Place.threshold hc.place
  simp only [DepthCounter.enter, Place.mode, hlevel, hthreshold, Limits.tally_of_lt hp]
  by_cases hdirect : p.level + 1 < p.threshold.toNat
  · rw [if_pos hdirect, if_pos hdirect]
  · rw [if_neg hdirect, if_neg hdirect]
    split <;> rfl

/-- A level that was entered can be left. -/
theorem Stands.leave (hc : Stands Q p.deeper c) : c.depth.leave = .ok { c.depth with depth := p.level } ∧
    Stands Q p { c with depth := { c.depth with depth := p.level } } := by
  have hlevel : c.depth.depth = p.level + 1 := congrArg Place.level hc.place
  have hthreshold : c.depth.threshold = p.threshold := congrArg Place.threshold hc.place
  refine ⟨?_, ?_, hc.store⟩
  · rw [DepthCounter.leave, if_neg (by omega), hlevel]
    rfl
  · rw [Comparer.place_depth, hc.place, hthreshold]
    rfl

theorem Stands.guard (hc : Stands Q p c) : Guard.Stands p.bounds p.pending p.pendingDepth c.pending := by
  obtain ⟨rfl, -⟩ := hc
  exact ⟨rfl, rfl, rfl⟩

theorem Stands.setPending (hc : Stands Q p c) {ks : List (Ty × Ty)} {d : Nat} {g : Guard (Ty × Ty)}
    (hg : Guard.Stands p.bounds ks d g) :
    Stands Q { p with pending := ks, pendingDepth := d } { c with pending := g } := by
  refine ⟨?_, hc.store⟩
  rw [Comparer.place_pending, hc.place, hg.bounds, hg.openKeys, hg.depth]

/-- A pair that was entered can be left. -/
theorem Stands.unpend {pair : Ty × Ty} (hc : Stands Q (p.entering pair) c) :
    ∃ g, c.pending.leave pair = .ok g ∧ Stands Q p { c with pending := g } := by
  obtain ⟨g, hl, hg⟩ := Guard.leave_last hc.guard
  exact ⟨g, hl, hc.setPending hg⟩

end

theorem leads_enterLevel (hp : p.level < Limits.unlimited.toNat) :
    Leads True (Stands Q p) (Stands Q p.deeper) enterLevel := fun _ _ hc => ⟨hc.enter hp, le_rfl⟩

theorem leads_leaveLevel : Leads True (Stands Q p.deeper) (Stands Q p) leaveLevel := by
  refine .get_bind fun c hc => ?_
  rw [hc.leave.1]
  show Leads True _ _ (modify fun c' : Comparer => { c' with depth := { c.depth with depth := p.level } })
  refine .modify _ ?_
  rintro c rfl
  exact hc.leave.2

theorem keeps_frame {body : DepthMode → CompareM Bool} (hI : Tolerant (Stands Q p))
    (hp : p.level < Limits.unlimited.toNat) (hbody : ∀ mode, Keeps (Stands Q p.deeper) (body mode)) :
    Keeps (Stands Q p) (frame body) := by
  refine keeps_atomically hI ?_
  refine .bind (leads_enterLevel hp) fun mode => .bind (hbody mode) fun answer => ?_
  exact .bind leads_leaveLevel fun _ => .pure answer

theorem keeps_withPending {body : CompareM Bool} (pair : Ty × Ty)
    (hbody : Keeps (Stands Q (p.entering pair)) body) : Keeps (Stands Q p) (withPending pair body) := by
  refine .get_bind fun c hc => ?_
  rcases Guard.enter_cases hc.guard pair with ⟨g, he, hg⟩ | ⟨e, g, he, hne, hg⟩
  · rw [he]
    refine .bind (J := Stands Q (p.entering pair)) (.modify _ ?_) fun _ => .bind hbody fun answer => ?_
    · rintro c rfl
      exact hc.setPending hg
    · refine .get_bind fun c' hc' => ?_
      obtain ⟨g₀, hl, hg₀⟩ := hc'.unpend
      rw [hl]
      show Leads True _ _ ((modify fun c : Comparer => { c with pending := g₀ }) >>= fun _ => pure answer)
      refine .bind (.modify _ ?_) fun _ => .pure answer
      rintro c' rfl
      exact hg₀
  · rw [he]
    refine .bind (J := Stands Q p) (.modify _ ?_) fun _ => ?_
    · rintro c rfl
      exact hc.setPending hg
    · simp only [hne]
      exact .pure false

/-! ### What a frame does with the run of its body -/

/-- The run `y` ends as the run `x` does, but for the comparer, which stands at `p` again. -/
def Framed (Q : ConstraintStore → Prop) (p : Place) (x y : Except Halt ((Bool × Comparer) × World)) : Prop :=
  match x with
  | .error e => y = .error e
  | .ok ((answer, _), w) => ∃ c, Stands Q p c ∧ y = .ok ((answer, c), w)

theorem Framed.trans {p' : Place} {x y z : Except Halt ((Bool × Comparer) × World)} (h : Framed Q p' x y)
    (h' : Framed Q p y z) : Framed Q p x z := by
  match x with
  | .error e => obtain rfl : y = .error e := h; exact h'
  | .ok ((answer, _), w) => obtain ⟨c, -, rfl⟩ := h; exact h'

theorem Framed.of_ok {x : Except Halt ((Bool × Comparer) × World)} {answer : Bool} {c : Comparer} {w : World}
    (h : Framed Q p x (.ok ((answer, c), w))) : ∃ c', x = .ok ((answer, c'), w) := by
  match x with
  | .error e => cases (show _ = _ from h)
  | .ok ((answer', c'), w') =>
    obtain ⟨c'', -, hok⟩ := h
    cases hok
    exact ⟨c', rfl⟩

theorem leaveLevel_run {c : Comparer} (hc : Stands Q p.deeper c) (w : World) :
    leaveLevel c w = .ok (((), { c with depth := { c.depth with depth := p.level } }), w) := by
  show Except.bind (Except.bind (Walk.orFault c.depth.leave w) _) _ = _
  rw [hc.leave.1]
  rfl

theorem frame_run {body : DepthMode → CompareM Bool} {c : Comparer} (hI : Tolerant (Stands Q p)) (hc : Stands Q p c)
    (hp : p.level < Limits.unlimited.toNat) (hbody : Keeps (Stands Q p.deeper) (body p.mode)) :
    ∃ c₁, Stands Q p.deeper c₁ ∧ ∀ w, Framed Q p (body p.mode c₁ w) (frame body c w) := by
  refine ⟨_, hc.enter hp, fun w => ?_⟩
  show Framed Q p _ (Except.bind (Except.bind (body c.depth.enter.1 { c with depth := c.depth.enter.2 } w) _) _)
  rw [hc.enter_mode hp]
  match body p.mode { c with depth := c.depth.enter.2 } w, hbody _ w (hc.enter hp) with
  | .error e, _ => exact rfl
  | .ok ((answer, c'), w'), ⟨hc', _⟩ =>
    have hback := hc'.leave.2
    show Framed Q p _ (Except.bind (Except.bind (leaveLevel c' w') _) _)
    rw [leaveLevel_run hc']
    cases answer with
    | true => exact ⟨_, hback, rfl⟩
    | false => exact ⟨_, hI.restore hback hc, rfl⟩

theorem enter_of_bounds_none {c : Comparer} (hc : Stands Q p c) (hbounds : p.bounds = .none) (pair : Ty × Ty) :
    (c.pending.enter pair).1 = .entered ↔ p.admits pair := by
  obtain ⟨hb, hk, hd⟩ := hc.guard
  have hentries : ¬ Limits.unlimited.toNat < Limits.tally c.pending.entries := by
    have := Limits.tally_le c.pending.entries
    omega
  have hverdict :
      (c.pending.enter pair).1 = { c.pending with entries := Limits.tally c.pending.entries }.verdict pair := by
    unfold Guard.enter
    dsimp only
    split
    · next h => exact h.symm
    · next h => exact h.symm
    · rfl
  rw [hverdict]
  simp only [Guard.verdict, Guard.isOpen, Guard.count, hb, hk, hd, hbounds, Guard.Bounds.none, if_neg hentries,
    Place.admits]
  by_cases hdepth : Limits.unlimited.toNat ≤ p.pendingDepth
  · rw [if_pos hdepth]
    simp only [reduceCtorEq, false_iff]
    omega
  · by_cases hpending : pair ∈ p.pending
    · simp [hdepth, hpending]
    · by_cases hcount : Limits.unlimited.toNat ≤ p.pending.length
      · simp [hdepth, hpending, hcount]
      · simp [hdepth, hpending, hcount]
        omega

/-- Takes the pair that was entered last back. -/
def unpend (pair : Ty × Ty) : CompareM Unit := do
  let pending ← Walk.orFault ((← get).pending.leave pair)
  modify fun c => { c with pending }

theorem unpend_run {c : Comparer} {pair : Ty × Ty} (hc : Stands Q (p.entering pair) c) :
    ∃ c', Stands Q p c' ∧ ∀ w, unpend pair c w = .ok (((), c'), w) := by
  obtain ⟨g, hleave, hback⟩ := hc.unpend
  refine ⟨_, hback, fun w => ?_⟩
  show Except.bind (Except.bind (Walk.orFault (c.pending.leave pair) w) _) _ = _
  rw [hleave]
  rfl

theorem withPending_entered {c : Comparer} {pair : Ty × Ty} (hc : Stands Q p c) (hbounds : p.bounds = .none)
    (hadmits : p.admits pair) : ∃ c₁, Stands Q (p.entering pair) c₁ ∧
      ∀ body w,
        withPending pair body c w = (do let answer ← body; unpend pair; return answer : CompareM Bool) c₁ w := by
  have hentered := (enter_of_bounds_none hc hbounds pair).2 hadmits
  rcases Guard.enter_cases hc.guard pair with ⟨g, he, hg⟩ | ⟨e, g, he, hne, -⟩
  · refine ⟨{ c with pending := g }, hc.setPending hg, fun body w => ?_⟩
    unfold withPending unpend
    rw [run_get_bind, he]
    simp only [bind_assoc]
    rfl
  · rw [he] at hentered
    obtain rfl : e = .entered := hentered
    cases hne

theorem withPending_run {body : CompareM Bool} {c : Comparer} {pair : Ty × Ty} (hc : Stands Q p c)
    (hbounds : p.bounds = .none) (hadmits : p.admits pair) (hbody : Keeps (Stands Q (p.entering pair)) body) :
    ∃ c₁, Stands Q (p.entering pair) c₁ ∧ ∀ w, Framed Q p (body c₁ w) (withPending pair body c w) := by
  obtain ⟨c₁, hc₁, hrun⟩ := withPending_entered hc hbounds hadmits
  refine ⟨c₁, hc₁, fun w => ?_⟩
  rw [hrun]
  show Framed Q p _ (Except.bind (body c₁ w) _)
  match body c₁ w, hbody _ w hc₁ with
  | .error e, _ => exact rfl
  | .ok ((answer, c'), w'), ⟨hc', _⟩ =>
    obtain ⟨c₂, hback, hunpend⟩ := unpend_run hc'
    refine ⟨c₂, hback, ?_⟩
    show Except.bind (unpend pair c' w') _ = _
    rw [hunpend]
    rfl

theorem withPending_refused {c : Comparer} {pair : Ty × Ty} (hc : Stands Q p c) (hbounds : p.bounds = .none)
    (hadmits : ¬ p.admits pair) :
    ∃ c₁, Stands Q p c₁ ∧ ∀ body w, withPending pair body c w = .ok ((false, c₁), w) := by
  have hentered := mt (enter_of_bounds_none hc hbounds pair).1 hadmits
  rcases Guard.enter_cases hc.guard pair with ⟨g, he, -⟩ | ⟨e, g, he, hne, hg⟩
  · exact absurd (congrArg Prod.fst he) hentered
  · refine ⟨_, hc.setPending hg, fun body w => ?_⟩
    unfold withPending
    rw [run_get_bind, he]
    simp only [hne]
    rfl

end Frame

/-- The comparison of two different types: the cascade in a frame of its own. -/
def framed (n : Nat) (sub : Ty → Ty → CompareM Bool) (t₁ t₂ : Ty) : CompareM Bool :=
  frame fun
    | .direct => first n sub t₁ t₂
    | .monitored => withPending (t₁, t₂) (first n sub t₁ t₂)

/-- `isSubType` that gives up where more than `levels` frames would be open at a time. -/
def isSubTypeWithin : Nat → Nat → Ty → Ty → CompareM Bool
  | _, 0, _, _ => throw .outOfFuel
  | 0, _ + 1, t₁, t₂ =>
    if !t₁.present || !t₂.present then return false
    else if t₁ = t₂ then return true
    else throw .outOfFuel
  | levels + 1, n + 1, t₁, t₂ =>
    if !t₁.present || !t₂.present then return false
    else if t₁ = t₂ then return true
    else framed n (isSubTypeWithin levels n) t₁ t₂

/-- The allowance of nested steps bounds the open frames as well. -/
theorem isSubTypeWithin_self (n : Nat) : isSubTypeWithin n n = isSubType n := by
  induction n with
  | zero => rfl
  | succ n ih => funext t₁ t₂; simp only [isSubTypeWithin, isSubType, ih]; rfl

/-- The run of `m`, which compares by `isSubType fuel`, never has more than `levels` frames open at a time. -/
def OpensAtMost (levels fuel : Nat) (m : (Ty → Ty → CompareM Bool) → CompareM Bool) (c : Comparer) (w : World) :
    Prop :=
  m (isSubTypeWithin levels fuel) c w = m (isSubType fuel) c w

theorem opensAtMost_self (n : Nat) (m : (Ty → Ty → CompareM Bool) → CompareM Bool) (c : Comparer) (w : World) :
    OpensAtMost n n m c w := by
  unfold OpensAtMost
  rw [isSubTypeWithin_self]

/-- From every place with room for `levels` more the comparison comes back to that place; the induction is on the
levels and the allowance together, for all places at once, because a nested comparison starts a level deeper. -/
theorem keeps_isSubTypeWithin {Q : ConstraintStore → Prop} (hI : ∀ p, Tolerant (Stands Q p)) (n : Nat) :
    ∀ (levels : Nat) (p : Place), p.level + levels ≤ Limits.unlimited.toNat →
      ∀ t₁ t₂, Keeps (Stands Q p) (isSubTypeWithin levels n t₁ t₂) := by
  induction n with
  | zero => intro levels p _ t₁ t₂; cases levels <;> exact .throw
  | succ n ih =>
    intro levels p hp t₁ t₂
    cases levels with
    | zero => exact .ite (.pure _) (.ite (.pure _) .throw)
    | succ levels =>
      refine .ite (.pure _) (.ite (.pure _) (keeps_frame (hI p) (by omega) fun mode => ?_))
      have hroom : p.deeper.level + levels ≤ Limits.unlimited.toNat := by
        show p.level + 1 + levels ≤ _
        omega
      cases mode with
      | direct => exact keeps_first (hI _) (ih levels p.deeper hroom) _ _
      | monitored => exact keeps_withPending _ (keeps_first (hI _) (ih levels (p.deeper.entering _) hroom) _ _)

/-- Where the cascade starts when the comparison of `pair` is entered at `p` and not refused. -/
inductive Opens (p : Place) (pair : Ty × Ty) : Place → Prop
  | direct (hmode : p.mode = .direct) : Opens p pair p.deeper
  | monitored (hmode : p.mode = .monitored) (hadmits : p.deeper.admits pair) : Opens p pair (p.deeper.entering pair)

theorem Opens.level_eq {p p' : Place} {pair : Ty × Ty} (h : Opens p pair p') : p'.level = p.level + 1 := by
  cases h <;> rfl

theorem Opens.bounds_eq {p p' : Place} {pair : Ty × Ty} (h : Opens p pair p') : p'.bounds = p.bounds := by
  cases h <;> rfl

theorem Opens.options_eq {p p' : Place} {pair : Ty × Ty} (h : Opens p pair p') : p'.options = p.options := by
  cases h <;> rfl

/-- The place has room for `levels` more in every respect. -/
structure HasRoom (p : Place) (levels : Nat) : Prop where
  level : p.level + levels ≤ Limits.unlimited.toNat
  pendingDepth : p.pendingDepth + levels ≤ Limits.unlimited.toNat
  pending : p.pending.length + levels ≤ Limits.unlimited.toNat

theorem HasRoom.of_idle {p : Place} {levels : Nat} (hp : p.Idle) (h : levels ≤ Limits.unlimited.toNat) :
    HasRoom p levels := by
  refine ⟨?_, ?_, ?_⟩
  · rwa [hp.level, Nat.zero_add]
  · rwa [hp.pendingDepth, Nat.zero_add]
  · rwa [hp.pending, List.length_nil, Nat.zero_add]

theorem HasRoom.opens {p p' : Place} {levels : Nat} {pair : Ty × Ty} (h : HasRoom p (levels + 1))
    (hp : Opens p pair p') : HasRoom p' levels := by
  obtain ⟨hlevel, hdepth, hpending⟩ := h
  cases hp with
  | direct =>
    refine ⟨?_, ?_, ?_⟩
    · simp only [Place.deeper]; omega
    · simp only [Place.deeper]; omega
    · simp only [Place.deeper]; omega
  | monitored =>
    refine ⟨?_, ?_, ?_⟩
    · simp only [Place.entering, Place.deeper]; omega
    · simp only [Place.entering, Place.deeper]; omega
    · simp only [Place.entering, Place.deeper, List.length_cons]; omega

/-- With room for more, only a pair that is pending already is refused. -/
theorem HasRoom.pending_of_refused {p : Place} {levels : Nat} {pair : Ty × Ty} (h : HasRoom p (levels + 1))
    (hp : ¬ p.deeper.admits pair) :
    pair ∈ p.pending := by
  by_contra hpair
  obtain ⟨-, hdepth, hpending⟩ := h
  refine hp ⟨?_, ?_, hpair⟩
  · simp only [Place.deeper]; omega
  · simp only [Place.deeper]; omega

/-- The comparison of different types ends as the cascade does in the place that it opens, or is refused. -/
theorem framed_run {Q : ConstraintStore → Prop} {p : Place} {c : Comparer} (hI : Tolerant (Stands Q p))
    (hc : Stands Q p c) (hlevel : p.level < Limits.unlimited.toNat) (hbounds : p.bounds = .none) {n : Nat}
    {sub : Ty → Ty → CompareM Bool} {a b : Ty}
    (hfirst : ∀ p', p'.level = p.level + 1 → Keeps (Stands Q p') (first n sub a b)) :
    (∃ p' c', Opens p (a, b) p' ∧ Stands Q p' c' ∧ ∀ w, Framed Q p (first n sub a b c' w) (framed n sub a b c w)) ∨
      (p.mode = .monitored ∧ ¬ p.deeper.admits (a, b) ∧
        ∀ w, ∃ c', Stands Q p c' ∧ framed n sub a b c w = .ok ((false, c'), w)) := by
  let body : DepthMode → CompareM Bool
    | .direct => first n sub a b
    | .monitored => withPending (a, b) (first n sub a b)
  have hdeeper : Keeps (Stands Q p.deeper) (first n sub a b) := hfirst _ rfl
  have hentering : Keeps (Stands Q (p.deeper.entering (a, b))) (first n sub a b) := hfirst _ rfl
  have hbody : ∀ mode, Keeps (Stands Q p.deeper) (body mode) := by
    intro mode
    cases mode with
    | direct => exact hdeeper
    | monitored => exact keeps_withPending _ hentering
  obtain ⟨c₁, hc₁, hrun⟩ := frame_run hI hc hlevel (hbody p.mode)
  cases hmode : p.mode with
  | direct =>
    rw [hmode] at hrun
    exact .inl ⟨p.deeper, c₁, .direct hmode, hc₁, hrun⟩
  | monitored =>
    rw [hmode] at hrun
    by_cases hadmits : p.deeper.admits (a, b)
    · obtain ⟨c₂, hc₂, hrun'⟩ := withPending_run hc₁ hbounds hadmits hentering
      exact .inl ⟨_, c₂, .monitored hmode hadmits, hc₂, fun w => (hrun' w).trans (hrun w)⟩
    · obtain ⟨c₂, -, hrun'⟩ := withPending_refused (p := p.deeper) hc₁ hbounds hadmits
      refine .inr ⟨rfl, hadmits, fun w => ?_⟩
      have hframed : Framed Q p (withPending (a, b) (first n sub a b) c₁ w) (framed n sub a b c w) := hrun w
      rw [hrun' _ w] at hframed
      exact hframed

/-! ## Transactions -/

/-- How a transaction that starts with `c` may end: out of fuel, or with the comparer where it stood and, if the answer
is negative, with the constraints that it had. -/
structure Transacted (c : Comparer) (x : Except Halt ((Bool × Comparer) × World)) : Prop where
  halt : ∀ e, x = .error e → e = .outOfFuel
  place : ∀ answer c' w', x = .ok ((answer, c'), w') → c'.place = c.place
  rollback : ∀ c' w', x = .ok ((false, c'), w') → c'.constraint = c.constraint

/-- The computation gives the constraints back when it answers false. -/
def RollsBack (m : CompareM Bool) : Prop :=
  ∀ c w c' w', m c w = .ok ((false, c'), w') → c'.constraint = c.constraint

theorem rollsBack_pure (answer : Bool) : RollsBack (pure answer) := by
  intro c w c' w' h
  cases h
  rfl

theorem RollsBack.ite {q : Prop} [Decidable q] {m₁ m₂ : CompareM Bool} (h₁ : RollsBack m₁) (h₂ : RollsBack m₂) :
    RollsBack (if q then m₁ else m₂) := by
  split
  · exact h₁
  · exact h₂

theorem rollsBack_atomically (body : CompareM Bool) : RollsBack (atomically body) := by
  intro c w c' w' h
  change Except.bind (body c w) (fun r => _) = _ at h
  match hb : body c w with
  | .error e => rw [hb] at h; cases h
  | .ok ((true, c₁), w₁) => rw [hb] at h; cases h
  | .ok ((false, c₁), w₁) => rw [hb] at h; cases h; rfl

theorem rollsBack_isSubType (n : Nat) (t₁ t₂ : Ty) : RollsBack (isSubType n t₁ t₂) := by
  cases n with
  | zero => intro c w c' w' h; cases h
  | succ n => exact .ite (rollsBack_pure _) (.ite (rollsBack_pure _) (rollsBack_atomically _))

theorem rollsBack_same (sub : Ty → Ty → CompareM Bool) (t₁ t₂ : Ty) : RollsBack (same sub t₁ t₂) :=
  .ite (rollsBack_pure _) (.ite (rollsBack_pure _) (rollsBack_atomically _))

theorem transacted_of_keeps {m : CompareM Bool} {c : Comparer} {w : World}
    (hplace : Reached True (Stands (fun _ => True) c.place) w (m c w)) (hback : RollsBack m) :
    Transacted c (m c w) where
  halt _ hm := hplace.error hm
  place _ _ _ hm := (hplace.ok hm).1.place
  rollback c' w' hm := hback c w c' w' hm

/-- **Comparisons are transactions.** Wherever the comparer stands with room for `levels` more, a comparison that opens
no more frames than that, and likewise one in both directions, breaks no rule of use, brings the comparer back to where
it stood and, when it answers false, gives back the constraints that it found. -/
theorem isSubType_transactional (levels fuel : Nat) (t₁ t₂ : Ty) (c : Comparer) (w : World)
    (hroom : c.depth.depth + levels ≤ Limits.unlimited.toNat) :
    (OpensAtMost levels fuel (· t₁ t₂) c w → Transacted c (isSubType fuel t₁ t₂ c w)) ∧
      (OpensAtMost levels fuel (same · t₁ t₂) c w → Transacted c (isSameType fuel t₁ t₂ c w)) := by
  have hI : ∀ p, Tolerant (Stands (fun _ => True) p) := Stands.tolerant fun _ _ _ _ => trivial
  have hsub := keeps_isSubTypeWithin hI fuel levels c.place hroom
  constructor
  · intro hopens
    have hreached := hsub t₁ t₂ c w ⟨rfl, trivial⟩
    rw [show isSubTypeWithin levels fuel t₁ t₂ c w = _ from hopens] at hreached
    exact transacted_of_keeps hreached (rollsBack_isSubType fuel t₁ t₂)
  · intro hopens
    have hreached := keeps_same (hI _) hsub t₁ t₂ c w ⟨rfl, trivial⟩
    rw [show same (isSubTypeWithin levels fuel) t₁ t₂ c w = _ from hopens] at hreached
    exact transacted_of_keeps hreached (rollsBack_same _ t₁ t₂)

/-- A parameter above `Int` against `Int & String`: it is narrowed to `Int`, refused by `String`, and the narrowing is
gone. -/
theorem isSubType_transactional_narrowed :
    let lower := World.initial.types.intern (.bounds Builtin.int.type Builtin.any.type)
    let param := lower.2.intern (.param ⟨⟨0⟩, 0⟩)
    let target := param.2.intern (.inter Builtin.int.type Builtin.string.type)
    let binder : Binder := { kind := .universal, names := ["X"], infos := [lower.1], result := param.1 }
    let w := { World.initial with types := target.2, binders := #[binder] }
    let c : Comparer := { options := {}, constraint := ⟨⟨[(⟨0⟩, [lower.1])]⟩, 0⟩, depth := { threshold := 0 },
                          pending := { bounds := .none } }
    c.depth.depth + 9 ≤ Limits.unlimited.toNat ∧
      OpensAtMost 9 9 (· param.1 target.1) c w ∧ OpensAtMost 9 9 (same · param.1 target.1) c w ∧
      ((isSubType 9 param.1 target.1 c w).toOption.map (·.1.1)) = some false ∧
      Transacted c (isSubType 9 param.1 target.1 c w) ∧ Transacted c (isSameType 9 param.1 target.1 c w) := by
  intro lower param target binder w c
  have hroom : c.depth.depth + 9 ≤ Limits.unlimited.toNat := by decide
  have hopens := opensAtMost_self 9 (· param.1 target.1) c w
  have hopens' := opensAtMost_self 9 (same · param.1 target.1) c w
  obtain ⟨hsub, hsame⟩ := isSubType_transactional 9 9 param.1 target.1 c w hroom
  exact ⟨hroom, hopens, hopens', by decide +kernel, hsub hopens, hsame hopens'⟩

end CompareM

end Conformance
