import Conformance.Proofs.Closed
import Conformance.Proofs.Congruence
import Conformance.Proofs.Equivariance

/-!
# What comparisons decide when nothing is under inference

`Conforms` is the least relation that holds of equal types and is closed under the steps of the cascade, each nested
comparison read as membership in the relation. It knows nothing of levels, thresholds and pending pairs. With nothing
under inference `isSubType` decides it (`isSubType_iff_conforms`): a positive answer is a derivation
(`conforms_of_isSubTypeWithin`), and a derivation is answered positively (`answered_isSubTypeWithin`) although pending
pairs are refused, because a derivation that comes back to its own pair can be cut short (`Conforms.Avoiding.cut`).

Each nested comparison starts in a world of its own, with handles of its own for what was built on the way; that it
answers what it would answer in the world of the derivation is `related_isSubTypeWithin`.
-/

namespace Conformance

namespace CompareM

open Classical in
/-- The comparison that looks up its answer in a relation. -/
noncomputable def asking (S : World → Ty → Ty → Prop) (a b : Ty) : CompareM Bool := do
  return decide (S (← world) a b)

end CompareM

open CompareM

/-- A comparer at rest with nothing under inference. -/
def Comparer.vacant (erased : Bool) : Comparer where
  options := { erasedTypes := erased }
  constraint := ⟨{}, 0⟩
  depth := { threshold := Limits.monitoredDepth }
  pending := { bounds := .none }

/-- No comparison is in progress and nothing is under inference. -/
structure Comparer.AtRest (c : Comparer) : Prop where
  store : c.constraint.slots.entries = []
  level : c.depth.depth = 0
  bounds : c.pending.bounds = .none
  pending : c.pending.openKeys = []
  pendingDepth : c.pending.depth = 0

theorem Comparer.AtRest.idle {c : Comparer} (hc : c.AtRest) : c.place.Idle :=
  ⟨hc.level, hc.bounds, hc.pending, hc.pendingDepth⟩

theorem Comparer.atRest_vacant (erased : Bool) : (Comparer.vacant erased).AtRest := ⟨rfl, rfl, rfl, rfl, rfl⟩

/-- The cascade answers true of `a` and `b` when nested comparisons are looked up in `S`. -/
def Holds (erased : Bool) (S : World → Ty → Ty → Prop) (w : World) (a b : Ty) : Prop :=
  ∃ fuel c w', first fuel (asking S) a b (.vacant erased) w = .ok ((true, c), w')

/-- The least relation on types that holds of equal types and is closed under the cascade, each nested comparison read
as membership in the relation. -/
inductive Conforms (erased : Bool) : World → Ty → Ty → Prop
  | refl {w : World} {t : Ty} (ht : t.present) : Conforms erased w t t
  | step {w : World} {a b : Ty} (S : World → Ty → Ty → Prop) (ha : a.present) (hb : b.present)
      (hS : ∀ w a b, S w a b → Conforms erased w a b) (h : Holds erased S w a b) : Conforms erased w a b

/-- Derivations of conformance none of whose steps is about a pair in `P`. -/
inductive Conforms.Avoiding (erased : Bool) (P : World → Ty → Ty → Prop) : World → Ty → Ty → Prop
  | refl {w : World} {t : Ty} (ht : t.present) : Avoiding erased P w t t
  | step {w : World} {a b : Ty} (S : World → Ty → Ty → Prop) (ha : a.present) (hb : b.present) (hP : ¬ P w a b)
      (hS : ∀ w a b, S w a b → Avoiding erased P w a b) (h : Holds erased S w a b) : Avoiding erased P w a b

namespace Conforms

variable {erased : Bool} {P Q : World → Ty → Ty → Prop} {w : World} {a b : Ty}

theorem avoiding_nothing (h : Conforms erased w a b) : Avoiding erased (fun _ _ _ => False) w a b := by
  induction h with
  | refl ht => exact .refl ht
  | step S ha hb _ h ih => exact .step S ha hb id ih h

/-- **Derivations can be cut short**: one that avoids `P` avoids `Q` as well, or ends in a last step about a pair in
`Q`, below which `Q` is avoided. -/
theorem Avoiding.cut (h : Avoiding erased P w a b) :
    Avoiding erased (fun w a b => P w a b ∨ Q w a b) w a b ∨
      ∃ w a b S, Q w a b ∧ a.present ∧ b.present ∧
        (∀ w a b, S w a b → Avoiding erased (fun w a b => P w a b ∨ Q w a b) w a b) ∧ Holds erased S w a b := by
  induction h with
  | refl ht => exact .inl (.refl ht)
  | @step w a b S ha hb hP _ h ih =>
    by_cases hlast : ∃ w a b S, Q w a b ∧ a.present ∧ b.present ∧
        (∀ w a b, S w a b → Avoiding erased (fun w a b => P w a b ∨ Q w a b) w a b) ∧ Holds erased S w a b
    · exact .inr hlast
    · have hS : ∀ w a b, S w a b → Avoiding erased (fun w a b => P w a b ∨ Q w a b) w a b :=
        fun w a b hab => (ih w a b hab).resolve_right hlast
      by_cases hQ : Q w a b
      · exact absurd ⟨w, a, b, S, hQ, ha, hb, hS, h⟩ hlast
      · exact .inl (.step S ha hb (not_or.2 ⟨hP, hQ⟩) hS h)

end Conforms

namespace CompareM

/-! ## Comparisons do not depend on handles -/

/-- Two comparers stand in the same place up to handles, with no limit on what they may have pending. -/
structure Alike (ρ : Corr) (p q : Place) : Prop where
  binders : ρ.opens
  erased : p.options.erasedTypes = q.options.erasedTypes
  threshold : p.threshold = q.threshold
  level : p.level = q.level
  bounds₁ : p.bounds = .none
  bounds₂ : q.bounds = .none
  pending : List.Forall₂ ρ.pairs p.pending q.pending
  pendingDepth : p.pendingDepth = q.pendingDepth

namespace Alike

variable {ρ σ : Corr} {p q p' : Place} {a a' b b' : Ty} {w₁ w₂ : World}

theorem mono (h : Alike ρ p q) (hσ : ρ ≤ σ) : Alike σ p q :=
  { h with binders := hσ.opens h.binders, pending := h.pending.imp fun _ _ => upward_pairs _ _ hσ _ _ }

theorem mode (h : Alike ρ p q) : p.mode = q.mode := by
  simp only [Place.mode, h.level, h.threshold]

theorem deeper (h : Alike ρ p q) : Alike ρ p.deeper q.deeper :=
  { h with level := congrArg (· + 1) h.level }

theorem entering (h : Alike ρ p q) (ha : ρ.ty a a') (hb : ρ.ty b b') :
    Alike ρ (p.entering (a, b)) (q.entering (a', b')) :=
  { h with pending := .cons ⟨ha, hb⟩ h.pending, pendingDepth := congrArg (· + 1) h.pendingDepth }

theorem admits_iff (h : Alike ρ p q) (hM : ρ.Matches w₁ w₂) (ha : ρ.ty a a') (hb : ρ.ty b b') :
    p.admits (a, b) ↔ q.admits (a', b') := by
  have hmem : (a, b) ∈ p.pending ↔ (a', b') ∈ q.pending := by
    refine Guard.mem_congr h.pending fun x y hxy => ?_
    rw [Prod.ext_iff, Prod.ext_iff, hM.ty_inj hxy.1 ha, hM.ty_inj hxy.2 hb]
  rw [Place.admits, Place.admits, h.pendingDepth, h.pending.length_eq, hmem]

theorem opens (h : Alike ρ p q) (hM : ρ.Matches w₁ w₂) (ha : ρ.ty a a') (hb : ρ.ty b b') (hp : Opens p (a, b) p') :
    ∃ q', Opens q (a', b') q' ∧ Alike ρ p' q' := by
  cases hp with
  | direct hmode => exact ⟨_, .direct (h.mode ▸ hmode), h.deeper⟩
  | monitored hmode hadmits =>
    exact ⟨_, .monitored (h.mode ▸ hmode) ((h.deeper.admits_iff hM ha hb).1 hadmits), h.deeper.entering ha hb⟩

end Alike

/-- What a comparison opens is determined. -/
theorem Opens.unique {p p' p'' : Place} {pair : Ty × Ty} (h : Opens p pair p') (h' : Opens p pair p'') : p' = p'' := by
  cases h with
  | direct hmode => cases h' with
    | direct => rfl
    | monitored hmode' => rw [hmode] at hmode'; cases hmode'
  | monitored hmode => cases h' with
    | direct hmode' => rw [hmode] at hmode'; cases hmode'
    | monitored => rfl

theorem Opens.not_refused {p p' : Place} {pair : Ty × Ty} (h : Opens p pair p') (hmode : p.mode = .monitored)
    (hadmits : ¬ p.deeper.admits pair) : False := by
  cases h with
  | direct hmode' => rw [hmode] at hmode'; cases hmode'
  | monitored _ hadmits' => exact hadmits hadmits'

theorem agree_framed {loose : Prop} {ρ : Corr} {p q p' q' : Place}
    {x₁ x₂ y₁ y₂ : Except Halt ((Bool × Comparer) × World)}
    (h : Agree loose ρ (fun τ r₁ r₂ => Answers loose τ r₁.1 r₂.1 ∧ Vacants p' q' τ r₁.2 r₂.2) x₁ x₂)
    (h₁ : Framed (·.slots.entries = []) p x₁ y₁) (h₂ : Framed (·.slots.entries = []) q x₂ y₂) :
    Agree loose ρ (fun τ r₁ r₂ => Answers loose τ r₁.1 r₂.1 ∧ Vacants p q τ r₁.2 r₂.2) y₁ y₂ := by
  match x₁, x₂, h with
  | .error e, _, _ =>
    obtain rfl : y₁ = .error e := h₁
    exact trivial
  | .ok ((b, _), w₁), .error e, hloose =>
    obtain ⟨c, -, rfl⟩ := h₁
    obtain rfl : y₂ = .error e := h₂
    exact hloose
  | .ok ((b, _), w₁), .ok ((b', _), w₂), ⟨σ, hσ, hM, hbb, _⟩ =>
    obtain ⟨c, hc, rfl⟩ := h₁
    obtain ⟨d, hd, rfl⟩ := h₂
    exact ⟨σ, hσ, hM, hbb, hc, hd⟩

/-- The nested comparisons of a comparison with room for `levels` below it keep their places. -/
theorem keeps_vacant (n levels : Nat) (p : Place) (hroom : p.level + levels ≤ Limits.unlimited.toNat) (a b : Ty) :
    Keeps (Vacant p) (isSubTypeWithin levels n a b) :=
  keeps_isSubTypeWithin Vacant.tolerant n levels p hroom a b

/-- How the comparison of different types ends with nothing under inference. -/
theorem framed_vacant {p : Place} {c : Comparer} (hc : Vacant p c) {levels : Nat}
    (hroom : p.level + (levels + 1) ≤ Limits.unlimited.toNat) (hbounds : p.bounds = .none) (n : Nat) (a b : Ty) :
    (∃ p' c', Opens p (a, b) p' ∧ Vacant p' c' ∧ ∀ w, Framed (·.slots.entries = []) p
        (first n (isSubTypeWithin levels n) a b c' w) (framed n (isSubTypeWithin levels n) a b c w)) ∨
      (p.mode = .monitored ∧ ¬ p.deeper.admits (a, b) ∧
        ∀ w, ∃ c', Vacant p c' ∧ framed n (isSubTypeWithin levels n) a b c w = .ok ((false, c'), w)) :=
  framed_run (Vacant.tolerant p) hc (by omega) hbounds fun p' hp' =>
    keeps_first (Vacant.tolerant p') (keeps_vacant n levels p' (by omega)) a b

/-- A comparison and the same one between other handles answer alike. -/
theorem related_isSubTypeWithin {loose : Prop} (n : Nat) : ∀ {levels : Nat} {p q : Place} {ρ : Corr}, Alike ρ p q →
    p.level + levels ≤ Limits.unlimited.toNat →
      Related loose p q ρ (isSubTypeWithin levels n) (isSubTypeWithin levels n) := by
  induction n with
  | zero =>
    intro levels p q ρ h hroom
    have hthrow : ∀ a b, isSubTypeWithin levels 0 a b = throw .outOfFuel := by cases levels <;> exact fun _ _ => rfl
    refine ⟨h.binders, fun a b => ?_, fun a b => ?_, fun σ _ a a' b b' _ _ => ?_⟩
    · rw [hthrow]; exact .throw
    · rw [hthrow]; exact .throw
    · rw [hthrow]; exact fun _ _ _ _ _ => .halt _
  | succ n ih =>
    intro levels p q ρ h hroom
    have hroom' : q.level + levels ≤ Limits.unlimited.toNat := h.level ▸ hroom
    refine ⟨h.binders, keeps_vacant _ _ _ hroom, keeps_vacant _ _ _ hroom', fun σ hσ a a' b b' ha hb => ?_⟩
    refine .of_matches upward_vacants fun τ w₁ w₂ hτ hM => ?_
    have ha := hτ.ty ha
    have hb := hτ.ty hb
    have habsent : (!a.present || !b.present) = (!a'.present || !b'.present) := by rw [hM.present ha, hM.present hb]
    cases levels with
    | zero =>
      simp only [isSubTypeWithin, habsent]
      exact .ite Iff.rfl (sim_answer _) (.ite (hM.ty_inj ha hb) (sim_answer _) fun _ _ _ _ _ => .halt _)
    | succ levels =>
      simp only [isSubTypeWithin, habsent]
      refine .ite Iff.rfl (sim_answer _) (.ite (hM.ty_inj ha hb) (sim_answer _) ?_)
      rintro υ c d hυ ⟨hc, hd⟩ φ w₁ w₂ hφ hM
      have hρφ := hσ.trans (hτ.trans (hυ.trans hφ))
      have ha := (hυ.trans hφ).ty ha
      have hb := (hυ.trans hφ).ty hb
      have h := h.mono hρφ
      rcases framed_vacant hc hroom h.bounds₁ n a b with ⟨p', c', hopens, hc', hrun⟩ | ⟨hmode, hrefused, hrun⟩
      · obtain ⟨q', hopens', h'⟩ := h.opens hM ha hb hopens
        rcases framed_vacant hd hroom' h.bounds₂ n a' b' with ⟨q'', d', hopens'', hd', hrun'⟩ | ⟨hmode, hrefused, -⟩
        · obtain rfl := hopens'.unique hopens''
          have hroom' : p'.level + levels ≤ Limits.unlimited.toNat := by
            rw [hopens.level_eq]
            omega
          have hfirst := sim_first h'.erased (.inr (Nat.le_refl n)) (ih h' hroom') ha hb
          exact agree_framed (hfirst φ c' d' le_rfl ⟨hc', hd'⟩ φ w₁ w₂ le_rfl hM) (hrun w₁) (hrun' w₂)
        · exact (hopens'.not_refused hmode hrefused).elim
      · rcases framed_vacant hd hroom' h.bounds₂ n a' b' with ⟨q', d', hopens, -, -⟩ | ⟨-, -, hrun'⟩
        · refine (hopens.not_refused (h.mode ▸ hmode) ?_).elim
          exact mt (h.deeper.admits_iff hM ha hb).2 hrefused
        · obtain ⟨c', hc', hc''⟩ := hrun w₁
          obtain ⟨d', hd', hd''⟩ := hrun' w₂
          rw [hc'', hd'']
          exact ⟨φ, le_rfl, hM, .inl rfl, hc', hd'⟩

/-! ## Positive answers are derivations -/

/-- Some correspondence of the world with itself pairs `a`, `b` and all that is pending at `p` with themselves. -/
def Fits (p : Place) (w : World) (a b : Ty) : Prop :=
  ∃ τ : Corr, τ.opens ∧ τ.Matches w w ∧ τ.ty a a ∧ τ.ty b b ∧ ∀ x ∈ p.pending, τ.pairs x x

/-- The comparison of `a` and `b` that starts with `c` answers true. -/
def Affirms (levels n : Nat) (p : Place) (c : Comparer) (w : World) (a b : Ty) : Prop :=
  Fits p w a b ∧ ∃ c' w', isSubTypeWithin levels n a b c w = .ok ((true, c'), w')

theorem Alike.fits {ρ : Corr} {p : Place} {a a' b b' : Ty} {w₁ w₂ : World} (h : Alike ρ p p) (hM : ρ.Matches w₁ w₂)
    (ha : ρ.ty a a') (hb : ρ.ty b b') : Fits p w₂ a' b' := by
  refine ⟨ρ.symm.trans ρ, ⟨h.binders, h.binders⟩, hM.symm.trans hM, ⟨a, ha, ha⟩, ⟨b, hb, hb⟩, fun x hx => ?_⟩
  have hx := List.forall₂_same.1 h.pending x hx
  exact ⟨⟨x.1, hx.1, hx.1⟩, ⟨x.2, hx.2, hx.2⟩⟩

theorem keeps_asking (S : World → Ty → Ty → Prop) {I : Comparer → Prop} (a b : Ty) : Keeps I (asking S a b) :=
  .bind .world fun _ => .pure _

open Classical in
/-- Comparing at `p` answers what looking the answer up in `Affirms` does. -/
theorem related_affirms {erased : Bool} {levels n : Nat} {p : Place} {c : Comparer} {ρ : Corr} (hc : Vacant p c)
    (h : Alike ρ p p) (hroom : p.level + levels ≤ Limits.unlimited.toNat) :
    Related False p (Comparer.vacant erased).place ρ (isSubTypeWithin levels n) (asking (Affirms levels n p c)) := by
  refine ⟨h.binders, keeps_vacant n levels p hroom, keeps_asking _, fun σ hσ a a' b b' ha hb => ?_⟩
  rintro τ d e hτ ⟨hd, he⟩ υ w₁ w₂ hυ hM
  have ha := (hτ.trans hυ).ty ha
  have hb := (hτ.trans hυ).ty hb
  have h := h.mono (hσ.trans (hτ.trans hυ))
  have hrelated : Related False p p υ (isSubTypeWithin levels n) (isSubTypeWithin levels n) :=
    related_isSubTypeWithin n h hroom
  have hsim := hrelated.sim υ le_rfl ha hb υ d c le_rfl ⟨hd, hc⟩ υ w₁ w₂ le_rfl hM
  have hkeep := keeps_vacant n levels p hroom a b d w₁ hd
  show Agree False υ _ _ (.ok ((decide (Affirms levels n p c w₂ a' b'), e), w₂))
  match hr : isSubTypeWithin levels n a b d w₁, hkeep with
  | .error _, _ => exact trivial
  | .ok ((answer, d'), w₁'), ⟨hd', hle⟩ =>
    rw [hr] at hsim
    refine ⟨υ, le_rfl, hM.grow hle le_rfl, .inl ?_, hd', he⟩
    match hr' : isSubTypeWithin levels n a' b' c w₂ with
    | .error _ => rw [hr'] at hsim; exact hsim.elim
    | .ok ((answer', c'), w₂') =>
      rw [hr'] at hsim
      obtain ⟨_, _, _, hanswer, _⟩ := hsim
      obtain rfl : answer = answer' := hanswer.resolve_right fun h => h.1
      have hiff : Affirms levels n p c w₂ a' b' ↔ answer = true := by
        constructor
        · rintro ⟨-, c'', w'', hr''⟩
          rw [hr'] at hr''
          cases hr''
          rfl
        · rintro rfl
          exact ⟨h.fits hM ha hb, c', w₂', hr'⟩
      rw [Bool.eq_iff_iff, decide_eq_true_iff, hiff]

/-- How a comparison ends: with a type that is absent, with equal types, or in the frame around the cascade. -/
theorem isSubTypeWithin_cases {levels n : Nat} {a b : Ty} {c : Comparer} {w : World}
    {r : (Bool × Comparer) × World} (h : isSubTypeWithin levels n a b c w = .ok r) :
    ((a.present = false ∨ b.present = false) ∧ r = ((false, c), w)) ∨
      (a.present ∧ a = b ∧ r = ((true, c), w)) ∨
      (a.present ∧ b.present ∧ a ≠ b ∧ ∃ levels' n', levels = levels' + 1 ∧ n = n' + 1 ∧
        framed n' (isSubTypeWithin levels' n') a b c w = .ok r) := by
  cases n with
  | zero => cases levels <;> cases h
  | succ n =>
    by_cases hpresent : (!a.present || !b.present) = true
    · left
      cases levels <;> simp only [isSubTypeWithin, if_pos hpresent] at h <;> cases h <;> simpa using hpresent
    · obtain ⟨ha, hb⟩ : a.present ∧ b.present := by simpa using hpresent
      right
      by_cases hab : a = b
      · left
        cases levels <;> simp only [isSubTypeWithin, if_neg hpresent, if_pos hab] at h <;> cases h
        · exact ⟨ha, hab, rfl⟩
        · exact ⟨ha, hab, rfl⟩
      · right
        cases levels with
        | zero => simp only [isSubTypeWithin, if_neg hpresent, if_neg hab] at h; cases h
        | succ levels =>
          simp only [isSubTypeWithin, if_neg hpresent, if_neg hab] at h
          exact ⟨ha, hb, hab, levels, n, rfl, rfl, h⟩

theorem vacant_place (erased : Bool) : Vacant (Comparer.vacant erased).place (.vacant erased) := ⟨rfl, rfl⟩

theorem holds_of_agree {erased : Bool} {S : World → Ty → Ty → Prop} {ρ : Corr} {n : Nat} {c : Comparer}
    {w w' : World} {a b : Ty} {A : Corr → Comparer → Comparer → Prop}
    (h : Agree False ρ (fun τ r₁ r₂ => Answers False τ r₁.1 r₂.1 ∧ A τ r₁.2 r₂.2) (.ok ((true, c), w'))
      (first n (asking S) a b (.vacant erased) w)) : Holds erased S w a b := by
  match hr : first n (asking S) a b (.vacant erased) w with
  | .error _ => rw [hr] at h; exact h.elim
  | .ok ((answer, c₂), w₂) =>
    rw [hr] at h
    obtain ⟨_, _, _, hanswer, _⟩ := h
    obtain rfl : true = answer := hanswer.resolve_right fun h => h.1
    exact ⟨n, c₂, w₂, hr⟩

/-- A positive answer is a derivation. The induction is on the allowance: the pairs that nested comparisons affirm are
derivable, and the cascade holds of `a` and `b` when nested comparisons are looked up among those. -/
theorem conforms_of_isSubTypeWithin (n : Nat) :
    ∀ {levels : Nat} {p : Place} {c c' : Comparer} {w w' : World} {a b : Ty}, Vacant p c → p.bounds = .none →
      p.level + levels ≤ Limits.unlimited.toNat → Fits p w a b →
      isSubTypeWithin levels n a b c w = .ok ((true, c'), w') → Conforms p.options.erasedTypes w a b := by
  induction n with
  | zero => intro levels p c c' w w' a b _ _ _ _ h; cases levels <;> cases h
  | succ n ih =>
    intro levels p c c' w w' a b hc hbounds hroom hfits h
    rcases isSubTypeWithin_cases h with ⟨-, h⟩ | ⟨ha, rfl, -⟩ | ⟨hpa, hpb, hab, levels, n, rfl, hn, h⟩
    · cases h
    · exact .refl ha
    obtain rfl := Nat.succ.inj hn
    obtain ⟨τ, ho, hM, ha, hb, hpending⟩ := hfits
    have hself : Alike τ p p := ⟨ho, rfl, rfl, rfl, hbounds, hbounds, List.forall₂_same.2 hpending, rfl⟩
    rcases framed_vacant hc hroom hbounds n a b with ⟨p', c₁, hopens, hc₁, hrun⟩ | ⟨-, -, hrun⟩
    · obtain ⟨p'', hopens', hself'⟩ := hself.opens hM ha hb hopens
      obtain rfl := hopens.unique hopens'
      have hroom' : p'.level + levels ≤ Limits.unlimited.toNat := by rw [hopens.level_eq]; omega
      have herased : p'.options.erasedTypes = p.options.erasedTypes := congrArg Options.erasedTypes hopens.options_eq
      obtain ⟨c₂, hfirst⟩ := (h ▸ hrun w).of_ok
      have hrelated : Related False p' (Comparer.vacant p.options.erasedTypes).place τ (isSubTypeWithin levels n)
        (asking (Affirms levels n p' c₁)) := related_affirms hc₁ hself' hroom'
      have hsim := sim_first (q := (Comparer.vacant _).place) herased (.inr (Nat.le_refl n)) hrelated ha hb τ c₁
        (.vacant p.options.erasedTypes) le_rfl ⟨hc₁, vacant_place _⟩ τ w w le_rfl hM
      rw [hfirst] at hsim
      refine .step (Affirms levels n p' c₁) hpa hpb ?_ (holds_of_agree hsim)
      rintro w a b ⟨hfits, c', w', hr⟩
      exact herased ▸ ih hc₁ (hopens.bounds_eq.trans hbounds) hroom' hfits hr
    · obtain ⟨c'', -, hr⟩ := hrun w
      rw [hr] at h
      cases h

/-! ## Derivations are answered positively -/

/-- Every pair of types that stands, in some world, for a pair pending at `p` in a world above `w₂` is in `P`. -/
def Covers (P : World → Ty → Ty → Prop) (p : Place) (w₂ : World) : Prop :=
  ∀ x ∈ p.pending, ∀ (ρ : Corr) (w w₂' : World) (u v : Ty), w₂ ≤ w₂' → ρ.opens → ρ.Matches w w₂' → ρ.ty u x.1 →
    ρ.ty v x.2 → P w u v

section Complete

variable {erased : Bool} {P Q : World → Ty → Ty → Prop} {p p' : Place} {levels n : Nat} {w₁ w₂ w₂' : World} {a b : Ty}

theorem Covers.grow (h : Covers P p w₂) (hw : w₂ ≤ w₂') : Covers P p w₂' :=
  fun x hx ρ w w₃ u v hw' => h x hx ρ w w₃ u v (hw.trans hw')

/-- The pairs that stand for `(a, b)` in a world above `w₂`. -/
def StandsFor (w₂ : World) (a b : Ty) (w : World) (u v : Ty) : Prop :=
  ∃ (ρ : Corr) (w₂' : World), w₂ ≤ w₂' ∧ ρ.opens ∧ ρ.Matches w w₂' ∧ ρ.ty u a ∧ ρ.ty v b

theorem Covers.entering (h : Covers P p w₂) :
    Covers (fun w u v => P w u v ∨ StandsFor w₂ a b w u v) (p.deeper.entering (a, b)) w₂ := by
  intro x hx ρ w w₂' u v hw ho hM hu hv
  rcases List.mem_cons.1 hx with rfl | hx
  · exact .inr ⟨ρ, w₂', hw, ho, hM, hu, hv⟩
  · exact .inl (h x hx ρ w w₂' u v hw ho hM hu hv)

/-- Whatever avoids `P` is answered positively, if it is answered, by the comparisons at `p` from worlds above `w₂`. -/
def Answered (erased : Bool) (P : World → Ty → Ty → Prop) (p : Place) (levels n : Nat) (w₂ : World) : Prop :=
  ∀ (ρ : Corr) (w₁ w₂' : World) (a a' b b' : Ty) (c c' : Comparer) (w' : World) (answer : Bool), w₂ ≤ w₂' →
    ρ.opens → ρ.Matches w₁ w₂' → ρ.ty a a' → ρ.ty b b' → Conforms.Avoiding erased P w₁ a b → Vacant p c →
      isSubTypeWithin levels n a' b' c w₂' = .ok ((answer, c'), w') → answer = true

open Classical in
theorem related_asking {ρ : Corr} {S : World → Ty → Ty → Prop} (ho : ρ.opens) (hroom : p.level + levels ≤ Limits.unlimited.toNat)
    (hS : ∀ w a b, S w a b → Conforms.Avoiding erased P w a b) (h : Answered erased P p levels n ρ.base₂) :
    Related True (Comparer.vacant erased).place p ρ (asking S) (isSubTypeWithin levels n) := by
  refine ⟨ho, keeps_asking _, keeps_vacant n levels p hroom, fun σ hσ a a' b b' ha hb => ?_⟩
  rintro τ d c hτ ⟨hd, hc⟩ υ w₁ w₂ hυ hM
  have hle : ρ.base₂ ≤ w₂ := by
    have hbase : υ.base₂ = ρ.base₂ := (hσ.trans (hτ.trans hυ)).base₂
    exact hbase ▸ hM.le₂
  have hρυ := hτ.trans hυ
  have hanswer := h υ w₁ w₂ a a' b b' c
  show Agree True υ _ (.ok ((decide (S w₁ a b), d), w₁)) _
  match hr : isSubTypeWithin levels n a' b' c w₂, keeps_vacant n levels p hroom a' b' c w₂ hc with
  | .error _, _ => exact trivial
  | .ok ((answer, c'), w₂'), ⟨hc', hle'⟩ =>
    refine ⟨υ, le_rfl, hM.grow le_rfl hle', ?_, hd, hc'⟩
    by_cases hab : S w₁ a b
    · have htrue := hanswer c' w₂' answer hle ((hσ.trans hρυ).opens ho) hM (hρυ.ty ha) (hρυ.ty hb) (hS w₁ a b hab) hc hr
      exact .inl (by rw [htrue, decide_eq_true hab])
    · cases answer
      · exact .inl (decide_eq_false hab)
      · exact .inr ⟨trivial, decide_eq_false hab, rfl⟩

/-- A last step of a derivation is answered positively where the nested comparisons answer derivations positively. -/
theorem first_of_holds {ρ : Corr} {S : World → Ty → Ty → Prop} {a' b' : Ty} {c c' : Comparer} {w' : World}
    {answer : Bool} (ho : ρ.opens) (hM : ρ.Matches w₁ w₂) (ha : ρ.ty a a') (hb : ρ.ty b b') (hc : Vacant p c)
    (hroom : p.level + levels ≤ Limits.unlimited.toNat) (h : Answered p.options.erasedTypes P p levels n w₂)
    (hS : ∀ w a b, S w a b → Conforms.Avoiding p.options.erasedTypes P w a b)
    (hholds : Holds p.options.erasedTypes S w₁ a b)
    (hrun : first n (isSubTypeWithin levels n) a' b' c w₂ = .ok ((answer, c'), w')) : answer = true := by
  obtain ⟨fuel, c₁, w₁', hfirst⟩ := hholds
  let ρ' := ρ.rebase w₁ w₂
  have hM' : ρ'.Matches w₁ w₂ := hM.rebase
  have hrelated : Related True (Comparer.vacant p.options.erasedTypes).place p ρ' (asking S)
    (isSubTypeWithin levels n) := related_asking ho hroom hS h
  have ha : ρ'.ty a a' := ha
  have hb : ρ'.ty b b' := hb
  have hsim := sim_first (n := fuel) (m := n) (p := (Comparer.vacant _).place) (q := p) rfl (.inl trivial) hrelated ha
    hb
    ρ' (.vacant _) c le_rfl ⟨vacant_place _, hc⟩ ρ' w₁ w₂ le_rfl hM'
  rw [hfirst, hrun] at hsim
  obtain ⟨_, _, _, hanswer, _⟩ := hsim
  rcases hanswer with rfl | ⟨-, -, h⟩
  · rfl
  · exact h

/-- A derivation that avoids all that is pending is answered positively. The induction is on the allowance; a pair that
becomes pending is avoided from there on because a derivation can be cut short. -/
theorem answered_isSubTypeWithin (n : Nat) : ∀ {levels : Nat} {P : World → Ty → Ty → Prop} {p : Place} {w₂ : World},
    HasRoom p levels → p.bounds = .none → Covers P p w₂ → Answered p.options.erasedTypes P p levels n w₂ := by
  induction n with
  | zero => intro levels P p w₂ _ _ _ ρ w₁ w₂' a a' b b' c c' w' answer _ _ _ _ _ _ _ h; cases levels <;> cases h
  | succ n ih =>
    intro levels P p w₂ hroom hbounds hcovers ρ w₁ w₂' a a' b b' c c' w' answer hw ho hM ha hb hderived hc h
    have hcovers := hcovers.grow hw
    rcases isSubTypeWithin_cases h with ⟨habsent, h⟩ | ⟨-, -, h⟩ | ⟨-, -, hab, levels, n, rfl, hn, h⟩
    · have hpresent : a.present ∧ b.present := by cases hderived with
        | refl h => exact ⟨h, h⟩
        | step S ha hb => exact ⟨ha, hb⟩
      rw [hM.present ha, hM.present hb] at hpresent
      simp [hpresent] at habsent
    · cases h; rfl
    obtain rfl := Nat.succ.inj hn
    cases hderived with
    | refl => exact absurd ((hM.ty_inj ha hb).1 rfl) hab
    | step S hpa hpb hP hS hholds =>
      rcases framed_vacant hc hroom.level hbounds n a' b' with ⟨p', c₁, hopens, hc₁, hrun⟩ | ⟨-, hrefused, hrun⟩
      · obtain ⟨c₂, hfirst⟩ := (h ▸ hrun w₂').of_ok
        have hroom' := hroom.opens hopens
        have hbounds' := hopens.bounds_eq.trans hbounds
        cases hopens with
        | direct => exact first_of_holds ho hM ha hb hc₁ hroom'.level (ih hroom' hbounds' hcovers) hS hholds hfirst
        | monitored =>
          have hnested := ih hroom' hbounds' hcovers.entering
          have hcut := (Conforms.Avoiding.step S hpa hpb hP hS hholds).cut (Q := StandsFor w₂' a' b')
          rcases hcut with hderived | ⟨w, u, v, S', ⟨σ, w₃, hw₃, hoσ, hσ, hu, hv⟩, -, -, hS', hholds'⟩
          · have hself : StandsFor w₂' a' b' w₁ a b := ⟨ρ, w₂', le_rfl, ho, hM, ha, hb⟩
            cases hderived with
            | refl => exact absurd ((hM.ty_inj ha hb).1 rfl) hab
            | step _ _ _ hP' => exact absurd (.inr hself) hP'
          · -- back from the world of the last step to the one that the comparison runs in
            have hback : (ρ.symm.trans ρ).Matches w₃ w₂' := (hM.symm.trans hM).grow hw₃ le_rfl
            have hopens : (σ.trans (ρ.symm.trans ρ)).opens := ⟨hoσ, ho, ho⟩
            exact first_of_holds hopens (hσ.trans hback) ⟨a', hu, a, ha, ha⟩ ⟨b', hv, b, hb, hb⟩ hc₁ hroom'.level hnested hS'
              hholds' hfirst
      · exact absurd (hcovers (a', b') (hroom.pending_of_refused hrefused) ρ w₁ w₂' a b le_rfl ho hM ha hb) hP

end Complete

/-! ## Comparisons decide conformance -/

section Decides

variable {levels fuel : Nat} {c c' : Comparer} {w w' : World} {a b : Ty} {answer : Bool}

theorem vacant_of_atRest (h : c.AtRest) : Vacant c.place c := ⟨rfl, h.store⟩

theorem hasRoom_of_atRest (h : c.AtRest) (hlevels : levels ≤ Limits.unlimited.toNat) :
    HasRoom c.place levels := .of_idle h.idle hlevels

/-- What a comparison that starts at rest answers, as long as no more frames are open than it may have, says whether the
types that its own stand for, in another world, are in `Conforms`. -/
theorem conforms_iff_within {ρ : Corr} {v : World} {a' b' : Ty} (ho : ρ.opens) (hM : ρ.Matches w v) (ha : ρ.ty a a') (hb : ρ.ty b b')
    (hc : c.AtRest) (hlevels : levels ≤ Limits.unlimited.toNat)
    (hrun : isSubTypeWithin levels fuel a b c w = .ok ((answer, c'), w')) :
    answer = true ↔ Conforms c.options.erasedTypes v a' b' := by
  have hroom := hasRoom_of_atRest hc hlevels
  have hvacant := vacant_of_atRest hc
  have hnone : ∀ x ∈ c.place.pending, False := fun x hx => by
    have hx : x ∈ c.pending.openKeys := hx
    rw [hc.pending] at hx
    cases hx
  constructor
  · rintro rfl
    have hself : Alike ρ c.place c.place :=
      ⟨ho, rfl, rfl, rfl, hc.bounds, hc.bounds, List.forall₂_same.2 fun x hx => (hnone x hx).elim, rfl⟩
    have hrelated : Related False c.place c.place ρ (isSubTypeWithin levels fuel) (isSubTypeWithin levels fuel) :=
      related_isSubTypeWithin fuel hself hroom.level
    have hsim := hrelated.sim _ le_rfl ha hb _ c c le_rfl ⟨hvacant, hvacant⟩ _ w v le_rfl hM
    rw [hrun] at hsim
    match hr : isSubTypeWithin levels fuel a' b' c v with
    | .error _ =>
      rw [hr] at hsim
      exact hsim.elim
    | .ok ((answer, c''), v') =>
      rw [hr] at hsim
      obtain ⟨_, _, _, hanswer, _⟩ := hsim
      obtain rfl : true = answer := hanswer.resolve_right fun h => h.1
      exact conforms_of_isSubTypeWithin fuel hvacant hc.bounds hroom.level (hself.fits hM ha hb) hr
  · intro h
    have hcovers : Covers (fun _ _ _ => False) c.place w := fun x hx => (hnone x hx).elim
    exact answered_isSubTypeWithin fuel hroom hc.bounds hcovers ρ.symm v w a' a b' b c c' w' answer le_rfl ho hM.symm ha hb
      h.avoiding_nothing hvacant hrun

/-- What a comparison that starts at rest answers says whether the types that its own stand for, in another world, are
in `Conforms`. -/
theorem conforms_iff_of_run {ρ : Corr} {v : World} {a' b' : Ty} (ho : ρ.opens) (hM : ρ.Matches w v) (ha : ρ.ty a a') (hb : ρ.ty b b')
    (hc : c.AtRest) (hrun : isSubType fuel a b c w = .ok ((answer, c'), w')) :
    answer = true ↔ Conforms c.options.erasedTypes v a' b' :=
  conforms_iff_within ho hM ha hb hc (Nat.le_refl _) (run_within (uniform_apply a b) hc.level hrun)

/-- A comparison that starts at rest in a closed world decides conformance. -/
theorem decides (hw : w.Closed) (ha : w.Has a) (hb : w.Has b) (hc : c.AtRest)
    (hrun : isSubType fuel a b c w = .ok ((answer, c'), w')) :
    answer = true ↔ Conforms c.options.erasedTypes w a b :=
  conforms_iff_of_run trivial hw.identity_matches ⟨rfl, ha⟩ ⟨rfl, hb⟩ hc hrun

/-- **With nothing under inference comparisons decide conformance**, whatever the threshold: a comparison of two types
of a closed world that starts at rest and comes to an answer answers true exactly if the types are in `Conforms`. So
all comparers that erase alike give one answer. -/
theorem isSubType_iff_conforms (hw : w.Closed) (ha : w.Has a) (hb : w.Has b) (hc : c.AtRest)
    (hrun : isSubType fuel a b c w = .ok ((answer, c'), w')) :
    (answer = true ↔ Conforms c.options.erasedTypes w a b) ∧
      ∀ {fuel : Nat} {d d' : Comparer} {v : World} {answer' : Bool}, d.AtRest →
        d.options.erasedTypes = c.options.erasedTypes → isSubType fuel a b d w = .ok ((answer', d'), v) →
          answer' = answer := by
  have hdecides := decides hw ha hb hc hrun
  refine ⟨hdecides, fun {fuel d d' v answer'} hd herased hrun' => ?_⟩
  have hdecides' := decides hw ha hb hd hrun'
  rw [herased] at hdecides'
  rw [Bool.eq_iff_iff]
  exact hdecides'.trans hdecides.symm

theorem exists_of_map {α β : Type} {x : Except Halt α} {f : α → β} {b : β} (h : x.toOption.map f = some b) :
    ∃ a, x = .ok a ∧ f a = b := by
  cases x with
  | error e => cases h
  | ok a => exact ⟨a, rfl, Option.some.inj h⟩

theorem exists_of_answer {x : Except Halt ((Bool × Comparer) × World)} (h : x.toOption.map (·.1.1) = some answer) :
    ∃ c w, x = .ok ((answer, c), w) := by
  obtain ⟨⟨⟨_, c⟩, w⟩, hx, rfl⟩ := exists_of_map h
  exact ⟨c, w, hx⟩

theorem exists_of_isSome {x : Except Halt ((Bool × Comparer) × World)} (h : x.toOption.isSome) : ∃ r, x = .ok r := by
  match x with
  | .error _ => cases h
  | .ok r => exact ⟨r, rfl⟩

/-- Two abstract types below each other: the first one conforms to the second one and, whether the pairs that recur are
explored again or refused, not to `Int`. -/
theorem isSubType_iff_conforms_cyclic :
    let first := World.initial.types.intern (.named .noPrefix ⟨44⟩)
    let second := first.2.intern (.named .noPrefix ⟨45⟩)
    let below := second.2.intern (.bounds Builtin.nothing.type second.1)
    let below' := below.2.intern (.bounds Builtin.nothing.type first.1)
    let w₀ := { World.initial with types := below'.2 }
    let w₁ := { w₀ with decls := (w₀.decls.register { kind := .abstractType, name := "A", owner := .absent,
                                                      flags := { static := true }, info := below.1 }).2 }
    let w := { w₁ with decls := (w₁.decls.register { kind := .abstractType, name := "B", owner := .absent,
                                                     flags := { static := true }, info := below'.1 }).2 }
    let c : Comparer := { options := {}, constraint := ⟨{}, 0⟩, depth := { threshold := 0 },
                          pending := { bounds := .none } }
    let d : Comparer := { c with depth := { threshold := 50 } }
    Conforms false w first.1 second.1 ∧ ¬ Conforms false w first.1 Builtin.int.type ∧
      ((isSubType 60 first.1 Builtin.int.type d w).toOption.map (·.1.1)) = some false := by
  intro first second below below' w₀ w₁ w c d
  have hfirst : World.Built { World.initial with types := first.2 } :=
    .intern .initial _ (World.mentions_named (by decide) _)
  have hsecond : World.Built { World.initial with types := second.2 } :=
    .intern hfirst _ (World.mentions_named (by decide) _)
  have hbelow : World.Built { World.initial with types := below.2 } :=
    .intern hsecond _ (World.mentions_bounds (by decide) (by decide))
  have hbelow' : w₀.Built := .intern hbelow _ (World.mentions_bounds (by decide) (by decide))
  have hbuilt : w.Built := .register (.register hbelow' _ (by decide) (by intro _ ht; cases ht)) _
    (by decide) (by intro _ ht; cases ht)
  have hc : c.AtRest := ⟨rfl, rfl, rfl, rfl, rfl⟩
  have hd : d.AtRest := ⟨rfl, rfl, rfl, rfl, rfl⟩
  obtain ⟨c₁, v₁, hyes⟩ : ∃ c' w', isSubType 60 first.1 second.1 c w = .ok ((true, c'), w') :=
    exists_of_answer (by decide +kernel)
  obtain ⟨c₂, v₂, hno⟩ : ∃ c' w', isSubType 60 first.1 Builtin.int.type c w = .ok ((false, c'), w') :=
    exists_of_answer (by decide +kernel)
  have hagain : ∃ r, isSubType 60 first.1 Builtin.int.type d w = .ok r := exists_of_isSome (by decide +kernel)
  obtain ⟨⟨⟨answer, d'⟩, v₃⟩, hagain⟩ := hagain
  have hconforms := isSubType_iff_conforms hbuilt.closed (by decide) (by decide) hc hyes
  have hdiffers := isSubType_iff_conforms hbuilt.closed (by decide) (by decide) hc hno
  have hsame : answer = false := hdiffers.2 hd rfl hagain
  have hdiffers : ¬ Conforms false w first.1 Builtin.int.type := fun h => nomatch hdiffers.1.2 h
  refine ⟨hconforms.1.1 rfl, hdiffers, ?_⟩
  rw [hagain, hsame]
  rfl

end Decides

end CompareM

end Conformance
