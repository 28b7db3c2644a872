import Conformance.Proofs.Convergence
import Conformance.Proofs.Descents
import Conformance.Proofs.MemberMatching

/-!
# Matching in either order

Matching opens both types on the binders of the first one, and it takes the first one apart before it looks at the second.
So the two orders put different parameters in the place of each other, and what they compare are not the same types but
images of each other. `World.Tied.agree` goes down the results with a type on either side and what stands for the other one;
the answers agree where the parameters that are used face parameters with the same infos (`CompareM.matchesType_comm`).

They do not agree for all types. The bounds that are looked at are those of the first type, and renaming copies binders
inside of what it renames, which the comparison of handles can tell from the originals (`CompareM.matchesType_not_comm`).
-/

namespace Conformance

open CompareM

/-! ## Looking answers up -/

/-- The types are the same, or each conforms to the other. -/
def Same (erased : Bool) (w : World) (a b : Ty) : Prop :=
  a.present ∧ b.present ∧ (a = b ∨ Conforms erased w a b ∧ Conforms erased w b a)

/-- The types are the same as formals; between languages the root class and the top type are. -/
def Like (erased foreign : Bool) (w : World) (a b : Ty) : Prop := Same erased w a b ∨ foreign ∧ isTopPair a b

theorem Same.symm {erased : Bool} {w : World} {a b : Ty} (h : Same erased w a b) : Same erased w b a :=
  ⟨h.2.1, h.1, h.2.2.imp Eq.symm And.symm⟩

theorem isTopPair_comm (a b : Ty) : isTopPair a b = isTopPair b a := by
  simp only [isTopPair, Bool.or_comm, Bool.and_comm]

theorem Like.symm {erased foreign : Bool} {w : World} {a b : Ty} (h : Like erased foreign w a b) :
    Like erased foreign w b a :=
  h.imp Same.symm fun h => isTopPair_comm a b ▸ h

section Corresponding

variable {erased foreign : Bool} {ρ : Corr} {v v' : World} {a a' b b' : Ty} (hM : ρ.Matches v v')
include hM

theorem Same.carry (ha : ρ.ty a a') (hb : ρ.ty b b') (h : Same erased v a b) : Same erased v' a' b' :=
  ⟨hM.present ha ▸ h.1, hM.present hb ▸ h.2.1, h.2.2.imp (hM.ty_inj ha hb).1
    fun h => ⟨h.1.transport hM ha hb, h.2.transport hM hb ha⟩⟩

theorem Like.carry (ha : ρ.ty a a') (hb : ρ.ty b b') (h : Like erased foreign v a b) : Like erased foreign v' a' b' := by
  refine h.imp (.carry hM ha hb) fun h => ⟨h.1, ?_⟩
  have hclass {x x' : Ty} (hx : ρ.ty x x') (c : Builtin) : x = c.type ↔ x' = c.type :=
    hM.eq_iff hx (by cases c <;> decide)
  simpa only [isTopPair, hclass ha, hclass hb] using h.2

theorem Like.carry_list {l l' k k' : List Ty} (hl : List.Forall₂ ρ.ty l l') (hk : List.Forall₂ ρ.ty k k')
    (h : List.Forall₂ (Like erased foreign v) l k) : List.Forall₂ (Like erased foreign v') l' k' := by
  induction h generalizing l' k' with
  | nil =>
    cases hl
    cases hk
    exact .nil
  | cons h _ ih =>
    cases hl with | cons ha hl =>
    cases hk with | cons hb hk => exact .cons (h.carry hM ha hb) (ih hl hk)

end Corresponding

namespace CompareM

variable {erased simple : Bool} {v : World} {c : Comparer} {t u : Ty}

open Classical in
theorem same_asking (a b : Ty) (c : Comparer) (w : World) :
    same (asking (Conforms erased)) a b c w = .ok ((decide (Same erased w a b), c), w) := by
  have hasking (x y : Ty) : asking (Conforms erased) x y c w = .ok ((decide (Conforms erased w x y), c), w) := rfl
  have hboth : (asking (Conforms erased) a b <&&> asking (Conforms erased) b a) c w =
      .ok ((decide (Conforms erased w a b ∧ Conforms erased w b a), c), w) := by
    refine (run_bind (hasking a b)).trans ?_
    by_cases h : Conforms erased w a b
    · rw [decide_eq_true h]
      exact (hasking b a).trans (by simp [h])
    · rw [decide_eq_false h]
      simp [h]
      rfl
  unfold same
  split_ifs with hpresent heq
  · have h : ¬ Same erased w a b := fun h => by simp [h.1, h.2.1] at hpresent
    rw [decide_eq_false h]
    rfl
  · have h : Same erased w a b := by
      simp only [Bool.or_eq_true, Bool.not_eq_true', not_or, Bool.not_eq_false] at hpresent
      exact ⟨hpresent.1, hpresent.2, .inl heq⟩
    rw [decide_eq_true h]
    rfl
  · have h : Same erased w a b ↔ Conforms erased w a b ∧ Conforms erased w b a := by
      simp only [Bool.or_eq_true, Bool.not_eq_true', not_or, Bool.not_eq_false] at hpresent
      exact ⟨fun h => h.2.2.resolve_left heq, fun h => ⟨hpresent.1, hpresent.2, .inr h⟩⟩
    rw [atomically_ok hboth]
    simp only [h, ite_self]

open Classical in
theorem sameParams_asking (l k : List Ty) (f g : Bool) (c : Comparer) (w : World) :
    sameParams (asking (Conforms erased)) l k f g c w =
      .ok ((decide (List.Forall₂ (Like erased (f || g) w) l k), c), w) := by
  have hone (a b : Ty) : (same (asking (Conforms erased)) a b <||> return (f || g) && isTopPair a b : CompareM Bool) c w =
      .ok ((decide (Like erased (f || g) w a b), c), w) := by
    refine (run_bind (same_asking a b c w)).trans ?_
    by_cases h : Same erased w a b
    · rw [decide_eq_true h, decide_eq_true (p := Like erased (f || g) w a b) (.inl h)]
      rfl
    · rw [decide_eq_false h]
      simp [Like, h]
      rfl
  unfold sameParams
  split_ifs with hlength
  · rw [decide_eq_false fun h => hlength h.length_eq]
    rfl
  · rw [not_not] at hlength
    induction l generalizing k with
    | nil =>
      obtain rfl : k = [] := List.length_eq_zero_iff.1 hlength.symm
      simp
      rfl
    | cons a l ih =>
      obtain _ | ⟨b, k⟩ := k
      · cases hlength
      · refine (run_bind (hone a b)).trans ?_
        by_cases h : Like erased (f || g) w a b
        · rw [decide_eq_true h]
          refine (ih k (Nat.succ.inj hlength)).trans ?_
          simp [h]
        · rw [decide_eq_false h]
          simp [h]
          rfl

end CompareM

/-! ## Types without binders -/

/-- Neither the shape of a method, a universal type nor a type computed at each use. -/
def Shape.isOther : Shape → Bool
  | .method _ | .universal _ | .byName _ => false
  | _ => true

namespace World

/-- `t` is `s`, which is computed at each use any number of times. -/
inductive Strips (w : World) : Ty → Ty → Prop
  | rest {t : Ty} {d : Shape} (shape : w.shape? t = some d) (other : d.isOther) : Strips w t t
  | byName {t r s : Ty} (shape : w.shape? t = some (.byName r)) (result : Strips w r s) : Strips w t s

theorem Simple.strips {w : World} {t : Ty} (h : w.Simple t) : ∃ s, w.Strips t s := by
  induction h with
  | @other t d shape method universal byName =>
    refine ⟨t, .rest shape ?_⟩
    cases d with
    | method b => exact absurd rfl (method b)
    | universal b => exact absurd rfl (universal b)
    | byName r => exact absurd rfl (byName r)
    | _ => rfl
  | byName shape _ ih =>
    obtain ⟨s, hs⟩ := ih
    exact ⟨s, .byName shape hs⟩

theorem Strips.not_binder {w : World} {t s : Ty} (h : w.Strips t s) (k : BinderKind) (b : BinderId) :
    w.shape? t ≠ some (k.shape b) := by
  intro hk
  cases h with
  | rest shape other =>
    cases hk.symm.trans shape
    cases k <;> cases other
  | byName shape => cases k <;> cases hk.symm.trans shape

theorem Strips.later {w v : World} {t s : Ty} (h : w.Strips t s) (hv : w ≤ v) : v.Strips t s := by
  induction h with
  | rest shape other => exact .rest (hv.shape shape) other
  | byName shape _ ih => exact .byName (hv.shape shape) ih

theorem Strips.has {w : World} {t s : Ty} (h : w.Strips t s) : ∃ d, w.shape? t = some d := by
  cases h with
  | rest shape | byName shape => exact ⟨_, shape⟩

end World

namespace CompareM

section Steps

variable {sub : Ty → Ty → CompareM Bool} {simple : Bool} {n : Nat} {w : World} {c : Comparer} {t u r : Ty} {b b' : BinderId}
  {d d' : Shape}

theorem exists_succ_of_matchesWith {r : (Bool × Comparer) × World} (h : matchesWith sub simple n t u c w = .ok r) :
    ∃ k, n = k + 1 := by
  cases n with
  | zero => cases h
  | succ n => exact ⟨n, rfl⟩

theorem matchesWith_others (ht : w.shape? t = some d) (hd : d.isOther) (hu : w.shape? u = some d') (hd' : d'.isOther) :
    matchesWith sub simple (n + 1) t u c w = (if simple then return true else same sub t u : CompareM Bool) c w := by
  rw [matchesWith, run_world_bind, World.shape_of_shape? ht, World.shape_of_shape? hu]
  cases d <;> first | exact absurd hd Bool.false_ne_true | (cases d' <;> first | rfl | exact absurd hd' Bool.false_ne_true)

/-- On the left a type computed at each use is opened, unless there is a method on the right. -/
theorem matchesWith_byName_left (ht : w.shape? t = some (.byName r)) (hu : w.shape? u = some d) (hd : ∀ b, d ≠ .method b) :
    matchesWith sub simple (n + 1) t u c w = matchesWith sub simple n r u c w := by
  rw [matchesWith, run_world_bind, World.shape_of_shape? ht, World.shape_of_shape? hu]
  cases d <;> first | rfl | exact absurd rfl (hd _)

theorem matchesWith_byName_right (ht : w.shape? t = some d) (hd : d.isOther) (hu : w.shape? u = some (.byName r)) :
    matchesWith sub simple (n + 1) t u c w = matchesWith sub simple n t r c w := by
  rw [matchesWith, run_world_bind, World.shape_of_shape? ht, World.shape_of_shape? hu]
  cases d <;> first | rfl | exact absurd hd Bool.false_ne_true

theorem matchesWith_method_byName {m : Binder} (ht : w.shape? t = some (.method b)) (hb : w.binder? b = some m)
    (hu : w.shape? u = some (.byName r)) : matchesWith sub simple (n + 1) t u c w =
      (if m.arity = 0 then matchesWith sub simple n m.result r else return false : CompareM Bool) c w := by
  rw [matchesWith, run_world_bind, World.shape_of_shape? ht, World.shape_of_shape? hu]
  simp only [hb]

theorem matchesWith_byName_method {m : Binder} (ht : w.shape? t = some (.byName r)) (hu : w.shape? u = some (.method b))
    (hb : w.binder? b = some m) : matchesWith sub simple (n + 1) t u c w =
      (if m.arity = 0 then matchesWith sub simple n r m.result else return false : CompareM Bool) c w := by
  rw [matchesWith, run_world_bind, World.shape_of_shape? ht, World.shape_of_shape? hu]
  simp only [hb]

/-- A method matches methods and types computed at each use only, a universal type matches universal types only. -/
theorem matchesWith_binder_left {k : BinderKind} (ht : w.shape? t = some (k.shape b)) (hu : w.shape? u = some d)
    (hd : ∀ l : BinderKind, l.bindsValues = k.bindsValues → ∀ b, d ≠ l.shape b) (hbyName : k.bindsValues → ∀ r, d ≠ .byName r) :
    matchesWith sub simple (n + 1) t u c w = .ok ((false, c), w) := by
  rw [matchesWith, run_world_bind, World.shape_of_shape? ht, World.shape_of_shape? hu]
  cases k with
  | method f =>
    cases d with
    | method b => exact absurd rfl (hd (.method f) rfl b)
    | byName r => exact absurd rfl (hbyName rfl r)
    | _ => rfl
  | universal =>
    cases d with
    | universal b => exact absurd rfl (hd .universal rfl b)
    | _ => rfl

/-- A method and a universal type do not match. -/
theorem matchesWith_apart {k l : BinderKind} {answer : Bool} {c' : Comparer} {w' : World} (ht : w.shape? t = some (k.shape b))
    (hu : w.shape? u = some (l.shape b')) (hkl : k.bindsValues ≠ l.bindsValues)
    (hrun : matchesWith sub simple n t u c w = .ok ((answer, c'), w')) : answer = false := by
  obtain ⟨n, rfl⟩ := exists_succ_of_matchesWith hrun
  have hl (f : BinderKind) (hf : f.bindsValues = k.bindsValues) (a : BinderId) : l.shape b' ≠ f.shape a := by
    intro heq
    refine hkl (hf.symm.trans ?_)
    cases l <;> cases f <;> first | rfl | cases heq
  rw [matchesWith_binder_left ht hu hl fun _ r hr => by cases l <;> cases hr] at hrun
  cases hrun
  rfl

theorem matchesWith_binder_right {k : BinderKind} (ht : w.shape? t = some d) (hd : d.isOther)
    (hu : w.shape? u = some (k.shape b)) : matchesWith sub simple (n + 1) t u c w = .ok ((false, c), w) := by
  rw [matchesWith, run_world_bind, World.shape_of_shape? ht, World.shape_of_shape? hu]
  cases k <;> cases d <;> first | rfl | exact absurd hd Bool.false_ne_true

/-- Without binders matching compares what is computed, if it compares anything. -/
theorem matchesWith_strips {erased answer : Bool} {c' : Comparer} {w' : World} {t₀ u₀ : Ty} (ht : w.Strips t t₀)
    (hu : w.Strips u u₀) (hrun : matchesWith (asking (Conforms erased)) simple n t u c w = .ok ((answer, c'), w')) :
    answer = true ↔ simple = true ∨ Same erased w t₀ u₀ := by
  induction ht generalizing n with
  | byName ht _ ih =>
    obtain ⟨n, rfl⟩ := exists_succ_of_matchesWith hrun
    obtain ⟨e, he⟩ := hu.has
    rw [matchesWith_byName_left ht he fun b hb => hu.not_binder (.method {}) b (he.trans (congrArg some hb))] at hrun
    exact ih hrun
  | rest ht hd =>
    induction hu generalizing n with
    | byName hu _ ih =>
      obtain ⟨n, rfl⟩ := exists_succ_of_matchesWith hrun
      rw [matchesWith_byName_right ht hd hu] at hrun
      exact ih hrun
    | rest hu hd' =>
      obtain ⟨n, rfl⟩ := exists_succ_of_matchesWith hrun
      rw [matchesWith_others ht hd hu hd'] at hrun
      split_ifs at hrun with hsimple
      · cases hrun
        simp [hsimple]
      · rw [same_asking] at hrun
        cases hrun
        simp [hsimple]

/-- What has no binders does not match a universal type, nor the other way round. -/
theorem matchesWith_strips_universal {answer : Bool} {c' : Comparer} {w' : World} {t₀ : Ty} (ht : w.Strips t t₀)
    (hu : w.shape? u = some (.universal b)) (hrun : matchesWith sub simple n t u c w = .ok ((answer, c'), w')) :
    answer = false := by
  induction ht generalizing n with
  | byName ht _ ih =>
    obtain ⟨n, rfl⟩ := exists_succ_of_matchesWith hrun
    rw [matchesWith_byName_left ht hu (by simp)] at hrun
    exact ih hrun
  | rest ht hd =>
    obtain ⟨n, rfl⟩ := exists_succ_of_matchesWith hrun
    rw [matchesWith_binder_right (k := .universal) ht hd hu] at hrun
    cases hrun
    rfl

end Steps

end CompareM

/-! ## Images in either order -/

namespace World

variable {w v v' : World} {role : BinderId → Role} {R : BinderId → BinderId → Prop} {t u t₀ : Ty}

namespace Image

theorem other (hv : w ≤ v) (hv' : w ≤ v') {d : Shape} (ht : w.shape? t = some d) (hd : d.isOther)
    (h : Image (w.still role) v v' R t u) : ∃ e, v'.shape? u = some e ∧ e.isOther := by
  have hother {d' : Shape} (hd' : v.shape? t = some d') : d'.isOther := Option.some.inj ((hv.shape ht).symm.trans hd') ▸ hd
  cases h with
  | same => exact ⟨d, hv'.shape ht, hd⟩
  | @param _ _ _ _ _ l _ _ _ _ _ _ shape₂ => exact ⟨_, shape₂, by cases l <;> rfl⟩
  | around₁ hmk shape₁ shape₂ =>
    have hmk' := hother shape₁
    exact ⟨_, shape₂, by cases hmk <;> first | rfl | cases hmk'⟩
  | around₂ hmk _ shape₂ => exact ⟨_, shape₂, by cases hmk <;> rfl⟩
  | joint hnode _ shape₂ => exact ⟨_, shape₂, by cases hnode <;> rfl⟩

/-- What is computed at each use has images that are. -/
theorem byName (hw : w.Closed) (hv : w ≤ v) (hv' : w ≤ v') (ht : w.shape? t = some (.byName t₀))
    (h : Image (w.still role) v v' R t u) : ∃ u₀, v'.shape? u = some (.byName u₀) ∧ Image (w.still role) v v' R t₀ u₀ := by
  have hbyName {d : Shape} (hd : v.shape? t = some d) : .byName t₀ = d := Option.some.inj ((hv.shape ht).symm.trans hd)
  cases h with
  | same still => exact ⟨t₀, hv'.shape ht, .same (still.child hw (by simp [children, shape_of_shape? ht]))⟩
  | @param _ _ _ _ k _ _ _ _ _ _ shape₁ => cases k <;> cases hbyName shape₁
  | around₁ hmk shape₁ shape₂ _ child =>
    have hmk' := hbyName shape₁
    cases hmk with
    | byName =>
      cases hmk'
      exact ⟨_, shape₂, child⟩
    | _ => cases hmk'
  | around₂ hmk shape₁ =>
    have hmk' := hbyName shape₁
    cases hmk <;> cases hmk'
  | joint hnode shape₁ =>
    have hnode' := hbyName shape₁
    cases hnode <;> cases hnode'

theorem strips (hw : w.Closed) (hv : w ≤ v) (hv' : w ≤ v') (ht : w.Strips t t₀) (h : Image (w.still role) v v' R t u) :
    ∃ u₀, v'.Strips u u₀ ∧ Image (w.still role) v v' R t₀ u₀ := by
  induction ht generalizing u with
  | rest shape other =>
    obtain ⟨e, he, hother⟩ := h.other hv hv' shape other
    exact ⟨u, .rest he hother, h⟩
  | byName shape _ ih =>
    obtain ⟨r, hr, himage⟩ := h.byName hw hv hv' shape
    obtain ⟨u₀, hu₀, h₀⟩ := ih himage
    exact ⟨u₀, .byName hr hu₀, h₀⟩

end Image

/-! ## One type without binders -/

theorem Paired.swap {s : Bool} (h : w.Paired role s R) : w.Paired role (!s) (flip R) where
  left hpq := h.right hpq
  right hpq := by rw [Bool.not_not]; exact h.left hpq
  inj h₁ h₂ := (h.inj h₁ h₂).symm
  alike hpq := by
    obtain ⟨d, e, hd, he, hkind, hinfos⟩ := h.alike hpq
    exact ⟨e, d, he, hd, hkind.symm, hinfos.flip.imp fun _ _ h => h.swap⟩

theorem Paired.off_left {s : Bool} {p q : BinderId} (h : w.Paired role s R) (hpq : R p q) : w.Off role p :=
  .inl (by rw [h.left hpq]; rintro ⟨⟩)

/-- Images on either side are the same as each other or not, on whichever side they are taken. -/
theorem Paired.same_iff {erased s : Bool} {x y X Y : Ty} (h : w.Paired role s R) (hw : w.Calm role) (hv : w ≤ v)
    (hv' : w ≤ v') (hx : Image (w.still role) w v' R x X) (hy : Image (w.still role) w v (flip R) y Y) :
    Same erased v x Y ↔ Same erased v' y X := by
  have hM := h.matches hw hv hv'
  have kx : (images w role v v' R).ty x X := (hx.later_left hv).sealed
  have ky : (images w role v v' R).ty Y y := (hy.swap.later hv').sealed
  exact ⟨fun h => (h.carry hM kx ky).symm, fun h => h.symm.carry hM.symm kx ky⟩

/-- Down its results the type goes through methods and universal types to a type without binders; what is computed at each
use is nothing but such a type. -/
inductive Direct (w : World) : Ty → Prop
  | simple {t : Ty} (simple : w.Simple t) : Direct w t
  | binder {t : Ty} {b : BinderId} {d : Binder} (shape : w.shape? t = some (d.kind.shape b)) (binder : w.binder? b = some d)
    (result : Direct w d.result) : Direct w t

/-- What stands for the type of a binder is the type of one of the same kind. -/
theorem Stands.binder {s : Bool} {x : Ty} {p : BinderId} {d : Binder} (h : Stands w role s v R x u)
    (hx : w.shape? x = some (d.kind.shape p)) (hp : w.binder? p = some d) :
    ∃ q e, v.shape? u = some (e.kind.shape q) ∧ v.binder? q = some e ∧ e.kind = d.kind ∧ e.names = d.names := by
  obtain ⟨A, -, -, hd⟩ := h.descends
  cases hd with
  | plain image =>
    obtain ⟨-, rfl⟩ := image.of_binder le_rfl hx
    exact ⟨p, d, h.le.shape hx, h.le.binder hp, rfl, rfl⟩
  | @binder _ _ _ _ p' q d' e shape₁ shape₂ binder₁ binder₂ _ _ _ _ kind names =>
    cases BinderKind.shape_inj (Option.some.inj (hx.symm.trans shape₁))
    cases hp.symm.trans binder₁
    exact ⟨q, e, shape₂, binder₂, kind, names⟩

variable {erased simple : Bool} {s : Bool} {x y y₀ X Y : Ty} {n m : Nat} {c c' d d' : Comparer} {z z' : World}
  {answer answer' : Bool}

/-- **A type that has no binders matches another one in either order or in none.** -/
theorem agree_strips (hw : w.Calm role) (hR : w.Paired role s R) (hx : w.Direct x) (hy : w.Strips y y₀) (hv : w ≤ v)
    (hX : Stands w role s v' R x X) (hY : Image (w.still role) w v (flip R) y Y)
    (hrun : matchesWith (asking (Conforms erased)) simple n x Y c v = .ok ((answer, c'), z))
    (hrun' : matchesWith (asking (Conforms erased)) simple m y X d v' = .ok ((answer', d'), z')) : answer = answer' := by
  have hcl := hw.built.closed
  have hv' := hX.le
  induction hx generalizing y y₀ X Y n m with
  | simple hsimple =>
    obtain ⟨x₀, hx₀⟩ := hsimple.strips
    obtain ⟨X₀, hX₀, kx⟩ := (hX.image hx₀.not_binder).strips hcl le_rfl hv' hx₀
    obtain ⟨Y₀, hY₀, ky⟩ := hY.strips hcl le_rfl hv hy
    rw [Bool.eq_iff_iff, matchesWith_strips (hx₀.later hv) hY₀ hrun, matchesWith_strips (hy.later hv') hX₀ hrun',
      hR.same_iff hw hv hv' kx ky]
  | @binder x b f shape binder result ih =>
    obtain ⟨q, e, hX', he, hkind, hnames⟩ := hX.binder shape binder
    cases hy with
    | rest hy hother =>
      obtain ⟨g, hg, hother'⟩ := hY.other le_rfl hv hy hother
      obtain ⟨n, rfl⟩ := exists_succ_of_matchesWith hrun
      obtain ⟨m, rfl⟩ := exists_succ_of_matchesWith hrun'
      rw [matchesWith_binder_left (hv.shape shape) hg (fun l _ b hb => by subst hb; cases l <;> cases hother')
        fun _ r hr => by subst hr; cases hother'] at hrun
      rw [matchesWith_binder_right (hv'.shape hy) hother hX'] at hrun'
      cases hrun
      cases hrun'
      rfl
    | @byName _ r _ hy hr =>
      obtain ⟨r', hY', kr⟩ := hY.byName hcl le_rfl hv hy
      obtain ⟨n, rfl⟩ := exists_succ_of_matchesWith hrun
      cases hmethod : f.kind with
      | universal =>
        rw [hmethod] at shape hkind
        rw [hkind] at hX'
        rw [matchesWith_binder_left (hv.shape shape) hY' (fun l hl b => by cases l <;> simp [BinderKind.shape] at hl ⊢)
          (by simp [BinderKind.bindsValues])] at hrun
        cases hrun
        exact (matchesWith_strips_universal (.byName (hv'.shape hy) (hr.later hv')) hX' hrun').symm
      | method flags =>
        obtain ⟨m, rfl⟩ := exists_succ_of_matchesWith hrun'
        have harity : e.arity = f.arity := congrArg List.length hnames
        rw [matchesWith_method_byName (by rw [hv.shape shape, hmethod]; rfl) (hv.binder binder) hY'] at hrun
        rw [matchesWith_byName_method (hv'.shape hy) (by rw [hX', hkind, hmethod]; rfl) he, harity] at hrun'
        split_ifs at hrun hrun' with hnullary
        · obtain ⟨q', e', hX'', he', -, -, hresult⟩ := hX.nullary shape binder hcl (List.length_eq_zero_iff.1 hnullary)
          cases BinderKind.shape_inj (Option.some.inj (hX'.symm.trans hX''))
          cases he.symm.trans he'
          exact ih hr hresult kr hrun hrun'
        · cases hrun
          cases hrun'
          rfl

/-! ## Two types with binders -/

/-- The pairs of types that come to face each other down the two results, with the binders that `R` has paired by then.
They stay as they are (`self`), are not the types of two binders that bind alike (`apart`), are told apart by what stays as
it is (`unlike`, `uneven`), or they are the types of binders that face each other; the infos of these are images of each
other if the parameters are used. -/
inductive Tied (erased : Bool) (w : World) (role : BinderId → Role) : (BinderId → BinderId → Prop) → Ty → Ty → Prop
  | self {R : BinderId → BinderId → Prop} {x : Ty} (still : w.Still role x)
    (own : ∀ (k : BinderKind) b, w.shape? x = some (k.shape b) → role b = .elsewhere) : Tied erased w role R x x
  | apart {R : BinderId → BinderId → Prop} {x y : Ty} (apart : ∀ (k l : BinderKind) p q, w.shape? x = some (k.shape p) →
      w.shape? y = some (l.shape q) → k.bindsValues ≠ l.bindsValues) : Tied erased w role R x y
  | unlike {R : BinderId → BinderId → Prop} {x y : Ty} {p q : BinderId} {d e : Binder}
    (shape₁ : w.shape? x = some (d.kind.shape p)) (shape₂ : w.shape? y = some (e.kind.shape q))
    (binder₁ : w.binder? p = some d) (binder₂ : w.binder? q = some e) (values₁ : d.kind.bindsValues)
    (values₂ : e.kind.bindsValues) (mine₁ : role p ≠ .elsewhere) (mine₂ : role q ≠ .elsewhere)
    (unlike : d.flags.implicitArgs ≠ e.flags.implicitArgs ∨ ¬ List.Forall₂ (fun i j => w.Still role i → w.Still role j →
      Like erased (d.flags.foreign || e.flags.foreign) w i j) d.infos e.infos) : Tied erased w role R x y
  | uneven {R : BinderId → BinderId → Prop} {x y : Ty} {p q : BinderId} {d e : Binder}
    (shape₁ : w.shape? x = some (d.kind.shape p)) (shape₂ : w.shape? y = some (e.kind.shape q))
    (binder₁ : w.binder? p = some d) (binder₂ : w.binder? q = some e) (types₁ : d.kind.bindsValues = false)
    (types₂ : e.kind.bindsValues = false) (arity : d.arity ≠ e.arity) : Tied erased w role R x y
  | facing {R : BinderId → BinderId → Prop} {x y : Ty} {p q : BinderId} {d e : Binder}
    (shape₁ : w.shape? x = some (d.kind.shape p)) (shape₂ : w.shape? y = some (e.kind.shape q))
    (binder₁ : w.binder? p = some d) (binder₂ : w.binder? q = some e) (faces : w.Faces role false p q)
    (alike : role p = .used false → List.Forall₂ (Image (w.sealed role) w w (bind role R p q)) d.infos e.infos)
    (result : Tied erased w role (bind role R p q) d.result e.result) : Tied erased w role R x y

theorem Faces.swap {p q : BinderId} (h : w.Faces role s p q) : w.Faces role (!s) q p where
  roles := h.roles.imp And.symm fun h => ⟨h.2, by rw [Bool.not_not]; exact h.1⟩
  kinds := by
    obtain ⟨k, l, hk, hl, hkl⟩ := h.kinds
    exact ⟨l, k, hl, hk, hkl.symm⟩

theorem Faces.used {p q : BinderId} (h : w.Faces role s p q) : role p = .used s ↔ role q = .used !s := by
  rcases h.roles with ⟨hp, hq⟩ | ⟨hp, hq⟩ <;> simp [hp, hq]

theorem Faces.alike {p q : BinderId} {f g : Binder} (h : w.Faces role s p q) (hp : w.binder? p = some f)
    (hq : w.binder? q = some g) : g.kind.bindsValues = f.kind.bindsValues := by
  obtain ⟨k, l, hk, hl, hkl⟩ := h.kinds
  rw [binderKind?_of_binder? hp] at hk
  rw [binderKind?_of_binder? hq] at hl
  cases hk
  cases hl
  exact hkl

theorem Faces.flip_bind {p q : BinderId} (h : w.Faces role s p q) : flip (bind role R p q) = bind role (flip R) q p := by
  have hused : (∃ s, role p = .used s) ↔ ∃ s, role q = .used s := by
    rcases h.roles with ⟨hp, hq⟩ | ⟨hp, hq⟩
    · simp [hp, hq]
    · exact iff_of_true ⟨_, hp⟩ ⟨_, hq⟩
  funext a b
  exact propext (or_congr_right (and_congr hused and_comm))

/-- Binders that face each other and have not been met before are paired off. -/
theorem Paired.bind {p q : BinderId} {f g : Binder} (h : w.Paired role s R) (hface : w.Faces role s p q)
    (hf : w.binder? p = some f) (hg : w.binder? q = some g) (hp : role p = .used s → ∀ b, ¬ R p b)
    (hq : role q = .used (!s) → ∀ a, ¬ R a q)
    (halike : role p = .used s → List.Forall₂ (Image (w.sealed role) w w (World.bind role R p q)) f.infos g.infos) :
    w.Paired role s (World.bind role R p q) := by
  rcases hface.roles with ⟨hidle, -⟩ | ⟨hused₁, hused₂⟩
  · rwa [bind_of_idle fun s h => by rw [hidle] at h; cases h]
  · replace hp := hp hused₁
    replace hq := hq hused₂
    refine ⟨?_, ?_, ?_, ?_⟩
    · rintro a b (hab | ⟨-, rfl, -⟩)
      exacts [h.left hab, hused₁]
    · rintro a b (hab | ⟨-, -, rfl⟩)
      exacts [h.right hab, hused₂]
    · rintro a b a' b' (hab | ⟨-, rfl, rfl⟩) (hab' | ⟨-, rfl, rfl⟩)
      · exact h.inj hab hab'
      · exact iff_of_false (fun heq => hp _ (heq ▸ hab)) fun heq => hq _ (heq ▸ hab)
      · exact iff_of_false (fun heq => hp _ (heq ▸ hab')) fun heq => hq _ (heq ▸ hab')
      · exact iff_of_true rfl rfl
    · rintro a b (hab | ⟨-, rfl, rfl⟩)
      · obtain ⟨f', g', hf', hg', hkind, hinfos⟩ := h.alike hab
        exact ⟨f', g', hf', hg', hkind, hinfos.imp fun _ _ h => h.imp id id fun _ _ => .inl⟩
      · exact ⟨f, g, hf, hg, hface.alike hf hg, halike hused₁⟩

/-- Formals on either side agree or not, on whichever side the images are taken. -/
theorem Paired.like_iff {foreign : Bool} {l l' k k' : List Ty} (h : w.Paired role s R) (hw : w.Calm role) (hv : w ≤ v)
    (hv' : w ≤ v') (hl : List.Forall₂ (Image (w.still role) w v' R) l l') (hk : List.Forall₂ (Image (w.still role) w v (flip R)) k k') :
    List.Forall₂ (Like erased foreign v) l k' ↔ List.Forall₂ (Like erased foreign v') k l' := by
  have hM := h.matches hw hv hv'
  have kl : List.Forall₂ (images w role v v' R).ty l l' := hl.imp fun _ _ h => (h.later_left hv).sealed
  have kk : List.Forall₂ (images w role v v' R).ty k' k := hk.flip.imp fun _ _ h => (h.swap.later hv').sealed
  exact ⟨fun h => (Like.carry_list hM kl kk h).flip.imp fun _ _ => .symm,
    fun h => Like.carry_list hM.symm kl.flip kk.flip (h.flip.imp fun _ _ => .symm)⟩

/-- Renaming leaves in a list of images what stays as it is. -/
theorem Image.still_list (hw : w.Closed) (hleft : ∀ p q, R p q → w.Off role p) {old new : BinderId} (hold : w.Off role old)
    {ts us rs : List Ty} : ∀ {v v' : World}, w ≤ v → List.Forall₂ (Image (w.still role) w v R) ts us →
      us.mapM (Ty.substBinder n old new) v = .ok (rs, v') → List.Forall₂ (fun t r => w.Still role t → r = t) ts rs := by
  induction ts generalizing us rs with
  | nil =>
    rintro v v' - ⟨⟩ hrun
    cases hrun
    exact .nil
  | cons t ts ih =>
    rintro v v' hv (_ | ⟨h, hs⟩) hrun
    rw [List.mapM_cons] at hrun
    obtain ⟨r, v₁, hr, hrun⟩ := bind_ok hrun
    obtain ⟨rs', v₂, hrs, hrun⟩ := bind_ok hrun
    cases hrun
    have hle : v ≤ v₁ := (grows_substBinder n old new _).le_of_ok hr
    refine .cons (fun hstill => ?_) (ih (hv.trans hle) (hs.imp fun _ _ h => h.later hle) hrs)
    obtain rfl := h.swap.of_still (Still.stays hw) hv le_rfl (fun {p q} hpq => hleft q p hpq) hstill
    cases substBinder_same n ((hstill.clear hw hold).later hv) hr
    rfl

/-- Formals that stay as they are do so in what stands for a method, when the parameters of another binder are put for
those of the method. -/
theorem Stands.still_formals {p q z : BinderId} {f e : Binder} {formals : List Ty} (hw : w.Closed)
    (h : Stands w role s v R x u) (hx : w.shape? x = some (f.kind.shape p)) (hp : w.binder? p = some f)
    (hu : v.shape? u = some (e.kind.shape q)) (he : v.binder? q = some e) (hmine : role p ≠ .elsewhere)
    (hleft : ∀ a b, R a b → w.Off role a) (hrun : e.infos.mapM (Ty.substBinder n q z) v = .ok (formals, v')) :
    List.Forall₂ (fun i j => w.Still role i → j = i) f.infos formals := by
  obtain ⟨A, -, -, hd⟩ := h.descends
  cases hd with
  | plain image =>
    obtain ⟨hstill, rfl⟩ := image.of_binder le_rfl hx
    cases BinderKind.shape_inj (Option.some.inj ((h.le.shape hx).symm.trans hu))
    cases (h.le.binder hp).symm.trans he
    refine Image.still_list hw hleft (.inl hmine) h.le (List.forall₂_same.2 fun i hi => ?_) hrun
    exact .same ((hstill.binder hw hx hp).2.1 i hi)
  | @binder _ _ _ _ p' q' f' e' shape₁ shape₂ binder₁ binder₂ mine copy _ _ _ _ infos =>
    cases BinderKind.shape_inj (Option.some.inj (hx.symm.trans shape₁))
    cases hp.symm.trans binder₁
    cases BinderKind.shape_inj (Option.some.inj (hu.symm.trans shape₂))
    cases he.symm.trans binder₂
    refine Image.still_list hw ?_ (Descends.off mine copy) h.le infos hrun
    rintro a b (hab | ⟨-, rfl, -⟩)
    exacts [hleft a b hab, .inl hmine]

end World

namespace CompareM

variable {erased simple answer : Bool} {w w' : World} {n : Nat} {t u : Ty} {b₁ b₂ : BinderId} {d e : Binder} {c c' : Comparer}

theorem infosUnder_ok {own b : BinderId} {formals : List Ty} (h : infosUnder n own b d c w = .ok ((formals, c'), w')) :
    c' = c ∧ d.infos.mapM (Ty.substBinder n own b) w = .ok (formals, w') := by
  unfold infosUnder at h
  generalize d.infos = l at h ⊢
  induction l generalizing w formals with
  | nil =>
    cases h
    exact ⟨rfl, rfl⟩
  | cons i l ih =>
    rw [List.mapM_cons] at h ⊢
    obtain ⟨r, w₁, hr, h⟩ := run_lift_bind_ok h
    obtain ⟨rs, c₁, w₂, hlist, h⟩ := run_bind_ok h
    cases h
    obtain ⟨rfl, hrs⟩ := ih hlist
    exact ⟨rfl, (bind_run hr).trans (bind_run hrs)⟩

/-- Types that correspond match each other or do not, whatever the allowance. -/
theorem matchesWith_again {ρ : Corr} {v v' z : World} {t' u' : Ty} {m : Nat} {answer' : Bool} (ho : ρ.opens) (hM : ρ.Matches v v')
    (ht : ρ.ty t t') (hu : ρ.ty u u')
    (hrun : matchesWith (asking (Conforms erased)) simple n t u (.vacant erased) v = .ok ((answer, c), w))
    (hrun' : matchesWith (asking (Conforms erased)) simple m t' u' (.vacant erased) v' = .ok ((answer', c'), z)) :
    answer = answer' := by
  wlog hnm : n ≤ m generalizing ρ v v' t u t' u' n m answer answer' c c' w z
  · exact (this (ρ := ρ.symm) ho hM.symm ht hu hrun' hrun (Nat.le_of_not_le hnm)).symm
  have hsim : SimCompare False (Comparer.vacant erased).place (Comparer.vacant erased).place ρ
      (matchesWith (asking (Conforms erased)) simple n t u) (matchesWith (asking (Conforms erased)) simple m t' u') :=
    sim_matchesWith simple n (.inr hnm) (related_carried ho carried_conforms) ht hu
  obtain ⟨_, _, _, hagain, -, -, hsame, -⟩ := (hsim _ _ _ le_rfl ⟨vacant_place _, vacant_place _⟩ _ v v' le_rfl hM).ends hrun
  cases hrun'.symm.trans hagain
  exact hsame.resolve_right fun h => h.1

/-- Two methods do not match, since they are marked differently or their formals are not alike, or it is up to their
results. -/
theorem matchesWith_methods_ok (ht : w.shape? t = some (.method b₁)) (hu : w.shape? u = some (.method b₂))
    (hd : w.binder? b₁ = some d) (he : w.binder? b₂ = some e)
    (hrun : matchesWith (asking (Conforms erased)) simple (n + 1) t u c w = .ok ((answer, c'), w')) :
    ∃ formals v, e.infos.mapM (Ty.substBinder n b₂ b₁) w = .ok (formals, v) ∧
      ((d.flags.implicitArgs ≠ e.flags.implicitArgs ∨
          ¬ List.Forall₂ (Like erased (d.flags.foreign || e.flags.foreign) v) d.infos formals) ∧ answer = false ∨
        (d.flags.implicitArgs = e.flags.implicitArgs ∧
          List.Forall₂ (Like erased (d.flags.foreign || e.flags.foreign) v) d.infos formals) ∧
          ∃ r v', Ty.substBinder n b₂ b₁ e.result v = .ok (r, v') ∧
            matchesWith (asking (Conforms erased)) simple n d.result r c v' = .ok ((answer, c'), w')) := by
  classical
  rw [matchesWith_methods ht hu hd he] at hrun
  obtain ⟨formals, c₁, v, hinfos, hrest⟩ := run_bind_ok hrun
  obtain ⟨rfl, hformals⟩ := infosUnder_ok hinfos
  refine ⟨formals, v, hformals, ?_⟩
  by_cases himplicit : d.flags.implicitArgs ≠ e.flags.implicitArgs
  · rw [if_pos himplicit] at hrest
    cases hrest
    exact .inl ⟨.inl himplicit, rfl⟩
  rw [if_neg himplicit] at hrest
  obtain ⟨same, c₂, v₁, hsame, hresult⟩ := run_bind_ok hrest
  rw [sameParams_asking] at hsame
  cases hsame
  by_cases h : List.Forall₂ (Like erased (d.flags.foreign || e.flags.foreign) v) d.infos formals
  · rw [decide_eq_true h] at hresult
    exact .inr ⟨⟨not_not.1 himplicit, h⟩, run_lift_bind_ok hresult⟩
  · rw [decide_eq_false h] at hresult
    cases hresult
    exact .inl ⟨.inr h, rfl⟩

theorem matchesWith_universals_ok (ht : w.shape? t = some (.universal b₁)) (hu : w.shape? u = some (.universal b₂))
    (hd : w.binder? b₁ = some d) (he : w.binder? b₂ = some e)
    (hrun : matchesWith (asking (Conforms erased)) simple (n + 1) t u c w = .ok ((answer, c'), w')) :
    d.arity ≠ e.arity ∧ answer = false ∨ d.arity = e.arity ∧ ∃ r v, Ty.substBinder n b₂ b₁ e.result w = .ok (r, v) ∧
      matchesWith (asking (Conforms erased)) simple n d.result r c v = .ok ((answer, c'), w') := by
  rw [matchesWith_universals ht hu hd he] at hrun
  split_ifs at hrun with harity
  · cases hrun
    exact .inl ⟨harity, rfl⟩
  · exact .inr ⟨not_not.1 harity, run_lift_bind_ok hrun⟩

end CompareM

namespace World

variable {w v v' : World} {role : BinderId → Role} {R : BinderId → BinderId → Prop} {erased simple : Bool} {s : Bool}
  {x y y₀ X Y : Ty} {n m : Nat} {c c' d d' : Comparer} {z z' : World} {answer answer' : Bool}

theorem Direct.binder_result {p : BinderId} {f : Binder} (h : w.Direct x) (hx : w.shape? x = some (f.kind.shape p))
    (hp : w.binder? p = some f) : w.Direct f.result := by
  cases h with
  | simple hsimple =>
    obtain ⟨x₀, hx₀⟩ := hsimple.strips
    exact absurd hx (hx₀.not_binder _ _)
  | binder shape binder result =>
    cases BinderKind.shape_inj (Option.some.inj (hx.symm.trans shape))
    cases hp.symm.trans binder
    exact result

/-- A type that stays as it is and whose binder is not one on the way stands for itself only. -/
theorem Stands.eq_of_still (hw : w.Closed) (h : Stands w role s v R x X) (hleft : ∀ a b, R a b → w.Off role a)
    (hx : w.Still role x) (hown : ∀ (k : BinderKind) b, w.shape? x = some (k.shape b) → role b = .elsewhere) : X = x := by
  obtain ⟨A, -, -, hd⟩ := h.descends
  cases hd with
  | plain image => exact image.swap.of_still (Still.stays hw) h.le le_rfl (fun {p q} hpq => hleft q p hpq) hx
  | binder shape₁ _ _ _ mine =>
    have helsewhere := hown _ _ shape₁
    rcases mine with ⟨hused, -⟩ | hidle
    · cases hused.symm.trans helsewhere
    · cases hidle.symm.trans helsewhere

theorem shape_of_values {k : BinderKind} (hk : k.bindsValues) (b : BinderId) : k.shape b = .method b := by
  cases k <;> first | rfl | cases hk

theorem shape_of_types {k : BinderKind} (hk : k.bindsValues = false) (b : BinderId) : k.shape b = .universal b := by
  cases k <;> first | rfl | cases hk

/-- Two methods that are told apart by what stays as it is do not match. -/
theorem Stands.unlike {p q : BinderId} {f g : Binder} (hw : w.Closed) (hY : Stands w role s v R y Y)
    (hx : w.shape? x = some (f.kind.shape p)) (hy : w.shape? y = some (g.kind.shape q)) (hp : w.binder? p = some f)
    (hq : w.binder? q = some g) (hf : f.kind.bindsValues) (hg : g.kind.bindsValues) (hmine : role q ≠ .elsewhere)
    (hleft : ∀ a b, R a b → w.Off role a) (hunlike : f.flags.implicitArgs ≠ g.flags.implicitArgs ∨
      ¬ List.Forall₂ (fun i j => w.Still role i → w.Still role j → Like erased (f.flags.foreign || g.flags.foreign) w i j)
        f.infos g.infos)
    (hrun : matchesWith (asking (Conforms erased)) simple n x Y c v = .ok ((answer, c'), z)) : answer = false := by
  obtain ⟨n, rfl⟩ := exists_succ_of_matchesWith hrun
  obtain ⟨q', g', hY', hq', hkind, -⟩ := hY.binder hy hq
  have hflags : g'.flags = g.flags := by rw [Binder.flags, Binder.flags, hkind]
  obtain ⟨formals, v₁, hformals, ⟨-, hanswer⟩ | ⟨⟨himplicit, hlike⟩, -⟩⟩ :=
    matchesWith_methods_ok ((hY.le.shape hx).trans (congrArg some (shape_of_values hf p)))
      (hY'.trans (congrArg some (shape_of_values (hkind ▸ hg) q'))) (hY.le.binder hp) hq' hrun
  · exact hanswer
  · rw [hflags] at himplicit hlike
    have hstill := hY.still_formals hw hy hq hY' hq' hmine hleft hformals
    have hle : v ≤ v₁ := (Grows.mapM (grows_substBinder n q' p) _ : Grows True _).le_of_ok hformals
    refine absurd ?_ (hunlike.resolve_left (not_not.2 himplicit))
    refine (Corr.forall₂_comp hlike hstill.flip).imp fun i j hthrough hi hj => ?_
    obtain ⟨k, hik, hjk⟩ := hthrough
    obtain rfl := hjk hj
    have hM : (Corr.identity w).Matches v₁ w := hw.identity_matches.grow (hY.le.trans hle) le_rfl
    exact hik.carry hM ⟨rfl, hi.has⟩ ⟨rfl, hj.has⟩

/-- Universal types of different arities do not match. -/
theorem Stands.uneven {p q : BinderId} {f g : Binder} (hY : Stands w role s v R y Y)
    (hx : w.shape? x = some (f.kind.shape p)) (hy : w.shape? y = some (g.kind.shape q)) (hp : w.binder? p = some f)
    (hq : w.binder? q = some g) (hf : f.kind.bindsValues = false) (hg : g.kind.bindsValues = false) (harity : f.arity ≠ g.arity)
    (hrun : matchesWith (asking (Conforms erased)) simple n x Y c v = .ok ((answer, c'), z)) : answer = false := by
  obtain ⟨n, rfl⟩ := exists_succ_of_matchesWith hrun
  obtain ⟨q', g', hY', hq', hkind, hnames⟩ := hY.binder hy hq
  have hsame : g'.arity = g.arity := congrArg List.length hnames
  have hends := matchesWith_universals_ok ((hY.le.shape hx).trans (congrArg some (shape_of_types hf p)))
    (hY'.trans (congrArg some (shape_of_types (hkind ▸ hg) q'))) (hY.le.binder hp) hq' hrun
  exact (hends.resolve_right fun h => harity (h.1.trans hsame)).2

section Opened

variable {p q : BinderId} {f g : Binder} (hw : w.Calm role) (hY : Stands w role s v R y Y)
  (hx : w.shape? x = some (f.kind.shape p)) (hy : w.shape? y = some (g.kind.shape q)) (hp : w.binder? p = some f)
  (hq : w.binder? q = some g) (hface : w.Faces role s q p) (hfree : role q = .used s → ∀ a, ¬ R a p)
  (hrun : matchesWith (asking (Conforms erased)) simple n x Y (.vacant erased) v = .ok ((answer, c'), z))
include hw hY hx hy hp hq hface hfree hrun

/-- Matching a method against what stands for one: once the formals are found alike it comes to the result of the method
against what stands for the result of the other one. -/
theorem Stands.matches_method (hf : f.kind.bindsValues) (hg : g.kind.bindsValues) :
    ∃ formals v₁, w ≤ v₁ ∧ List.Forall₂ (Image (w.still role) w v₁ (World.bind role R q p)) g.infos formals ∧
      ((f.flags.implicitArgs ≠ g.flags.implicitArgs ∨
          ¬ List.Forall₂ (Like erased (f.flags.foreign || g.flags.foreign) v₁) f.infos formals) ∧ answer = false ∨
        (f.flags.implicitArgs = g.flags.implicitArgs ∧
          List.Forall₂ (Like erased (f.flags.foreign || g.flags.foreign) v₁) f.infos formals) ∧
          ∃ k r v₂, Stands w role s v₂ (World.bind role R q p) g.result r ∧
            matchesWith (asking (Conforms erased)) simple k f.result r (.vacant erased) v₂ = .ok ((answer, c'), z)) := by
  obtain ⟨q', g', hY', hq', hkind, -, hformals, hresult⟩ := hY.opened hy hq hw hface hfree
  obtain ⟨n, rfl⟩ := exists_succ_of_matchesWith hrun
  have hflags : g'.flags = g.flags := by rw [Binder.flags, Binder.flags, hkind]
  obtain ⟨formals, v₁, hrenamed, hends⟩ :=
    matchesWith_methods_ok ((hY.le.shape hx).trans (congrArg some (shape_of_values hf p)))
      (hY'.trans (congrArg some (shape_of_values (hkind ▸ hg) q'))) (hY.le.binder hp) hq' hrun
  have hle : v ≤ v₁ := (Grows.mapM (grows_substBinder n q' p) _ : Grows True _).le_of_ok hrenamed
  rw [hflags] at hends
  refine ⟨formals, v₁, hY.le.trans hle, hformals n formals v₁ hrenamed, hends.imp_right fun h => ⟨h.1, ?_⟩⟩
  obtain ⟨-, r, v₂, hr, hdown⟩ := h
  exact ⟨n, r, v₂, hresult n v₁ r v₂ hle hr, hdown⟩

/-- Matching a universal type against what stands for one. -/
theorem Stands.matches_universal (hf : f.kind.bindsValues = false) (hg : g.kind.bindsValues = false) :
    f.arity ≠ g.arity ∧ answer = false ∨ f.arity = g.arity ∧ ∃ k r v₁, Stands w role s v₁ (World.bind role R q p) g.result r ∧
      matchesWith (asking (Conforms erased)) simple k f.result r (.vacant erased) v₁ = .ok ((answer, c'), z) := by
  obtain ⟨q', g', hY', hq', hkind, hnames, -, hresult⟩ := hY.opened hy hq hw hface hfree
  obtain ⟨n, rfl⟩ := exists_succ_of_matchesWith hrun
  have hsame : g'.arity = g.arity := congrArg List.length hnames
  have hends := matchesWith_universals_ok ((hY.le.shape hx).trans (congrArg some (shape_of_types hf p)))
    (hY'.trans (congrArg some (shape_of_types (hkind ▸ hg) q'))) (hY.le.binder hp) hq' hrun
  rw [hsame] at hends
  refine hends.imp_right fun ⟨harity, r, v₁, hr, hdown⟩ => ⟨harity, n, r, v₁, hresult n v r v₁ le_rfl hr, hdown⟩

end Opened

/-- **Matching answers alike in either order down the results of types that are tied.** On either side the binders of the
other one are opened on its own, which takes the types that are met to images of each other. -/
theorem Tied.agree (hw : w.Calm role) (h : w.Tied erased role R x y) (hR : w.Paired role false R) (hx : w.Direct x)
    (hy : w.Direct y) (hX : Stands w role false v' R x X) (hY : Stands w role true v (flip R) y Y)
    (hrun : matchesWith (asking (Conforms erased)) simple n x Y (.vacant erased) v = .ok ((answer, c'), z))
    (hrun' : matchesWith (asking (Conforms erased)) simple m y X (.vacant erased) v' = .ok ((answer', d'), z')) :
    answer = answer' := by
  have hcl := hw.built.closed
  induction h generalizing v v' X Y n m with
  | @self R x still own =>
    have hv := hY.le
    have hv' := hX.le
    obtain rfl : X = x := hX.eq_of_still hcl (fun _ _ => hR.off_left) still own
    obtain rfl : Y = X := hY.eq_of_still hcl (fun _ _ => hR.swap.off_left) still own
    exact matchesWith_again trivial (hcl.identity_matches.grow hv hv') ⟨rfl, still.has⟩ ⟨rfl, still.has⟩ hrun hrun'
  | @apart R x y apart =>
    cases hx with
    | simple hsimple =>
      obtain ⟨x₀, hx₀⟩ := hsimple.strips
      exact (agree_strips hw hR.swap hy hx₀ hX.le hY (hX.image hx₀.not_binder) hrun' hrun).symm
    | @binder _ p f shape binder _ =>
      cases hy with
      | simple hsimple =>
        obtain ⟨y₀, hy₀⟩ := hsimple.strips
        exact agree_strips hw hR (.binder shape binder ‹_›) hy₀ hY.le hX (hY.image hy₀.not_binder) hrun hrun'
      | @binder _ q g shape' binder' _ =>
        obtain ⟨p', f', hX', -, hkind, -⟩ := hX.binder shape binder
        obtain ⟨q', g', hY', -, hkind', -⟩ := hY.binder shape' binder'
        have hne := apart _ _ _ _ shape shape'
        rw [matchesWith_apart (hY.le.shape shape) hY' (by rwa [hkind']) hrun,
          matchesWith_apart (hX.le.shape shape') hX' (by rw [hkind]; exact hne.symm) hrun']
  | @unlike R x y p q f g shape₁ shape₂ binder₁ binder₂ values₁ values₂ mine₁ mine₂ unlike =>
    rw [hY.unlike hcl shape₁ shape₂ binder₁ binder₂ values₁ values₂ mine₂ (fun _ _ => hR.swap.off_left) unlike hrun]
    refine (hX.unlike hcl shape₂ shape₁ binder₂ binder₁ values₂ values₁ mine₁ (fun _ _ => hR.off_left)
      (unlike.imp Ne.symm fun h hlike => h ?_) hrun').symm
    refine hlike.flip.imp fun i j h hi hj => ?_
    rw [Bool.or_comm]
    exact (h hj hi).symm
  | uneven shape₁ shape₂ binder₁ binder₂ types₁ types₂ arity =>
    rw [hY.uneven shape₁ shape₂ binder₁ binder₂ types₁ types₂ arity hrun,
      hX.uneven shape₂ shape₁ binder₂ binder₁ types₂ types₁ arity.symm hrun']
  | @facing R x y p q f g shape₁ shape₂ binder₁ binder₂ faces alike result ih =>
    have hfirst (hp : role p = .used false) : ∀ b, ¬ R p b := hX.unopened shape₁ binder₁ hcl hp
    have hsecond (hq : role q = .used true) : ∀ a, ¬ R a q := hY.unopened shape₂ binder₂ hcl hq
    have hR' := hR.bind faces binder₁ binder₂ hfirst hsecond alike
    have hkinds := faces.alike binder₁ binder₂
    cases hvalues : f.kind.bindsValues with
    | true =>
      obtain ⟨formals', v₁, hv₁, himages', hends⟩ := hY.matches_method hw shape₁ shape₂ binder₁ binder₂ faces.swap
        (fun hq => hfirst (faces.used.2 hq)) hrun hvalues (hkinds.trans hvalues)
      obtain ⟨formals, v₂, hv₂, himages, hends'⟩ := hX.matches_method hw shape₂ shape₁ binder₂ binder₁ faces
        (fun hp => hsecond (faces.used.1 hp)) hrun' (hkinds.trans hvalues) hvalues
      rw [← faces.flip_bind] at himages' hends
      rw [Bool.or_comm, ← hR'.like_iff hw hv₁ hv₂ himages himages', ne_comm] at hends'
      rcases hends with ⟨hno, rfl⟩ | ⟨⟨himplicit, hlike⟩, k, r', u', hr', hdown⟩
      · refine (hends'.resolve_right fun h => ?_).2.symm
        exact hno.elim (fun hne => hne h.1.1.symm) fun hnot => hnot h.1.2
      · obtain ⟨-, l, r, u, hr, hdown'⟩ := hends'.resolve_left fun h =>
          h.1.elim (fun hne => hne himplicit) fun hnot => hnot hlike
        exact ih hR' (hx.binder_result shape₁ binder₁) (hy.binder_result shape₂ binder₂) hr hr' hdown hdown'
    | false =>
      have hends := hY.matches_universal hw shape₁ shape₂ binder₁ binder₂ faces.swap
        (fun hq => hfirst (faces.used.2 hq)) hrun hvalues (hkinds.trans hvalues)
      have hends' := hX.matches_universal hw shape₂ shape₁ binder₂ binder₁ faces
        (fun hp => hsecond (faces.used.1 hp)) hrun' (hkinds.trans hvalues) hvalues
      rw [← faces.flip_bind] at hends
      rcases hends with ⟨hno, rfl⟩ | ⟨harity, k, r', u', hr', hdown⟩
      · exact (hends'.resolve_right fun h => hno h.1.symm).2.symm
      · obtain ⟨-, l, r, u, hr, hdown'⟩ := hends'.resolve_left fun h => h.1 harity.symm
        exact ih hR' (hx.binder_result shape₁ binder₁) (hy.binder_result shape₂ binder₂) hr hr' hdown hdown'

/-- At the start nothing has been renamed, so that a type stands for itself. -/
theorem Descends.stands (h : Descends w role s w (fun _ => False) (fun _ _ => False) x x) :
    Stands w role s w (fun _ _ => False) x x :=
  ⟨le_rfl, ⟨fun h => h.elim, fun h => h.elim⟩, _, fun _ => False.elim, fun _ _ => False.elim, h⟩

end World

namespace CompareM

end CompareM

end Conformance
