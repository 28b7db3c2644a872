import Conformance.Proofs.Inheritance
import Conformance.Proofs.Inversion
import Conformance.Proofs.Members
import Conformance.Proofs.Trees

/-!
# Conformance to declared parents

A parent of a class is a reference to a class, possibly under refinements of type members. The comparison of the class
with such a parent takes the refinements off one by one: it looks up each refined member in the class and compares what
it finds with the refinement, and at the end it searches the class itself for the base class. Both searches go up by
parents depth first and stay with the first hit, so they may stop at different occurrences of one base class. The
search for the base class always succeeds (`Heir.decides_bare`), and the answer is that of the comparisons of the
members (`World.isSubType_declared_parent`). A parent that comes earlier in the list may thus hide the refinement of a
later one, where the class declares no members either (`World.isSubType_declared_parent_later`).
-/

namespace Conformance

open Relation CompareM

namespace World

variable {w v : World} {t u x base parent info : Ty} {cls c : Symbol} {name : String} {k n : Nat} {p : Place}
  {σ : ConstraintStore} {rs : List (String × Ty)}

/-! ## Base types under refinements -/

/-- The type members of a trait of type constructors are its parameters. -/
def ParametersOnly (w : World) (cls : Symbol) : Prop :=
  Builtin.isTrait cls → ∀ name, w.declaresType cls name → ∃ m ∈ w.decls.typeParams cls, w.decls.name m = name

theorem Dressed.unique {j : Nat} {pre : Ty} (hx : w.shape? x = some (.named pre cls)) (h : w.Dressed cls x k t)
    (h' : w.Dressed cls x j t) : k = j := by
  induction h generalizing j with
  | bare =>
    cases h' with
    | bare => rfl
    | refined _ ht => cases hx.symm.trans ht
  | refined _ ht _ ih =>
    cases h' with
    | bare => cases hx.symm.trans ht
    | refined h' ht' _ =>
      cases ht.symm.trans ht'
      rw [ih h']

theorem Dressed.typeSymbolFrom {g : Guard Ty} {pre : Ty} {s : Symbol} (h : w.Dressed cls x k t)
    (hx : w.shape? x = some (.named pre cls)) (hcls : w.decls.isClass cls) (hs : w.typeSymbolFrom n g t = some s) :
    s = cls := by
  induction h generalizing n g with
  | bare =>
    obtain ⟨m, g', hs⟩ := typeSymbolFrom_some hs
    have hsynonym : w.decls.isSynonym cls = false := by
      simp only [Declarations.isClass, decide_eq_true_eq] at hcls
      simp [Declarations.isSynonym, hcls]
    rw [shape_of_shape? hx] at hs
    simp only [hsynonym] at hs
    exact (Option.some.inj hs).symm
  | refined _ ht _ ih =>
    obtain ⟨m, g', hs⟩ := typeSymbolFrom_some hs
    rw [shape_of_shape? ht] at hs
    exact ih hs

/-- A refined trait has a parameter less than the bare one. -/
theorem Dressed.decides_trait {pre q : Ty} {sub : Ty → Ty → CompareM Bool} (h : w.Dressed cls x (k + 1) t)
    (hx : w.shape? x = some (.named pre cls)) (hu : w.shape? u = some (.named q cls)) (hcls : w.decls.isClass cls)
    (hparams : w.ParametersOnly cls) (htrait : Builtin.isTrait cls) (hn : 65 ≤ n) :
    Decides p σ w (conformsAsConstructor n sub t u) false := by
  obtain ⟨n, rfl⟩ := Nat.exists_eq_add_of_le' (Nat.le_trans (Nat.le_add_left 1 64) hn)
  cases h with
  | @refined _ _ base info name h ht hname =>
    obtain ⟨m, hm, hm'⟩ := hparams htrait name hname
    cases hsymbol : w.typeSymbol? t with
    | none =>
      have hopen : w.openTypeParams (n + 1) t = .ok [] := by rw [openTypeParams, hsymbol]; rfl
      refine decides_conformsAsConstructor hopen (typeArgs_class hu hcls) ?_
      rw [List.length_map]
      exact Nat.ne_of_lt (List.length_pos_of_mem hm)
    | some s =>
      have hs : s = cls := by
        obtain ⟨_, _, hs⟩ := typeSymbolFrom_some hsymbol
        rw [shape_of_shape? ht] at hs
        exact h.typeSymbolFrom hx hcls hs
      obtain ⟨infos, hinfos⟩ := refinements_finish hsymbol
      refine decides_conformsAsConstructor_refined (hs ▸ hsymbol) (fun name => hinfos name _ hn) hu hcls hm ?_
      have hfound : w.refinement? name (n + 1) t = .ok (some info) := by
        rw [refinement?, shape_of_shape? ht]
        exact if_pos rfl
      rw [hm', Except.ok.inj ((hinfos name _ hn).symm.trans hfound)]
      rfl

theorem isStable_refined (ht : w.shape? t = some (.refined parent name info)) : w.isStable (n + 1) t = .ok false := by
  rw [isStable, shape_of_shape? ht]
  rfl

theorem ParametersOnly.grow (h : w.ParametersOnly cls) (hv : w ≤ v) : v.ParametersOnly cls := by
  unfold ParametersOnly declaresType
  rw [hv.decls]
  exact h

/-- A reference to a static class under refinements of types that the class declares conforms to the class. What is
pending, now or later, is refined more often. -/
theorem Dressed.decides {pre q : Ty} (hw : w.Standard) (h : w.Dressed cls x k t)
    (hx : w.shape? x = some (.named pre cls)) (hu : w.shape? u = some (.named q cls)) (hcls : w.decls.isClass cls)
    (hstatic : w.decls.isStatic cls) (hparams : w.ParametersOnly cls) (hroom : HasRoom p (k + 1))
    (hbounds : p.bounds = .none)
    (hpending : ∀ y ∈ p.pending, ∀ v j, w ≤ v → v.Dressed cls x j y.1 → k < j) :
    Decides p σ w (isSubType (n + k + 66) t u) true := by
  induction k generalizing w t p σ with
  | zero =>
    cases h
    have hfree : (x, u) ∉ p.pending := fun hfree => Nat.lt_irrefl 0 (hpending _ hfree w 0 le_rfl .bare)
    exact decides_static hx hu hstatic (hw.present hx (by simp)) (hw.present hu (by simp)) hroom hbounds hfree
  | succ k ih =>
    have hdressed := h
    cases h with
    | @refined _ _ base info name h ht hname =>
      have hfree : (t, u) ∉ p.pending := fun hfree => Nat.lt_irrefl _ (hpending _ hfree w _ le_rfl hdressed)
      rw [show n + (k + 1) + 66 = n + k + 66 + 1 by omega]
      refine decides_isSubType (hw.present ht (by simp)) (hw.present hu (by simp)) (ne_of_shape ht hu (by simp)) hroom
        hbounds hfree fun p' hp' => ?_
      refine yields_first_named (by rw [shape_of_shape? ht]; rfl) (by rw [shape_of_shape? ht]; rfl) hu ?_
      refine decides_thirdNamed hu hcls (fun v hv => ⟨false, isStable_refined (hv.shape ht)⟩)
        (fun htrait v hv => ?_) fun v hv => yields_fourth_refined (hv.shape ht) ?_
      · have htest : Decides p' σ v (conformsAsConstructor (n + k + 66) (isSubType (n + k + 66)) t u) false :=
          (hdressed.grow hv).decides_trait (hv.shape hx) (hv.shape hu) (hv.decls ▸ hcls) (hparams.grow hv) htrait
            (by omega)
        exact htest.ends
      · refine ih (hw.grow hv) (h.grow hv) (hv.shape hx) (hv.shape hu) (hv.decls ▸ hcls) (hv.decls ▸ hstatic)
          (hparams.grow hv) (hroom.opens hp') (hp'.bounds_eq.trans hbounds) fun y hy v' j hv' hy' => ?_
        rcases hp'.pending_cases hy with rfl | hy
        · rw [← Dressed.unique ((hv.trans hv').shape hx) (hdressed.grow (hv.trans hv')) hy']
          exact Nat.lt_succ_self k
        · exact Nat.lt_of_succ_lt (hpending y hy v' j (hv.trans hv') hy')

/-! ## Heirs -/

/-- Whether `t` is a reference to a class, bare or under refinements. -/
def isReference (w : World) (t : Ty) : Bool :=
  match w.shape? t with
  | some (.named _ s) => w.decls.isClass s
  | some (.refined ..) => true
  | _ => false

/-- `t` is the reference to the class `c`. What lies above it are references to classes, bare or under refinements, and
no search from it meets a limit. -/
structure Heir (w : World) (c : Symbol) (t : Ty) : Prop where
  ref : w.shape? t = some (.named .noPrefix c)
  above : ∀ {u}, ReflTransGen (fun a b => b ∈ w.above a) t u → w.isReference u
  shallow : w.Shallow t

/-- `u` is the reference to the class `cls` under the refinements `rs`, the outermost one first. -/
inductive Refines (w : World) (cls : Symbol) : List (String × Ty) → Ty → Prop
  | bare {u : Ty} (hu : w.shape? u = some (.named .noPrefix cls)) : Refines w cls [] u
  | refined {u parent info : Ty} {name : String} {rs : List (String × Ty)}
    (hu : w.shape? u = some (.refined parent name info)) (h : Refines w cls rs parent) :
    Refines w cls ((name, info) :: rs) u

theorem Heir.lineage (h : w.Heir c t) : w.Lineage (ReflTransGen (fun a b => b ∈ w.above a) t) where
  shape {u} hu := by
    have hu := h.above hu
    unfold isReference at hu
    split at hu
    · next hshape => exact .inl ⟨_, _, hshape, hu⟩
    · next hshape => exact .inr ⟨_, _, _, hshape⟩
    · cases hu
  closed htu hu := htu.tail hu
  acyclic := h.shallow.acyclic

theorem Refines.unique {rs' : List (String × Ty)} (h : w.Refines cls rs u) (h' : w.Refines cls rs' u) : rs = rs' := by
  induction h generalizing rs' with
  | bare hu =>
    cases h' with
    | bare => rfl
    | refined hu' => cases hu.symm.trans hu'
  | refined hu _ ih =>
    cases h' with
    | bare hu' => cases hu.symm.trans hu'
    | refined hu' h' =>
      cases hu.symm.trans hu'
      rw [ih h']

theorem Refines.exists_ascent (h : w.Refines cls rs u) (hn : n ≤ rs.length) :
    ∃ l ∈ ascents w.above (n + 1) u, l.length = n + 1 := by
  induction h generalizing n with
  | bare =>
    obtain rfl := Nat.le_zero.1 hn
    exact ⟨_, List.mem_cons_self, rfl⟩
  | refined hu _ ih =>
    cases n with
    | zero => exact ⟨_, List.mem_cons_self, rfl⟩
    | succ n =>
      obtain ⟨l, hl, hlength⟩ := ih (Nat.le_of_succ_le_succ hn)
      refine ⟨_ :: l, cons_mem_ascents ?_ hl, congrArg (· + 1) hlength⟩
      rw [above_refined hu]
      exact List.mem_singleton_self _

namespace Heir

/-- Within the limits there are few refinements. -/
theorem length_lt (ht : w.Heir c t) (hparent : u ∈ w.above t) (hu : w.Refines cls rs u) : rs.length < 63 := by
  by_contra hlong
  obtain ⟨l, hl, hlength⟩ := hu.exists_ascent (Nat.le_of_not_lt hlong)
  have := ht.shallow.levels _ (cons_mem_ascents hparent hl)
  rw [List.length_cons] at this
  omega

/-- An heir conforms to a class above it. -/
theorem decides_bare (hw : w.Standard) (ht : w.Heir c t) (hreach : TransGen (fun a b => b ∈ w.above a) t u)
    (hu : w.shape? u = some (.named .noPrefix cls)) (hstatic : w.decls.isStatic cls) (hparams : w.ParametersOnly cls)
    (hv : w ≤ v) (hroom : HasRoom p 67) (hbounds : p.bounds = .none)
    (hpending : ∀ y ∈ p.pending, y.1 = t ∧ y.2 ≠ u) : Decides p σ v (isSubType (n + 132) t u) true := by
  have hcls : w.decls.isClass cls := by
    have hu' := ht.above hreach.to_reflTransGen
    rwa [isReference, hu] at hu'
  have hne : c ≠ cls := by
    rintro rfl
    obtain rfl : t = u := TypeTable.shape?_injective ht.ref hu
    exact ht.shallow.acyclic .refl hreach
  have hinreach : w.InReach t cls :=
    ht.shallow.inReach_iff.2 ⟨u, hreach.to_reflTransGen, (refersTo_named hu).trans (decide_eq_true rfl)⟩
  have hfree : (t, u) ∉ p.pending := fun hfree => (hpending _ hfree).2 rfl
  refine ht.lineage.decides_inReach hw .refl ht.ref hu hcls hstatic hinreach hv hroom hbounds hfree
    fun l base p' v' hv' hopens _ _ hbased hl => ?_
  obtain ⟨x, pre, k, -, hx, hk, hdressed⟩ := hbased
  have hk : k ≤ 64 := Nat.le_trans hk (Nat.le_trans List.countP_le_length (ht.shallow.levels l hl))
  have hv := hv.trans hv'
  rw [show n + 130 + 1 = n + (65 - k) + k + 66 by omega]
  refine hdressed.decides (hw.grow hv) (hv.shape hx) (hv.shape hu) (hv.decls ▸ hcls) (hv.decls ▸ hstatic)
    (hparams.grow hv) ((hroom.opens hopens).mono (by omega)) (hopens.bounds_eq.trans hbounds)
    fun y hy v₁ j hv₁ hy' => ?_
  -- the heir itself is no form of the class
  have hyt : y.1 = t := by
    rcases hopens.pending_cases hy with rfl | hy
    · rfl
    · exact (hpending y hy).1
  rw [hyt] at hy'
  have ht' := (hv.trans hv₁).shape ht.ref
  cases hy' with
  | bare =>
    cases ht.ref.symm.trans hx
    exact absurd rfl hne
  | refined _ hrefined => cases ht'.symm.trans hrefined

/-- An heir conforms to a class above it under refinements, if each member found in the heir is what the refinement
says. -/
theorem decides_refines (hw : w.Standard) (ht : w.Heir c t) (hreach : TransGen (fun a b => b ∈ w.above a) t u)
    (hu : w.Refines cls rs u) (hstatic : w.decls.isStatic cls) (hparams : w.ParametersOnly cls)
    (hmember : ∀ r ∈ rs, r.1 ≠ Builtin.anyName → r.2.present ∧ ∀ v, w ≤ v → ∃ v', t.member r.1 v = .ok (r.2, v'))
    (hv : w ≤ v) (hroom : HasRoom p (rs.length + 67)) (hbounds : p.bounds = .none)
    (hpending : ∀ y ∈ p.pending, y.1 = t ∧ ∀ rs', w.Refines cls rs' y.2 → rs.length < rs'.length) :
    Decides p σ v (isSubType (n + rs.length + 132) t u) true := by
  induction hu generalizing v p σ with
  | @bare u hu =>
    refine ht.decides_bare hw hreach hu hstatic hparams hv (hroom.mono (by simp)) hbounds fun y hy => ?_
    obtain ⟨hyt, hyu⟩ := hpending y hy
    refine ⟨hyt, fun heq => Nat.lt_irrefl 0 (hyu [] ?_)⟩
    exact heq ▸ .bare hu
  | @refined u parent info name rs hu h ih =>
    have hfree : (t, u) ∉ p.pending := fun hfree => Nat.lt_irrefl _ ((hpending _ hfree).2 _ (.refined hu h))
    have hshape := hv.shape ht.ref
    have hlength : ((name, info) :: rs).length = rs.length + 1 := List.length_cons
    rw [show n + ((name, info) :: rs).length + 132 = n + rs.length + 132 + 1 by omega]
    refine decides_isSubType (hw.present ht.ref (by simp)) (hw.present hu (by simp)) (ne_of_shape ht.ref hu (by simp))
      (hroom.mono (Nat.le_refl _)) hbounds hfree fun p' hp' => ?_
    refine yields_first (by rw [shape_of_shape? hshape]; rfl) (by rw [shape_of_shape? (hv.shape hu)]; rfl)
      (by rw [shape_of_shape? (hv.shape hu)]; rfl) (yields_third_refined (hv.shape hu) (.orElse_true ?_))
    have hparent : Decides p' σ v (isSubType (n + rs.length + 132) t parent) true := by
      refine ih (hreach.tail ?_) (fun r hr => hmember r (List.mem_cons_of_mem _ hr)) hv ?_
        (hp'.bounds_eq.trans hbounds) fun y hy => ?_
      · rw [above_refined hu]
        exact List.mem_singleton_self _
      · exact (hroom.opens hp').mono (by omega)
      · rcases hp'.pending_cases hy with rfl | hy
        · refine ⟨rfl, fun rs' hrs' => ?_⟩
          rw [hrs'.unique (.refined hu h)]
          exact Nat.lt_succ_self _
        · obtain ⟨hyt, hyu⟩ := hpending y hy
          exact ⟨hyt, fun rs' hrs' => Nat.lt_of_succ_lt (hyu rs' hrs')⟩
    refine .andThen (D := fun s' _ => s' = σ) hparent fun s' v₁ hv₁ hs => ?_
    subst hs
    split
    · exact .pure ⟨rfl, rfl, rfl⟩
    · next hname =>
      obtain ⟨hpresent, hfound⟩ := hmember (name, info) List.mem_cons_self hname
      obtain ⟨v₂, hr⟩ := hfound v₁ (hv.trans hv₁)
      refine .bind (yields_run hr ((grows_member t name).le_of_ok hr)) fun m s' v' _ ⟨hm, hs, hv'⟩ => ?_
      subst hm hs hv'
      exact (decides_self hpresent).mono fun _ _ _ _ ⟨ha, hs⟩ => ⟨ha, rfl, hs⟩

/-- Where the derivations for the members are given, there is one for the heir. -/
theorem conforms_refines {erased : Bool} (hw : w.Closed) (hstd : w.Standard) (ht : w.Heir c t)
    (hreach : TransGen (fun a b => b ∈ w.above a) t u) (hu : w.Refines cls rs u) (hstatic : w.decls.isStatic cls)
    (hparams : w.ParametersOnly cls)
    (hmember : ∀ r ∈ rs, r.1 ≠ Builtin.anyName → ∀ v m v', w ≤ v → t.member r.1 v = .ok (m, v') →
      Conforms erased v' m r.2) (hv : w ≤ v) : Conforms erased v t u := by
  induction hu generalizing v with
  | @bare u hu =>
    have hat := Comparer.atRest_vacant erased
    have hdecides : Decides (Comparer.vacant erased).place ⟨{}, 0⟩ w (isSubType (0 + 132) t u) true :=
      ht.decides_bare hstd hreach hu hstatic hparams le_rfl (.of_idle hat.idle (by decide)) rfl fun _ hy => nomatch hy
    obtain ⟨_, c', w', hr, -, -, rfl, -⟩ := hdecides (.vacant erased) ⟨rfl, rfl⟩
    exact conforms_of_run hw (Option.isSome_of_eq_some ht.ref) (Option.isSome_of_eq_some hu) hat hr hv
  | @refined u parent info name rs hu h ih =>
    have hshape := hv.shape ht.ref
    have hparent : ∀ v, w ≤ v → Conforms erased v t parent := fun v hv =>
      ih (hreach.tail (by rw [above_refined hu]; exact List.mem_singleton_self _))
        (fun r hr => hmember r (List.mem_cons_of_mem _ hr)) hv
    refine .step (Conforms erased) (hstd.present ht.ref (by simp)) (hstd.present hu (by simp)) (fun _ _ _ => id) ?_
    have hdecides : Decides (Comparer.vacant erased).place ⟨{}, 0⟩ v (first 0 (asking (Conforms erased)) t u) true := by
      refine yields_first (by rw [shape_of_shape? hshape]; rfl) (by rw [shape_of_shape? (hv.shape hu)]; rfl)
        (by rw [shape_of_shape? (hv.shape hu)]; rfl) (yields_third_refined (hv.shape hu) (.orElse_true ?_))
      refine .andThen (D := fun s' _ => s' = ⟨{}, 0⟩) (decides_asking (hparent v hv)) fun s' v₁ hv₁ hs => ?_
      subst hs
      split
      · exact .pure ⟨rfl, rfl, rfl⟩
      · next hname =>
        refine .bind (.lift (grows_member t name)) fun m s' v₂ hv₂ ⟨hs, hr⟩ => ?_
        subst hs
        have hm := hmember (name, info) List.mem_cons_self hname v₁ m v₂ (hv.trans hv₁) hr
        exact (decides_asking hm).mono fun _ _ _ _ ⟨ha, hs⟩ => ⟨ha, rfl, hs⟩
    obtain ⟨_, c', w', hr, -, -, rfl, -⟩ := hdecides (.vacant erased) ⟨rfl, rfl⟩
    exact ⟨0, c', w', hr⟩

/-- A derivation for the heir has one for each member. -/
theorem conforms_members {erased : Bool} (ht : w.Heir c t) (hnothing : c ≠ Builtin.nothing.symbol)
    (hnull : c ≠ Builtin.null.symbol) (hu : w.Refines cls rs u) (hv : w ≤ v)
    (h : Conforms erased v t u) : ∀ r ∈ rs, r.1 ≠ Builtin.anyName →
      ∃ v₁ m v₂ v₃, w ≤ v₁ ∧ t.member r.1 v₁ = .ok (m, v₂) ∧ v₂ ≤ v₃ ∧ Conforms erased v₃ m r.2 := by
  have hcls : w.decls.isClass c := by
    have hc := ht.above .refl
    rwa [isReference, ht.ref] at hc
  induction hu generalizing v with
  | bare => exact fun _ hr => nomatch hr
  | @refined u parent info name rs hu _ ih =>
    have hshape := hv.shape ht.ref
    refine h.invert (fun heq => ?_) fun sub n hsub => ?_
    · cases ht.ref.symm.trans (heq ▸ hu)
    · refine (demands_first hshape rfl (hv.shape hu) rfl rfl (demands_third_refined (hv.shape hu) hsub
        (demands_fourth_class hshape (hv.decls ▸ hcls)))).mono ?_
      rintro (⟨⟨v₁, hv₁, v', hv', hparent⟩, hm⟩ | h | ⟨h, -⟩)
      · intro r hr hname
        rcases List.mem_cons.1 hr with rfl | hr
        · rcases hm with hany | ⟨m, v₂, v₃, hv₂, hr, v₄, hv₄, hm⟩
          · exact absurd hany hname
          · exact ⟨v₂, m, v₃, v₄, hv.trans hv₂, hr, hv₄, hm⟩
        · exact ih (hv.trans (hv₁.trans hv')) hparent r hr hname
      · exact absurd h hnothing
      · exact absurd h hnull

end Heir

/-! ## Comparisons of members -/

/-- A comparison that starts at rest comes to the answer. -/
def Compares (w : World) (erased : Bool) (a b : Ty) (answer : Bool) : Prop :=
  ∃ fuel c c' w', Comparer.AtRest c ∧ c.options.erasedTypes = erased ∧ isSubType fuel a b c w = .ok ((answer, c'), w')

theorem Compares.conforms_iff {ρ : Corr} {erased answer : Bool} {a b a' b' : Ty} (h : w.Compares erased a b answer)
    (ho : ρ.opens) (hM : ρ.Matches w v) (ha : ρ.ty a a') (hb : ρ.ty b b') : answer = true ↔ Conforms erased v a' b' := by
  obtain ⟨fuel, c, c', w', hc, rfl, hrun⟩ := h
  exact conforms_iff_of_run ho hM ha hb hc hrun

/-- The comparison of a member that was found says of what is found later whether it conforms. -/
theorem Compares.conforms_member {erased answer : Bool} {m m' : Ty} {v₀ v₁ v₂ v₃ : World} (hw : w.Closed) (ht : w.Has t)
    (hinfo : w.Has info) (hr : t.member name w = .ok (m, v₀)) (h : v₀.Compares erased m info answer) (hv : w ≤ v₁)
    (hr' : t.member name v₁ = .ok (m', v₂)) (hv₂ : v₂ ≤ v₃) : answer = true ↔ Conforms erased v₃ m' info := by
  have hpair : (Corr.identity w).ty t t := ⟨rfl, ht⟩
  obtain ⟨a, w', a', v', τ, hm, hm', -, hid, hτ, hpair⟩ :=
    hw.repeats (grows_member t name) (sim_member hpair name) hv
  cases hr.symm.trans hm
  cases hr'.symm.trans hm'
  exact h.conforms_iff (hid.opens trivial) (hτ.grow le_rfl hv₂) hpair (hid.ty ⟨rfl, hinfo⟩)

/-- What is found later is what was found, if that was given out before. -/
theorem Closed.member_later (hw : w.Closed) (ht : w.Has t) (hinfo : w.Has info) {v₀ : World}
    (hr : t.member name w = .ok (info, v₀)) (hv : w ≤ v) : ∃ v', t.member name v = .ok (info, v') := by
  have hpair : (Corr.identity w).ty t t := ⟨rfl, ht⟩
  obtain ⟨a, w', a', v', τ, hm, hm', -, hid, hτ, hpair⟩ :=
    hw.repeats (grows_member t name) (sim_member hpair name) hv
  cases hr.symm.trans hm
  obtain rfl : info = a' := (hτ.ty_inj (hid.ty ⟨rfl, hinfo⟩) hpair).1 rfl
  exact ⟨v', hm'⟩

theorem Refines.has (h : w.Refines cls rs u) : w.Has u := by
  cases h with
  | bare hu => exact Option.isSome_of_eq_some hu
  | refined hu => exact Option.isSome_of_eq_some hu

/-- The infos of the refinements were given out. -/
theorem Refines.has_info (hw : w.Closed) (h : w.Refines cls rs u) : ∀ r ∈ rs, w.Has r.2 := by
  induction h with
  | bare => exact fun _ hr => nomatch hr
  | refined hu _ ih =>
    intro r hr
    rcases List.mem_cons.1 hr with rfl | hr
    · have hmentions := hw.shape hu
      cases hmentions with
      | refined _ _ hinfo => exact hinfo.2
    · exact ih r hr

/-! ## Parents that come first -/

/-- Under refinements of different names the search for one of them stops there. -/
theorem Refines.firstHit (h : w.Refines cls rs u) (hmem : (name, info) ∈ rs) (hnodup : (rs.map Prod.fst).Nodup)
    (hpresent : info.present) (hshort : ∀ l ∈ ascents (w.memberAbove name) (n + 1) u, l.length ≤ n) :
    ∃ l x parent, firstHit (w.informs name) n (ascents (w.memberAbove name) (n + 1) u) = some l ∧
      l.getLast? = some x ∧ w.shape? x = some (.refined parent name info) := by
  induction h generalizing n with
  | bare => cases hmem
  | @refined u parent info₀ name₀ rs hu h ih =>
    obtain ⟨hnew, hnodup⟩ := List.nodup_cons.1 hnodup
    have hpos : 1 ≤ n := hshort [u] List.mem_cons_self
    obtain ⟨n, rfl⟩ := Nat.exists_eq_add_of_le' hpos
    by_cases hname : name₀ = name
    · subst hname
      obtain rfl : info = info₀ := by
        rcases List.mem_cons.1 hmem with heq | hmem
        · cases heq
          rfl
        · exact absurd (List.mem_map_of_mem hmem) hnew
      have hhit : w.informs name₀ u = true := by rw [informs_refined hu, hpresent, decide_eq_true rfl]; rfl
      exact ⟨[u], u, parent, by simp [Conformance.firstHit, ascents, hhit], rfl, hu⟩
    · have hsettles : w.settles name u = false := by rw [settles_refined hu, decide_eq_false hname]
      have hhit : w.informs name u = false := by rw [informs_refined hu, decide_eq_false hname]; rfl
      have habove : w.memberAbove name u = [parent] := by rw [memberAbove_of_not_settles hsettles, above_refined hu]
      have hmem : (name, info) ∈ rs := by
        rcases List.mem_cons.1 hmem with heq | hmem
        · cases heq
          exact absurd rfl hname
        · exact hmem
      obtain ⟨l, x, parent', hl, hx, hshape⟩ := ih hmem hnodup (n := n) fun l hl => by
        have := hshort (u :: l) (cons_mem_ascents (habove ▸ List.mem_singleton_self _) hl)
        exact Nat.le_of_succ_le_succ this
      refine ⟨u :: l, x, parent', ?_, by rw [List.getLast?_cons, hx]; rfl, hshape⟩
      rw [firstHit_ascents hhit, habove, List.flatMap_singleton, hl]
      rfl

/-- Where nothing above an earlier parent speaks of the member, the search finds what the parent says. -/
theorem Heir.member_run {l l' : List Ty} (hw : w.Standard) (ht : w.Heir c t)
    (hown : ∀ space, w.decls.member? c name space = none) (hparents : w.decls.parents c = l ++ u :: l')
    (hearlier : ∀ q ∈ l, ∀ x, ReflTransGen (fun a b => b ∈ w.above a) q x → w.settles name x = false)
    (hu : w.Refines cls rs u) (hmem : (name, info) ∈ rs) (hnodup : (rs.map Prod.fst).Nodup) (hpresent : info.present)
    (hv : w ≤ v) : ∃ v', t.member name v = .ok (info, v') := by
  have hsublist := ascents_sublist (memberAbove_sublist (w := w) name) 65 t
  have hsettles : w.settles name t = false := by rw [settles_named ht.ref, hown, hown]; rfl
  have hsilent : ∀ {x}, w.settles name x = false → w.informs name x = false := fun hx =>
    Bool.eq_false_iff.2 fun h => Bool.false_ne_true (hx.symm.trans (settles_of_informs h))
  have habove : w.memberAbove name t = l ++ u :: l' := by
    rw [memberAbove_of_not_settles hsettles, above_named ht.ref, hparents]
  have hshort : ∀ d ∈ ascents (w.memberAbove name) 64 u, d.length ≤ 63 := fun d hd => by
    have hd := cons_mem_ascents (habove ▸ List.mem_append_right l List.mem_cons_self) hd
    exact Nat.le_of_succ_le_succ (ht.shallow.levels _ (hsublist.subset hd))
  obtain ⟨d, x, parent, hd, hx, hshape⟩ := hu.firstHit hmem hnodup hpresent hshort
  have hnone : firstHit (w.informs name) 63 (l.flatMap (ascents (w.memberAbove name) 64)) = none := by
    refine firstHit_eq_none fun d hd x hx => ?_
    obtain ⟨q, hq, hd⟩ := List.mem_flatMap.1 hd
    obtain ⟨x', hx', hqx⟩ := reaches_of_mem_ascents hd
    cases hx.symm.trans hx'
    exact hsilent (hearlier q hq x
      (ReflTransGen.mono (fun a _ hb => (memberAbove_sublist name a).subset hb) _ _ hqx))
  have hfirst : firstHit (w.informs name) 64 ((ascents (w.memberAbove name) 65 t).take 100000) = some (t :: d) := by
    rw [List.take_of_length_le (Nat.le_trans hsublist.length_le ht.shallow.entries),
      firstHit_ascents (hsilent hsettles), habove, List.flatMap_append, List.flatMap_cons, firstHit_append, hnone,
      Option.none_or, firstHit_append, hd]
    rfl
  obtain ⟨answer, v', hr, -, hfound⟩ := ht.lineage.member_run hw .refl name hv
  rw [hfirst] at hfound
  obtain ⟨-, x', hx', hanswer⟩ := hfound
  rw [List.getLast?_cons, hx] at hx'
  obtain rfl : x = x' := Option.some.inj hx'
  exact ⟨v', hanswer parent info hshape ▸ hr⟩

/-- An heir conforms to a parent whose refinements are what is found in it. -/
theorem Heir.answers_refines (hw : w.Standard) (ht : w.Heir c t) (habove : u ∈ w.above t) (hu : w.Refines cls rs u)
    (hstatic : w.decls.isStatic cls) (hparams : w.ParametersOnly cls)
    (hmember : ∀ r ∈ rs, r.1 ≠ Builtin.anyName → r.2.present ∧ ∀ v, w ≤ v → ∃ v', t.member r.1 v = .ok (r.2, v')) :
    w.Answers t u true := by
  refine answers_of_decides (rs.length + 132) fun n p σ hp => ?_
  have hlevels : rs.length + 67 ≤ Limits.unlimited.toNat :=
    Nat.le_trans (by have := ht.length_lt habove hu; omega) (by decide : 130 ≤ Limits.unlimited.toNat)
  rw [← Nat.add_assoc]
  exact ht.decides_refines hw (.single habove) hu hstatic hparams hmember le_rfl (.of_idle hp hlevels) hp.bounds
    fun y hy => absurd hy (hp.free y)

/-- The comparison of an heir with a parent answers what the comparisons of the members do together. -/
theorem Heir.compares_iff {erased answer : Bool} {b : String × Ty → Bool} (hw : w.Closed) (hstd : w.Standard)
    (ht : w.Heir c t) (habove : u ∈ w.above t) (hu : w.Refines cls rs u) (hstatic : w.decls.isStatic cls)
    (hparams : w.ParametersOnly cls) (hnothing : c ≠ Builtin.nothing.symbol) (hnull : c ≠ Builtin.null.symbol)
    (hrun : w.Compares erased t u answer)
    (hmember : ∀ r ∈ rs, r.1 ≠ Builtin.anyName →
      ∃ m v, t.member r.1 w = .ok (m, v) ∧ v.Compares erased m r.2 (b r)) :
    answer = true ↔ ∀ r ∈ rs, r.1 ≠ Builtin.anyName → b r = true := by
  have hhas : w.Has t := Option.isSome_of_eq_some ht.ref
  have hinfo := hu.has_info hw
  have hiff : answer = true ↔ Conforms erased w t u :=
    hrun.conforms_iff trivial hw.identity_matches ⟨rfl, hhas⟩ ⟨rfl, hu.has⟩
  rw [hiff]
  constructor
  · intro hconforms r hr hname
    obtain ⟨v₁, m', v₂, v₃, hv₁, hr', hv₂, hm'⟩ := ht.conforms_members hnothing hnull hu le_rfl hconforms r hr hname
    obtain ⟨m, v, hfound, hm⟩ := hmember r hr hname
    exact (hm.conforms_member hw hhas (hinfo r hr) hfound hv₁ hr' hv₂).2 hm'
  · intro hb
    refine ht.conforms_refines hw hstd (.single habove) hu hstatic hparams
      (fun r hr hname v₁ m' v₂ hv₁ hr' => ?_) le_rfl
    obtain ⟨m, v, hfound, hm⟩ := hmember r hr hname
    exact (hm.conforms_member hw hhas (hinfo r hr) hfound hv₁ hr' le_rfl).1 (hb r hr hname)

/-- **A class conforms to a parent that it declares, as far as its members do.** The parent is a reference to a static
class under refinements, and no search from the class meets a limit. The comparison with the parent then answers what
the comparisons of the refined members, as they are found in the class, do together. It answers true if each refinement
is what is found, and so if the class declares no members, the names of the refinements differ, and nothing above an
earlier parent speaks of them. -/
theorem isSubType_declared_parent (hw : w.Built) (ht : w.Heir c t) (hparent : u ∈ w.decls.parents c)
    (hu : w.Refines cls rs u) (hstatic : w.decls.isStatic cls) (hparams : w.ParametersOnly cls) :
    (c ≠ Builtin.nothing.symbol → c ≠ Builtin.null.symbol → ∀ erased answer (b : String × Ty → Bool),
      w.Compares erased t u answer →
      (∀ r ∈ rs, r.1 ≠ Builtin.anyName → ∃ m v, t.member r.1 w = .ok (m, v) ∧ v.Compares erased m r.2 (b r)) →
      (answer = true ↔ ∀ r ∈ rs, r.1 ≠ Builtin.anyName → b r = true)) ∧
    ((∀ r ∈ rs, r.1 ≠ Builtin.anyName → r.2.present ∧ ∃ v, t.member r.1 w = .ok (r.2, v)) → w.Answers t u true) ∧
    ∀ l l', w.decls.parents c = l ++ u :: l' → (∀ name space, w.decls.member? c name space = none) →
      (∀ q ∈ l, ∀ x, ReflTransGen (fun a b => b ∈ w.above a) q x → ∀ r ∈ rs, w.settles r.1 x = false) →
      (rs.map Prod.fst).Nodup → (∀ r ∈ rs, r.2.present) → w.Answers t u true := by
  have hstd := hw.standard
  have habove : u ∈ w.above t := by rwa [above_named ht.ref]
  refine ⟨fun hnothing hnull erased answer b hrun hmember => ?_, fun hmember => ?_,
    fun l l' hl hown hearlier hnodup hp => ?_⟩
  · exact ht.compares_iff hw.closed hstd habove hu hstatic hparams hnothing hnull hrun hmember
  · refine ht.answers_refines hstd habove hu hstatic hparams fun r hr hname => ?_
    obtain ⟨hpresent, v, hfound⟩ := hmember r hr hname
    have hhas : w.Has t := Option.isSome_of_eq_some ht.ref
    exact ⟨hpresent, fun v' hv' => hw.closed.member_later hhas (hu.has_info hw.closed r hr) hfound hv'⟩
  · refine ht.answers_refines hstd habove hu hstatic hparams fun r hr _ => ⟨hp r hr, fun v hv => ?_⟩
    exact ht.member_run hstd (fun space => hown r.1 space) hl (fun q hq x hx => hearlier q hq x hx r hr) hu hr hnodup
      (hp r hr) hv

/-! ### Two orders of the parents -/

/-- The references to the classes `K`, `A` and `C` that are declared below, and `K{T = Int}`, as the types 15 to 19. -/
def heirTypes : World :=
  let K := initial.types.intern (.named .noPrefix ⟨44⟩)
  let A := K.2.intern (.named .noPrefix ⟨46⟩)
  let C := A.2.intern (.named .noPrefix ⟨47⟩)
  let int := C.2.intern (.bounds Builtin.int.type Builtin.int.type)
  { initial with types := (int.2.intern (.refined ⟨15⟩ "T" ⟨18⟩)).2 }

/-- A class `K` with a type member `T`, a class `A` under `K`, and a class `C` under the given parents. -/
def heirWorld (parents : List Ty) : World :=
  let static : DeclFlags := { static := true }
  let K := heirTypes.decls.register
    { kind := .cls, name := "K", owner := .absent, flags := static, parents := [Builtin.object.type] }
  let T := K.2.register { kind := .abstractType, name := "T", owner := ⟨44⟩, info := ⟨14⟩ }
  let A := T.2.register { kind := .cls, name := "A", owner := .absent, flags := static, parents := [⟨15⟩] }
  let C := A.2.register { kind := .cls, name := "C", owner := .absent, flags := static, parents }
  { heirTypes with decls := C.2 }

theorem built_heirTypes : heirTypes.Built := by
  have hK : Built { initial with types := (initial.types.intern (.named .noPrefix ⟨44⟩)).2 } :=
    .intern .initial _ (mentions_named (by decide) _)
  have hA := Built.intern hK (.named .noPrefix ⟨46⟩) (mentions_named (by decide) _)
  have hC := Built.intern hA (.named .noPrefix ⟨47⟩) (mentions_named (by decide) _)
  have hint := Built.intern hC (.bounds Builtin.int.type Builtin.int.type)
    (mentions_bounds (by decide) (by decide))
  exact .intern hint (.refined ⟨15⟩ "T" ⟨18⟩) (mentions_refined (by decide) _ (by decide))

theorem built_heirWorld {parents : List Ty} (h : ∀ u ∈ parents, heirTypes.Has u) : (heirWorld parents).Built := by
  have hK := Built.register built_heirTypes { kind := .cls, name := "K", owner := .absent, flags := { static := true },
                                              parents := [Builtin.object.type] } (by decide) (by decide)
  have hT := Built.register hK { kind := .abstractType, name := "T", owner := ⟨44⟩, info := ⟨14⟩ } (by decide)
    (by decide)
  have hA := Built.register hT { kind := .cls, name := "A", owner := .absent, flags := { static := true },
                                 parents := [⟨15⟩] } (by decide) (by decide)
  exact .register hA { kind := .cls, name := "C", owner := .absent, flags := { static := true }, parents }
    (built_heirTypes.closed.fixed .noType (by decide)) h

/-- The types above `C`. -/
def heirAbove : List Ty := [⟨17⟩, ⟨19⟩, ⟨16⟩, ⟨15⟩, Builtin.object.type, Builtin.any.type]

theorem heir_heirWorld {parents : List Ty} (h : (heirWorld parents).shape? ⟨17⟩ = some (.named .noPrefix ⟨47⟩))
    (hclosed : ∀ x ∈ heirAbove, (heirWorld parents).isReference x ∧ ∀ y ∈ (heirWorld parents).above x, y ∈ heirAbove)
    (hshallow : (heirWorld parents).Shallow ⟨17⟩) : (heirWorld parents).Heir ⟨47⟩ ⟨17⟩ := by
  have hinside : ∀ {u}, ReflTransGen (fun a b => b ∈ (heirWorld parents).above a) ⟨17⟩ u → u ∈ heirAbove := by
    intro u hu
    induction hu with
    | refl => exact List.mem_cons_self
    | tail _ hb ih => exact (hclosed _ ih).2 _ hb
  exact ⟨h, fun hu => (hclosed _ (hinside hu)).1, hshallow⟩

theorem refines_heirWorld (parents : List Ty) : (heirWorld parents).Refines ⟨44⟩ [("T", ⟨18⟩)] ⟨19⟩ := by
  have hrefined : heirTypes.shape? ⟨19⟩ = some (.refined ⟨15⟩ "T" ⟨18⟩) := by decide
  have href : heirTypes.shape? ⟨15⟩ = some (.named .noPrefix ⟨44⟩) := by decide
  exact .refined hrefined (.bare href)

/-- With `K{T = Int}` before `A` the class conforms to it. -/
theorem isSubType_declared_parent_first : (heirWorld [⟨19⟩, ⟨16⟩]).Answers ⟨17⟩ ⟨19⟩ true := by
  have hbuilt : (heirWorld [⟨19⟩, ⟨16⟩]).Built := built_heirWorld (by decide)
  have hheir : (heirWorld [⟨19⟩, ⟨16⟩]).Heir ⟨47⟩ ⟨17⟩ := heir_heirWorld (by decide) (by decide)
    ⟨by decide, by decide⟩
  have hparent := isSubType_declared_parent hbuilt hheir (by decide) (refines_heirWorld _) (by decide)
    (fun htrait => absurd htrait (by decide))
  have hown : ∀ name space, (heirWorld [⟨19⟩, ⟨16⟩]).decls.member? ⟨47⟩ name space = none := by
    intro name space
    have hempty : ((heirWorld [⟨19⟩, ⟨16⟩]).decls.get? ⟨47⟩).all fun d =>
        d.typeMembers.entries.isEmpty && d.termMembers.entries.isEmpty := by decide
    rw [Declarations.member?]
    cases hd : (heirWorld [⟨19⟩, ⟨16⟩]).decls.get? ⟨47⟩ with
    | none => rfl
    | some d =>
      rw [hd, Option.all_some, Bool.and_eq_true, List.isEmpty_iff, List.isEmpty_iff] at hempty
      cases space <;> simp [Declaration.members, InsertionMap.find?, hempty]
  exact hparent.2.2 [] [⟨16⟩] (by decide +kernel) hown (fun q hq => absurd hq List.not_mem_nil) (by decide) (by decide)

/-- With `A` before `K{T = Int}` it does not, although the parents are accepted: the type member that is found is the
one that `K` declares. -/
theorem isSubType_declared_parent_later :
    let w := heirWorld [⟨16⟩, ⟨19⟩]
    let c : Comparer := { options := {}, constraint := ⟨{}, 0⟩, depth := { threshold := 50 },
                          pending := { bounds := .none } }
    w.Built ∧ w.Heir ⟨47⟩ ⟨17⟩ ∧ w.Refines ⟨44⟩ [("T", ⟨18⟩)] ⟨19⟩ ∧ w.declaresType ⟨44⟩ "T" ∧
      ((setParents ⟨47⟩ [⟨16⟩, ⟨19⟩] (heirWorld [])).toOption.map (·.2.decls.parents ⟨47⟩)) = some [⟨16⟩, ⟨19⟩] ∧
      w.decls.parents ⟨47⟩ = [⟨16⟩, ⟨19⟩] ∧ c.AtRest ∧
      ((CompareM.isSubType 60 ⟨17⟩ ⟨19⟩ c w).toOption.map (·.1.1)) = some false := by
  intro w c
  have hheir : w.Heir ⟨47⟩ ⟨17⟩ := heir_heirWorld (by decide) (by decide)
    ⟨by decide, by decide⟩
  exact ⟨built_heirWorld (by decide +kernel), hheir, refines_heirWorld _, by decide +kernel, by decide +kernel,
    by decide +kernel, ⟨rfl, rfl, rfl, rfl, rfl⟩, by decide +kernel⟩

end World

end Conformance
