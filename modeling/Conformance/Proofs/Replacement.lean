import Conformance.Proofs.NullSafety
import Conformance.Proofs.Selections

/-!
# One source in place of another

What a target asks of a source, it asks of any other source that the first one's clause leads to.
-/

namespace Conformance

open CompareM

/-- A walk that does not go beyond the type it starts at. -/
theorem Walk.run_of_answer {α : Type} {refused a : α} {step : (Ty → WalkM α) → Ty → WalkM α} {t : Ty} {w w' : World}
    (hle : w ≤ w') (h : ∀ next g, step next t g w = .ok ((a, g), w')) : Walk.run refused step t w = .ok (a, w') := by
  have hstep : Finds [t] 1 1 w (step (Walk.descend refused step 64) t) fun b v => b = a ∧ v = w' :=
    fun g hg => ⟨a, g, w', h _ g, hg, hle, rfl, rfl⟩
  have hwalk := finds_descend List.not_mem_nil (Nat.zero_lt_succ 63) (by omega) hstep
  obtain ⟨b, v, hr, -, rfl, rfl⟩ := finds_run hwalk
  exact hr

/-- Each trait of type constructors stays a class. -/
theorem World.Built.isClass_trait {w : World} {s : Symbol} (hw : w.Built) (hs : Builtin.isTrait s) :
    w.decls.isClass s := by
  suffices hkind : (w.decls.get? s).map (·.kind) = some .cls by
    simp only [Declarations.isClass, Declarations.kind?, hkind]
    rfl
  induction hw with
  | initial =>
    have htraits : ∀ t ∈ Builtin.traits, (World.initial.decls.get? t.2).map (·.kind) = some .cls := by decide
    obtain ⟨t, ht, hts⟩ := List.any_eq_true.1 hs
    exact of_decide_eq_true hts ▸ htraits t ht
  | @register w _ d _ _ ih =>
    obtain ⟨e, he, hkind⟩ := Option.map_eq_some_iff.1 ih
    simp only [Declarations.register, Declarations.get?_update, World.get?_push he, Option.map_some]
    split
    · cases d.kind <;> exact congrArg some hkind
    · exact congrArg some hkind
  | parents _ s' parents _ ih =>
    simp only [Declarations.setParents, Declarations.get?_update]
    split
    · rw [Option.map_map]
      exact ih
    · exact ih
  | _ => assumption

/-- Whether aliases and refinements lead nowhere from the shape. -/
def Shape.isHeadless : Shape → Bool
  | .named .. | .refined .. | .classInfo .. => false
  | _ => true

/-- Whether the shape is one whose clause leads to other types, or bounds. -/
def Shape.isOutline : Shape → Bool
  | .named .. | .union .. | .bounds .. => true
  | _ => false

namespace CompareM

/-! ## Markers and traits -/

section Readings

variable {erased : Bool} {w w₀ : World} {x t : Ty} {d : Shape} {S : World → Ty → Ty → Prop}

theorem typeSymbol?_headless (hx : w.shape? x = some d) (hd : d.isHeadless) : w.typeSymbol? x = none := by
  rw [World.typeSymbol?, World.typeSymbolFrom]
  split
  · rw [World.shape_of_shape? hx]
    cases d <;> first | rfl | cases hd
  · rfl

/-- The rule for the null class takes a constructor, behind aliases. -/
theorem not_nullConforms_unnamed (haliased : w.aliased? x = none) (hx : w.typeSymbol? x = none) {v : World} :
    nullConforms x w ≠ .ok (true, v) := by
  have hdealias : w.dealias x = x := by rw [World.dealias, World.dealiasFrom, haliased]
  rw [nullConforms, get_bind_run, hdealias, hx]
  rintro ⟨⟩

theorem not_isNotNull_inert (hx : w.shape? x = some d) (hd : isInert d) (hvar : d.isVar = false) {v : World} :
    x.isNotNull w ≠ .ok (true, v) := by
  have hstep (n : Nat) : Ensures w (Walk.descend false Nullability.step (n + 1) x) (· ≠ true) := by
    refine ensures_inside Bool.false_ne_true (.world_bind fun v hv => ?_)
    rw [World.shape_of_shape? (hv.shape hx)]
    cases d with
    | var => cases hvar
    | _ => first | exact .pure Bool.false_ne_true | cases hd
  exact fun h => ensures_run (hstep _) le_rfl h rfl

theorem named_of_targetSymbol (ht : targetSymbol w t ≠ .absent) : ∃ q, w.shape? t = some (.named q (targetSymbol w t)) := by
  unfold targetSymbol at ht ⊢
  cases hd : w.shape t with
  | named q s => exact ⟨q, World.shape?_of_shape hd nofun⟩
  | _ =>
    rw [hd] at ht
    exact absurd rfl ht

theorem not_isStable_outline (hx : w.shape? x = some d) (hd : d.isOutline) (n : Nat) : w.isStable n x ≠ .ok true := by
  intro h
  cases n with
  | zero => cases h
  | succ n =>
    rw [World.isStable, World.shape_of_shape? hx] at h
    cases d with
    | named | union | bounds => cases h
    | _ => cases hd

/-- A type that names no constructor has no open parameters, and every trait has parameters. -/
theorem not_conformsAsConstructor_unnamed {n : Nat} (hw₀ : w₀.Built) (hdecls : w.decls = w₀.decls)
    (hx : ∀ v, w ≤ v → v.typeSymbol? x = none) (htrait : Builtin.isTrait (targetSymbol w t)) :
    ¬ Affirmed erased w (conformsAsConstructor n (asking S) x t) := by
  have hnone : ¬ Builtin.isTrait .absent := by decide
  obtain ⟨q, ht⟩ := named_of_targetSymbol (w := w) (t := t) fun h => hnone (h ▸ htrait)
  generalize targetSymbol w t = s at ht htrait
  have hcls : w.decls.isClass s := hdecls ▸ hw₀.isClass_trait htrait
  have hparams : w.decls.typeParams s ≠ [] := hdecls ▸ hw₀.typeParams_trait htrait
  rintro ⟨c, c', w', -, hr⟩
  have hdemands : Demands w (conformsAsConstructor n (asking S) x t) False := by
    refine demands_conformsAsConstructor fun v params args hv hopen hargs hlength => ?_
    rw [World.openTypeParams, hx v hv] at hopen
    obtain rfl : [] = params := by cases hopen; rfl
    rw [← hv.decls] at hcls hparams
    exact World.typeArgs_ne_nil (hv.shape ht) hcls hparams hargs (List.length_eq_zero_iff.1 hlength.symm)
  exact (hdemands c w true c' w' le_rfl hr).2 rfl

theorem not_conformsAsConstructor_headless {n : Nat} (hw₀ : w₀.Built) (hdecls : w.decls = w₀.decls)
    (hx : w.shape? x = some d) (hd : d.isHeadless) (htrait : Builtin.isTrait (targetSymbol w t)) :
    ¬ Affirmed erased w (conformsAsConstructor n (asking S) x t) :=
  not_conformsAsConstructor_unnamed hw₀ hdecls (fun _ hv => typeSymbol?_headless (hv.shape hx) hd) htrait

end Readings

section NotNull

variable {erased : Bool} {ρ : Corr} {w : World} {t u q : Ty}

theorem ends?_notNull (hw : w.Standard) (hu : w.shape? u = some (.named q Builtin.notNull.symbol)) :
    w.ends? u = none := by
  have hcls := hw.isClass .notNull
  rw [World.ends?, World.shape_of_shape? hu]
  simp only [Declarations.isClass, decide_eq_true_eq] at hcls
  simp only [hcls]

variable (hM : ρ.Matches w w) (hw : w.Standard) (kt : ρ.ty t t) (ku : ρ.ty u u)
  (hu : w.shape? u = some (.named q Builtin.notNull.symbol))
include hM hw kt ku hu

/-- Nothing but a placeholder or a variable gets past the marker for types without `null`. -/
theorem conforms_notNull (hpt : t.present) (hnot : intercepts (w.shape t) = false)
    (h : (∃ v, t.isNotNull w = .ok (true, v)) ∨ Below erased (Conforms erased) w t u) : Conforms erased w t u := by
  have hends := ends?_notNull hw hu
  have hsymbol : targetSymbol w u = Builtin.notNull.symbol := by rw [targetSymbol, World.shape_of_shape? hu]
  obtain ⟨n, hread⟩ := exists_readable (t := t) (u := u) (w := w) fun hs => by
    rw [hsymbol] at hs
    cases hs
  have hthird : Affirmed erased w (thirdNamed n (asking (Conforms erased)) t u) := by
    refine (tells_thirdNamed_none carried_conforms hM kt ku hw hends hread).affirmed_iff.2 ?_
    exact h.elim (fun h => .inr (.inl ⟨hsymbol, h⟩)) fun h => .inr (.inr (.inr h))
  exact conforms_of_holds hM kt ku hpt (hw.present hu (by rintro ⟨⟩)) (holds_of_thirdNamed hM kt ku
    (by rw [World.shape_of_shape? hu]; rfl) hnot (World.not_apart_of_static hu (hw.isStatic .notNull)) hthird)

/-- **What excludes `null` conforms to the marker for that.** The induction is on the levels of the walk. -/
theorem ensures_notNull (n : Nat) :
    Ensures w (Walk.descend false Nullability.step n t) fun answer => answer = true → Conforms erased w t u := by
  induction n generalizing ρ w t with
  | zero => intro g v a g' v' _ hr; cases hr
  | succ n ih =>
    obtain ⟨d, -, hd, -, -⟩ := hM.ty kt
    have hmeets {v : World} (hv : w ≤ v) (hne : d ≠ .fixed .noType) (hnot : intercepts d = false)
        (h : (∃ v', t.isNotNull v = .ok (true, v')) ∨ Below erased (Conforms erased) v t u) : Conforms erased w t u := by
      have hnot : intercepts (v.shape t) = false := World.shape_of_shape? (hv.shape hd) ▸ hnot
      have hlater : Conforms erased v t u := conforms_notNull (hM.grow hv hv) (hw.grow hv) kt ku (hv.shape hu)
        (hw.present hd hne) hnot h
      exact hlater.transport (hM.grow hv le_rfl) kt ku
    refine ensures_inside nofun (.world_bind fun v hv => ?_)
    rw [World.shape_of_shape? (hv.shape hd), hv.decls]
    have hrest (hsingle : d.isSingleton) :
        Ensures w (liftM t.underlying >>= Walk.descend false Nullability.step n) fun answer =>
          answer = true → Conforms erased w t u := by
      refine .lift_bind (grows_underlying t) fun x v v' hv hunder => ?_
      have hM' := hM.grow hv hv
      have hle := (grows_underlying t).le_of_ok hunder
      obtain ⟨σ, hσ, hMσ, kx⟩ := hM'.made (sim_underlying kt) hunder
      refine (ih hMσ ((hw.grow hv).grow hle) kx (hσ.ty ku) ((hv.trans hle).shape hu)).mono fun _ h ha => ?_
      refine hmeets hv (by rintro rfl; cases hsingle) (by cases d <;> first | rfl | cases hsingle) (.inr ?_)
      exact (below_single carried_conforms hM' kt ku (hv.shape hd) hsingle hunder).2 (h ha)
    cases d with
    | literal | self =>
      refine .pure fun _ => hmeets le_rfl nofun rfl (.inl ⟨w, Walk.run_of_answer le_rfl fun next g => ?_⟩)
      rw [Nullability.step, Walk.run_world_bind, World.shape_of_shape? hd]
      rfl
    | named q s =>
      refine .ite (fun hcls => .lift (grows_classExcludes s) fun v answer v' hv hr ha => ?_) fun hcls => ?_
      · subst ha
        refine hmeets hv nofun rfl (.inl ⟨v', Walk.run_of_answer ((grows_classExcludes s).le_of_ok hr) fun next g => ?_⟩)
        rw [Nullability.step, Walk.run_world_bind, World.shape_of_shape? (hv.shape hd)]
        dsimp only
        rw [if_pos (hv.decls ▸ hcls)]
        exact run_lift hr g
      · refine .lift_bind (grows_upperBound t) fun x v v' hv hupper => ?_
        have hM' := hM.grow hv hv
        have hle := (grows_upperBound t).le_of_ok hupper
        obtain ⟨σ, hσ, hMσ, kx⟩ := hM'.made (sim_upperBound kt) hupper
        refine (ih hMσ ((hw.grow hv).grow hle) kx (hσ.ty ku) ((hv.trans hle).shape hu)).mono fun _ h ha => ?_
        refine hmeets hv nofun rfl (.inr ((below_named carried_conforms hM' kt ku (hv.shape hd) hupper).2 ?_))
        exact .inr (.inr ⟨hv.decls ▸ hcls, h ha⟩)
    | refined parent name info =>
      cases hM.parts kt hd with | refined kp _ _ =>
      refine (ih hM hw kp ku hu).mono fun _ h ha => hmeets le_rfl nofun rfl (.inr ?_)
      exact (below_refined carried_conforms hM kt ku hd).2 (h ha)
    | inter a b =>
      cases hM.parts kt hd with | inter ka kb =>
      refine ((ih hM hw ka ku hu).orElse (ih hM hw kb ku hu)).mono fun _ h ha => hmeets le_rfl nofun rfl (.inr ?_)
      exact (below_inter carried_conforms hM kt ku hd).2 (h ha)
    | union a b =>
      cases hM.parts kt hd with | union ka kb =>
      refine ((ih hM hw ka ku hu).andThen (ih hM hw kb ku hu)).mono fun _ h ha => hmeets le_rfl nofun rfl (.inr ?_)
      exact (below_union carried_conforms hM kt ku hd).2 (h ha)
    | var i =>
      refine .lift_bind (grows_underlying t) fun x v v' hv hunder => ?_
      rw [Ty.underlying, get_bind_run, World.shape_of_shape? (hv.shape hd)] at hunder
      cases hunder
      have hM' := hM.grow hv hv
      refine (ih hM' (hw.grow hv) (hM'.held kt (hv.shape hd)) ku (hv.shape hu)).mono fun _ h ha => ?_
      have hpu : u.present := hw.present hu nofun
      have hlater : Conforms erased v t u := (conforms_var_left hM' (hw.grow hv) (hv.shape hd) (h ha).present.1
        (.leaf hpu (hv.shape hu) rfl nofun) kt ku).2 (h ha)
      exact hlater.transport (hM.grow hv le_rfl) kt ku
    | path => exact hrest rfl
    | skolem => exact hrest rfl
    | valueParam => exact hrest rfl
    | _ => exact .pure nofun

omit kt in
/-- What excludes `null` as a union does so in both operands. -/
theorem conforms_notNull_union {m a b : Ty} {v : World} (hm : w.shape? m = some (.union a b)) (km : ρ.ty m m)
    (h : m.isNotNull w = .ok (true, v)) : Conforms erased w a u ∧ Conforms erased w b u := by
  cases hM.parts km hm with | union ka kb =>
  have hstep (n : Nat) : Ensures w (Walk.descend false Nullability.step (n + 1) m) fun answer =>
      answer = true → Conforms erased w a u ∧ Conforms erased w b u := by
    refine ensures_inside nofun (.world_bind fun v hv => ?_)
    rw [World.shape_of_shape? (hv.shape hm)]
    exact (ensures_notNull hM hw ka ku hu n).andThen (ensures_notNull hM hw kb ku hu n)
  exact ensures_run (hstep _) le_rfl h rfl

end NotNull

end CompareM

/-! ## Replacing a source -/

/-- What a target goes on to ask the same source for. -/
inductive World.Through (w : World) : Ty → Ty → Prop
  | var {u : Ty} {i : VarId} (shape : w.shape? u = some (.var i)) : Through w u (w.varUnderlying i)
  | lower {u lo hi : Ty} (ends : w.ends? u = some (lo, hi)) : Through w u lo
  | parent {u parent info : Ty} {name : String} (shape : w.shape? u = some (.refined parent name info)) :
    Through w u parent
  | meet {u a b v : Ty} (shape : w.shape? u = some (.inter a b)) (operand : v = a ∨ v = b) : Through w u v
  | join {u a b v : Ty} (shape : w.shape? u = some (.union a b)) (operand : v = a ∨ v = b) : Through w u v

theorem World.Through.known {ρ : Corr} {w : World} {u x : Ty} (h : w.Through u x) (hM : ρ.Matches w w) (ku : ρ.ty u u) : ρ.ty x x := by
  cases h with
  | var hshape => exact hM.held ku hshape
  | lower hends => exact (ends?_known hM ku hends).1
  | parent hshape => cases hM.parts ku hshape with | refined kp _ _ => exact kp
  | meet hshape hoperand =>
    cases hM.parts ku hshape with | inter ka kb =>
    rcases hoperand with rfl | rfl
    · exact ka
    · exact kb
  | join hshape hoperand =>
    cases hM.parts ku hshape with | union ka kb =>
    rcases hoperand with rfl | rfl
    · exact ka
    · exact kb

namespace CompareM

section Replacing

variable {erased : Bool} {ρ : Corr} {w : World} {S : World → Ty → Ty → Prop} {j x u : Ty} {e : Shape}

/-- A refinement is met by what meets the refined type and has a member that fits. -/
theorem conforms_refined {P : Ty → Prop} {parent info : Ty} {name : String} (hM : ρ.Matches w w) (hw : w.Standard)
    (hu : w.shape? u = some (.refined parent name info)) (hx : w.Unfolds x) (kx : ρ.ty x x) (ku : ρ.ty u u)
    (hfits : ∀ y, ρ.ty y y → w.Unfolds y → intercepts (w.shape y) = false → P y → Conforms erased w y parent →
      name = Builtin.anyName ∨ w.MemberFits (Conforms erased) y name info)
    (hvar : ∀ y i, ρ.ty y y → w.shape? y = some (.var i) → P y → P (w.varUnderlying i)) (hP : P x)
    (h : Conforms erased w x parent) : Conforms erased w x u := by
  cases hM.parts ku hu with | refined kp _ _ =>
  have hd := World.shape_of_shape? hu
  refine conforms_of_meets hM hw (P := fun y => P y ∧ Conforms erased w y parent) hx kx ku (hw.present hu nofun)
    (by rw [hd]; rfl) (fun y ky hy hnot hPy => ?_) (fun y i ky hi hpi hPy => ?_) ⟨hP, h⟩
  · exact (holds_of_tells carried_conforms hM ky ku (by rw [hd]; rfl) hnot (by rw [hd]; exact Bool.and_false _)
      fun n => tells_third_refined carried_conforms hM ky ku hu).2 (.inl ⟨hPy.2, hfits y ky hy hnot hPy.1 hPy.2⟩)
  · exact ⟨hvar y i ky hi hPy.1, underlying_conforms hPy.2 hM hw ky kp hi hpi⟩

/-- A member of one source that fits is taken for that of another one where the other's fits as well, when it is looked up
after the first. -/
theorem memberFits_of_replaced {info : Ty} {name : String} (hS : Carried S S) (hM : ρ.Matches w w) (kj : ρ.ty j j)
    (kx : ρ.ty x x) (ki : ρ.ty info info) (h : w.MemberFits S j name info)
    (hfits : ∀ {σ w₁ w₂ i l}, j.member name w = .ok (i, w₁) → S w₁ i info → x.member name w₁ = .ok (l, w₂) → w ≤ w₂ →
      ρ ≤ σ → σ.Matches w₂ w₂ → σ.ty i i → σ.ty l l → S w₂ i info → Conforms erased w₂ l info) :
    w.MemberFits (Conforms erased) x name info := by
  obtain ⟨i, w₁, hi, hmeets⟩ := h
  have hle₁ := (grows_member j name).le_of_ok hi
  obtain ⟨σ, hσ, hMσ, kmember⟩ := hM.made (sim_member kj name) hi
  obtain ⟨l, w₂, hl, hle₂⟩ := (grows_member x name).total w₁
  obtain ⟨τ, hτ, hMτ, kl⟩ := hMσ.made (sim_member (hσ.ty kx) name) hl
  have hlater : S w₂ i info := hS σ w₁ w₂ i i info info (hMσ.grow le_rfl hle₂) kmember (hσ.ty ki) hmeets
  have hl' := hfits hi hmeets hl (hle₁.trans hle₂) (hσ.trans hτ) hMτ (hτ.ty kmember) kl hlater
  -- the member is the same when it is looked up first
  obtain ⟨l₀, w₃, hl₀, -⟩ := (grows_member x name).total w
  have hsim : Sim False ρ Corr.ty (x.member name) (x.member name) := sim_member kx name
  have hagree := hsim ρ w w₁ le_rfl (hM.grow le_rfl hle₁)
  rw [hl₀, hl] at hagree
  obtain ⟨υ, hυ, hMυ, hpair⟩ := hagree
  exact ⟨l₀, w₃, hl₀, hl'.transport hMυ.symm hpair (hυ.ty ki)⟩

/-- **What one source is let in for, another one is**, if it is for what the target goes on to, for what the clause of
the first source leads to, and where the target looks at the source itself. -/
theorem conforms_of_replaced (hS : Carried S S) (hM : ρ.Matches w w) (hw : w.Standard) (kj : ρ.ty j j) (kx : ρ.ty x x)
    (ku : ρ.ty u u) (hj : w.shape? j = some e) (he : e.isOutline) (hpu : u.present) (hx : w.Unfolds x)
    (hnext : ∀ v, w.Through u v → S w j v → Conforms erased w x v)
    (hbelow : Below erased S w j u → Conforms erased w x u)
    (hapart : ∀ lo hi, w.ends? u = some (lo, hi) → S w j lo → ¬ w.Apart erased x u)
    (hnames : (w.shape j).isNamed → (w.shape u).isNamed → ∀ n, Affirmed erased w (names n (asking S) j u) →
      Conforms erased w x u ∨ Affirmed erased w (thirdNamed n (asking S) j u))
    (hnotNull : ∀ q v, w.shape? u = some (.named q Builtin.notNull.symbol) → j.isNotNull w = .ok (true, v) →
      Conforms erased w x u)
    (htrait : ∀ n, Builtin.isTrait (targetSymbol w u) → Affirmed erased w (conformsAsConstructor n (asking S) j u) →
      Conforms erased w x u)
    (hmember : ∀ parent name info, w.shape? u = some (.refined parent name info) → S w j parent →
      Conforms erased w x parent → name = Builtin.anyName ∨ w.MemberFits S j name info → Conforms erased w x u)
    (hbounds : ∀ lo hi lo' hi', w.shape? u = some (.bounds lo hi) → w.shape? j = some (.bounds lo' hi') → S w lo lo' →
      S w hi' hi → Conforms erased w x u)
    (h : Holds erased S w j u) : Conforms erased w x u := by
  have hpx := hx.present hw
  have hshape := World.shape_of_shape? hj
  have hnot : intercepts (w.shape j) = false := by
    rw [hshape]
    cases e <;> first | rfl | cases he
  obtain ⟨d, -, hd, -, -⟩ := hM.ty ku
  have hshape' := World.shape_of_shape? hd
  by_cases hhole : isHole (w.shape u)
  · exact conforms_hole_right hM kx ku hpx hpu hhole
  by_cases hnamed : (w.shape u).isNamed
  · have hthird : Conforms erased w x u ∨ ∃ n, Affirmed erased w (thirdNamed n (asking S) j u) := by
      by_cases hj' : (w.shape j).isNamed
      · obtain ⟨n, hn⟩ := (holds_names hS hM kj ku hj' hnamed).1 h
        exact (hnames hj' hnamed n hn).imp_right fun h => ⟨n, h⟩
      · exact .inr ((holds_named hS hM kj ku hnamed (Bool.eq_false_iff.2 hj') hnot).1 h)
    rcases hthird with h | ⟨n, hn⟩
    · exact h
    match hends : w.ends? u with
    | some (lo, hi) =>
      rcases (tells_thirdNamed_ends hS hM kj ku hw hends).affirmed_iff.1 hn with hlo | h
      · exact conforms_of_lower hM kx ku hw hends hx (hapart lo hi hends hlo) (hnext lo (.lower hends) hlo)
      · exact hbelow h
    | none =>
      have hread := readable_of_affirmed hM ku hw hends hn kj
      rcases (tells_thirdNamed_none hS hM kj ku hw hends hread).affirmed_iff.1 hn with
        ⟨-, h⟩ | ⟨hs, v, h⟩ | ⟨hs, h⟩ | h
      · exact absurd h (not_isStable_outline hj he n)
      · obtain ⟨q, hu⟩ := named_of_targetSymbol (w := w) (t := u) (by rw [hs]; decide)
        exact hnotNull q v (hs ▸ hu) h
      · exact htrait n hs h
      · exact hbelow h
  have hmet {P : Prop} (hnot' : intercepts d = false) (htells : ∀ n, Tells erased w (third n (asking S) j u) P) : P :=
    (holds_of_tells hS hM kj ku (hshape' ▸ hnot') hnot (by rw [Bool.eq_false_iff.2 hnamed]; exact Bool.and_false _)
      htells).1 h
  have hrest (hd' : leaves d e) (hnot' : intercepts d = false) : Conforms erased w x u :=
    hbelow (hmet hnot' fun n => tells_third_leaves hS hM kj ku hd hj hd')
  cases d with
  | named | path =>
    rw [hshape'] at hnamed
    exact absurd rfl hnamed
  | var i =>
    have hi := hnext _ (.var hd) ((holds_var_right hS hM kj ku hd).1 h)
    by_cases hxu : x = u
    · rw [hxu]
      exact .refl hpu
    · exact (conforms_var_right_of_ne hM hw hd kx ku hpx hxu).2 hi
  | inter a b =>
    obtain ⟨ha, hb⟩ := hmet rfl fun n => tells_third_inter hS hM kj ku hd
    exact conforms_inter hM hw hd hx kx ku (hnext a (.meet hd (.inl rfl)) ha) (hnext b (.meet hd (.inr rfl)) hb)
  | union a b =>
    rcases hmet rfl fun n => tells_third_union hS hM kj ku hd with ha | hb | h
    · exact conforms_union_right hM hw hd hx kx ku (.inl (hnext a (.join hd (.inl rfl)) ha))
    · exact conforms_union_right hM hw hd hx kx ku (.inr (hnext b (.join hd (.inr rfl)) hb))
    · exact hbelow h
  | refined parent name info =>
    rcases hmet rfl fun n => tells_third_refined hS hM kj ku hd with ⟨hp, hfits⟩ | h
    · exact hmember parent name info hd hp (hnext parent (.parent hd) hp) hfits
    · exact hbelow h
  | fixed k =>
    refine hrest (by cases e <;> rfl) ?_
    rw [hshape'] at hhole
    cases k <;> first | rfl | exact absurd rfl hhole
  | bounds lo hi =>
    cases e with
    | bounds lo' hi' =>
      obtain ⟨hlo, hhi⟩ := hmet rfl fun n => tells_third_bounds hS hM kj ku hd hj
      exact hbounds lo hi lo' hi' hd hj hlo hhi
    | named | union => exact hrest rfl rfl
    | _ => cases he
  | _ => exact hrest (by cases e <;> first | rfl | cases he) rfl

end Replacing

end CompareM

end Conformance
