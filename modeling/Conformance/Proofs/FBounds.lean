import Conformance.Proofs.Evaluation
import Conformance.Proofs.Repetition

/-!
# Parameters bounded by themselves

A class `C` below `K{T = C}` against a parameter `X` that is declared below `K{T = X}`. The comparison narrows `X` from
below to `C`, checks `C` against the bound of `X`, meets `X` again, narrows it from above to `C` as well and checks `C`
against the bound once more. Where comparisons are monitored from the fifth level on, the second round is let in and the
answer is true; where they are monitored earlier, it meets a pair of the first round and is refused.
-/

namespace Conformance

open CompareM

/-! ## The path of open comparisons -/

/-- The pairs of a path of open comparisons, the last one in front, that are monitored. -/
def watched (limit : UInt32) (path : List (Ty × Ty)) : List (Ty × Ty) :=
  path.take (path.length + 1 - limit.toNat)

/-- A pair further back on the path is pending if it was entered at the threshold or deeper. -/
theorem mem_watched_iff {limit : UInt32} {l r : List (Ty × Ty)} {pair : Ty × Ty} (hl : pair ∉ l) :
    pair ∈ watched limit (l ++ pair :: r) ↔ limit.toNat ≤ r.length + 1 := by
  unfold watched
  rw [List.length_append, List.length_cons, List.take_append, List.mem_append]
  constructor
  · rintro (h | h)
    · exact absurd (List.mem_of_mem_take h) hl
    · by_contra hdeep
      rw [show l.length + (r.length + 1) + 1 - limit.toNat - l.length = 0 by omega] at h
      cases h
  · intro hdeep
    obtain ⟨m, hm⟩ : ∃ m, l.length + (r.length + 1) + 1 - limit.toNat - l.length = m + 1 :=
      ⟨r.length + 1 - limit.toNat, by omega⟩
    rw [hm, List.take_succ_cons]
    exact .inr List.mem_cons_self

/-- The place is where the comparisons of the path lead, from a comparer at rest. -/
structure Place.Along (limit : UInt32) (path : List (Ty × Ty)) (p : Place) : Prop where
  threshold : p.threshold = limit
  level : p.level = path.length
  bounds : p.bounds = .none
  pending : p.pending = watched limit path
  pendingDepth : p.pendingDepth = p.pending.length

namespace Place.Along

variable {limit : UInt32} {path : List (Ty × Ty)} {p p' : Place} {pair : Ty × Ty}

theorem opens (h : p.Along limit path) (hp : Opens p pair p') : p'.Along limit (pair :: path) := by
  obtain ⟨ht, hl, hb, hpend, hd⟩ := h
  cases hp with
  | direct hmode =>
    have hshallow : p.level + 1 < p.threshold.toNat := by
      simpa [Place.mode] using hmode
    rw [ht, hl] at hshallow
    refine ⟨ht, congrArg (· + 1) hl, hb, ?_, hd⟩
    show p.pending = _
    rw [hpend, watched, watched, List.length_cons]
    rw [show path.length + 1 - limit.toNat = 0 by omega, show path.length + 1 + 1 - limit.toNat = 0 by omega]
    rfl
  | monitored hmode _ =>
    have hdeep : limit.toNat ≤ path.length + 1 := by
      have hmode : ¬ p.level + 1 < p.threshold.toNat := by simpa [Place.mode] using hmode
      rw [ht, hl] at hmode
      omega
    refine ⟨ht, congrArg (· + 1) hl, hb, ?_, congrArg (· + 1) hd⟩
    show pair :: p.pending = _
    rw [hpend, watched, watched, List.length_cons]
    rw [show path.length + 1 + 1 - limit.toNat = path.length + 1 - limit.toNat + 1 by omega,
      List.take_succ_cons]

theorem hasRoom (h : p.Along limit path) (hshort : path.length < 1000) : HasRoom p 1000 := by
  have hlimit : Limits.unlimited.toNat = 4294967295 := rfl
  have hpending : p.pending.length ≤ path.length := by
    rw [h.pending]
    exact List.length_take_le' _ _
  refine ⟨?_, ?_, ?_⟩
  · rw [h.level]; omega
  · rw [h.pendingDepth]; omega
  · omega

theorem monitored (h : p.Along limit path) (hpair : pair ∈ watched limit path) : p.mode = .monitored := by
  by_contra hmode
  have hshallow : path.length + 1 < limit.toNat := by
    rw [← h.level, ← h.threshold]
    by_contra hdeep
    exact hmode (if_neg hdeep)
  rw [watched, show path.length + 1 - limit.toNat = 0 by omega] at hpair
  cases hpair

theorem free (h : p.Along limit path) (hpair : pair ∉ watched limit path) : pair ∉ p.pending := by
  rw [h.pending]
  exact hpair

end Place.Along

theorem not_mem_watched {limit : UInt32} {path : List (Ty × Ty)} {pair : Ty × Ty} (h : pair ∉ path) :
    pair ∉ watched limit path := fun hpair => h (List.mem_of_mem_take hpair)

/-! ## Classes in the later steps -/

section Classes

variable {p : Place} {s : ConstraintStore} {w v : World} {n : Nat} {sub : Ty → Ty → CompareM Bool} {t u q : Ty}
  {cls : Symbol} {P : Prop}

/-- In the last step a class conforms only if it is the null class. -/
theorem decidesIff_fourth_class (hw : w.Closed) (hv : w ≤ v) (ht : v.shape? t = some (.named q cls))
    (hcls : v.decls.isClass cls) (hnothing : cls ≠ Builtin.nothing.symbol) (hu : w.Has u) :
    DecidesIff p s v (fourth sub t u) (cls = Builtin.null.symbol ∧ w.Nullable u) := by
  by_cases hnull : cls = Builtin.null.symbol
  · obtain ⟨b, v', hr, hle, hb⟩ := hw.nullConforms_run hu hv
    refine .world_bind ?_
    rw [World.shape_of_shape? ht]
    simp only [if_neg hnothing, if_pos hnull, hcls, if_true]
    have hnullable : DecidesIff p s v (liftM (nullConforms u)) (w.Nullable u) :=
      (yields_run hr hle).mono fun a s' v'' _ ⟨ha, hs, _⟩ => ⟨by rw [ha]; exact hb, hs⟩
    refine (hnullable.orElse fun v₁ _ => decides_pure.decidesIff_false not_false).congr ?_
    rw [or_false, and_iff_right hnull]
  · exact (decides_fourth_class ht hcls hnothing hnull).decidesIff_false fun h => hnull h.1

/-- A class that is no trait is the target of what the last step accepts, and if it is the marker, of what is never
null. -/
theorem decidesIff_thirdNamed_class (hw : w.Closed) (hv : w ≤ v) (ht : w.Has t)
    (hu : v.shape? u = some (.named q cls)) (hcls : v.decls.isClass cls) (htrait : Builtin.isTrait cls = false)
    (hstable : ∀ v', v ≤ v' → v'.isStable n t = .ok false)
    (h : ∀ v', v ≤ v' → DecidesIff p s v' (fourth sub t u) P) :
    DecidesIff p s v (thirdNamed n sub t u) (cls = Builtin.notNull.symbol ∧ w.NeverNull t ∨ P) := by
  refine yields_thirdNamed_class hu hcls fun v₁ hv₁ => .orElse ?_ fun v₂ hv₂ => DecidesIff.orElse ?_ fun v₃ hv₃ => ?_
  · refine .ite (fun _ => ?_) fun _ => decides_pure
    exact (yields_reading (hstable v₁ hv₁)).mono fun _ _ _ _ ⟨ha, hs, _⟩ => ⟨ha, hs⟩
  · by_cases hnotNull : cls = Builtin.notNull.symbol
    · obtain ⟨b, v', hr, hle, hb⟩ := hw.isNotNull_run ht (hv.trans (hv₁.trans hv₂))
      rw [if_pos hnotNull]
      refine (yields_run hr hle).mono fun a s' v'' _ ⟨ha, hs, _⟩ => ⟨?_, hs⟩
      rw [ha, hb, and_iff_right hnotNull]
    · rw [if_neg hnotNull]
      exact decides_pure.decidesIff_false fun h => hnotNull h.1
  · rw [htrait]
    exact Yields.orElse decides_pure fun v₄ hv₄ => h v₄ (hv₁.trans (hv₂.trans (hv₃.trans hv₄)))

/-- The bottom class has no null. -/
theorem not_nullable_nothing (hw : w.Standard) : ¬ w.Nullable Builtin.nothing.type := by
  rintro ⟨w', hr⟩
  have hshape := hw.shape .nothing
  have haliased : w.aliased? Builtin.nothing.type = none := by
    have hcls := hw.isClass .nothing
    simp only [Declarations.isClass, decide_eq_true_eq] at hcls
    rw [World.aliased?, World.shape_of_shape? hshape]
    simp [Declarations.isSynonym, hcls]
  have hdealias : w.dealias Builtin.nothing.type = Builtin.nothing.type := by
    rw [World.dealias, World.dealiasFrom, haliased]
  unfold nullConforms at hr
  rw [get_bind_run, hdealias, typeSymbol?_class hshape (hw.isClass .nothing)] at hr
  simp only [Symbol.isReferenceClass] at hr
  rw [get_bind_run] at hr
  simp at hr
  cases hr

end Classes

/-! ## The scene -/

/-- A class `cls` below `sup{name = cls}`, a parameter below `sup{name = param}`, and the types that are built of
them. -/
structure FBound where
  sup : Symbol
  cls : Symbol
  name : String
  param : Param
  /-- The prefixes of the references to the two classes. -/
  supPrefix : Ty
  clsPrefix : Ty
  /-- The references to the two classes, and the type of the parameter. -/
  k : Ty
  c : Ty
  x : Ty
  /-- The bounds that leave the class only, and those that leave the parameter only. -/
  cc : Ty
  xx : Ty
  /-- `sup{name = cls}` and `sup{name = param}`. -/
  kc : Ty
  kx : Ty
  /-- The bounds of the parameter, and the universal type that it is the parameter of. -/
  upTo : Ty
  poly : Ty

namespace FBound

/-- The types stand for what they are named for, and the class inherits from its parent only. -/
structure In (f : FBound) (w : World) : Prop where
  closed : w.Closed
  standard : w.Standard
  k : w.shape? f.k = some (.named f.supPrefix f.sup)
  c : w.shape? f.c = some (.named f.clsPrefix f.cls)
  x : w.shape? f.x = some (.param f.param)
  cc : w.shape? f.cc = some (.bounds f.c f.c)
  xx : w.shape? f.xx = some (.bounds f.x f.x)
  kc : w.shape? f.kc = some (.refined f.k f.name f.cc)
  kx : w.shape? f.kx = some (.refined f.k f.name f.xx)
  upTo : w.shape? f.upTo = some (.bounds Builtin.nothing.type f.kx)
  poly : w.shape? f.poly = some (.universal f.param.binder)
  infos : ∃ d, w.binder? f.param.binder = some d ∧ d.infos[f.param.index]? = some f.upTo
  sup_isClass : w.decls.isClass f.sup
  /-- The type members of a trait are its parameters. -/
  sup_trait : Builtin.isTrait f.sup → ∃ s ∈ w.decls.typeParams f.sup, w.decls.name s = f.name
  cls_isClass : w.decls.isClass f.cls
  /-- The class is neither the top class, with which a bound is met in the bound itself, nor a trait. -/
  cls_ne_any : f.cls ≠ Builtin.any.symbol
  cls_no_trait : Builtin.isTrait f.cls = false
  parents : w.decls.parents f.cls = [f.kc]
  /-- The class declares no member of that name itself. -/
  own : ∀ space, w.decls.member? f.cls f.name space = none
  /-- Classes of one name are reached in one way. -/
  prefixes : w.decls.name f.cls = w.decls.name f.sup → f.clsPrefix = f.supPrefix ∧ f.supPrefix.present
  /-- The class is the bottom class, or neither of its name nor below it. -/
  bottom : f.c = Builtin.nothing.type ∨
    w.decls.name f.cls ≠ Builtin.nothing.name ∧ ¬ w.Inherits f.c Builtin.nothing.symbol
  no_cycle : ¬ w.Inherits f.k f.cls

section Leaves

variable {f : FBound} {w v : World} (hf : f.In w) (hv : w ≤ v) {ks : List Ty} {e n : Nat} {g : Guard Ty}
include hf

theorem In.present {t : Ty} {d : Shape} (ht : w.shape? t = some d) (hd : d ≠ .fixed .noType) : t.present :=
  hf.standard.present ht hd

theorem In.k_ne_kc : f.k ≠ f.kc := World.ne_of_shape hf.k hf.kc (by simp)

theorem In.c_ne_kc : f.c ≠ f.kc := World.ne_of_shape hf.c hf.kc (by simp)

theorem In.k_ne_c (hne : f.sup ≠ f.cls) : f.k ≠ f.c := World.ne_of_shape hf.k hf.c (by simp [hne])

theorem In.sup_ne_cls : f.sup ≠ f.cls := by
  intro h
  have hrun : ∃ base v', f.k.baseType f.cls w = .ok (base, v') ∧ w ≤ v' ∧ base = f.k := by
    refine finds_run (e := 1) (finds_descend (by simp) (by simp) (by omega) (.world_bind ?_))
    rw [World.shape_of_shape? hf.k]
    simp only [h, if_true]
    exact .pure rfl
  obtain ⟨base, v', hr, -, rfl⟩ := hrun
  exact hf.no_cycle ⟨f.k, v', hr, hf.present hf.k (by simp)⟩

include hv

/-- Seen as an instance of its parent the class is the parent, refined or not. -/
theorem In.baseType_sup : ∃ base v', f.c.baseType f.sup v = .ok (base, v') ∧ v ≤ v' ∧ (base = f.k ∨ base = f.kc) := by
  have hne := hf.sup_ne_cls
  have hk : ∀ {ks e n v}, w ≤ v → f.k ∉ ks → ks.length < 64 → e < 100000 →
      Finds ks e (e + 1) v (Walk.descend .noType (BaseType.step f.sup) (n + 1) f.k) fun a _ => a = f.k := by
    intro ks e n v hv hks hlen he
    refine finds_descend hks hlen he (.world_bind ?_)
    rw [World.shape_of_shape? (hv.shape hf.k)]
    simp only [if_true]
    exact .pure rfl
  have hkc : Finds [f.c] 1 3 v (Walk.descend .noType (BaseType.step f.sup) 64 f.kc) fun a _ => a = f.k ∨ a = f.kc := by
    refine finds_descend (by simp [Ne.symm hf.c_ne_kc]) (by simp) (by omega) (.world_bind ?_)
    rw [World.shape_of_shape? (hv.shape hf.kc)]
    refine .bind (hk hv (by simp [hf.k_ne_kc, hf.k_ne_c hne]) (by simp) (by omega)) fun a v₁ hv₁ ha => ?_
    subst ha
    refine .ite (.mono (finds_intern_present (hv₁.shape (hv.shape hf.kc))) fun a _ ha => .inr ha) (.pure (.inl rfl))
  refine finds_run (e := 3) (finds_descend (by simp) (by simp) (by omega) (.world_bind ?_))
  rw [World.shape_of_shape? (hv.shape hf.c)]
  simp only [Ne.symm hne, if_false, hv.decls, hf.cls_isClass, if_true, hf.parents]
  refine .bind hkc fun a v₁ hv₁ ha => ?_
  have hpresent : a.present := by
    rcases ha with rfl | rfl
    · exact hf.present hf.k (by simp)
    · exact hf.present hf.kc (by simp)
  rw [if_pos hpresent]
  exact .pure ha

/-- The member of the class is the class itself. -/
theorem In.member_cls : ∃ a v', f.c.member f.name v = .ok (a, v') ∧ v ≤ v' ∧ a = f.cc := by
  have hkc : Finds [f.c] 1 2 v (Walk.descend .noType (Member.step f.name) 64 f.kc) fun a _ => a = f.cc := by
    refine finds_descend (by simp [Ne.symm hf.c_ne_kc]) (by simp) (by omega) (.world_bind ?_)
    rw [World.shape_of_shape? (hv.shape hf.kc)]
    simp only [if_true]
    exact .pure rfl
  refine finds_run (e := 2) (finds_descend (by simp) (by simp) (by omega) (.world_bind ?_))
  rw [World.shape_of_shape? (hv.shape hf.c)]
  simp only [hv.decls, hf.cls_isClass, if_true]
  refine .world_bind ?_
  simp only [hv.decls, hf.own, hf.parents]
  refine .bind hkc fun a v₁ hv₁ ha => ?_
  have hpresent : a.present := ha ▸ hf.present hf.cc (by simp)
  rw [if_pos hpresent]
  exact .pure ha

omit hv in
theorem In.cls_ne_nothing (hc : f.c ≠ Builtin.nothing.type) : f.cls ≠ Builtin.nothing.symbol := by
  intro h
  exact (hf.bottom.resolve_left hc).1 (by rw [h, hf.standard.name])

omit hv in
theorem In.sup_ne_nothing : f.sup ≠ Builtin.nothing.symbol := by
  intro h
  rcases hf.bottom with hc | ⟨-, hbottom⟩
  · have hshape := hf.c
    rw [hc, hf.standard.shape .nothing, Option.some.injEq, Shape.named.injEq] at hshape
    exact hf.sup_ne_cls (h.trans hshape.2)
  · obtain ⟨base, v', hr, -, hbase⟩ := hf.baseType_sup le_rfl
    refine hbottom ⟨base, v', h ▸ hr, ?_⟩
    rcases hbase with rfl | rfl
    · exact hf.present hf.k (by simp)
    · exact hf.present hf.kc (by simp)

omit hv in
/-- A refinement of a class is never null exactly if the class is. -/
theorem In.neverNull_iff : w.NeverNull f.kx ↔ w.NeverNull f.k := by
  obtain ⟨b, v, hr, hle⟩ := (grows_classExcludes f.sup).total w
  have hk : ∀ {ks e n}, f.k ∉ ks → ks.length < 64 → e < 100000 →
      Finds ks e (e + 1) w (Walk.descend false Nullability.step (n + 1) f.k) fun a _ => a = b := by
    intro ks e n hks hlen he
    refine finds_descend hks hlen he (.world_bind ?_)
    rw [World.shape_of_shape? hf.k]
    simp only [hf.sup_isClass, if_true]
    exact fun g hg => ⟨b, g, v, run_lift hr g, hg, hle, rfl⟩
  have hkx : Finds [] 0 2 w (Walk.descend false Nullability.step 65 f.kx) fun a _ => a = b := by
    refine finds_descend (by simp) (by simp) (by omega) (.world_bind ?_)
    rw [World.shape_of_shape? hf.kx]
    exact hk (by simp [World.ne_of_shape hf.k hf.kx (by simp)]) (by simp) (by omega)
  obtain ⟨b₁, v₁, hr₁, -, hb₁⟩ := finds_run (hk (n := 64) (by simp) (by simp) (by omega))
  obtain ⟨b₂, v₂, hr₂, -, hb₂⟩ := finds_run hkx
  rw [hb₁] at hr₁
  rw [hb₂] at hr₂
  constructor
  · rintro ⟨w', hr'⟩
    obtain rfl : b = true := congrArg (·.1) (Except.ok.inj (hr₂.symm.trans hr'))
    exact ⟨v₁, hr₁⟩
  · rintro ⟨w', hr'⟩
    obtain rfl : b = true := congrArg (·.1) (Except.ok.inj (hr₁.symm.trans hr'))
    exact ⟨v₂, hr₂⟩

theorem In.typeSymbolFrom_k (hg : Inside ks e g) (hk : f.k ∉ ks) (hks : ks.length < 64) (he : e < 100000) :
    v.typeSymbolFrom (n + 1) g f.k = some f.sup :=
  hg.typeSymbolFrom_class hk hks he (hv.shape hf.k) (hv.decls ▸ hf.sup_isClass)

theorem In.typeSymbol?_kc : v.typeSymbol? f.kc = some f.sup := by
  obtain ⟨g', hr, hg'⟩ := inside_start.enter (t := f.kc) (by simp) (by simp) (by omega)
  unfold World.typeSymbol? World.typeSymbolFrom
  rw [hr, World.shape_of_shape? (hv.shape hf.kc)]
  exact hf.typeSymbolFrom_k hv hg' (by simp [hf.k_ne_kc]) (by simp) (by omega)

theorem In.refinement?_k (name : String) : v.refinement? name (n + 1) f.k = .ok none :=
  refinement?_class name (hv.shape hf.k) (hv.decls ▸ hf.sup_isClass)

theorem In.refinement?_kc (name : String) :
    v.refinement? name (n + 2) f.kc = .ok (if f.name = name then some f.cc else none) := by
  unfold World.refinement?
  rw [World.shape_of_shape? (hv.shape hf.kc)]
  show (if f.name = name then pure (some f.cc) else v.refinement? name (n + 1) f.k) = _
  rw [hf.refinement?_k hv]
  split
  · rfl
  · rfl

/-- The parent fixes a parameter of a trait, so it has fewer open ones than the trait has arguments. -/
theorem In.decides_trait {p : Place} {s : ConstraintStore} {sub : Ty → Ty → CompareM Bool}
    (htrait : Builtin.isTrait f.sup) : Decides p s v (conformsAsConstructor (n + 2) sub f.kc f.k) false := by
  obtain ⟨m, hm, hname⟩ := hf.sup_trait htrait
  exact decides_conformsAsConstructor_refined (hf.typeSymbol?_kc hv) (hf.refinement?_kc hv) (hv.shape hf.k)
    (hv.decls ▸ hf.sup_isClass) (hv.decls ▸ hm) (by simp [hv.decls, hname])

end Leaves

/-! ## The comparisons on the side -/

/-- The comparisons that go round: of the class, or the bounds that leave it only, with types that are no names, and of
the parameter with anything. -/
def Main (f : FBound) (v : World) (pair : Ty × Ty) : Prop :=
  pair.1 = f.x ∨ pair.1 = f.cc ∨ pair.1 = f.c ∧ ∃ d, v.shape? pair.2 = some d ∧ d.isNamed = false

/-- The place is where comparisons of that kind lead. -/
structure At (f : FBound) (v : World) (limit : UInt32) (path : List (Ty × Ty)) (p : Place) : Prop where
  along : p.Along limit path
  main : ∀ pair ∈ path, f.Main v pair

/-- The parent conforms to the class: being of one name with it, or never null where the class is the marker for that, or
being null. -/
def Returns (f : FBound) (w : World) : Prop :=
  w.decls.name f.sup = w.decls.name f.cls ∨ f.cls = Builtin.notNull.symbol ∧ w.NeverNull f.k ∨
    f.sup = Builtin.null.symbol ∧ w.Nullable f.c

/-- The class is null, and as such conforms to the bound of the parameter. -/
def IsNull (f : FBound) (w : World) : Prop := f.cls = Builtin.null.symbol ∧ w.Nullable f.kx

section Sides

variable {f : FBound} {w v : World} (hf : f.In w) (hv : w ≤ v) {limit : UInt32} {path : List (Ty × Ty)} {p : Place}
  {s : ConstraintStore} {n : Nat} {a b : Ty}

theorem At.grow {v' : World} (hp : f.At v limit path p) (hv : v ≤ v') : f.At v' limit path p where
  along := hp.along
  main pair hpair := (hp.main pair hpair).imp_right (Or.imp_right fun ⟨ha, d, hb, hd⟩ => ⟨ha, d, hv.shape hb, hd⟩)

theorem At.opens {p' : Place} (hp : f.At v limit path p) (hmain : f.Main v (a, b)) (hopens : Opens p (a, b) p') :
    f.At v limit ((a, b) :: path) p' where
  along := hp.along.opens hopens
  main := by
    intro pair hpair
    rcases List.mem_cons.1 hpair with rfl | hpair
    · exact hmain
    · exact hp.main pair hpair

/-- A pair that is not on the path is let in. -/
theorem decides_fresh {q : Bool} (hp : p.Along limit path) (hshort : path.length < 1000) (ha : a.present)
    (hb : b.present) (hab : a ≠ b) (hfree : (a, b) ∉ path)
    (h : ∀ p', p'.Along limit ((a, b) :: path) → Decides p' s v (first n (isSubType n) a b) q) :
    Decides p s v (isSubType (n + 1) a b) q :=
  decides_isSubType ha hb hab (r := 999) (hp.hasRoom hshort) hp.bounds (hp.free (not_mem_watched hfree))
    fun p' hopens => h p' (hp.opens hopens)

theorem decidesIff_fresh {q : Prop} (hp : p.Along limit path) (hshort : path.length < 1000) (ha : a.present)
    (hb : b.present) (hab : a ≠ b) (hfree : (a, b) ∉ path)
    (h : ∀ p', p'.Along limit ((a, b) :: path) → DecidesIff p' s v (first n (isSubType n) a b) q) :
    DecidesIff p s v (isSubType (n + 1) a b) q :=
  decidesIff_isSubType ha hb hab (r := 999) (hp.hasRoom hshort) hp.bounds (hp.free (not_mem_watched hfree))
    fun p' hopens => h p' (hp.opens hopens)

include hf

theorem In.c_ne_x : f.c ≠ f.x := World.ne_of_shape hf.c hf.x (by simp)

theorem In.c_ne_cc : f.c ≠ f.cc := World.ne_of_shape hf.c hf.cc (by simp)

/-- The class against a name is on the side. -/
theorem In.side_of_named {q : Ty} {d : Symbol} (hb : v.shape? b = some (.named q d)) : ¬ f.Main v (f.c, b) := by
  rintro (h | h | ⟨-, e, he, hd⟩)
  · exact hf.c_ne_x h
  · exact hf.c_ne_cc h
  · obtain rfl := Option.some.inj (hb.symm.trans he)
    cases hd

include hv

/-- So is a type that is neither the class nor the parameter nor bounds. -/
theorem In.side_of_other {d : Shape} (ha : v.shape? a = some d) (hc : d ≠ .named f.clsPrefix f.cls)
    (hx : d ≠ .param f.param) (hcc : d ≠ .bounds f.c f.c) : ¬ f.Main v (a, b) := by
  rintro (rfl | rfl | ⟨rfl, -⟩)
  · exact hx (Option.some.inj (ha.symm.trans (hv.shape hf.x)))
  · exact hcc (Option.some.inj (ha.symm.trans (hv.shape hf.cc)))
  · exact hc (Option.some.inj (ha.symm.trans (hv.shape hf.c)))

theorem In.isClass_cls : v.decls.isClass f.cls := by rw [hv.decls]; exact hf.cls_isClass

theorem In.isClass_sup : v.decls.isClass f.sup := by rw [hv.decls]; exact hf.sup_isClass

/-- In the last step the class conforms only if it is null. -/
theorem In.decidesIff_fourth_cls {sub : Ty → Ty → CompareM Bool} (hc : f.c ≠ Builtin.nothing.type) (hb : w.Has b) :
    DecidesIff p s v (fourth sub f.c b) (f.cls = Builtin.null.symbol ∧ w.Nullable b) :=
  decidesIff_fourth_class hf.closed hv (hv.shape hf.c) (hf.isClass_cls hv) (hf.cls_ne_nothing hc) hb

/-- The class is not below the bottom class. -/
theorem In.decides_bottom (hc : f.c ≠ Builtin.nothing.type) (hp : f.At v limit path p) (hshort : path.length < 1000) :
    Decides p s v (isSubType (n + 1) f.c Builtin.nothing.type) false := by
  have hstandard := hf.standard.grow hv
  have hnothing := hstandard.shape .nothing
  have hhas : w.Has f.c := Option.isSome_iff_exists.2 ⟨_, hf.c⟩
  have hfree := mt (hp.main _) (hf.side_of_named hnothing)
  obtain ⟨hname, hbottom⟩ := hf.bottom.resolve_left hc
  refine decides_fresh hp.along hshort (hf.present hf.c (by simp)) (by decide) hc hfree fun p' _ => ?_
  refine yields_first_names (hv.shape hf.c) hnothing (hf.cls_ne_nothing hc) (hstandard.isClass .nothing) ?_
  rw [if_neg (by rw [hstandard.name, hv.decls]; exact hname)]
  refine .orElse decides_pure fun v₁ hv₁ => .orElse ?_ fun v₂ hv₂ => ?_
  · refine .bind (.lift (grows_baseType _ _)) fun base s' v₂ _ ⟨hs, hbase⟩ => ?_
    subst hs
    obtain ⟨v', hr, -⟩ := hf.closed.baseType_absent hhas hbottom (hv.trans hv₁)
    rw [hr] at hbase
    cases hbase
    exact decides_pure
  · have hv₂ := hv₁.trans hv₂
    refine yields_thirdNamed (hv₂.shape hnothing) ((hstandard.grow hv₂).isClass .nothing) (by decide) (by decide)
      (by decide) fun v₃ hv₃ => ?_
    refine (hf.decidesIff_fourth_cls (hv.trans (hv₂.trans hv₃)) hc ?_).decides_false fun h => ?_
    · exact Option.isSome_iff_exists.2 ⟨_, hf.standard.shape .nothing⟩
    · exact not_nullable_nothing hf.standard h.2

/-- The class conforms to its parent. -/
theorem In.decides_parent (hp : f.At v limit path p) (hshort : path.length < 900) :
    Decides p s v (isSubType (n + 4) f.c f.k) true := by
  have hc := hv.shape hf.c
  have hk := hv.shape hf.k
  have hne := hf.sup_ne_cls
  have hpresent : f.k.present := hf.present hf.k (by simp)
  have hfree := mt (hp.main _) (hf.side_of_named hk)
  have hfree' := mt (hp.main _) (hf.side_of_other (b := f.k) hv (hv.shape hf.kc) (by simp) (by simp) (by simp))
  refine decides_fresh hp.along (by omega) (hf.present hf.c (by simp)) hpresent (Ne.symm (hf.k_ne_c hne)) hfree
    fun p' hp' => ?_
  have hkc : ∀ {s' v'}, v ≤ v' → Decides p' s' v' (isSubType (n + 3) f.kc f.k) true := by
    intro s' v' hv'
    have hkc := (hv.trans hv').shape hf.kc
    have hmem : (f.kc, f.k) ∉ (f.c, f.k) :: path := by simp [Ne.symm hf.c_ne_kc, hfree']
    refine decides_fresh hp' (by simp only [List.length_cons]; omega) (hf.present hf.kc (by simp)) hpresent
      (Ne.symm hf.k_ne_kc) hmem fun p'' _ => ?_
    have hplain : v'.shape f.kc = .refined f.k f.name f.cc := World.shape_of_shape? hkc
    refine yields_first_named (by rw [hplain]; rfl) (by rw [hplain]; rfl) ((hv.trans hv').shape hf.k) ?_
    refine decides_thirdNamed ((hv.trans hv').shape hf.k) (hf.isClass_sup (hv.trans hv')) (fun v₁ hv₁ => ?_)
      (fun htrait v₁ hv₁ => (hf.decides_trait (hv.trans (hv'.trans hv₁)) htrait).ends)
      fun v₁ hv₁ => ?_
    · refine ⟨false, ?_⟩
      unfold World.isStable
      rw [World.shape_of_shape? (hv₁.shape hkc)]
      rfl
    · exact yields_fourth_refined (hv₁.shape hkc) (decides_self hpresent)
  refine yields_first_names hc hk (Ne.symm hne) (hf.isClass_sup hv) ?_
  have hbase : ∀ v', v ≤ v' → Decides p' s v' (do
      let base ← Ty.baseType f.c f.sup
      if base.present && base ≠ f.c then isSubType (n + 3) base f.k else return false) true := by
    intro v' hv'
    refine .bind (.lift (grows_baseType _ _)) fun base s' v₁ hv₁ hlift => ?_
    obtain ⟨rfl, hr⟩ := hlift
    obtain ⟨base', v₂, hr', -, hb⟩ := hf.baseType_sup (hv.trans hv')
    rw [hr'] at hr
    cases hr
    rcases hb with rfl | rfl
    · rw [if_pos (by simp [Ty.present_iff.1 hpresent, hf.k_ne_c hne])]
      exact decides_self hpresent
    · rw [if_pos (by simp [Ty.present_iff.1 (hf.present hf.kc (by simp)), Ne.symm hf.c_ne_kc])]
      exact hkc (hv'.trans hv₁)
  by_cases hname : w.decls.name f.cls = w.decls.name f.sup
  · rw [if_pos (by rw [hv.decls]; exact hname), (hf.prefixes hname).1]
    exact .orElse_true ((decides_self (hf.prefixes hname).2).mono fun a s' v' _ h => ⟨h.1, rfl, h.2⟩)
  · rw [if_neg (by rw [hv.decls]; exact hname)]
    refine .orElse decides_pure fun v₁ hv₁ => .orElse_true ?_
    exact (hbase v₁ hv₁).mono fun a s' v' _ h => ⟨h.1, rfl, h.2⟩

/-- The parent conforms to the class only by name, or by what the class is or it itself is. -/
theorem In.decidesIff_back (hp : p.Along limit path) (hshort : path.length < 1000) (hfree : (f.k, f.c) ∉ path) :
    DecidesIff p s v (isSubType (n + 2) f.k f.c) (f.Returns w) := by
  have hk := hv.shape hf.k
  have hhas : w.Has f.k := Option.isSome_iff_exists.2 ⟨_, hf.k⟩
  have hhas' : w.Has f.c := Option.isSome_iff_exists.2 ⟨_, hf.c⟩
  refine decidesIff_fresh hp hshort (hf.present hf.k (by simp)) (hf.present hf.c (by simp)) (hf.k_ne_c hf.sup_ne_cls)
    hfree fun p' hp' => yields_first_names hk (hv.shape hf.c) hf.sup_ne_cls (hf.isClass_cls hv) ?_
  refine DecidesIff.orElse ?_ fun v₁ hv₁ => Yields.orElse ?_ fun v₂ hv₂ => ?_
  · rw [hv.decls]
    by_cases hname : w.decls.name f.sup = w.decls.name f.cls
    · obtain ⟨hreached, hpresent⟩ := hf.prefixes hname.symm
      rw [if_pos hname, hreached]
      exact (decides_self hpresent).decidesIff_true hname
    · rw [if_neg hname]
      exact decides_pure.decidesIff_false hname
  · refine .bind (.lift (grows_baseType _ _)) fun base s' v₂ _ ⟨hs, hbase⟩ => ?_
    subst hs
    obtain ⟨v', hr, -⟩ := hf.closed.baseType_absent hhas hf.no_cycle (hv.trans hv₁)
    rw [hr] at hbase
    cases hbase
    exact decides_pure
  · have hv₂ := hv.trans (hv₁.trans hv₂)
    refine decidesIff_thirdNamed_class hf.closed hv₂ hhas (hv₂.shape hf.c) (hf.isClass_cls hv₂) hf.cls_no_trait
      (fun v₃ hv₃ => ?_) fun v₃ hv₃ => ?_
    · rw [World.isStable, World.shape_of_shape? ((hv₂.trans hv₃).shape hf.k)]
      rfl
    · exact decidesIff_fourth_class hf.closed (hv₂.trans hv₃) ((hv₂.trans hv₃).shape hf.k)
        (hf.isClass_sup (hv₂.trans hv₃)) hf.sup_ne_nothing hhas'

/-- On a path of main comparisons neither the bound nor the parent is compared with the class. -/
theorem In.free_of_at (hp : f.At v limit path p) : (f.kx, f.c) ∉ path ∧ (f.k, f.c) ∉ path := by
  refine ⟨mt (hp.main _) ?_, mt (hp.main _) ?_⟩
  · exact hf.side_of_other hv (hv.shape hf.kx) (by simp) (by simp) (by simp)
  · exact hf.side_of_other hv (hv.shape hf.k) (by simp [hf.sup_ne_cls]) (by simp) (by simp)

/-- The bound of the parameter conforms to the class as the parent does. -/
theorem In.decidesIff_bound (hp : p.Along limit path) (hshort : path.length < 900)
    (hfree : (f.kx, f.c) ∉ path ∧ (f.k, f.c) ∉ path) :
    DecidesIff p s v (isSubType (n + 3) f.kx f.c) (f.Returns w) := by
  have hkx := hv.shape hf.kx
  have hplain : v.shape f.kx = .refined f.k f.name f.xx := World.shape_of_shape? hkx
  have hne : f.k ≠ f.kx := World.ne_of_shape hf.k hf.kx (by simp)
  refine decidesIff_fresh hp (by omega) (hf.present hf.kx (by simp)) (hf.present hf.c (by simp))
    (World.ne_of_shape hf.kx hf.c (by simp)) hfree.1 fun p' hp' => ?_
  refine yields_first_named (by rw [hplain]; rfl) (by rw [hplain]; rfl) (hv.shape hf.c) ?_
  refine (decidesIff_thirdNamed_class (P := f.Returns w) hf.closed hv (Option.isSome_iff_exists.2 ⟨_, hf.kx⟩)
    (hv.shape hf.c) (hf.isClass_cls hv) hf.cls_no_trait (fun v' hv' => ?_)
    fun v' hv' => yields_fourth_refined (hv'.shape hkx) ?_).congr (or_iff_right_of_imp fun h => ?_)
  · rw [World.isStable, World.shape_of_shape? (hv'.shape hkx)]
    rfl
  · exact hf.decidesIff_back (hv.trans hv') hp' (by simp only [List.length_cons]; omega) (by simp [hne, hfree.2])
  · exact .inr (.inl ⟨h.1, hf.neverNull_iff.1 h.2⟩)

end Sides

/-! ## The comparisons that go round -/

/-- The class is the lower end of the bounds of the parameter. -/
def Lower (f : FBound) (s : ConstraintStore) (v : World) : Prop :=
  ∃ b hi, Slot s f.param b ∧ v.shape? b = some (.bounds f.c hi)

/-- The answer is positive exactly if `q` holds, and then the class is the lower end. -/
def Told (f : FBound) (q : Prop) : Bool → ConstraintStore → World → Prop
  | true, s, v => q ∧ f.Lower s v
  | false, _, _ => ¬ q

/-- As before, and a negative answer leaves the constraints alone. -/
def Settles (f : FBound) (s : ConstraintStore) (q : Prop) : Bool → ConstraintStore → World → Prop
  | true, s', v => q ∧ f.Lower s' v
  | false, s', _ => ¬ q ∧ s' = s

section Rounds

variable {f : FBound} {w v : World} (hf : f.In w) (hv : w ≤ v) {limit : UInt32} {path : List (Ty × Ty)} {p : Place}
  {s : ConstraintStore} {n : Nat} {a b : Ty} {q r : Prop}

theorem Lower.grow {v' : World} (h : f.Lower s v) (hv : v ≤ v') : f.Lower s v' := by
  obtain ⟨b, hi, hslot, hb⟩ := h
  exact ⟨b, hi, hslot, hv.shape hb⟩

theorem Settles.iff {s' : ConstraintStore} {answer : Bool} (h : f.Settles s q answer s' v) (hqr : q ↔ r) :
    f.Settles s r answer s' v := by
  cases answer with
  | true => exact ⟨hqr.1 h.1, h.2⟩
  | false => exact ⟨mt hqr.2 h.1, h.2⟩

theorem yields_settles_iff {m : CompareM Bool} {s' : ConstraintStore} (h : Yields p s v m (f.Settles s' q))
    (hqr : q ↔ r) : Yields p s v m (f.Settles s' r) := h.mono fun _ _ _ _ h => h.iff hqr

/-- A comparison that is monitored and under way already is refused; otherwise it is what the cascade tells. -/
theorem settles_isSubType (hp : f.At v limit path p) (hshort : path.length < 900) (ha : a.present) (hb : b.present)
    (hab : a ≠ b) (hmain : f.Main v (a, b))
    (h : ∀ p', f.At v limit ((a, b) :: path) p' → Yields p' s v (first n (isSubType n) a b) (f.Told q)) :
    Yields p s v (isSubType (n + 1) a b) (f.Settles s ((a, b) ∉ watched limit path ∧ q)) := by
  have hroom : HasRoom p 1000 := hp.along.hasRoom (by omega)
  by_cases hfree : (a, b) ∈ watched limit path
  · have hlevel : p.level < Limits.unlimited.toNat := by
      have := hroom.level
      omega
    have hpending : (a, b) ∈ p.pending := by
      rw [hp.along.pending]
      exact hfree
    refine (decides_pending ha hb hab hlevel hp.along.bounds (hp.along.monitored hfree) hpending).mono ?_
    rintro answer s' v' - ⟨rfl, rfl⟩
    exact ⟨fun h => h.1 hfree, rfl⟩
  · refine (yields_isSubType ha hb hab (r := 999) hroom hp.along.bounds (hp.along.free hfree) fun p' hopens =>
      h p' (hp.opens hmain hopens)).mono fun answer s' v' _ hsettled => ?_
    cases answer with
    | true => exact ⟨⟨hfree, hsettled.1⟩, hsettled.2⟩
    | false =>
      obtain ⟨hs, _, hq⟩ := hsettled
      exact ⟨fun h => hq h.2, hs⟩

include hf

include hv

/-- The class against the parameter whose lower end it is. -/
theorem In.settles_low (hp : f.At v limit path p) (hshort : path.length < 900) (hlow : f.Lower s v) :
    Yields p s v (isSubType (n + 2) f.c f.x) (f.Settles s ((f.c, f.x) ∉ watched limit path)) := by
  have hc : f.c.present := hf.present hf.c (by simp)
  have hmain : f.Main v (f.c, f.x) := .inr (.inr ⟨rfl, _, hv.shape hf.x, rfl⟩)
  obtain ⟨b, hi, hslot, hb⟩ := hlow
  refine (settles_isSubType (q := True) hp hshort hc (hf.present hf.x (by simp)) hf.c_ne_x hmain fun p' _ => ?_).mono
    fun a s' v' _ h => h.iff ⟨And.left, fun h => ⟨h, trivial⟩⟩
  refine yields_first_param (hf.standard.grow hv) (hv.shape hf.x) hslot hb (.orElse_true ?_)
  refine (decides_self hc).mono fun a s' v' hv' ⟨ha, hs⟩ => ⟨ha, trivial, b, hi, ?_, hv'.shape hb⟩
  rwa [hs]

/-- The bounds of the member: the parameter against the class, and the class against the parameter. -/
theorem In.settles_members (hp : f.At v limit path p) (hshort : path.length < 890)
    (h : ∀ p', f.At v limit ((f.cc, f.xx) :: path) p' → Yields p' s v (isSubType (n + 2) f.x f.c) (f.Settles s q)) :
    Yields p s v (isSubType (n + 3) f.cc f.xx)
      (f.Settles s ((f.cc, f.xx) ∉ watched limit path ∧ q ∧ (f.c, f.x) ∉ watched limit ((f.cc, f.xx) :: path))) := by
  have hcc := hv.shape hf.cc
  have hxx := hv.shape hf.xx
  have hplain : v.shape f.cc = .bounds f.c f.c := World.shape_of_shape? hcc
  have hplain' : v.shape f.xx = .bounds f.x f.x := World.shape_of_shape? hxx
  refine settles_isSubType hp (by omega) (hf.present hf.cc (by simp)) (hf.present hf.xx (by simp))
    (World.ne_of_shape hf.cc hf.xx (by simp [hf.c_ne_x])) (.inr (.inl rfl)) fun p' hp' => ?_
  refine yields_first (by rw [hplain]; rfl) (by rw [hplain']; rfl) (by rw [hplain']; rfl) ?_
  refine yields_third_bounds hcc hxx ?_
  refine .bind (h p' hp') fun a s' v' hv' ha => ?_
  cases a with
  | false => exact .pure fun hq => ha.1 hq.1
  | true =>
    obtain ⟨hq, hlow⟩ := ha
    refine (hf.settles_low (hv.trans hv') (hp'.grow hv') (by simp only [List.length_cons]; omega) hlow).mono ?_
    intro a s'' v'' _ ha
    cases a with
    | true => exact ⟨⟨hq, ha.1⟩, ha.2⟩
    | false => exact fun h => ha.1 h.2

/-- The class against the bound of the parameter: its parent, and then its member, unless it is null. -/
theorem In.settles_bound (hc : f.c ≠ Builtin.nothing.type) (hp : f.At v limit path p) (hshort : path.length < 890) (hlow : f.Lower s v)
    (h : ∀ p' v', v ≤ v' → f.At v' limit ((f.c, f.kx) :: path) p' →
      Yields p' s v' (isSubType (n + 4) f.cc f.xx) (f.Settles s q)) :
    Yields p s v (isSubType (n + 5) f.c f.kx)
      (f.Settles s ((f.c, f.kx) ∉ watched limit path ∧ (f.IsNull w ∨ f.name = Builtin.anyName ∨ q))) := by
  have hkx := hv.shape hf.kx
  have hplain : v.shape f.c = .named f.clsPrefix f.cls := World.shape_of_shape? (hv.shape hf.c)
  have hplain' : v.shape f.kx = .refined f.k f.name f.xx := World.shape_of_shape? hkx
  refine settles_isSubType hp (by omega) (hf.present hf.c (by simp)) (hf.present hf.kx (by simp))
    (World.ne_of_shape hf.c hf.kx (by simp)) (.inr (.inr ⟨rfl, _, hkx, rfl⟩)) fun p' hp' => ?_
  refine yields_first (by rw [hplain]; rfl) (by rw [hplain']; rfl) (by rw [hplain']; rfl) (yields_third_refined hkx ?_)
  have hparent : Decides p' s v (isSubType (n + 4) f.c f.k) true :=
    hf.decides_parent hv hp' (by simp only [List.length_cons]; omega)
  by_cases hname : f.name = Builtin.anyName
  · rw [if_pos hname]
    refine .orElse_true (.bind hparent fun a s' v₁ hv₁ ⟨ha, hs⟩ => ?_)
    subst ha hs
    exact .pure ⟨rfl, .inr (.inl hname), hlow.grow hv₁⟩
  rw [if_neg hname]
  refine .bind (.bind (B := f.Settles s q) hparent fun a s' v₁ hv₁ ⟨ha, hs⟩ => ?_) fun a s' v₁ hv₁ ha => ?_
  · subst ha hs
    refine .bind (.lift (grows_member _ _)) fun m s' v₂ hv₂ ⟨hs, hm⟩ => ?_
    subst hs
    obtain ⟨m', v', hr, -, rfl⟩ := hf.member_cls (hv.trans hv₁)
    rw [hr] at hm
    cases hm
    exact h p' v₂ (hv₁.trans hv₂) (hp'.grow (hv₁.trans hv₂))
  · cases a with
    | true => exact .pure ⟨.inr (.inr ha.1), ha.2⟩
    | false =>
      obtain ⟨hq, rfl⟩ := ha
      refine (hf.decidesIff_fourth_cls (hv.trans hv₁) hc (Option.isSome_iff_exists.2 ⟨_, hf.kx⟩)).mono ?_
      rintro a s'' v'' hv'' ⟨hnull, rfl⟩
      cases a with
      | true => exact ⟨.inl (hnull.1 rfl), hlow.grow (hv₁.trans hv'')⟩
      | false => exact fun h => h.elim (fun h => nomatch hnull.2 h) fun h => h.elim hname hq

/-- The parameter, narrowed from above to the class, against the class. -/
theorem In.settles_narrowed {i : Ty} (hp : f.At v limit path p) (hshort : path.length < 890) (hslot : Slot s f.param b)
    (hb : v.shape? b = some (.bounds f.c i)) (hi : v.shape? i = some (.inter f.kx f.c)) :
    Yields p s v (isSubType (n + 5) f.x f.c) (f.Settles s ((f.x, f.c) ∉ watched limit path)) := by
  have hx : v.shape f.x = .param f.param := World.shape_of_shape? (hv.shape hf.x)
  have hplain : v.shape i = .inter f.kx f.c := World.shape_of_shape? hi
  have hc : f.c.present := hf.present hf.c (by simp)
  have hi_ne : ∀ {t d}, v.shape? t = some d → d ≠ .inter f.kx f.c → i ≠ t := fun ht hd =>
    World.ne_of_shape hi ht (Ne.symm hd)
  refine (settles_isSubType (q := True) hp (by omega) (hf.present hf.x (by simp)) hc (Ne.symm hf.c_ne_x) (.inl rfl)
    fun p' hp' => ?_).mono fun a s' v' _ h => h.iff ⟨And.left, fun h => ⟨h, trivial⟩⟩
  refine yields_first_second (by rw [hx]; rfl) (hv.shape hf.c) ?_
  refine yields_second_param (hf.standard.grow hv) (hv.shape hf.x) hslot hb (.orElse_true ?_)
  have hside := mt (hp'.main _) (hf.side_of_other (b := f.c) hv hi (by simp) (by simp) (by simp))
  have hdecides : Decides p' s v (isSubType (n + 4) i f.c) true := by
    refine decides_fresh hp'.along (by simp only [List.length_cons]; omega)
      ((hf.standard.grow hv).present hi (by simp)) hc (hi_ne (hv.shape hf.c) (by simp)) hside fun p'' hp'' => ?_
    refine yields_first_named (by rw [hplain]; rfl) (by rw [hplain]; rfl) (hv.shape hf.c) ?_
    refine decides_thirdNamed (hv.shape hf.c) (hf.isClass_cls hv) (fun v₁ hv₁ => ?_)
      (fun htrait => absurd htrait (by simp [hf.cls_no_trait])) fun v₁ hv₁ => ?_
    · refine ⟨false, ?_⟩
      rw [World.isStable, World.shape_of_shape? (hv₁.shape hi)]
      show (World.isStable _ _ f.kx <||> World.isStable _ _ f.c) = _
      rw [World.isStable, World.shape_of_shape? ((hv.trans hv₁).shape hf.kx), World.isStable,
        World.shape_of_shape? ((hv.trans hv₁).shape hf.c)]
      rfl
    refine yields_fourth_inter (hv₁.shape hi) (.orElse_last ?_ fun v₂ _ => decides_self hc)
    obtain ⟨hfree, hfree'⟩ := hf.free_of_at hv hp'
    have hne : f.kx ≠ i := Ne.symm (hi_ne (hv.shape hf.kx) (by simp))
    have hne' : f.k ≠ i := Ne.symm (hi_ne (hv.shape hf.k) (by simp))
    refine (hf.decidesIff_bound (hv.trans hv₁) hp'' (by simp only [List.length_cons]; omega) ?_).mono
      fun a s' v' _ h => h.2
    constructor
    · exact fun h => (List.mem_cons.1 h).elim (fun h => hne (congrArg Prod.fst h)) hfree
    · exact fun h => (List.mem_cons.1 h).elim (fun h => hne' (congrArg Prod.fst h)) hfree'
  refine hdecides.mono fun a s' v' hv' ⟨ha, hs⟩ => ⟨ha, trivial, b, i, ?_, hv'.shape hb⟩
  rwa [hs]

/-- The class against the bounds of the parameter met with the class. -/
theorem In.settles_meet {i : Ty} (hp : f.At v limit path p) (hshort : path.length < 880)
    (hi : v.shape? i = some (.inter f.kx f.c))
    (h : ∀ p', f.At v limit ((f.c, i) :: path) p' → Yields p' s v (isSubType (n + 1) f.c f.kx) (f.Settles s q)) :
    Yields p s v (isSubType (n + 2) f.c i) (f.Settles s ((f.c, i) ∉ watched limit path ∧ q)) := by
  have hc : v.shape f.c = .named f.clsPrefix f.cls := World.shape_of_shape? (hv.shape hf.c)
  have hplain : v.shape i = .inter f.kx f.c := World.shape_of_shape? hi
  refine settles_isSubType hp (by omega) (hf.present hf.c (by simp)) ((hf.standard.grow hv).present hi (by simp))
    (World.ne_of_shape (hv.shape hf.c) hi (by simp)) (.inr (.inr ⟨rfl, _, hi, rfl⟩)) fun p' hp' => ?_
  refine yields_first (by rw [hc]; rfl) (by rw [hplain]; rfl) (by rw [hplain]; rfl) (yields_third_inter hi ?_)
  refine .bind (h p' hp') fun a s' v' hv' ha => ?_
  cases a with
  | false => exact .pure ha.1
  | true =>
    refine (decides_self (hf.present hf.c (by simp))).mono ?_
    rintro a s'' v'' hv'' ⟨rfl, rfl⟩
    exact ⟨ha.1, ha.2.grow hv''⟩

/-- The parameter against the class: as the parent does, or by narrowing it from above to the class. -/
theorem In.settles_param (hc : f.c ≠ Builtin.nothing.type) (hp : f.At v limit path p) (hshort : path.length < 880) (hslot : Slot s f.param b)
    (hb : v.shape? b = some (.bounds f.c f.kx))
    (h : ∀ p' s' v' b' i, v ≤ v' → f.At v' limit ((f.x, f.c) :: path) p' → Slot s' f.param b' →
      v'.shape? b' = some (.bounds f.c i) → v'.shape? i = some (.inter f.kx f.c) →
      Yields p' s' v' (isSubType (n + 3) f.c i) (f.Settles s' q)) :
    Yields p s v (isSubType (n + 4) f.x f.c) (f.Settles s ((f.x, f.c) ∉ watched limit path ∧ (f.Returns w ∨ q))) := by
  have hx : v.shape f.x = .param f.param := World.shape_of_shape? (hv.shape hf.x)
  have hstandard := hf.standard.grow hv
  refine settles_isSubType hp (by omega) (hf.present hf.x (by simp)) (hf.present hf.c (by simp)) (Ne.symm hf.c_ne_x)
    (.inl rfl) fun p' hp' => ?_
  refine yields_first_second (by rw [hx]; rfl) (hv.shape hf.c) ?_
  refine yields_second_param hstandard (hv.shape hf.x) hslot hb ?_
  have hbound : DecidesIff p' s v (isSubType (n + 3) f.kx f.c) (f.Returns w) :=
    hf.decidesIff_bound hv hp'.along (by simp only [List.length_cons]; omega) (hf.free_of_at hv hp')
  by_cases hreturns : f.Returns w
  · refine .orElse_true ((hbound.decides hreturns).mono fun a s' v' hv' ⟨ha, hs⟩ => ?_)
    subst hs
    exact ⟨ha, .inl hreturns, b, f.kx, hslot, hv'.shape hb⟩
  refine .orElse (hbound.decides_false hreturns) fun v₁ hv₁ => ?_
  refine .bind (yields_intern _) fun t s' v₂ hv₂ ⟨hs, ht⟩ => ?_
  subst hs
  have hv₂ := hv₁.trans hv₂
  refine yields_narrow (hstandard.grow hv₂) hslot (hv₂.shape hb) ht ?_
  intro l u₁ r u₂ b' v₃ s' hl hr hv₃ hu₂ hb' hassigned
  have hslot' := hassigned.slot
  rw [union_nothing_right] at hl
  cases hl
  have hkx : ∀ b : Builtin, f.kx ≠ b.type := fun b => World.ne_of_shape hf.kx (hf.standard.shape b) (by simp)
  have hany : f.c ≠ Builtin.any.type := World.ne_of_shape hf.c (hf.standard.shape .any) (by simp [hf.cls_ne_any])
  rw [inter_run (World.ne_of_shape hf.kx hf.c (by simp)) ⟨hkx _, hany⟩ ⟨hkx _, hc⟩] at hr
  have hi : v₃.shape? r = some (.inter f.kx f.c) := by
    cases hr
    exact hu₂.shape (TypeTable.shape?_intern v₂.types _)
  have hv₃ := hv₂.trans hv₃
  refine (h p' s' v₃ b' r hv₃ (hp'.grow hv₃) hslot' hb' hi).mono fun a s'' v' _ ha => ?_
  cases a with
  | true => exact ⟨.inr ha.1, ha.2⟩
  | false => exact fun h => h.elim hreturns ha.1

/-- The class against the parameter at its declared bounds: it is narrowed from below to the class. -/
theorem In.settles_top (hc : f.c ≠ Builtin.nothing.type) (hp : f.At v limit path p) (hshort : path.length < 880) (hslot : Slot s f.param f.upTo)
    (h : ∀ p' s' v' b', v ≤ v' → f.At v' limit ((f.c, f.x) :: path) p' → Slot s' f.param b' →
      v'.shape? b' = some (.bounds f.c f.kx) → Yields p' s' v' (isSubType (n + 1) f.c f.kx) (f.Settles s' q)) :
    Yields p s v (isSubType (n + 2) f.c f.x) (f.Settles s ((f.c, f.x) ∉ watched limit path ∧ q)) := by
  have hstandard := hf.standard.grow hv
  refine settles_isSubType hp (by omega) (hf.present hf.c (by simp)) (hf.present hf.x (by simp)) hf.c_ne_x
    (.inr (.inr ⟨rfl, _, hv.shape hf.x, rfl⟩)) fun p' hp' => ?_
  refine yields_first_param hstandard (hv.shape hf.x) hslot (hv.shape hf.upTo) ?_
  refine .orElse (hf.decides_bottom hv hc hp' (by simp only [List.length_cons]; omega)) fun v₁ hv₁ => ?_
  refine .bind (yields_intern _) fun t s' v₂ hv₂ ⟨hs, ht⟩ => ?_
  subst hs
  have hv₂ := hv₁.trans hv₂
  refine yields_narrow (hstandard.grow hv₂) hslot (hv₂.shape (hv.shape hf.upTo)) ht ?_
  intro l u₁ r u₂ b' v₃ s' hl hr hv₃ _ hb' hassigned
  have hslot' := hassigned.slot
  rw [union_nothing_left] at hl
  cases hl
  rw [inter_any_right] at hr
  cases hr
  have hv₃ := hv₂.trans hv₃
  refine (h p' s' v₃ b' hv₃ (hp'.grow hv₃) hslot' hb').mono fun a s'' v' _ ha => ?_
  cases a with
  | true => exact ⟨ha.1, ha.2⟩
  | false => exact ha.1

end Rounds

/-! ## The whole comparison -/

/-- The comparisons of the first round, the last one in front. -/
def loop (f : FBound) : List (Ty × Ty) := [(f.x, f.c), (f.cc, f.xx), (f.c, f.kx), (f.c, f.x)]

/-- Whether the class is accepted for the parameter: the second round is let in, or none is needed. -/
def Accepts (f : FBound) (w : World) (limit : UInt32) : Prop :=
  f.c = Builtin.nothing.type ∨ f.IsNull w ∨ f.name = Builtin.anyName ∨ 5 ≤ limit.toNat ∨
    2 ≤ limit.toNat ∧ f.Returns w

section Whole

variable {f : FBound} {w v : World} (hf : f.In w) (hv : w ≤ v) {limit : UInt32} {p : Place} {s : ConstraintStore}
  {n : Nat} {b i : Ty}
include hf hv

/-- The second round meets each pair of the first one four levels deeper. -/
theorem In.settles_second (hc : f.c ≠ Builtin.nothing.type) (hp : f.At v limit ((f.c, i) :: f.loop) p) (hslot : Slot s f.param b)
    (hb : v.shape? b = some (.bounds f.c i)) (hi : v.shape? i = some (.inter f.kx f.c)) :
    Yields p s v (isSubType (n + 7) f.c f.kx)
      (f.Settles s (2 < limit.toNat ∧ (f.IsNull w ∨ f.name = Builtin.anyName ∨ 4 < limit.toNat))) := by
  have hx : f.x ≠ f.c := Ne.symm hf.c_ne_x
  have hcc : f.cc ≠ f.c := Ne.symm hf.c_ne_cc
  have hcx : f.cc ≠ f.x := World.ne_of_shape hf.cc hf.x (by simp)
  have hkx : f.kx ≠ f.x := World.ne_of_shape hf.kx hf.x (by simp)
  have hki : f.kx ≠ i := World.ne_of_shape (hv.shape hf.kx) hi (by simp)
  have hxi : f.x ≠ i := World.ne_of_shape (hv.shape hf.x) hi (by simp)
  have hbound : (f.c, f.kx) ∈ watched limit ((f.c, i) :: f.loop) ↔ limit.toNat ≤ 2 :=
    mem_watched_iff (l := [(f.c, i), (f.x, f.c), (f.cc, f.xx)]) (by simp [hki, hx.symm, hcc.symm])
  have hmembers : (f.cc, f.xx) ∈ watched limit ((f.c, f.kx) :: (f.c, i) :: f.loop) ↔ limit.toNat ≤ 3 :=
    mem_watched_iff (l := [(f.c, f.kx), (f.c, i), (f.x, f.c)]) (by simp [hcc, hcx])
  have hparam : (f.x, f.c) ∈ watched limit ((f.cc, f.xx) :: (f.c, f.kx) :: (f.c, i) :: f.loop) ↔ limit.toNat ≤ 4 :=
    mem_watched_iff (l := [(f.cc, f.xx), (f.c, f.kx), (f.c, i)]) (by simp [hx, hcx.symm])
  have hlow : (f.c, f.x) ∈ watched limit ((f.cc, f.xx) :: (f.c, f.kx) :: (f.c, i) :: f.loop) ↔ limit.toNat ≤ 1 :=
    mem_watched_iff (l := [(f.cc, f.xx), (f.c, f.kx), (f.c, i), (f.x, f.c), (f.cc, f.xx), (f.c, f.kx)])
      (by simp [hcc.symm, hkx.symm, hxi, hx.symm])
  have hnested : ∀ p₁ v₁, v ≤ v₁ → f.At v₁ limit ((f.c, f.kx) :: (f.c, i) :: f.loop) p₁ →
      Yields p₁ s v₁ (isSubType (n + 6) f.cc f.xx) (f.Settles s (4 < limit.toNat)) := by
    intro p₁ v₁ hv₁ hp₁
    refine yields_settles_iff (hf.settles_members (hv.trans hv₁) hp₁ (by simp [loop]) fun p₂ hp₂ =>
      hf.settles_narrowed (hv.trans hv₁) hp₂ (by simp [loop]) hslot (hv₁.shape hb) (hv₁.shape hi)) ?_
    rw [hmembers, hparam, hlow]
    omega
  refine yields_settles_iff (hf.settles_bound hv hc hp (by simp [loop]) ⟨b, i, hslot, hb⟩ hnested) ?_
  rw [hbound, Nat.not_le]

/-- From the fourth level on: the parameter against the class, narrowed or not. -/
theorem In.settles_fourth (hc : f.c ≠ Builtin.nothing.type) (hp : f.At v limit [(f.cc, f.xx), (f.c, f.kx), (f.c, f.x)] p) (hslot : Slot s f.param b)
    (hb : v.shape? b = some (.bounds f.c f.kx)) :
    Yields p s v (isSubType (n + 9) f.x f.c)
      (f.Settles s (f.Returns w ∨
        2 < limit.toNat ∧ (f.IsNull w ∨ f.name = Builtin.anyName ∨ 4 < limit.toNat))) := by
  have hx : f.x ≠ f.c := Ne.symm hf.c_ne_x
  have hcc : f.cc ≠ f.c := Ne.symm hf.c_ne_cc
  have hcx : f.cc ≠ f.x := World.ne_of_shape hf.cc hf.x (by simp)
  have hparam : (f.x, f.c) ∉ watched limit [(f.cc, f.xx), (f.c, f.kx), (f.c, f.x)] :=
    not_mem_watched (by simp [hx, hcx.symm])
  refine yields_settles_iff (hf.settles_param hv hc hp (by simp) hslot hb fun p' s' v' b' i hv' hp' hslot' hb' hi => ?_)
    (and_iff_right hparam)
  have hv' := hv.trans hv'
  have hxi : i ≠ f.x := World.ne_of_shape hi (hv'.shape hf.x) (by simp)
  have hki : i ≠ f.kx := World.ne_of_shape hi (hv'.shape hf.kx) (by simp)
  have hfree : (f.c, i) ∉ watched limit f.loop := not_mem_watched (by simp [loop, hx.symm, hcc.symm, hki, hxi])
  exact yields_settles_iff (hf.settles_meet hv' hp' (by simp) hi fun p₅ hp₅ => hf.settles_second hv' hc hp₅ hslot' hb' hi)
    (and_iff_right hfree)

/-- The first round, and inside it the second. -/
theorem In.settles_first (hc : f.c ≠ Builtin.nothing.type) (hp : f.At v limit [] p) (hslot : Slot s f.param f.upTo) :
    Yields p s v (isSubType (n + 12) f.c f.x) (f.Settles s (f.Accepts w limit)) := by
  have hcc : f.cc ≠ f.c := Ne.symm hf.c_ne_cc
  have hkx : f.kx ≠ f.x := World.ne_of_shape hf.kx hf.x (by simp)
  have htop : (f.c, f.x) ∉ watched limit [] := not_mem_watched (by simp)
  have hbound : (f.c, f.kx) ∉ watched limit [(f.c, f.x)] := not_mem_watched (by simp [hkx])
  have hmembers : (f.cc, f.xx) ∉ watched limit [(f.c, f.kx), (f.c, f.x)] := not_mem_watched (by simp [hcc])
  have hlow : (f.c, f.x) ∈ watched limit [(f.cc, f.xx), (f.c, f.kx), (f.c, f.x)] ↔ limit.toNat ≤ 1 :=
    mem_watched_iff (l := [(f.cc, f.xx), (f.c, f.kx)]) (by simp [hcc.symm, hkx.symm])
  have hround : ∀ p₁ s₁ v₁ b₁, v ≤ v₁ → f.At v₁ limit [(f.c, f.x)] p₁ → Slot s₁ f.param b₁ →
      v₁.shape? b₁ = some (.bounds f.c f.kx) →
      Yields p₁ s₁ v₁ (isSubType (n + 11) f.c f.kx) (f.Settles s₁ (f.Accepts w limit)) := by
    intro p₁ s₁ v₁ b₁ hv₁ hp₁ hslot₁ hb₁
    refine yields_settles_iff (hf.settles_bound (hv.trans hv₁) hc hp₁ (by simp) ⟨b₁, f.kx, hslot₁, hb₁⟩
      fun p₂ v₂ hv₂ hp₂ => hf.settles_members (hv.trans (hv₁.trans hv₂)) hp₂ (by simp) fun p₃ hp₃ =>
        hf.settles_fourth (hv.trans (hv₁.trans hv₂)) hc hp₃ hslot₁ (hv₂.shape hb₁)) ?_
    simp only [hbound, hmembers, hlow, hc, not_false_eq_true, true_and, false_or, Accepts]
    by_cases hnull : f.IsNull w
    · simp only [hnull, true_or]
    by_cases hname : f.name = Builtin.anyName
    · simp only [hname, true_or, or_true]
    by_cases hreturns : f.Returns w
    · simp only [hnull, hname, hreturns, false_or, true_or, true_and, and_true]
      omega
    · simp only [hnull, hname, hreturns, false_or, and_false, or_false]
      omega
  exact yields_settles_iff (hf.settles_top hv hc hp (by simp) hslot hround) (and_iff_right htop)

end Whole

/-- The class against the parameter at its declared bounds. -/
theorem In.settles_whole {f : FBound} {w v : World} (hf : f.In w) (hv : w ≤ v) {limit : UInt32} {p : Place}
    {s : ConstraintStore} {n : Nat} (hp : f.At v limit [] p) (hslot : Slot s f.param f.upTo) :
    Yields p s v (isSubType (n + 12) f.c f.x) (f.Settles s (f.Accepts w limit)) := by
  by_cases hc : f.c = Builtin.nothing.type
  · have hlow : f.Lower s v := ⟨f.upTo, f.kx, hslot, hc ▸ hv.shape hf.upTo⟩
    refine yields_settles_iff (hf.settles_low hv hp (by simp) hlow) (iff_of_true ?_ (.inl hc))
    exact not_mem_watched (by simp)
  · exact hf.settles_first hv hc hp hslot

/-- Putting the universal type under inference in a fresh comparer. -/
theorem In.track_new {f : FBound} {w : World} (hf : f.In w) (options : Options) (fuel : Nat) :
    ∃ c₀ w₀ c₁ w₁, Comparer.new options w = .ok (c₀, w₀) ∧
      track fuel f.poly c₀ w₀ = .ok ((.ok f.poly, c₁), w₁) ∧ w ≤ w₁ ∧ Slot c₁.constraint f.param f.upTo ∧
      f.At w₁ options.monitorThreshold [] c₁.place := by
  obtain ⟨d, hd, hinfo⟩ := hf.infos
  obtain ⟨c₀, w₀, c₁, w₁, hnew, htrack, hw, hentries, hplace⟩ := track_fresh hf.poly hd options fuel
  refine ⟨c₀, w₀, c₁, w₁, hnew, htrack, hw, ⟨d.infos, ?_, hinfo⟩, ?_⟩
  · simp [ConstraintStore.slots?, InsertionMap.find?, hentries]
  · cases hnew
    rw [hplace]
    exact ⟨⟨rfl, rfl, rfl, List.take_nil.symm, rfl⟩, by simp⟩

/-- **A class below `K{T = C}` as the lower end of a parameter below `K{T = X}`.** In a fresh comparer that infers the
parameter the comparison comes to an answer. It is positive, and leaves the class as the lower end, exactly if
comparisons are monitored from the fifth level on or later, or the class is the bottom class or null, or the member is
not looked at, or the second round is not needed because `K` conforms to `C`, unless all but the outermost comparison are
monitored. Otherwise the second round is refused, and the bounds stay as declared. -/
theorem isSubType_iff_accepts {f : FBound} {w : World} (hf : f.In w) (options : Options) (n : Nat) :
    ∃ c₀ w₀ c₁ w₁ answer c₂ w₂, Comparer.new options w = .ok (c₀, w₀) ∧
      track (n + 12) f.poly c₀ w₀ = .ok ((.ok f.poly, c₁), w₁) ∧
      isSubType (n + 12) f.c f.x c₁ w₁ = .ok ((answer, c₂), w₂) ∧
      (answer = true ↔ f.Accepts w options.monitorThreshold) ∧
      (answer = true → f.Lower c₂.constraint w₂) ∧ (answer = false → c₂.constraint = c₁.constraint) := by
  obtain ⟨c₀, w₀, c₁, w₁, hnew, htrack, hw, hslot, hat⟩ := hf.track_new options (n + 12)
  have hsettles := hf.settles_whole hw hat hslot (n := n)
  obtain ⟨answer, c₂, w₂, hrun, -, -, hanswer⟩ := hsettles c₁ ⟨rfl, rfl⟩
  refine ⟨c₀, w₀, c₁, w₁, answer, c₂, w₂, hnew, htrack, hrun, ?_⟩
  cases answer with
  | true => exact ⟨iff_of_true rfl hanswer.1, fun _ => hanswer.2, nofun⟩
  | false => exact ⟨iff_of_false nofun hanswer.1, nofun, fun _ => hanswer.2⟩

/-! ### The least scene -/

/-- `class K` with `type T`, and `class C` below `K{T = C}`; the type `[X <: K{T = X}] X`. -/
def leastWorld : World :=
  let w := World.initial
  let w := { w with decls := (w.decls.register
    { kind := .cls, name := "K", owner := .absent, flags := { static := true }, parents := [Builtin.object.type] }).2 }
  let w := { w with decls := (w.decls.register { kind := .abstractType, name := "T", owner := ⟨44⟩, info := ⟨14⟩ }).2 }
  let w := { w with decls := (w.decls.register
    { kind := .cls, name := "C", owner := .absent, flags := { static := true }, parents := [Builtin.object.type] }).2 }
  let w := { w with types := (w.types.intern (.named .noPrefix ⟨44⟩)).2 }
  let w := { w with types := (w.types.intern (.named .noPrefix ⟨46⟩)).2 }
  let w := { w with types := (w.types.intern (.bounds ⟨16⟩ ⟨16⟩)).2 }
  let w := { w with types := (w.types.intern (.refined ⟨15⟩ "T" ⟨17⟩)).2 }
  let w := { w with decls := w.decls.setParents ⟨46⟩ [⟨18⟩] }
  let w := { w with binders := w.binders.push { kind := .universal, names := ["X"] } }
  let w := { w with types := (w.types.intern (.param ⟨⟨0⟩, 0⟩)).2 }
  let w := { w with types := (w.types.intern (.bounds ⟨19⟩ ⟨19⟩)).2 }
  let w := { w with types := (w.types.intern (.refined ⟨15⟩ "T" ⟨20⟩)).2 }
  let w := { w with types := (w.types.intern (.bounds Builtin.nothing.type ⟨21⟩)).2 }
  let w := { w with binders := w.binders.modify 0 fun d => { d with infos := [⟨22⟩], result := ⟨19⟩ } }
  { w with types := (w.types.intern (.universal ⟨0⟩)).2 }

def least : FBound where
  sup := ⟨44⟩
  cls := ⟨46⟩
  name := "T"
  param := ⟨⟨0⟩, 0⟩
  supPrefix := .noPrefix
  clsPrefix := .noPrefix
  k := ⟨15⟩
  c := ⟨16⟩
  x := ⟨19⟩
  cc := ⟨17⟩
  xx := ⟨20⟩
  kc := ⟨18⟩
  kx := ⟨21⟩
  upTo := ⟨22⟩
  poly := ⟨23⟩

theorem leastWorld_built : leastWorld.Built := by
  have h₁ := World.Built.register .initial { kind := .cls, name := "K", owner := .absent, flags := { static := true },
                                             parents := [Builtin.object.type] } (by decide) (by decide)
  have h₂ := World.Built.register h₁ { kind := .abstractType, name := "T", owner := ⟨44⟩, info := ⟨14⟩ }
    (by decide) (by decide)
  have h₃ := World.Built.register h₂ { kind := .cls, name := "C", owner := .absent, flags := { static := true },
                                       parents := [Builtin.object.type] } (by decide) (by decide)
  have h₄ := World.Built.intern h₃ (.named .noPrefix ⟨44⟩) (World.mentions_named (by decide) _)
  have h₅ := World.Built.intern h₄ (.named .noPrefix ⟨46⟩) (World.mentions_named (by decide) _)
  have h₆ := World.Built.intern h₅ (.bounds ⟨16⟩ ⟨16⟩) (World.mentions_bounds (by decide) (by decide))
  have h₇ := World.Built.intern h₆ (.refined ⟨15⟩ "T" ⟨17⟩)
    (World.mentions_refined (by decide) _ (by decide))
  have h₈ := World.Built.parents h₇ ⟨46⟩ [⟨18⟩] (by decide)
  have h₉ := World.Built.binder h₈ .universal ["X"]
  have h₁₀ := World.Built.intern h₉ (.param ⟨⟨0⟩, 0⟩) (World.mentions_param (by decide) _)
  have h₁₁ := World.Built.intern h₁₀ (.bounds ⟨19⟩ ⟨19⟩) (World.mentions_bounds (by decide) (by decide))
  have h₁₂ := World.Built.intern h₁₁ (.refined ⟨15⟩ "T" ⟨20⟩)
    (World.mentions_refined (by decide) _ (by decide))
  have h₁₃ := World.Built.intern h₁₂ (.bounds Builtin.nothing.type ⟨21⟩)
    (World.mentions_bounds (by decide) (by decide))
  have h₁₄ := World.Built.fill h₁₃ ⟨0⟩ [⟨22⟩] ⟨19⟩ (by decide) (by decide)
  exact .intern h₁₄ (.universal ⟨0⟩) (World.mentions_universal (by decide))

theorem not_inherits {w : World} {t : Ty} {cls : Symbol} (h : (t.baseType cls w).toOption.map (·.1) = some .noType) :
    ¬ w.Inherits t cls := by
  rintro ⟨base, w', hr, hbase⟩
  rw [hr] at h
  cases h
  cases hbase

theorem least_in : least.In leastWorld where
  closed := leastWorld_built.closed
  standard := leastWorld_built.standard
  k := by decide +kernel
  c := by decide
  x := by decide
  cc := by decide
  xx := by decide
  kc := by decide
  kx := by decide
  upTo := by decide
  poly := by decide
  infos := ⟨{ kind := .universal, names := ["X"], infos := [⟨22⟩], result := ⟨19⟩ }, by decide, rfl⟩
  sup_isClass := by decide
  sup_trait h := absurd h (by decide)
  cls_isClass := by decide
  cls_ne_any := by decide
  cls_no_trait := by decide
  parents := by decide
  own space := by cases space <;> decide
  prefixes h := absurd h (by decide)
  bottom := .inr ⟨by decide, not_inherits (by decide +kernel)⟩
  no_cycle := not_inherits (by decide)

/-- With the default options the class is accepted; monitored from the fourth level on it is refused. -/
theorem isSubType_iff_accepts_least : least.In leastWorld ∧
    (∃ c₀ w₀ c₁ w₁ c₂ w₂, Comparer.new {} leastWorld = .ok (c₀, w₀) ∧
      track 12 least.poly c₀ w₀ = .ok ((.ok least.poly, c₁), w₁) ∧
      isSubType 12 least.c least.x c₁ w₁ = .ok ((true, c₂), w₂) ∧ least.Lower c₂.constraint w₂) ∧
    ∃ c₀ w₀ c₁ w₁ c₂ w₂, Comparer.new { monitorThreshold := 4 } leastWorld = .ok (c₀, w₀) ∧
      track 12 least.poly c₀ w₀ = .ok ((.ok least.poly, c₁), w₁) ∧
      isSubType 12 least.c least.x c₁ w₁ = .ok ((false, c₂), w₂) ∧ c₂.constraint = c₁.constraint := by
  have haccepts : least.Accepts leastWorld ({} : Options).monitorThreshold := .inr (.inr (.inr (.inl (by decide))))
  have hrefuses : ¬ least.Accepts leastWorld 4 := by
    rintro (h | ⟨h, -⟩ | h | h | ⟨-, h | ⟨h, -⟩ | ⟨h, -⟩⟩) <;> exact absurd h (by decide)
  obtain ⟨c₀, w₀, c₁, w₁, answer, c₂, w₂, hnew, htrack, hrun, hiff, hlower, -⟩ := isSubType_iff_accepts least_in {} 0
  obtain ⟨d₀, v₀, d₁, v₁, answer', d₂, v₂, hnew', htrack', hrun', hiff', -, hback⟩ :=
    isSubType_iff_accepts least_in { monitorThreshold := 4 } 0
  obtain rfl : answer = true := hiff.2 haccepts
  obtain rfl : answer' = false := Bool.eq_false_iff.2 fun h => hrefuses (hiff'.1 h)
  exact ⟨least_in, ⟨c₀, w₀, c₁, w₁, c₂, w₂, hnew, htrack, hrun, hlower rfl⟩,
    ⟨d₀, v₀, d₁, v₁, d₂, v₂, hnew', htrack', hrun', hback rfl⟩⟩

/-- Monitored from the third level on, the least scene is refused: the threshold does matter. -/
theorem isSubType_refused_least : least.In leastWorld ∧
    ((do
      let c ← Comparer.new { monitorThreshold := 3 }
      let (_, c) ← (track 12 least.poly).run c
      (isSubType 12 least.c least.x).run' c : WorldM Bool) leastWorld).toOption.map (·.1) = some false :=
  ⟨least_in, by decide +kernel⟩

end FBound

end Conformance
