import Conformance.Declare
import Conformance.Proofs.Declared
import Conformance.Proofs.Tightening
import Conformance.Proofs.Upkeep

/-!
# Handles are canonical and permanent

A session is a world on which calls are made one after the other, in any order and with any arguments, answered or
refused: they build, look up, rewrite and compare types (`Addition`), settle variables and declare symbols (`Call`). A
universal or method type takes more than one call to build: its binder stays open while others are made, and is filled in
when infos and body are there, or never (`Session.Step`). `Run.bind` ties the steps to the builders.

Calls that add leave all that handles stand for alone, and the few others change what they are for and nothing else
(`Call.retains`), so a step keeps every binder but the open ones, and so does a run (`handles_permanent`).
-/

namespace Conformance

open CompareM

/-! ## Calls -/

namespace CompareM

/-- The calls of a comparer. -/
inductive Operation : {α : Type} → CompareM α → Prop
  | ask {fuel : Nat} {m : CompareM Bool} (hm : Question fuel m) : Operation m
  | track (fuel : Nat) (poly : Ty) : Operation (track fuel poly)
  | approximate (fuel : Nat) (p : Param) (fromBelow : Bool) : Operation (approximate fuel p fromBelow)
  | replace (fuel : Nat) (p : Param) (inst : Ty) : Operation (replace fuel p inst)

theorem Operation.runs {α : Type} {D : Domain} (hD : D.Wide) {m : CompareM α} (hm : Operation m) (c : Comparer)
    (w₀ : World) : D.Runs w₀ (m c) := by
  have hty := hD.ty w₀
  cases hm with
  | @ask fuel m hm =>
    have hsub := @Domain.asks_isSubType D hD.rebuilds fuel
    cases hm with
    | subType t₁ t₂ => exact (hsub (hty t₁) (hty t₂)).runs hD c
    | sameType t₁ t₂ => exact (Domain.asks_same hsub (hty t₁) (hty t₂)).runs hD c
    | constructor t₁ t₂ => exact (Domain.asks_conformsAsConstructor hsub (hty t₁) (hty t₂)).runs hD c
    | matchesType t₁ t₂ simple =>
      exact (Domain.asks_matchesWith hsub hD.rebuilds simple fuel (hty t₁) (hty t₂)).runs hD c
    | matchingParams formals₁ formals₂ foreign₁ foreign₂ =>
      exact (Domain.asks_sameParams hsub (fun t _ => hty t) (fun t _ => hty t) foreign₁ foreign₂).runs hD c
    | addConstraint p bound => exact (Domain.asks_narrow hsub p (hty bound)).runs hD c
  | track fuel poly => exact (Domain.compares_track hD.rebuilds (hty poly)).runs hD c
  | approximate fuel p fromBelow => exact (Domain.compares_approximate hD.rebuilds p fromBelow).runs hD c
  | replace fuel p inst => exact (Domain.compares_replace hD.rebuilds p (hty inst)).runs hD c

end CompareM

/-- The calls that only add to a world. A comparer may hold anything. -/
inductive Addition : {α : Type} → WorldM α → Prop
  -- building
  | named (pre : Ty) (s : Symbol) : Addition (Ty.named pre s)
  | path (pre : Ty) (s : Symbol) : Addition (Ty.path pre s)
  | self (cls : Symbol) : Addition (Ty.self cls)
  | literal (value : Literal) : Addition (Ty.literal value)
  | skolem (t : Ty) : Addition t.skolem
  | refined (parent : Ty) (name : String) (info : Ty) : Addition (Ty.refined parent name info)
  | inter (a b : Ty) : Addition (Ty.inter a b)
  | union (a b : Ty) : Addition (Ty.union a b)
  | byName (result : Ty) : Addition (Ty.byName result)
  | bounds (lo hi : Ty) : Addition (Ty.bounds lo hi)
  | boundsInter (a b : Ty) : Addition (Ty.boundsInter a b)
  | classInfo (pre : Ty) (cls : Symbol) : Addition (Ty.classInfo pre cls)
  | asBounds (info : Ty) : Addition info.asBounds
  | paramTypes (b : BinderId) : Addition b.paramTypes
  | paramType (b : BinderId) (i : Nat) : Addition (b.paramType i)
  | simpleMethod (formals : List Ty) (result : Ty) (flags : MethodFlags) : Addition (simpleMethod formals result flags)
  | copy (fuel : Nat) (b : BinderId) : Addition (b.copy fuel)
  -- looking up
  | reading {α : Type} (f : World → Except Halt α) : Addition (WorldM.reading f)
  | infoOf (t : Ty) : Addition t.infoOf
  | upperBound (t : Ty) : Addition t.upperBound
  | underlying (t : Ty) : Addition t.underlying
  | member (t : Ty) (name : String) : Addition (t.member name)
  | baseType (t : Ty) (cls : Symbol) : Addition (t.baseType cls)
  | derivesFrom (cls base : Symbol) : Addition (cls.derivesFrom base)
  | isNotNull (t : Ty) : Addition t.isNotNull
  | isReferenceClass (s : Symbol) : Addition s.isReferenceClass
  | erasedName (t : Ty) : Addition t.erasedName
  | signature (fuel : Nat) (t : Ty) : Addition (t.signature fuel)
  -- rewriting
  | substBinder (fuel : Nat) (old new : BinderId) (t : Ty) : Addition (Ty.substBinder fuel old new t)
  | substParam (fuel : Nat) (p : Param) (r t : Ty) : Addition (Ty.substParam p r fuel t)
  | dropRefinements (fuel : Nat) (p : Param) (t : Ty) : Addition (Ty.dropRefinements p fuel t)
  -- comparing
  | newStore : Addition ConstraintStore.new
  | withSlots (S : ConstraintStore) (b : BinderId) (slots : List Ty) : Addition (S.withSlots b slots)
  | addBinder (S : ConstraintStore) (b : BinderId) : Addition (S.add b)
  | without (S : ConstraintStore) (p : Param) : Addition (S.without p)
  | subst (fuel : Nat) (S : ConstraintStore) (p : Param) (r : Ty) : Addition (S.subst fuel p r)
  | newComparer (options : Options) : Addition (Comparer.new options)
  | operation {α : Type} {m : CompareM α} (hm : Operation m) (c : Comparer) : Addition (m c)

/-- The calls that a world takes. -/
inductive Call : {α : Type} → WorldM α → Prop
  | add {α : Type} {m : WorldM α} (hm : Addition m) : Call m
  | var (origin : Ty) : Call (Ty.var origin)
  | instantiate (var inst : Ty) : Call (Ty.instantiate var inst)
  | request (r : Request) : Call r.run

/-! ## Calls that add -/

/-- A computation on the world that cannot be refused. -/
theorem lift_ok {α : Type} {m : WorldM α} {w w' : World} {r : Except BuildError α}
    (h : (liftM m : BuildM α) w = .ok (r, w')) : ∃ a, m w = .ok (a, w') ∧ r = .ok a := by
  change Except.bind (m w) _ = _ at h
  match hm : m w with
  | .error _ => rw [hm] at h; cases h
  | .ok (a, w₁) => rw [hm] at h; cases h; exact ⟨a, rfl, rfl⟩

namespace Domain

variable {D : Domain} {w₀ : World}

theorem runs_paramTypes (hD : D.Wide) (b : BinderId) : D.Runs w₀ b.paramTypes :=
  .get_bind fun _ _ _ => (Makes.mapM (fun _ _ => makes_paramType (hD.param _ _)) fun hle h => D.grow hle h).runs

theorem runs_paramType (hD : D.Wide) (b : BinderId) (i : Nat) : D.Runs w₀ (b.paramType i) := by
  intro w r w' hle hw hrun
  change (if w.arity b ≤ i then _ else _ : BuildM Ty) w = _ at hrun
  split at hrun
  · cases hrun
    exact ⟨le_rfl, hw, trivial⟩
  · obtain ⟨t, ht, rfl⟩ := lift_ok hrun
    exact (makes_paramType (hD.param w ⟨b, i⟩)).runs w t w' le_rfl hw ht

end Domain

/-- What adds to a world keeps to every wide domain. -/
theorem Addition.runs {α : Type} {D : Domain} (hD : D.Wide) {m : WorldM α} (hm : Addition m) (w₀ : World) :
    D.Runs w₀ m := by
  have hty := hD.ty w₀
  have hsym := hD.sym w₀
  cases hm with
  | named pre s | path pre s | classInfo pre s => exact (Domain.makes_intern (fun _ _ => by trivial) (by simp [Shape.parts, hty, hsym])).runs
  | self cls => exact (Domain.makes_intern (fun _ _ => by trivial) (by simp [Shape.parts, hsym])).runs
  | literal value | refined parent name info | byName result =>
    exact (Domain.makes_intern (fun _ _ => by trivial) (by simp [Shape.parts, hty])).runs
  | skolem t => exact (Domain.makes_skolem (hty t)).runs
  | inter a b => exact (Domain.makes_inter (hty a) (hty b)).runs
  | union a b => exact (Domain.makes_union (hty a) (hty b)).runs
  | bounds lo hi => exact (Domain.makes_bounds (hty lo) (hty hi)).runs
  | boundsInter a b => exact (Domain.makes_boundsInter (hty a) (hty b)).runs
  | asBounds info => exact (Domain.makes_asBounds (hty info)).runs
  | paramTypes b => exact Domain.runs_paramTypes hD b
  | paramType b i => exact Domain.runs_paramType hD b i
  | simpleMethod formals result flags => exact hD.simpleMethod w₀ formals result flags
  | copy fuel b => exact (hD.copy w₀ fuel b).runs
  | reading f => exact .reading fun _ _ _ _ _ => trivial
  | infoOf t => exact (Domain.makes_infoOf (hty t)).runs
  | upperBound t => exact (Domain.makes_upperBound (hty t)).runs
  | underlying t => exact (Domain.makes_underlying (hty t)).runs
  | member t name => exact (Domain.makes_member (hty t) name).runs
  | baseType t cls => exact (Domain.makes_baseType (hty t) cls).runs
  | derivesFrom cls base => exact Domain.makes_derivesFrom (hsym cls) base
  | isNotNull t => exact Domain.makes_isNotNull (hty t)
  | isReferenceClass s => exact Domain.makes_isReferenceClass (hsym s)
  | erasedName t => exact Domain.makes_erasedName (hty t)
  | signature fuel t => exact Domain.makes_signature fuel (hty t)
  | substBinder fuel old new t => exact hD.substBinder w₀ fuel old new t
  | substParam fuel p r t => exact hD.substParam w₀ p r fuel t
  | dropRefinements fuel p t => exact hD.dropRefinements w₀ p fuel t
  | newStore => exact Domain.makes_newStore.runs
  | withSlots S b slots => exact (Domain.makes_withSlots (hD.stocks w₀ S) fun t _ => hty t).runs
  | addBinder S b => exact (Domain.makes_add (hD.stocks w₀ S) fun w _ _ _ _ t _ => hD.ty w t).runs
  | without S p => exact (Domain.makes_without (hD.stocks w₀ S) p).runs
  | subst fuel S p r => exact (Domain.makes_subst hD.rebuilds (hD.stocks w₀ S) p (hty r)).runs
  | newComparer options => exact .bind Domain.makes_newStore fun _ _ _ _ _ => .done _
  | operation hm c => exact hm.runs hD c w₀

theorem build_get_bind_run {α : Type} (f : World → BuildM α) (w : World) : (get >>= f : BuildM α).run w = f w w := rfl

/-- A step that is refused ends the sequence. -/
theorem build_bind_ok {α β : Type} {m : BuildM α} {f : α → BuildM β} {w w' : World} {r : Except BuildError β}
    (h : (m >>= f) w = .ok (r, w')) :
    (∃ e, m w = .ok (.error e, w') ∧ r = .error e) ∨ ∃ a w₁, m w = .ok (.ok a, w₁) ∧ f a w₁ = .ok (r, w') := by
  change Except.bind (m w) _ = _ at h
  match hm : m w with
  | .error _ => rw [hm] at h; cases h
  | .ok (.error e, w₁) => rw [hm] at h; cases h; exact .inl ⟨e, rfl, rfl⟩
  | .ok (.ok a, w₁) => rw [hm] at h; exact .inr ⟨a, w₁, rfl, h⟩

/-- A call that starts with a check changes nothing, or the check has passed. -/
theorem Checks.run_cases {α : Type} {x : BuildM Unit} {m : BuildM α} {w w' : World} {r : Except BuildError α}
    (hx : Checks x) (hrun : (do x; m : BuildM α) w = .ok (r, w')) :
    w' = w ∨ x w = .ok (.ok ⟨⟩, w) ∧ m w = .ok (r, w') := by
  obtain hpassed | ⟨e, hrefused⟩ := hx w
  · obtain ⟨e, he, -⟩ | ⟨_, w₁, hw₁, hrest⟩ := build_bind_ok hrun
    · cases hpassed.symm.trans he
    · cases hpassed.symm.trans hw₁
      exact .inr ⟨hpassed, hrest⟩
  · obtain ⟨e', he', -⟩ | ⟨_, w₁, hw₁, -⟩ := build_bind_ok hrun
    · cases hrefused.symm.trans he'
      exact .inl rfl
    · cases hrefused.symm.trans hw₁

theorem isClass_of_expectClass {cls : Symbol} {w : World} (h : cls.expectClass w = .ok (.ok ⟨⟩, w)) :
    w.decls.isClass cls := by
  by_contra hcls
  have hrefused : cls.expectClass w = .ok (.error (.badSymbol cls), w) := by
    show (if !w.decls.isClass cls then throw _ else pure _ : BuildM Unit) w = _
    rw [Bool.eq_false_iff.2 hcls]
    rfl
  cases h.symm.trans hrefused

/-- A variable is given out for a parameter, and for nothing else. -/
theorem var_cases {origin : Ty} {r : Except BuildError Ty} {w w' : World} (hrun : Ty.var origin w = .ok (r, w')) :
    ((∃ e, r = .error e) ∧ w' = w) ∨ ∃ p t, w.shape? origin = some (.param p) ∧ r = .ok t ∧
      WorldM.intern (.var ⟨w.vars.size⟩) { w with vars := w.vars.push { origin } } = .ok (t, w') := by
  change (Ty.var origin).run w = _ at hrun
  rw [Ty.var, build_get_bind_run] at hrun
  cases hd : w.shape? origin with
  | none =>
    rw [hd] at hrun
    cases hrun
    exact .inl ⟨⟨_, rfl⟩, rfl⟩
  | some d =>
    rw [hd] at hrun
    cases d with
    | param p =>
      cases hrun
      exact .inr ⟨p, _, rfl, rfl, rfl⟩
    | _ =>
      cases hrun
      exact .inl ⟨⟨_, rfl⟩, rfl⟩

/-- What is settled is a variable that is not settled yet; anything else is refused. -/
theorem instantiate_cases {var inst : Ty} {r : Except BuildError Unit} {w w' : World}
    (hrun : Ty.instantiate var inst w = .ok (r, w')) :
    ((∃ e, r = .error e) ∧ w' = w) ∨ ∃ (v : VarId) (c : VarCell), w.shape? var = some (.var v) ∧
      w.vars[v.id]? = some c ∧ c.inst = none ∧ r = .ok ⟨⟩ ∧
        w' = { w with vars := w.vars.setIfInBounds v.id { c with inst := some inst } } := by
  change (Ty.instantiate var inst).run w = _ at hrun
  rw [Ty.instantiate, build_get_bind_run] at hrun
  cases hd : w.shape? var with
  | none => rw [hd] at hrun; cases hrun; exact .inl ⟨⟨_, rfl⟩, rfl⟩
  | some d =>
    rw [hd] at hrun
    cases d with
    | var v =>
      dsimp only at hrun
      cases hv : w.vars[v.id]? with
      | none => rw [hv] at hrun; cases hrun; exact .inl ⟨⟨_, rfl⟩, rfl⟩
      | some c =>
        rw [hv] at hrun
        cases hc : c.inst with
        | none =>
          simp only [hc] at hrun
          cases hrun
          exact .inr ⟨v, c, rfl, hv, hc, rfl, rfl⟩
        | some t =>
          simp only [hc] at hrun
          cases hrun
          exact .inl ⟨⟨_, rfl⟩, rfl⟩
    | _ => cases hrun; exact .inl ⟨⟨_, rfl⟩, rfl⟩

/-! ### The domain of everything -/

/-- Every world, with everything inside. -/
def Domain.all : Domain where
  Holds _ := True
  inside _ _ := True
  grow _ _ := trivial
  step _ _ _ := trivial
  noType _ := trivial
  noPrefix _ := trivial
  intern _ _ _ := ⟨trivial, trivial⟩
  binderType _ _ _ := ⟨trivial, trivial⟩
  skolem _ := trivial
  snapshot _ := trivial

theorem Grows.runs {α : Type} {m : WorldM α} (hm : Grows True m) (w₀ : World) : Domain.all.Runs w₀ m :=
  fun _ _ _ _ _ hrun => ⟨hm.le_of_ok hrun, trivial, trivial⟩

theorem starves_mentions (w : World) (p : Param) : ∀ (n : Nat) (t : Ty), Starves (w.mentions p n t)
  | 0, _ => .outOfFuel
  | n + 1, t => by
    have hany : ∀ l : List Ty, Starves (l.anyM (w.mentions p n)) := by
      intro l
      induction l with
      | nil => exact .ok _
      | cons a l ih => exact .bind (starves_mentions w p n a) fun b => by cases b <;> [exact ih; exact .ok _]
    unfold World.mentions
    split
    · exact .ok _
    · exact hany _

theorem grows_substParam (p : Param) (r : Ty) (n : Nat) : ∀ t, Grows True (Ty.substParam p r n t) := by
  induction n with
  | zero => exact fun _ => .throw
  | succ n ih =>
    intro t
    refine .get_bind fun w => ?_
    split
    · exact .ite (.pure _) (.pure _)
    · exact grows_mapChildren ih (grows_substBinder n) t

theorem grows_dropRefinements (p : Param) (n : Nat) : ∀ t, Grows True (Ty.dropRefinements p n t) := by
  induction n with
  | zero => exact fun _ => .throw
  | succ n ih =>
    intro t
    have hchildren := grows_mapChildren ih (grows_substBinder n) t
    refine .get_bind fun w => ?_
    split
    · exact .bind (grows_reading fun w => starves_mentions w p n _) fun _ => .ite (ih _) hchildren
    · exact hchildren

theorem grows_simpleMethod (formals : List Ty) (result : Ty) (flags : MethodFlags) :
    Grows True (simpleMethod formals result flags) := by
  intro w
  exact le_trans (le_fillBinder (le_freshBinder w _) (Nat.le_refl w.binders.size) formals result) (le_intern _ _)

theorem Domain.wide_all : Domain.all.Wide where
  ty _ _ := trivial
  sym _ _ := trivial
  param _ _ := trivial
  substBinder w₀ n old new t := (grows_substBinder n old new t).runs w₀
  substParam w₀ p r n t := (grows_substParam p r n t).runs w₀
  dropRefinements w₀ p n t := (grows_dropRefinements p n t).runs w₀
  simpleMethod w₀ formals result flags := (grows_simpleMethod formals result flags).runs w₀
  copy _ n b := fun _ _ _ _ _ hrun => ⟨(grows_copy n b).le_of_ok hrun, trivial, fun _ => trivial⟩

/-- What adds to a world takes nothing away. -/
theorem Addition.le {α : Type} {m : WorldM α} (hm : Addition m) {w w' : World} {a : α} (hrun : m w = .ok (a, w')) :
    w ≤ w' := (hm.runs Domain.wide_all w w a w' le_rfl trivial hrun).1

/-! ## What calls keep -/

/-- What a declaration says about its symbol for good: all but its parents, its type parameters and its members. -/
def Declaration.heading (d : Declaration) : DeclKind × String × Symbol × DeclFlags × Variance × Ty :=
  (d.kind, d.name, d.owner, d.flags, d.variance, d.info)

namespace Declarations

variable {ds : Declarations} {s t : Symbol} {d e : Declaration}

/-- The headings of what is declared in `ds` are the same in `ds'`. -/
def KeepsHeadings (ds ds' : Declarations) : Prop :=
  ∀ {s d}, ds.get? s = some d → ∃ d', ds'.get? s = some d' ∧ d'.heading = d.heading

theorem keepsHeadings_register (d : Declaration) : ds.KeepsHeadings (ds.register d).2 := by
  intro s e hs
  have hne : s ≠ ⟨ds.size + 1⟩ := by
    rintro rfl
    have hnext := ds.kind?_next
    rw [kind?, hs] at hnext
    cases hnext
  have hmap : ((ds.register d).2.get? s).map Declaration.heading = some e.heading := by
    rw [map_register Declaration.heading (fun _ k _ _ => by cases k <;> rfl), if_neg hne, hs]
    rfl
  exact Option.map_eq_some_iff.1 hmap

theorem keepsHeadings_setParents (t : Symbol) (ps : List Ty) : ds.KeepsHeadings (ds.setParents t ps) := by
  intro s e hs
  rw [setParents, get?_update, hs]
  split
  · exact ⟨_, rfl, rfl⟩
  · exact ⟨e, rfl, rfl⟩

end Declarations

/-- A property of worlds that is kept by what single calls do to them. -/
structure Durable (I : World → Prop) : Prop where
  add : ∀ {α : Type} {m : WorldM α} {w w' : World} {a : α}, Addition m → I w → m w = .ok (a, w') → I w'
  internVar : ∀ {w : World} (v : VarId), I w → I { w with types := (w.types.intern (.var v)).2 }
  pushVar : ∀ {w : World} (c : VarCell), I w → I { w with vars := w.vars.push c }
  settle : ∀ {w : World} {v : VarId} {c : VarCell} (t : Ty), I w → w.vars[v.id]? = some c → c.inst = none →
    I { w with vars := w.vars.setIfInBounds v.id { c with inst := some t } }
  declare : ∀ {w : World} {ds : Declarations}, I w → w.decls.KeepsHeadings ds → I { w with decls := ds }

/-- A property of worlds that is kept by what calls do once their checks have passed: what is declared comes without
type parameters of its own, and is a type parameter only of a class. -/
structure Steady (I : World → Prop) : Prop where
  add : ∀ {α : Type} {m : WorldM α} {w w' : World} {a : α}, Addition m → I w → m w = .ok (a, w') → I w'
  internVar : ∀ {w : World} (v : VarId), I w → I { w with types := (w.types.intern (.var v)).2 }
  pushVar : ∀ {w : World} (c : VarCell), I w → I { w with vars := w.vars.push c }
  settle : ∀ {w : World} {v : VarId} {c : VarCell} (t : Ty), I w → w.vars[v.id]? = some c → c.inst = none →
    I { w with vars := w.vars.setIfInBounds v.id { c with inst := some t } }
  register : ∀ {w : World} {d : Declaration}, I w → d.typeParams = [] →
    (d.kind = .typeParam → w.decls.isClass d.owner) → I { w with decls := (w.decls.register d).2 }
  setParents : ∀ {w : World} (s : Symbol) (ps : List Ty), I w → I { w with decls := w.decls.setParents s ps }

theorem Durable.steady {I : World → Prop} (hI : Durable I) : Steady I where
  add := hI.add
  internVar := hI.internVar
  pushVar := hI.pushVar
  settle := hI.settle
  register hw _ _ := hI.declare hw (Declarations.keepsHeadings_register _)
  setParents s ps hw := hI.declare hw (Declarations.keepsHeadings_setParents s ps)

/-- The types that the call is given. -/
def Request.types : Request → List Ty
  | .cls .. => []
  | .typeParam _ _ _ t | .abstractType _ _ t | .synonym _ _ t | .value _ _ t _ => [t]
  | .parents _ ps => ps

/-- A property of worlds that is kept by what calls that declare do once their checks have passed. The types that they
deal with are those that were given, and the root class. -/
structure Declares (given : List Ty) (I : World → Prop) : Prop where
  baseType : ∀ {w w' : World} {t a : Ty} (cls : Symbol), t = Builtin.object.type ∨ t ∈ given → I w →
    t.baseType cls w = .ok (a, w') → I w'
  register : ∀ {w : World} {d : Declaration}, I w → d.info = .noType ∨ d.info ∈ given → d.parents = [] →
    d.typeParams = [] → (d.kind = .typeParam → w.decls.isClass d.owner) → I { w with decls := (w.decls.register d).2 }
  setParents : ∀ {w : World} (s : Symbol) {ps : List Ty}, (∀ t ∈ ps, t = Builtin.object.type ∨ t ∈ given) → I w →
    I { w with decls := w.decls.setParents s ps }

theorem Steady.declares {I : World → Prop} (hI : Steady I) (given : List Ty) : Declares given I where
  baseType cls _ hw hrun := hI.add (.baseType _ cls) hw hrun
  register hw _ _ := hI.register hw
  setParents s _ _ hw := hI.setParents s _ hw

section Upholding

variable {α β : Type} {I : World → Prop}

/-- Whatever the call answers, the world has `I` afterwards if it had before. -/
def Upholds (I : World → Prop) (m : WorldM α) : Prop := ∀ w a w', I w → m w = .ok (a, w') → I w'

theorem Upholds.pure (a : α) : Upholds I (pure a : WorldM α) := fun w b w' hw hrun => by
  cases hrun
  exact hw

theorem Upholds.bind {m : WorldM α} {f : α → WorldM β} (hm : Upholds I m) (hf : ∀ a, Upholds I (f a)) :
    Upholds I (m >>= f) := fun w b w' hw hrun => by
  obtain ⟨a, w₁, hrun₁, hrun₂⟩ := bind_ok hrun
  exact hf a w₁ b w' (hm w a w₁ hw hrun₁) hrun₂

/-- A refusal ends a sequence of steps. -/
theorem Upholds.build_bind {m : BuildM α} {f : α → BuildM β} (hm : Upholds I m.run) (hf : ∀ a, Upholds I (f a).run) :
    Upholds I (m >>= f).run :=
  .bind hm fun r => by cases r <;> [exact .pure _; exact hf _]

theorem Upholds.build_lift {m : WorldM α} (hm : Upholds I m) : Upholds I (liftM m : BuildM α).run :=
  fun w r w' hw hrun => by
  obtain ⟨a, hrun, -⟩ := lift_ok hrun
  exact hm w a w' hw hrun

/-- A check changes nothing. -/
theorem Upholds.check {x : BuildM Unit} (hx : Checks x) : Upholds I x.run := fun w r w' hw hrun => by
  rcases hx w with h | ⟨e, h⟩
  · cases h.symm.trans hrun
    exact hw
  · cases h.symm.trans hrun
    exact hw

section Declaring

variable {given : List Ty}

theorem upholds_register (hI : Declares given I) {d : Declaration} (hinfo : d.info = .noType ∨ d.info ∈ given)
    (hparents : d.parents = []) (hparams : d.typeParams = []) (hkind : d.kind ≠ .typeParam) :
    Upholds I (WorldM.register d) := fun w s w' hw hrun => by
  cases hrun
  exact hI.register hw hinfo hparents hparams fun h => (hkind h).elim

theorem upholds_putParents (hI : Declares given I) (cls : Symbol) {ps : List Ty}
    (hps : ∀ t ∈ ps, t = Builtin.object.type ∨ t ∈ given) :
    Upholds I (modify fun w : World => { w with decls := w.decls.setParents cls ps } : WorldM PUnit) :=
  fun w s w' hw hrun => by
  cases hrun
  exact hI.setParents cls hps hw

/-- The parents that are stored are those that were given, or the root class. -/
theorem upholds_setParents (hI : Declares given I) (cls : Symbol) {ps : List Ty} (hps : ∀ t ∈ ps, t ∈ given) :
    Upholds I (setParents cls ps).run := by
  have heffective : ∀ t ∈ effectiveParents cls ps, t = Builtin.object.type ∨ t ∈ given := by
    intro t ht
    rw [effectiveParents] at ht
    split at ht
    · exact .inl (List.mem_singleton.1 ht)
    · exact .inr (hps t ht)
  have hcheck (t : Ty) (ht : t = Builtin.object.type ∨ t ∈ given) : Upholds I (do
      if (← t.baseType cls).present then throw (.cyclicInheritance cls) : BuildM Unit).run :=
    .build_bind (.build_lift fun w a w' => hI.baseType cls ht) fun base => by
      split <;> exact .pure _
  have hchecks : ∀ l : List Ty, (∀ t ∈ l, t = Builtin.object.type ∨ t ∈ given) → Upholds I (l.forM fun t => do
      if (← t.baseType cls).present then throw (.cyclicInheritance cls) : BuildM Unit).run := fun l hl => by
    induction l with
    | nil => exact .pure _
    | cons t l ih =>
      exact .build_bind (hcheck t (hl t List.mem_cons_self)) fun _ => ih fun u hu => hl u (List.mem_cons_of_mem _ hu)
  exact .build_bind (.check (checks_expectClass cls)) fun _ =>
    .build_bind (hchecks _ heffective) fun _ => .build_lift (upholds_putParents hI cls heffective)

/-- A type parameter is declared only of a class. -/
theorem upholds_declareTypeParam {bounds : Ty} (hI : Declares [bounds] I) (owner : Symbol) (name : String)
    (variance : Variance) : Upholds I (declareTypeParam owner name variance bounds).run := by
  intro w r w' hw hrun
  let d : Declaration := { kind := .typeParam, name, owner, variance, info := bounds }
  obtain rfl | ⟨hpassed, hrun⟩ := (checks_expectClass owner).run_cases hrun
  · exact hw
  · obtain rfl | ⟨-, hrun⟩ := (checks_expectBounds bounds).run_cases hrun
    · exact hw
    · obtain ⟨s, hs, -⟩ := lift_ok (m := WorldM.register d) hrun
      cases hs
      exact hI.register hw (.inr List.mem_cons_self) rfl rfl fun _ => isClass_of_expectClass hpassed

/-- What is declared has no other type than the one given. -/
theorem upholds_request (r : Request) (hI : Declares r.types I) : Upholds I r.run.run := by
  have hregister (d : Declaration) (hinfo : d.info ∈ r.types) (hparents : d.parents = []) (hparams : d.typeParams = [])
      (hkind : d.kind ≠ .typeParam) : Upholds I (liftM (WorldM.register d) : BuildM Symbol).run :=
    .build_lift (upholds_register hI (.inr hinfo) hparents hparams hkind)
  cases r with
  | cls owner name flags =>
    refine .build_bind (.build_lift (.bind (upholds_register hI (.inl rfl) rfl rfl nofun) fun s => ?_)) fun _ => .pure _
    exact .bind (upholds_putParents hI s fun t ht => .inl (List.mem_singleton.1 ht)) fun _ => .pure _
  | typeParam owner name variance bounds =>
    exact .build_bind (upholds_declareTypeParam hI owner name variance) fun _ => .pure _
  | abstractType owner name bounds =>
    refine .build_bind (.build_bind (.check (checks_expectOwner owner)) fun _ => ?_) fun _ => .pure _
    exact .build_bind (.check (checks_expectBounds bounds)) fun _ => hregister _ List.mem_cons_self rfl rfl nofun
  | synonym owner name aliased =>
    exact .build_bind (.build_bind (.check (checks_expectOwner owner)) fun _ =>
      hregister _ List.mem_cons_self rfl rfl nofun) fun _ => .pure _
  | value owner name t flags =>
    exact .build_bind (.build_bind (.check (checks_expectOwner owner)) fun _ =>
      hregister _ List.mem_cons_self rfl rfl nofun) fun _ => .pure _
  | parents s ps => exact upholds_setParents hI s fun _ => id

end Declaring

section Steady

variable (hI : Steady I)

include hI

theorem upholds_var (origin : Ty) : Upholds I (Ty.var origin).run := by
  intro w r w' hw hrun
  obtain ⟨-, rfl⟩ | ⟨p, t, -, -, ht⟩ := var_cases hrun
  · exact hw
  · cases ht
    exact hI.internVar _ (hI.pushVar _ hw)

theorem upholds_instantiate (var inst : Ty) : Upholds I (Ty.instantiate var inst).run := by
  intro w r w' hw hrun
  obtain ⟨-, rfl⟩ | ⟨v, c, -, hv, hc, -, rfl⟩ := instantiate_cases hrun
  · exact hw
  · exact hI.settle inst hw hv hc

/-- **A call keeps what is steady.** -/
theorem Call.upholds {m : WorldM α} (hm : Call m) : Upholds I m := by
  cases hm with
  | add hm => exact fun w a w' => hI.add hm
  | var origin => exact upholds_var hI origin
  | instantiate var inst => exact upholds_instantiate hI var inst
  | request r => exact upholds_request r (hI.declares r.types)

end Steady

end Upholding

/-! ## Sessions -/

/-- What the infos of a binder have to pass: type parameters need bounds. -/
def BinderKind.check : BinderKind → Ty → BuildM Unit
  | .universal => Ty.expectBounds
  | .method _ => fun _ => pure ()

/-- A world on which calls are made, and the binders whose types are being built, the innermost first. -/
structure Session where
  world : World
  opened : List BinderId

namespace Session

/-- The session that all sessions go on from. -/
def initial : Session := ⟨.initial, []⟩

/-- A call is answered or refused, or the type of a binder is begun, finished, or given up. -/
inductive Step : Session → Session → Prop
  | call {α : Type} {m : WorldM α} {a : α} {w w' : World} {opened : List BinderId} (hm : Call m)
    (hrun : m w = .ok (a, w')) : Step ⟨w, opened⟩ ⟨w', opened⟩
  | start (kind : BinderKind) (names : List String) {b : BinderId} {w w' : World} {opened : List BinderId}
    (hrun : WorldM.freshBinder kind names w = .ok (b, w')) : Step ⟨w, opened⟩ ⟨w', b :: opened⟩
  | finish (infos : List Ty) (result : Ty) {b : BinderId} {d : Binder} {answer : Except BuildError Ty} {w w' : World}
    {opened : List BinderId} (hd : w.binder? b = some d)
    (hrun : b.finish d.names d.kind.check infos result w = .ok (answer, w')) : Step ⟨w, b :: opened⟩ ⟨w', opened⟩
  | giveUp {b : BinderId} {w : World} {opened : List BinderId} : Step ⟨w, b :: opened⟩ ⟨w, opened⟩

/-- Any number of steps. -/
def Run : Session → Session → Prop := Relation.ReflTransGen Step

end Session

/-! ## Handles are permanent -/

namespace World

/-- `w'` holds what `w` holds, under the same handles: shapes, binders that are not open, the kind and the names of open
ones, the origins of variables and what they were settled to, and the headings of declarations. -/
structure Retains (opened : List BinderId) (w w' : World) : Prop where
  shape : ∀ {t d}, w.shape? t = some d → w'.shape? t = some d
  binder : ∀ {b d}, w.binder? b = some d → b ∉ opened → w'.binder? b = some d
  opened : ∀ {b d}, w.binder? b = some d → ∃ d', w'.binder? b = some d' ∧ d'.kind = d.kind ∧ d'.names = d.names
  var : ∀ {v : VarId} {c}, w.vars[v.id]? = some c →
    ∃ c', w'.vars[v.id]? = some c' ∧ c'.origin = c.origin ∧ ∀ t, c.inst = some t → c'.inst = some t
  decls : w.decls.KeepsHeadings w'.decls

namespace Retains

variable {opened : List BinderId} {w w₁ w' : World}

theorem of_le (h : w ≤ w') : w.Retains opened w' where
  shape := h.shape
  binder hb _ := h.binder hb
  opened hb := ⟨_, h.binder hb, rfl, rfl⟩
  var hv := ⟨_, h.vars ▸ hv, rfl, fun _ => id⟩
  decls hs := ⟨_, h.decls ▸ hs, rfl⟩

/-- Once closed, a binder is not opened again. -/
theorem trans {opened' : List BinderId} (h₁ : w.Retains opened w₁) (h₂ : w₁.Retains opened' w')
    (hopened : ∀ b d, w.binder? b = some d → b ∉ opened → b ∉ opened') : w.Retains opened w' where
  shape ht := h₂.shape (h₁.shape ht)
  binder hb hclosed := h₂.binder (h₁.binder hb hclosed) (hopened _ _ hb hclosed)
  opened hb := by
    obtain ⟨d₁, hb₁, hkind₁, hnames₁⟩ := h₁.opened hb
    obtain ⟨d', hb', hkind, hnames⟩ := h₂.opened hb₁
    exact ⟨d', hb', hkind.trans hkind₁, hnames.trans hnames₁⟩
  var hv := by
    obtain ⟨c₁, hv₁, horigin₁, hinst₁⟩ := h₁.var hv
    obtain ⟨c', hv', horigin, hinst⟩ := h₂.var hv₁
    exact ⟨c', hv', horigin.trans horigin₁, fun t ht => hinst t (hinst₁ t ht)⟩
  decls hs := by
    obtain ⟨d₁, hs₁, hd₁⟩ := h₁.decls hs
    obtain ⟨d', hs', hd'⟩ := h₂.decls hs₁
    exact ⟨d', hs', hd'.trans hd₁⟩

/-- Variables are appended. -/
theorem pushVar (h : w.Retains opened w') (c : VarCell) : w.Retains opened { w' with vars := w'.vars.push c } :=
  { h with
    var := fun {v c₀} hv => by
      obtain ⟨c', hv', hc'⟩ := h.var hv
      have hlt : v.id < w'.vars.size := (Array.getElem?_eq_some_iff.1 hv').1
      exact ⟨c', by rw [Array.getElem?_push, if_neg (Nat.ne_of_lt hlt)]; exact hv', hc'⟩ }

/-- Settling a variable that is not settled leaves its origin and all other variables alone. -/
theorem settle (h : w.Retains opened w') {v : VarId} {c : VarCell} (hv : w'.vars[v.id]? = some c) (hc : c.inst = none)
    (t : Ty) : w.Retains opened { w' with vars := w'.vars.setIfInBounds v.id { c with inst := some t } } :=
  { h with
    var := fun {u c₀} hu => by
      obtain ⟨c', hu', horigin, hinst⟩ := h.var hu
      have hlt : u.id < w'.vars.size := (Array.getElem?_eq_some_iff.1 hu').1
      by_cases huv : v.id = u.id
      · rw [← huv, hv] at hu'
        cases hu'
        refine ⟨{ c with inst := some t }, ?_, horigin, fun s hs => ?_⟩
        · rw [Array.getElem?_setIfInBounds, if_pos huv, if_pos (huv ▸ hlt)]
        · rw [hinst s hs] at hc
          cases hc
      · exact ⟨c', by rw [Array.getElem?_setIfInBounds, if_neg huv]; exact hu', horigin, hinst⟩ }

/-- An open binder is filled in. -/
theorem fill (h : w.Retains opened w') {b : BinderId} (hb : b ∈ opened) (infos : List Ty) (result : Ty) :
    w.Retains opened { w' with binders := w'.binders.modify b.id fun d => { d with infos, result } } :=
  { h with
    binder := fun {c d} hc hclosed => by
      have hne : b.id ≠ c.id := by
        obtain ⟨i⟩ := b
        obtain ⟨j⟩ := c
        rintro (rfl : i = j)
        exact hclosed hb
      show (w'.binders.modify b.id _)[c.id]? = some d
      rw [Array.getElem?_modify, if_neg hne]
      exact h.binder hc hclosed
    opened := fun {c d} hc => by
      obtain ⟨d', hd', hkind, hnames⟩ := h.opened hc
      show ∃ d', (w'.binders.modify b.id _)[c.id]? = some d' ∧ _
      rw [Array.getElem?_modify, show w'.binders[c.id]? = some d' from hd']
      split
      · exact ⟨_, rfl, hkind, hnames⟩
      · exact ⟨d', rfl, hkind, hnames⟩ }

theorem durable (opened : List BinderId) (w : World) : Durable (w.Retains opened ·) where
  add hm h hrun := h.trans (of_le (hm.le hrun)) fun _ _ _ => id
  internVar v h := h.trans (of_le (le_intern _ _)) fun _ _ _ => id
  pushVar c h := h.pushVar c
  settle t h hv hc := h.settle hv hc t
  declare h hds := { h with
    decls := fun hs => by
      obtain ⟨d₁, hs₁, hd₁⟩ := h.decls hs
      obtain ⟨d', hs', hd'⟩ := hds hs₁
      exact ⟨d', hs', hd'.trans hd₁⟩ }

end Retains

end World

/-! ### The end of a builder -/

theorem checks_check (kind : BinderKind) (t : Ty) : Checks (kind.check t) := by
  cases kind with
  | universal => exact checks_expectBounds t
  | method flags => exact fun _ => .inl rfl

theorem Checks.forM {α : Type} {f : α → BuildM Unit} (hf : ∀ a, Checks (f a)) : ∀ l : List α, Checks (l.forM f)
  | [] => fun _ => .inl rfl
  | a :: l => fun w => by
    rcases (hf a).bind_run (l.forM f) w with h | h
    · have hrest := Checks.forM hf l w
      rwa [← h] at hrest
    · exact .inr h

/-- A builder is refused with nothing changed, or its binder is filled in with infos that pass the check, as many as
there are names, and the type of the binder is given out. -/
theorem finish_cases {b : BinderId} {names : List String} {check : Ty → BuildM Unit} (hcheck : ∀ t, Checks (check t))
    {infos : List Ty} {result : Ty} {answer : Except BuildError Ty} {w w' : World}
    (hrun : b.finish names check infos result w = .ok (answer, w')) :
    ((∃ e, answer = .error e) ∧ w' = w) ∨
      infos.length = names.length ∧ infos.forM check w = .ok (.ok ⟨⟩, w) ∧ ∃ t,
        b.type { w with binders := w.binders.modify b.id fun d => { d with infos, result } } = .ok (t, w') ∧
          answer = .ok t := by
  change (if infos.length ≠ names.length then _ else _ : BuildM Ty) w = _ at hrun
  split at hrun
  · cases hrun
    exact .inl ⟨⟨_, rfl⟩, rfl⟩
  · next hlength =>
    rcases Checks.forM hcheck infos w with hpass | ⟨e, hrefused⟩
    · obtain ⟨e, he, -⟩ | ⟨_, w₁, hw₁, hrun⟩ := build_bind_ok hrun
      · cases hpass.symm.trans he
      · cases hpass.symm.trans hw₁
        obtain ⟨e, he, -⟩ | ⟨_, w₂, hw₂, hrun⟩ := build_bind_ok hrun
        · obtain ⟨_, -, h⟩ := lift_ok he
          cases h
        · cases hw₂
          obtain ⟨t, ht, rfl⟩ := lift_ok hrun
          exact .inr ⟨not_not.1 hlength, hpass, t, ht, rfl⟩
    · obtain ⟨e', he', rfl⟩ | ⟨_, w₁, hw₁, -⟩ := build_bind_ok hrun
      · cases hrefused.symm.trans he'
        exact .inl ⟨⟨e, rfl⟩, rfl⟩
      · cases hrefused.symm.trans hw₁

/-! ### Steps and runs -/

namespace Session

/-- `s'` goes on from `s`: its world holds what that of `s` holds, and no binder of `s` is opened again. -/
structure Continues (s s' : Session) : Prop where
  retains : s.world.Retains s.opened s'.world
  closed : ∀ b d, s.world.binder? b = some d → b ∉ s.opened → b ∉ s'.opened

variable {s s' : Session}

theorem Continues.refl (s : Session) : s.Continues s := ⟨.of_le le_rfl, fun _ _ _ => id⟩

theorem Continues.trans {s₁ : Session} (h₁ : s.Continues s₁) (h₂ : s₁.Continues s') : s.Continues s' where
  retains := h₁.retains.trans h₂.retains h₁.closed
  closed b d hb hclosed := h₂.closed b d (h₁.retains.binder hb hclosed) (h₁.closed b d hb hclosed)

/-- **One step goes on from where it starts.** -/
theorem Step.continues (h : Step s s') : s.Continues s' := by
  cases h with
  | @call _ _ a w w' opened hm hrun =>
    exact ⟨hm.upholds (World.Retains.durable opened w).steady w a w' (.of_le le_rfl) hrun, fun _ _ _ => id⟩
  | start kind names hrun =>
    cases hrun
    refine ⟨.of_le (le_freshBinder _ _), fun b d hb hclosed hopened => ?_⟩
    obtain rfl | hopened := List.mem_cons.1 hopened
    · exact absurd (Array.getElem?_eq_some_iff.1 hb).1 (Nat.lt_irrefl _)
    · exact hclosed hopened
  | @finish infos result b d _ w _ opened _ hrun =>
    refine ⟨?_, fun _ _ _ hclosed hopened => hclosed (List.mem_cons_of_mem _ hopened)⟩
    obtain ⟨-, rfl⟩ | ⟨-, -, t, ht, -⟩ := finish_cases (checks_check d.kind) hrun
    · exact .of_le le_rfl
    · have hfound : w.Retains (b :: opened) w := .of_le le_rfl
      have hfill := hfound.fill List.mem_cons_self infos result
      exact hfill.trans (.of_le ((grows_binderType b : Grows True _).le_of_ok ht)) fun _ _ _ => id
  | giveUp => exact ⟨.of_le le_rfl, fun _ _ _ hclosed hopened => hclosed (List.mem_cons_of_mem _ hopened)⟩

theorem Run.continues (h : Run s s') : s.Continues s' := by
  induction h with
  | refl => exact .refl s
  | tail _ hstep ih => exact ih.trans hstep.continues

/-- A builder is a run: its binder is opened, what it is given to build with runs, and the binder is finished. -/
theorem Run.bind {kind : BinderKind} {names : List String} {build : List Ty → WorldM (List Ty × Ty)}
    {answer : Except BuildError Ty} {w w' : World} {opened : List BinderId}
    (hbuild : ∀ {params w r w' opened}, build params w = .ok (r, w') → Run ⟨w, opened⟩ ⟨w', opened⟩)
    (hrun : Conformance.bind kind names kind.check build w = .ok (answer, w')) : Run ⟨w, opened⟩ ⟨w', opened⟩ := by
  obtain ⟨b, w₁, hb, hrun⟩ := bind_ok hrun
  obtain ⟨params, w₂, hparams, hrun⟩ := bind_ok hrun
  obtain ⟨⟨infos, result⟩, w₃, hinfos, hrun⟩ := bind_ok hrun
  have hrun₂ : Run ⟨w₁, b :: opened⟩ ⟨w₂, b :: opened⟩ := .single (.call (.add (.paramTypes b)) hparams)
  have hrun₃ : Run ⟨w₁, b :: opened⟩ ⟨w₃, b :: opened⟩ := hrun₂.trans (hbuild hinfos)
  have hstart : Step ⟨w, opened⟩ ⟨w₁, b :: opened⟩ := .start kind names hb
  have hbinder : w₁.binder? b = some { kind, names } := by
    cases hb
    exact Array.getElem?_push_size
  obtain ⟨d, hd, rfl, rfl⟩ := hrun₃.continues.retains.opened hbinder
  exact .head hstart (hrun₃.tail (.finish infos result hd hrun))

/-- **Handles are canonical and permanent.** Whatever calls lead from one session to another, in the later one different
handles stand for different shapes, and a shape that is present is given its handle with nothing taken in; and what
handles stood for in the earlier one they stand for still. -/
theorem handles_permanent (h : Run s s') :
    (∀ t u, t.id < s'.world.types.size → u.id < s'.world.types.size → t ≠ u → s'.world.shape t ≠ s'.world.shape u) ∧
      (∀ t d, s'.world.shape? t = some d → WorldM.intern d s'.world = .ok (t, s'.world)) ∧ s.Continues s' := by
  refine ⟨fun t u ht hu hne hshape => hne ?_, fun t d ht => ?_, h.continues⟩
  · have hget : ∀ t : Ty, t.id < s'.world.types.size → s'.world.shape? t = some (s'.world.shape t) := by
      intro t ht
      have hsome : s'.world.shape? t = some s'.world.types.shapes[t.id] := Array.getElem?_eq_getElem ht
      rw [hsome, World.shape_of_shape? hsome]
    exact TypeTable.shape?_injective (hget t ht) (hshape ▸ hget u hu)
  · show Except.ok ((s'.world.types.intern d).1, { s'.world with types := (s'.world.types.intern d).2 }) = _
    rw [TypeTable.intern_of_shape? ht]

/-- A comparison that narrows, then a method type that is refused because its infos are one too many; the binder that
was begun stays behind. -/
theorem handles_permanent_refused : ∃ s' : Session, Run ⟨SoleParam.leastWorld, []⟩ s' ∧
    SoleParam.leastWorld.binders.size < s'.world.binders.size ∧
    (∀ t u, t.id < s'.world.types.size → u.id < s'.world.types.size → t ≠ u → s'.world.shape t ≠ s'.world.shape u) ∧
      (∀ t d, s'.world.shape? t = some d → WorldM.intern d s'.world = .ok (t, s'.world)) ∧
      Continues ⟨SoleParam.leastWorld, []⟩ s' := by
  obtain ⟨c, w, hrun⟩ : ∃ c w, isSubType 6 Builtin.int.type SoleParam.least.x SoleParam.leastComparer
      SoleParam.leastWorld = .ok ((true, c), w) := exists_of_answer (by decide +kernel)
  let w' : World := { w with binders := w.binders.push { kind := .method {}, names := [] } }
  have hcompared : Step ⟨SoleParam.leastWorld, []⟩ ⟨w, []⟩ :=
    .call (.add (.operation (.ask (.subType Builtin.int.type SoleParam.least.x)) SoleParam.leastComparer)) hrun
  have hstarted : Step ⟨w, []⟩ ⟨w', [⟨w.binders.size⟩]⟩ := .start (.method {}) [] rfl
  have hbinder : w'.binder? ⟨w.binders.size⟩ = some { kind := .method {}, names := [] } := Array.getElem?_push_size
  have hrefused : Step ⟨w', [⟨w.binders.size⟩]⟩ ⟨w', []⟩ :=
    .finish [Builtin.int.type] Builtin.int.type hbinder rfl
  have hsteps : Run ⟨SoleParam.leastWorld, []⟩ ⟨w', []⟩ := .head hcompared (.head hstarted (.single hrefused))
  refine ⟨_, hsteps, ?_, handles_permanent hsteps⟩
  show SoleParam.leastWorld.binders.size < (w.binders.push _).size
  have hm : Addition (isSubType 6 Builtin.int.type SoleParam.least.x SoleParam.leastComparer) :=
    .operation (.ask (.subType _ _)) _
  rw [Array.size_push]
  exact Nat.lt_succ_of_le (World.binders_size_le (hm.le hrun))

end Session

end Conformance
