import Conformance.Proofs.Bearing

/-!
# Base types decide derivability

A class can be derived from a type when finitely many steps lead there: through parents, upper bounds, operands and what
single values stand for (`World.HasBase`). The search for a base type turns back at a type that is open, which loses
nothing: a derivation can be cut short wherever a shape comes twice on one of its paths (`HasBase.straight`), and where
none does, the search turns back before the end of the derivation only at a limit (`Straight.found`). What it finds can
be derived (`hasBase_of_search`), cyclic bounds and parents or not.
-/

namespace Conformance

namespace World

/-! ## Derivability -/

/-- The shape of what a single value or a type to be inferred stands for. -/
def underlyingShape (w : World) : Shape → Shape
  | .path _ s => w.shape (w.decls.info s)
  | .self c => .named .noPrefix c
  | .literal (.int _) => w.shape Builtin.int.type
  | .literal (.bool _) => w.shape Builtin.boolean.type
  | .literal (.str _) => w.shape Builtin.string.type
  | .skolem _ t => w.shape t
  | .valueParam p => w.shape (w.paramInfo p)
  | .var i => w.shape (w.varUnderlying i)
  | _ => .fixed .noType

/-- The class `cls` can be derived from a type of the given shape. Shapes stand for types because the references to
classes that are met on the way need not have been given out. -/
inductive HasBase (w : World) (cls : Symbol) : Shape → Prop
  | named (pre : Ty) : HasBase w cls (.named pre cls)
  | parent {pre t : Ty} {s : Symbol} (hs : w.decls.isClass s) (ht : t ∈ w.decls.parents s)
      (h : HasBase w cls (w.shape t)) : HasBase w cls (.named pre s)
  | upper {pre : Ty} {s : Symbol} (hs : ¬ w.decls.isClass s) (h : HasBase w cls (w.shape (w.upperOf s))) :
      HasBase w cls (.named pre s)
  | classInfo {pre : Ty} {s : Symbol} (h : HasBase w cls (.named pre s)) : HasBase w cls (.classInfo pre s)
  | refined {parent info : Ty} {name : String} (h : HasBase w cls (w.shape parent)) :
      HasBase w cls (.refined parent name info)
  | left {a b : Ty} (h : HasBase w cls (w.shape a)) : HasBase w cls (.inter a b)
  | right {a b : Ty} (h : HasBase w cls (w.shape b)) : HasBase w cls (.inter a b)
  | union {a b : Ty} (ha : HasBase w cls (w.shape a)) (hb : HasBase w cls (w.shape b)) : HasBase w cls (.union a b)
  | param {p : Param} (h : HasBase w cls (w.shape (w.paramUpper p))) : HasBase w cls (.param p)
  | single {d : Shape} (hd : d.isSingleton ∨ d.isVar) (h : HasBase w cls (w.underlyingShape d)) : HasBase w cls d

/-- How a derivation goes on from a type: it is at its end, it goes up from one shape, from any of some types, from one
or both of two, or it does not go on. -/
inductive Way where
  | found
  | on (d : Shape)
  | any (ts : List Ty)
  | either (a b : Ty)
  | both (a b : Ty)
  | back

/-- How a type of this shape derives from `cls`, by the rule for the shape. -/
def way (w : World) (cls : Symbol) : Shape → Way
  | .named _ s =>
    if s = cls then .found
    else if w.decls.isClass s then .any (w.decls.parents s)
    else .on (w.shape (w.upperOf s))
  | .classInfo pre s => .on (.named pre s)
  | .refined parent _ _ => .on (w.shape parent)
  | .inter a b => .either a b
  | .union a b => .both a b
  | .param p => .on (w.shape (w.paramUpper p))
  | d => if d.isSingleton || d.isVar then .on (w.underlyingShape d) else .back

/-- Whether a derivation that goes on in this way succeeds, if it does from the shapes in `S`. -/
def Way.Wins (w : World) (S : Shape → Prop) : Way → Prop
  | .found => True
  | .on d => S d
  | .any ts => ∃ t ∈ ts, S (w.shape t)
  | .either a b => S (w.shape a) ∨ S (w.shape b)
  | .both a b => S (w.shape a) ∧ S (w.shape b)
  | .back => False

/-- A derivation that passes none of the shapes in `ds`, and no shape twice on one path. -/
inductive Straight (w : World) (cls : Symbol) : List Shape → Shape → Prop
  | intro {ds : List Shape} {d : Shape} (S : Shape → Prop) (hnew : d ∉ ds) (hS : ∀ e, S e → Straight w cls (d :: ds) e)
    (h : (w.way cls d).Wins w S) : Straight w cls ds d

variable {w v v' : World} {cls s : Symbol} {t x q : Ty} {d e : Shape} {ds ds' : List Shape} {S : Shape → Prop}

theorem way_single (hd : d.isSingleton ∨ d.isVar) : w.way cls d = .on (w.underlyingShape d) := by
  cases d <;> first | rfl | simp [Shape.isSingleton, Shape.isVar] at hd

/-- The rules of derivability, taken together. -/
theorem hasBase_iff : w.HasBase cls d ↔ (w.way cls d).Wins w (w.HasBase cls) := by
  constructor
  · intro h
    cases h with
    | named pre => rw [way, if_pos rfl]; trivial
    | @parent pre t s hs ht h =>
      rw [way, if_pos hs]
      split
      · trivial
      · exact ⟨t, ht, h⟩
    | @upper pre s hs h =>
      rw [way, if_neg hs]
      split
      · trivial
      · exact h
    | classInfo h | refined h | param h => exact h
    | left h => exact .inl h
    | right h => exact .inr h
    | union ha hb => exact ⟨ha, hb⟩
    | single hd h => rw [way_single hd]; exact h
  · intro h
    have hrest (hd : d.isSingleton ∨ d.isVar) : w.HasBase cls d := .single hd (by rwa [way_single hd] at h)
    cases d with
    | named pre s =>
      rw [way] at h
      split at h
      · next hs => exact hs ▸ .named pre
      · split at h
        · next hs =>
          obtain ⟨t, ht, h⟩ := h
          exact .parent hs ht h
        · next hs => exact .upper hs h
    | classInfo => exact .classInfo h
    | refined => exact .refined h
    | inter => exact h.elim .left .right
    | union => exact .union h.1 h.2
    | param => exact .param h
    | path | self | literal | skolem | valueParam => exact hrest (.inl rfl)
    | var => exact hrest (.inr rfl)
    | fixed | method | universal | byName | bounds => exact h.elim

/-- Induction on derivations with all rules taken together. -/
theorem HasBase.induct {P : Shape → Prop} (h : w.HasBase cls d)
    (hstep : ∀ d, (w.way cls d).Wins w (fun e => w.HasBase cls e ∧ P e) → P d) : P d := by
  induction h with
  | named pre => exact hstep _ (by rw [way, if_pos rfl]; trivial)
  | @parent pre t s hs ht h ih =>
    refine hstep _ ?_
    rw [way, if_pos hs]
    split
    · trivial
    · exact ⟨t, ht, h, ih⟩
  | @upper pre s hs h ih =>
    refine hstep _ ?_
    rw [way, if_neg hs]
    split
    · trivial
    · exact ⟨h, ih⟩
  | classInfo h ih | refined h ih | param h ih => exact hstep _ ⟨h, ih⟩
  | left h ih => exact hstep _ (.inl ⟨h, ih⟩)
  | right h ih => exact hstep _ (.inr ⟨h, ih⟩)
  | union ha hb iha ihb => exact hstep _ ⟨⟨ha, iha⟩, hb, ihb⟩
  | single hd h ih => exact hstep _ (by rw [way_single hd]; exact ⟨h, ih⟩)

theorem not_hasBase_noType : ¬ w.HasBase cls (.fixed .noType) := fun h => hasBase_iff.1 h

/-! ## Straight derivations -/

theorem Straight.mono (h : w.Straight cls ds d) (hsub : ds' ⊆ ds) : w.Straight cls ds' d := by
  induction h generalizing ds' with
  | intro S hnew _ h ih =>
    exact .intro S (fun hmem => hnew (hsub hmem)) (fun e he => ih e he (List.cons_subset_cons _ hsub)) h

/-- A straight derivation that passes `u` holds one of `u`; one that does not, avoids it. -/
theorem Straight.skip (h : w.Straight cls ds d) (u : Shape) : w.Straight cls (u :: ds) d ∨ w.Straight cls ds u := by
  induction h with
  | @intro ds d S hnew hS h ih =>
    by_cases hu : w.Straight cls ds u
    · exact .inr hu
    · have hdu : d ≠ u := fun hdu => hu (hdu ▸ .intro S hnew hS h)
      refine .inl (.intro S (by simp [hdu, hnew]) (fun e he => ?_) h)
      have havoid := (ih e he).resolve_right fun h => hu (h.mono (List.subset_cons_self d ds))
      refine havoid.mono fun x hx => ?_
      simp only [List.mem_cons] at hx ⊢
      tauto

/-- **What can be derived can be derived straight.** -/
theorem HasBase.straight (h : w.HasBase cls d) : w.Straight cls [] d := by
  refine h.induct fun d h => ?_
  by_cases hd : w.Straight cls [] d
  · exact hd
  · exact .intro _ List.not_mem_nil (fun e he => (he.2.skip d).resolve_right hd) h

/-! ## Larger worlds -/

theorem shape_later (hv : w ≤ v) (ht : w.shape t ≠ .fixed .noType) : v.shape t = w.shape t :=
  shape_of_shape? (hv.shape (shape?_of_shape rfl ht))

theorem boundsParts?_of_shape (hv : w ≤ v) (ht : w.shape t ≠ .fixed .noType) : v.boundsParts? t = w.boundsParts? t := by
  have hd := shape?_of_shape rfl ht
  simp only [boundsParts?, hd, hv.shape hd]

theorem Standard.shape_absent (hw : w.Standard) : w.shape .noType = .fixed .noType := shape_of_shape? hw.absent

theorem Standard.boundsParts?_absent (hw : w.Standard) : w.boundsParts? .noType = none := by rw [boundsParts?, hw.absent]

theorem upperOf_later (hv : w ≤ v) (h : w.shape (w.upperOf s) ≠ .fixed .noType) : v.upperOf s = w.upperOf s := by
  unfold upperOf at h ⊢
  rw [hv.decls]
  have hends (h : w.shape (((w.boundsParts? (w.decls.info s)).map (·.2)).getD (w.decls.info s)) ≠ .fixed .noType) :
      v.boundsParts? (w.decls.info s) = w.boundsParts? (w.decls.info s) := by
    by_cases hinfo : w.shape (w.decls.info s) = .fixed .noType
    · have hnone : w.boundsParts? (w.decls.info s) = none := by
        cases hb : w.boundsParts? (w.decls.info s) with
        | none => rfl
        | some p =>
          have := shape_of_shape? (boundsParts?_eq_some_iff.1 hb)
          cases hinfo.symm.trans this
      rw [hnone] at h
      exact absurd hinfo h
    · exact boundsParts?_of_shape hv hinfo
  cases hkind : w.decls.kind? s with
  | none => rfl
  | some k =>
    rw [hkind] at h
    cases k with
    | abstractType | typeParam => dsimp only at h ⊢; rw [hends h]
    | _ => rfl

theorem paramInfo_later (hw : w.Standard) (hv : w ≤ v) {p : Param} (h : w.shape (w.paramInfo p) ≠ .fixed .noType) :
    v.paramInfo p = w.paramInfo p := by
  cases hb : w.binder? p.binder with
  | none => rw [paramInfo, hb] at h; exact absurd hw.shape_absent h
  | some f => rw [paramInfo, paramInfo, hb, hv.binder hb]

theorem paramUpper_later (hw : w.Standard) (hv : w ≤ v) {p : Param} (h : w.shape (w.paramUpper p) ≠ .fixed .noType) :
    v.paramUpper p = w.paramUpper p := by
  have hinfo : w.shape (w.paramInfo p) ≠ .fixed .noType := by
    intro hno
    refine h ?_
    rw [paramUpper]
    cases hb : w.boundsParts? (w.paramInfo p) with
    | none => exact hw.shape_absent
    | some ends =>
      have := shape_of_shape? (boundsParts?_eq_some_iff.1 hb)
      cases hno.symm.trans this
  rw [paramUpper, paramUpper, paramInfo_later hw hv hinfo, boundsParts?_of_shape hv hinfo]

theorem underlyingShape_later (hw : w.Standard) (hv : w ≤ v) (h : w.underlyingShape d ≠ .fixed .noType) :
    v.underlyingShape d = w.underlyingShape d := by
  cases d with
  | path q s => rw [underlyingShape, hv.decls]; exact shape_later hv h
  | literal l => cases l <;> exact shape_later hv h
  | skolem i u => exact shape_later hv h
  | valueParam p => rw [underlyingShape, paramInfo_later hw hv h]; exact shape_later hv h
  | var i => rw [underlyingShape, varUnderlying_later hv i]; exact shape_later hv h
  | _ => rfl

theorem HasBase.at_later (h : v'.HasBase cls (v.shape t)) (hv : v ≤ v') : v'.HasBase cls (v'.shape t) := by
  rwa [shape_later hv fun hno => not_hasBase_noType (hno ▸ h)]

/-- In a larger world a derivation goes on as before, unless it came to nothing. -/
theorem way_later (hw : w.Standard) (hv : w ≤ v) (cls : Symbol) (d : Shape) :
    v.way cls d = w.way cls d ∨ w.way cls d = .on (.fixed .noType) := by
  have hgoes {e e' : Shape} (h : e ≠ .fixed .noType → e' = e) : Way.on e' = .on e ∨ Way.on e = .on (.fixed .noType) := by
    by_cases he : e = .fixed .noType
    · exact .inr (congrArg _ he)
    · exact .inl (congrArg _ (h he))
  have hsingle (hd : d.isSingleton ∨ d.isVar) : v.way cls d = w.way cls d ∨ w.way cls d = .on (.fixed .noType) := by
    rw [way_single hd, way_single hd]
    exact hgoes (underlyingShape_later hw hv)
  cases d with
  | named pre s =>
    simp only [way, hv.decls]
    split
    · exact .inl rfl
    · split
      · exact .inl rfl
      · exact hgoes fun h => by rw [upperOf_later hv h, shape_later hv h]
  | refined parent name info => exact hgoes (shape_later hv)
  | param p => exact hgoes fun h => by rw [paramUpper_later hw hv h, shape_later hv h]
  | path | self | literal | skolem | valueParam => exact hsingle (.inl rfl)
  | var => exact hsingle (.inr rfl)
  | _ => exact .inl rfl

/-- What can be derived can be derived later. -/
theorem HasBase.grow (hw : w.Standard) (hv : w ≤ v) (h : w.HasBase cls d) : v.HasBase cls d := by
  refine h.induct fun d h => hasBase_iff.2 ?_
  obtain hway | hway := way_later hw hv cls d
  · rw [hway]
    have hgoes {t : Ty} (ht : w.HasBase cls (w.shape t) ∧ v.HasBase cls (w.shape t)) : v.HasBase cls (v.shape t) := by
      rw [shape_later hv fun hno => not_hasBase_noType (hno ▸ ht.1)]
      exact ht.2
    revert h
    cases w.way cls d with
    | found | back => exact id
    | on e => exact And.right
    | any ts => exact fun ⟨t, ht, h⟩ => ⟨t, ht, hgoes h⟩
    | either a b => exact Or.imp hgoes hgoes
    | both a b => exact And.imp hgoes hgoes
  · rw [hway] at h
    exact (not_hasBase_noType h.1).elim

/-! ## Searches -/

/-- The type `x` has the shape `e`; where `e` is that of no type, `x` has one from which nothing can be derived. -/
def Wears (w : World) (x : Ty) (e : Shape) : Prop :=
  w.shape x = e ∨ e = .fixed .noType ∧ ∃ lo hi, w.shape x = .bounds lo hi

theorem Wears.shape (h : w.Wears x e) (he : e ≠ .fixed .noType) : w.shape x = e := h.resolve_right fun h => he h.1

theorem Wears.hasBase (h : w.Wears x e) (hx : v.HasBase cls (w.shape x)) : v.HasBase cls e := by
  obtain h | ⟨-, lo, hi, h⟩ := h
  · exact h ▸ hx
  · rw [h] at hx
    exact (hasBase_iff.1 hx).elim

/-- An unknown handle is given out for bounds, or stays unknown; the others keep their shapes. -/
theorem wears_intern_bounds (lo hi x : Ty) :
    { w with types := (w.types.intern (.bounds lo hi)).2 }.Wears x (w.shape x) := by
  have hv := le_intern (.bounds lo hi) w
  by_cases hx : w.shape x = .fixed .noType
  · cases hnew : (w.types.intern (.bounds lo hi)).2.shape? x with
    | none => exact .inl ((congrArg (Option.getD · _) hnew).trans hx.symm)
    | some e =>
      have hshape := shape_of_shape? (w := { w with types := (w.types.intern (.bounds lo hi)).2 }) hnew
      obtain hold | rfl := shape?_of_intern hnew
      · exact .inl (hshape.trans (shape_of_shape? hold).symm)
      · exact .inr ⟨hx, lo, hi, hshape⟩
  · exact .inl (shape_later hv hx)

theorem upperBound_run (hw : w.Standard) (ht : w.shape t = .named q s) (hs : ¬ w.decls.isClass s) :
    ∃ v, w ≤ v ∧ t.upperBound w = .ok (w.upperOf s, v) ∧ v.Wears (w.upperOf s) (w.shape (w.upperOf s)) := by
  obtain ⟨x, v, hrun, hv⟩ := (grows_upperBound t).total w
  suffices hx : x = w.upperOf s ∧ v.Wears x (w.shape x) from ⟨v, hv, hx.1 ▸ hrun, hx.1 ▸ hx.2⟩
  obtain ⟨i, v₁, hi, hx⟩ := bind_ok hrun
  rw [Ty.infoOf, get_bind_run, ht] at hi
  rw [get_bind_run] at hx
  cases hx
  rw [Declarations.isClass, decide_eq_true_iff] at hs
  have habsent := (hw.grow hv).boundsParts?_absent
  rw [upperOf]
  dsimp only at hi
  cases hkind : w.decls.kind? s with
  | none =>
    rw [hkind] at hi
    cases hi
    rw [habsent]
    exact ⟨rfl, .inl rfl⟩
  | some k =>
    rw [hkind] at hi
    cases k with
    | cls => exact absurd hkind hs
    | value =>
      cases hi
      rw [habsent]
      exact ⟨rfl, .inl rfl⟩
    | synonym =>
      have hbounds : v.shape? i = some (.bounds (w.decls.info s) (w.decls.info s)) := by
        cases hi
        exact TypeTable.shape?_intern w.types _
      rw [boundsParts?_eq_some_iff.2 hbounds]
      refine ⟨rfl, ?_⟩
      show v.Wears (w.decls.info s) (w.shape (w.decls.info s))
      cases hi
      exact wears_intern_bounds _ _ _
    | abstractType | typeParam =>
      cases hi
      exact ⟨rfl, .inl rfl⟩

theorem underlying_run (hd : (w.shape t).isSingleton ∨ (w.shape t).isVar) :
    ∃ x v, w ≤ v ∧ t.underlying w = .ok (x, v) ∧ v.shape x = w.underlyingShape (w.shape t) := by
  obtain ⟨x, v, hrun, hv⟩ := (grows_underlying t : Grows False _).total w
  refine ⟨x, v, hv, hrun, ?_⟩
  rw [Ty.underlying, get_bind_run] at hrun
  revert hd hrun
  cases w.shape t with
  | self c =>
    intro _ hrun
    cases hrun
    exact shape_of_shape? (TypeTable.shape?_intern w.types _)
  | literal l => cases l <;> (intro _ hrun; cases hrun; rfl)
  | path | skolem | valueParam | var => intro _ hrun; cases hrun; rfl
  | _ => rintro (⟨⟨⟩⟩ | ⟨⟨⟩⟩)

section Searches

open Climbs

variable {next : Ty → WalkM Ty} {g g' : Guard Ty} {base : Ty} {ks : List Ty}

/-- How one level of a search ends, whatever the levels above it answer. -/
theorem step_way (hw : w.Standard) (hnext : ∀ t, Retains (fun _ v => w ≤ v) (next t)) (ht : w.shape? t = some d)
    (hr : BaseType.step cls next t g w = .ok ((base, g'), v')) :
    match w.way cls d with
    | .found => base.present
    | .on e => ∃ x v b v₂, w ≤ v ∧ v.Wears x e ∧ next x g v = .ok ((b, g'), v₂) ∧ v₂ ≤ v' ∧ (base.present ↔ b.present)
    | .any ts => Walk.firstPresent next ts g w = .ok ((base, g'), v')
    | .either a b => ∃ l g₁ v₁ r v₂, next a g w = .ok ((l, g₁), v₁) ∧ next b g₁ v₁ = .ok ((r, g'), v₂) ∧ v₂ ≤ v' ∧
        (base.present ↔ l.present ∨ r.present)
    | .both a b => ∃ l g₁ v₁ r v₂, next a g w = .ok ((l, g₁), v₁) ∧ next b g₁ v₁ = .ok ((r, g'), v₂) ∧ v₂ ≤ v' ∧
        (base.present ↔ l.present ∧ r.present)
    | .back => base = .noType := by
  have hshape := shape_of_shape? ht
  rw [BaseType.step, Walk.run_world_bind, hshape] at hr
  have hsingle (hd : d.isSingleton ∨ d.isVar) (hr : (do next (← t.underlying) : WalkM Ty) g w = .ok ((base, g'), v')) :
      ∃ x v b v₂, w ≤ v ∧ v.Wears x (w.underlyingShape d) ∧ next x g v = .ok ((b, g'), v₂) ∧ v₂ ≤ v' ∧
        (base.present ↔ b.present) := by
    obtain ⟨x, v, hv, hx, hshape'⟩ := underlying_run (hshape ▸ hd)
    rw [run_bind (run_lift hx g)] at hr
    exact ⟨x, v, base, v', hv, .inl (hshape ▸ hshape'), hr, le_rfl, Iff.rfl⟩
  cases d with
  | named pre s =>
    dsimp only at hr
    rw [way]
    split at hr
    · next hs =>
      rw [if_pos hs]
      cases hr
      exact hw.present ht (by rintro ⟨⟩)
    · next hs =>
      rw [if_neg hs]
      split at hr
      · next hc => rw [if_pos hc]; exact hr
      · next hc =>
        rw [if_neg hc]
        obtain ⟨v, hv, hx, hwears⟩ := upperBound_run hw hshape hc
        rw [run_bind (run_lift hx g)] at hr
        exact ⟨_, v, base, v', hv, hwears, hr, le_rfl, Iff.rfl⟩
  | classInfo pre s =>
    obtain ⟨x, v, hx, hsearch⟩ := run_lift_bind_ok hr
    refine ⟨x, v, base, v', (grows_named pre s).le_of_ok hx, .inl ?_, hsearch, le_rfl, Iff.rfl⟩
    cases hx
    exact shape_of_shape? (TypeTable.shape?_intern w.types _)
  | refined parent name info =>
    obtain ⟨b, g₁, v, hsearch, hr⟩ := run_bind_ok hr
    split at hr
    · next hb =>
      obtain ⟨hx, rfl⟩ := run_lift_ok hr
      have hle := (grows_intern _).le_of_ok hx
      refine ⟨parent, w, b, v, le_rfl, .inl rfl, hsearch, hle, iff_of_true ?_ (Bool.and_eq_true_iff.1 hb).1⟩
      refine (hw.grow ((hnext _ le_rfl hsearch).trans hle)).present (d := .refined b name info) ?_ (by rintro ⟨⟩)
      cases hx
      exact TypeTable.shape?_intern v.types _
    · cases hr
      exact ⟨parent, w, base, v', le_rfl, .inl rfl, hsearch, le_rfl, Iff.rfl⟩
  | inter a b =>
    obtain ⟨l, g₁, v₁, hleft, hr⟩ := run_bind_ok hr
    obtain ⟨r, g₂, v₂, hright, hr⟩ := run_bind_ok hr
    have hle := hnext _ (hnext _ le_rfl hleft) hright
    split at hr
    · next hboth =>
      rw [Bool.and_eq_true] at hboth
      obtain ⟨hx, rfl⟩ := run_lift_ok hr
      exact ⟨l, g₁, v₁, r, v₂, hleft, hright, (grows_inter l r).le_of_ok hx,
        iff_of_true (present_of_inter (hw.grow hle) hboth.1 hboth.2 hx) (.inl hboth.1)⟩
    · split at hr
      · next hl =>
        cases hr
        exact ⟨base, g₁, v₁, r, v', hleft, hright, le_rfl, iff_of_true hl (.inl hl)⟩
      · next hl =>
        cases hr
        exact ⟨l, g₁, v₁, base, v', hleft, hright, le_rfl, (or_iff_right hl).symm⟩
  | union a b =>
    obtain ⟨l, g₁, v₁, hleft, hr⟩ := run_bind_ok hr
    obtain ⟨r, g₂, v₂, hright, hr⟩ := run_bind_ok hr
    have hle := hnext _ (hnext _ le_rfl hleft) hright
    split at hr
    · next hboth =>
      rw [Bool.and_eq_true] at hboth
      obtain ⟨hx, rfl⟩ := run_lift_ok hr
      exact ⟨l, g₁, v₁, r, v₂, hleft, hright, (grows_union l r).le_of_ok hx,
        iff_of_true (present_of_union (hw.grow hle) hboth.1 hboth.2 hx) hboth⟩
    · next hboth =>
      rw [Bool.and_eq_true] at hboth
      cases hr
      exact ⟨l, g₁, v₁, r, v', hleft, hright, le_rfl, iff_of_false (by rintro ⟨⟩) hboth⟩
  | param p => exact ⟨_, w, base, v', le_rfl, .inl rfl, hr, le_rfl, Iff.rfl⟩
  | path | self | skolem | valueParam => exact hsingle (.inl rfl) hr
  | literal l => exact hsingle (.inl rfl) hr
  | var => exact hsingle (.inr rfl) hr
  | fixed | method | universal | byName | bounds =>
    cases hr
    rfl

/-- **What a search finds can be derived.** The induction is on the levels of the walk. -/
theorem hasBase_of_search (n : Nat) : ∀ {w v : World} {t base : Ty} {g g' : Guard Ty}, w.Standard →
    Walk.descend .noType (BaseType.step cls) n t g w = .ok ((base, g'), v) → base.present →
    v.HasBase cls (w.shape t) := by
  induction n with
  | zero => exact fun _ hr => nomatch hr
  | succ n ih =>
    intro w v t base g g' hw hr hbase
    obtain ⟨g₁, g₂, he, hb, -⟩ | ⟨_, -, -, rfl, -⟩ := inside_run hr
    swap
    · cases hbase
    have hle : w ≤ v := retains_baseTypeStep (I := fun _ v => w ≤ v) (fun _ _ _ h h' => h'.trans h) (grows_search n) cls t
      le_rfl hb
    have hgrow {w₁ v₁ : World} {x b : Ty} {g g' : Guard Ty} (hw₁ : w ≤ w₁) (hv₁ : v₁ ≤ v) (hb : b.present)
        (hr : Walk.descend .noType (BaseType.step cls) n x g w₁ = .ok ((b, g'), v₁)) : v.HasBase cls (w₁.shape x) :=
      (ih (hw.grow hw₁) hr hb).grow (hw.grow (hw₁.trans (grows_search n x le_rfl hr))) hv₁
    have hpart {w₁ v₁ : World} {x b : Ty} {g g' : Guard Ty} (hw₁ : w ≤ w₁) (hv₁ : v₁ ≤ v) (hb : b.present)
        (hr : Walk.descend .noType (BaseType.step cls) n x g w₁ = .ok ((b, g'), v₁)) : v.HasBase cls (v.shape x) :=
      (hgrow hw₁ hv₁ hb hr).at_later ((grows_search n x le_rfl hr).trans hv₁)
    cases ht : w.shape? t with
    | none =>
      have hshape : w.shape t = .fixed .noType := congrArg (Option.getD · _) ht
      rw [BaseType.step, Walk.run_world_bind, hshape] at hb
      cases hb
      cases hbase
    | some d =>
      have hstep := step_way hw (fun x => grows_search n x) ht hb
      rw [shape_of_shape? ht]
      refine hasBase_iff.2 ?_
      obtain hway | hway := way_later hw hle cls d
      · rw [hway]
        revert hstep
        cases w.way cls d with
        | found => exact fun _ => trivial
        | on e =>
          rintro ⟨x, v₁, b, v₂, hle₁, hx, hr, hle₂, hpresent⟩
          exact hx.hasBase (hgrow hle₁ hle₂ (hpresent.1 hbase) hr)
        | any ts =>
          intro hr
          obtain ⟨x, hx, g₁, v₁, hle₁, hr⟩ := exists_of_firstPresent (grows_search n) le_rfl hr hbase
          exact ⟨x, hx, hpart hle₁ le_rfl hbase hr⟩
        | either a b =>
          rintro ⟨l, g₁, v₁, r, v₂, hleft, hright, hle₂, hpresent⟩
          have hle₁ := grows_search n a le_rfl hleft
          refine (hpresent.1 hbase).imp (fun hl => hpart le_rfl ?_ hl hleft) fun hr => hpart hle₁ hle₂ hr hright
          exact (grows_search n b le_rfl hright).trans hle₂
        | both a b =>
          rintro ⟨l, g₁, v₁, r, v₂, hleft, hright, hle₂, hpresent⟩
          have hle₁ := grows_search n a le_rfl hleft
          refine (hpresent.1 hbase).imp (fun hl => hpart le_rfl ?_ hl hleft) fun hr => hpart hle₁ hle₂ hr hright
          exact (grows_search n b le_rfl hright).trans hle₂
        | back => rintro rfl; cases hbase
      · rw [hway] at hstep
        obtain ⟨x, v₁, b, v₂, hle₁, hx, hr, hle₂, hpresent⟩ := hstep
        exact (not_hasBase_noType (hx.hasBase (hgrow hle₁ hle₂ (hpresent.1 hbase) hr))).elim

theorem Straight.ne_noType (h : w.Straight cls ds d) : d ≠ .fixed .noType := by
  rintro rfl
  cases h with | intro S hnew hS h => exact h

/-- **A search that meets no limit finds what can be derived straight**, whatever is open, if the derivation does not
pass it. The induction is on the levels of the walk; each takes one step of the derivation. -/
theorem Straight.found (hw : w.Standard) (n : Nat) : ∀ {t : Ty} {d : Shape} {ks : List Ty} {ds : List Shape} {k : Nat},
    w.Straight cls ds d →
    Tells (fun g v => Open w ks k g v ∧ (∀ x ∈ ks, ∃ e ∈ ds, v.shape? x = some e) ∧ v.shape? t = some d)
      (Walk.descend .noType (BaseType.step cls) n t) fun base g _ => g.exceeded = true ∨ base.present := by
  induction n with
  | zero => exact fun _ => .throw
  | succ n ih =>
    intro t d ks ds k h g v base g' v' ⟨hopen, hkeys, ht⟩ hr
    obtain ⟨S, hnew, hS, hwins⟩ := h
    have hclosed : t ∉ g.openKeys := by
      intro hmem
      obtain ⟨e, he, hshape⟩ := hkeys t (hopen.1.openKeys ▸ hmem)
      cases ht.symm.trans hshape
      exact hnew he
    obtain ⟨g₁, g₂, he, hb, hl⟩ | ⟨_, he, hne, -⟩ := inside_run hr
    swap
    · exact .inl (Guard.exceeded_of_enter he hne hclosed)
    rw [Guard.exceeded_leave hl]
    have hle : w ≤ v := hopen.2
    -- What follows starts from worlds in which `t` is open, too, and keeps to them.
    have hopen₁ : Open v (t :: ks) (k + 1) g₁ v := ⟨(hopen.enter he).1, le_rfl⟩
    have hfound {x : Ty} {e : Shape} (he : S e) : Tells (fun g v₁ => Open v (t :: ks) (k + 1) g v₁ ∧ v₁.shape? x = some e)
        (Walk.descend .noType (BaseType.step cls) n x) fun base g _ => g.exceeded = true ∨ base.present := by
      refine (ih (hS e he)).mono (fun g v₁ ⟨hg, hx⟩ => ⟨⟨hg.1, hle.trans hg.2⟩, fun y hy => ?_, hx⟩) fun _ _ _ => id
      obtain rfl | hy := List.mem_cons.1 hy
      · exact ⟨d, .head _, hg.2.shape ht⟩
      · obtain ⟨e, he, hshape⟩ := hkeys y hy
        exact ⟨e, .tail _ he, hg.2.shape hshape⟩
    have hpart {x : Ty} (hx : S (w.shape x)) : Tells (Open v (t :: ks) (k + 1))
        (Walk.descend .noType (BaseType.step cls) n x) fun base g _ => g.exceeded = true ∨ base.present := by
      refine (hfound hx).mono (fun g v₁ hg => ⟨hg, ?_⟩) fun _ _ _ => id
      exact hg.2.shape (hle.shape (shape?_of_shape rfl (hS _ hx).ne_noType))
    have hstep := step_way (hw.grow hle) (fun x => grows_search n x) ht hb
    obtain hway | hway := way_later hw hle cls d
    swap
    · rw [hway] at hwins
      exact ((hS _ hwins).ne_noType rfl).elim
    rw [hway] at hstep
    revert hwins hstep
    cases w.way cls d with
    | found => exact fun _ => .inr
    | on e =>
      rintro hwins ⟨x, v₁, b, v₂, hle₁, hx, hr, -, hpresent⟩
      have hne := (hS e hwins).ne_noType
      exact (hfound hwins ⟨hopen₁.grow hle₁, shape?_of_shape (hx.shape hne) hne⟩ hr).imp_right hpresent.2
    | any ts =>
      rintro ⟨x, hx, hwins⟩ hr
      exact tells_firstPresent (open_baseType n (k + 1) cls) (limit_baseType n cls) (hpart hwins) hx hopen₁ hr
    | either a b =>
      rintro (hwins | hwins) ⟨l, g₃, v₁, r, v₂, hleft, hright, -, hpresent⟩
      · obtain hlimit | hl := hpart hwins hopen₁ hleft
        · exact .inl (limit_baseType n cls b hlimit hright)
        · exact .inr (hpresent.2 (.inl hl))
      · exact (hpart hwins (open_baseType n (k + 1) cls a hopen₁ hleft) hright).imp_right fun hr => hpresent.2 (.inr hr)
    | both a b =>
      rintro ⟨ha, hb⟩ ⟨l, g₃, v₁, r, v₂, hleft, hright, -, hpresent⟩
      obtain hlimit | hl := hpart ha hopen₁ hleft
      · exact .inl (limit_baseType n cls b hlimit hright)
      · exact (hpart hb (open_baseType n (k + 1) cls a hopen₁ hleft) hright).imp_right fun hr => hpresent.2 ⟨hl, hr⟩
    | back => exact fun h => h.elim

end Searches

/-! ## Worlds that hold what they mention -/

/-- Where a derivation goes on to what was given out. -/
def Way.Within (w : World) : Way → Prop
  | .on e => w.Mentions e
  | .any ts => ∀ t ∈ ts, w.Has t
  | .either a b | .both a b => w.Has a ∧ w.Has b
  | .found | .back => True

theorem Closed.mentions_shape (hw : w.Closed) (ht : w.Has t) : w.Mentions (w.shape t) := by
  obtain ⟨d, hd⟩ := Option.isSome_iff_exists.1 ht
  rw [shape_of_shape? hd]
  exact hw.shape hd

theorem Has.shape_later (ht : w.Has t) (hv : w ≤ v) : v.shape t = w.shape t := by
  obtain ⟨d, hd⟩ := Option.isSome_iff_exists.1 ht
  rw [shape_of_shape? hd, shape_of_shape? (hv.shape hd)]

/-- From what was given out, derivations go on to what was given out, now and later. -/
theorem Closed.way_later (hw : w.Closed) (hv : w ≤ v) (cls : Symbol) (hd : w.Mentions d) :
    v.way cls d = w.way cls d ∧ (w.way cls d).Within w := by
  have hM := hw.identity_matches
  have hM' : (Corr.identity w).Matches w v := hM.grow le_rfl hv
  have hgoes {x y : Ty} (h : (Corr.identity w).ty x y) :
      Way.on (v.shape y) = .on (w.shape x) ∧ w.Mentions (w.shape x) := by
    obtain ⟨rfl, hx⟩ := h
    exact ⟨congrArg _ (Has.shape_later hx hv), hw.mentions_shape hx⟩
  cases hd with
  | @named _ _ hp s =>
    simp only [way, hv.decls]
    split
    · exact ⟨rfl, trivial⟩
    · split
      · exact ⟨rfl, fun t => hw.has_parent⟩
      · refine hgoes ⟨?_, hw.has_upperOf s⟩
        simp only [upperOf, hv.decls, CompareM.boundsParts?_later hM (hM.info (s := s) trivial) hv]
  | @path _ _ hp s => exact hgoes ⟨congrArg (·.info s) hv.decls.symm, hw.has_info s⟩
  | @self c => exact ⟨rfl, mentions_named (hw.fixed .noPrefix (by decide)) c⟩
  | literal l => cases l <;> exact hgoes ⟨rfl, hw.fixed _ (by decide)⟩
  | skolem hk hu => exact hgoes hu
  | var hv' => exact hgoes (hM'.varUnderlying hv')
  | param hb i => exact hgoes (hM'.paramUpper hb i)
  | valueParam hb i => exact hgoes (hM'.paramInfo hb i)
  | refined hp name hi => exact hgoes hp
  | inter ha hb | union ha hb => exact ⟨rfl, ha.2, hb.2⟩
  | @classInfo _ _ hp c => exact ⟨rfl, mentions_named hp.2 c⟩
  | fixed | method | universal | byName | bounds => exact ⟨rfl, trivial⟩

/-- What is given out later takes part in no new derivation from what was given out before. -/
theorem HasBase.earlier (h : v.HasBase cls d) (hw : w.Closed) (hv : w ≤ v) (hd : w.Mentions d) : w.HasBase cls d := by
  revert hd
  refine h.induct (P := fun d => w.Mentions d → w.HasBase cls d) fun d h hd => hasBase_iff.2 ?_
  obtain ⟨hway, hwithin⟩ := hw.way_later hv cls hd
  rw [hway] at h
  have hpart {t : Ty} (ht : w.Has t) (h : v.HasBase cls (v.shape t) ∧ (w.Mentions (v.shape t) → w.HasBase cls (v.shape t))) :
      w.HasBase cls (w.shape t) := by
    rw [← ht.shape_later hv]
    exact h.2 (ht.shape_later hv ▸ hw.mentions_shape ht)
  revert h hwithin
  cases w.way cls d with
  | found | back => exact fun h _ => h
  | on e => exact fun h he => h.2 he
  | any ts => exact fun ⟨t, ht, h⟩ hts => ⟨t, ht, hpart (hts t ht) h⟩
  | either a b => exact fun h hab => h.imp (hpart hab.1) (hpart hab.2)
  | both a b => exact fun h hab => h.imp (hpart hab.1) (hpart hab.2)

/-! ## Base types -/

/-- **Base types decide derivability**, whatever circles bounds and parents go round in. A base type that the search
finds can be derived, read with what is given out by the end of the search, and already at its start if all handles that
the world mentions were given out then. And what can be derived at the start is found, unless the guard refused a type
for a limit, which it remembers. -/
theorem baseType_decides (hw : w.Standard) (t : Ty) (cls : Symbol) : ∃ base g v,
    Walk.descend .noType (BaseType.step cls) (Limits.walkDepth.toNat + 1) t { bounds := .walk } w = .ok ((base, g), v) ∧
    t.baseType cls w = .ok (base, v) ∧
    (base.present → v.HasBase cls (w.shape t)) ∧
    (w.Closed → base.present → w.HasBase cls (w.shape t)) ∧
    (g.exceeded = false → w.HasBase cls (w.shape t) → base.present) := by
  obtain ⟨base, v, hbase, hv⟩ := (grows_baseType t cls).total w
  obtain ⟨g, hrun⟩ := descend_of_run hbase
  have hsound (h : base.present) : v.HasBase cls (w.shape t) := hasBase_of_search _ hw hrun h
  refine ⟨base, g, v, hrun, hbase, hsound, fun hclosed h => ?_, fun hlimit h => ?_⟩
  · have hd : w.shape t ≠ .fixed .noType := fun hno => not_hasBase_noType (hno ▸ hsound h)
    exact (hsound h).earlier hclosed hv (hclosed.shape (shape?_of_shape rfl hd))
  · have hd : w.shape t ≠ .fixed .noType := fun hno => not_hasBase_noType (hno ▸ h)
    refine (h.straight.found hw _ (k := 0) ⟨⟨⟨rfl, rfl, rfl⟩, le_rfl⟩, ?_, shape?_of_shape rfl hd⟩
      hrun).resolve_left (by simp [hlimit])
    simp

/-- A class `D`, at `17`, and abstract types `B <: C & D`, at `15`, and `C <: B`, at `16`. -/
def ringWorld : World :=
  let w := [.named .noPrefix ⟨45⟩, .named .noPrefix ⟨46⟩, .named .noPrefix ⟨44⟩, .inter ⟨16⟩ ⟨17⟩,
    .bounds Builtin.nothing.type ⟨18⟩, .bounds Builtin.nothing.type ⟨15⟩].foldl
      (fun (w : World) d => { w with types := (w.types.intern d).2 }) World.initial
  let w := { w with decls := (w.decls.register { kind := .cls, name := "D", owner := .absent, parents := [⟨7⟩] }).2 }
  let w := { w with decls := (w.decls.register
    { kind := .abstractType, name := "B", owner := .absent, info := ⟨19⟩ }).2 }
  { w with decls := (w.decls.register { kind := .abstractType, name := "C", owner := .absent, info := ⟨20⟩ }).2 }

theorem ringWorld_built : ringWorld.Built := by
  have h₁ := Built.initial.intern (.named .noPrefix ⟨45⟩) (mentions_named (by decide) _)
  have h₂ := h₁.intern (.named .noPrefix ⟨46⟩) (mentions_named (by decide) _)
  have h₃ := h₂.intern (.named .noPrefix ⟨44⟩) (mentions_named (by decide) _)
  have h₄ := h₃.intern (.inter ⟨16⟩ ⟨17⟩) (.inter ⟨rfl, by decide⟩ ⟨rfl, by decide⟩)
  have h₅ := h₄.intern (.bounds Builtin.nothing.type ⟨18⟩) (mentions_bounds (by decide) (by decide))
  have h₆ := h₅.intern (.bounds Builtin.nothing.type ⟨15⟩) (mentions_bounds (by decide) (by decide))
  have h₇ := h₆.register { kind := .cls, name := "D", owner := .absent, parents := [⟨7⟩] } (by decide)
    (by decide)
  have h₈ := h₇.register { kind := .abstractType, name := "B", owner := .absent, info := ⟨19⟩ } (by decide)
    (by decide)
  exact h₈.register { kind := .abstractType, name := "C", owner := .absent, info := ⟨20⟩ } (by decide)
    (by decide)

/-- The search from `B` turns back at `B` above `C`, and finds `D` beside it. -/
theorem baseType_decides_ring : ringWorld.Standard ∧ ringWorld.Closed ∧ ∃ base g v,
    Walk.descend .noType (BaseType.step ⟨44⟩) (Limits.walkDepth.toNat + 1) ⟨15⟩ { bounds := .walk } ringWorld =
      .ok ((base, g), v) ∧
    g.exceeded = false ∧ ringWorld.HasBase ⟨44⟩ (ringWorld.shape ⟨15⟩) ∧ base.present ∧
    v.HasBase ⟨44⟩ (ringWorld.shape ⟨15⟩) := by
  have hw := ringWorld_built.standard
  have hclosed := ringWorld_built.closed
  obtain ⟨base, g, v, hrun, -, hsound, hsound', hcomplete⟩ := baseType_decides hw ⟨15⟩ ⟨44⟩
  have hlimit : ((Walk.descend .noType (BaseType.step ⟨44⟩) (Limits.walkDepth.toNat + 1) ⟨15⟩ { bounds := .walk }
      ringWorld).toOption.map fun r => r.1.2.exceeded) = some false := by decide
  rw [hrun] at hlimit
  have hexceeded : g.exceeded = false := Option.some.inj hlimit
  have hD : ringWorld.HasBase ⟨44⟩ (ringWorld.shape ⟨17⟩) := by
    rw [show ringWorld.shape ⟨17⟩ = .named .noPrefix ⟨44⟩ by decide]
    exact .named _
  have hbase : ringWorld.HasBase ⟨44⟩ (ringWorld.shape ⟨15⟩) := by
    rw [show ringWorld.shape ⟨15⟩ = .named .noPrefix ⟨45⟩ by decide]
    refine .upper (by decide) ?_
    rw [show ringWorld.shape (ringWorld.upperOf ⟨45⟩) = .inter ⟨16⟩ ⟨17⟩ by decide]
    exact .right hD
  have hpresent := hcomplete hexceeded hbase
  exact ⟨hw, hclosed, base, g, v, hrun, hexceeded, hsound' hclosed hpresent, hpresent, hsound hpresent⟩

end World

end Conformance
