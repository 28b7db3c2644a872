import Conformance.Proofs.Selections

/-!
# What is below everything

The bottom class and the placeholders conform to every type, whatever is under inference, and narrow nothing. The rule
for the bottom class comes last, so a comparison with it is first handed on along the target: to operands, refined
parents, lower ends, what variables stand for and what parameters under inference lie above (`World.HandsOn`). Where that
goes on finitely often and never comes to an absent type (`World.Grounded`), the answer is true: `isSubType_bottom`.
-/

namespace Conformance

open CompareM

/-- A declaration without members has none under any name. -/
theorem Declarations.member?_of_empty {ds : Declarations} {s : Symbol}
    (h : (ds.get? s).map (fun d => (d.typeMembers.entries, d.termMembers.entries)) = some ([], [])) (name : String)
    (space : MemberSpace) : ds.member? s name space = none := by
  obtain ⟨d, hd, hmembers⟩ := Option.map_eq_some_iff.1 h
  obtain ⟨htypes, hterms⟩ := Prod.mk.inj hmembers
  rw [Declarations.member?, hd, Option.bind_some]
  cases space with
  | type => rw [Declaration.members, InsertionMap.find?, htypes, List.lookup_nil]
  | term => rw [Declaration.members, InsertionMap.find?, hterms, List.lookup_nil]

namespace World

/-- A comparison whose target is `t` is handed on to `u` before the source is looked at. -/
inductive HandsOn (w : World) (s : ConstraintStore) : Ty → Ty → Prop
  | inter {t a b x : Ty} (shape : w.shape? t = some (.inter a b)) (operand : x = a ∨ x = b) : HandsOn w s t x
  | union {t a b x : Ty} (shape : w.shape? t = some (.union a b)) (operand : x = a ∨ x = b) : HandsOn w s t x
  | parent {t parent info : Ty} {name : String} (shape : w.shape? t = some (.refined parent name info)) :
    HandsOn w s t parent
  | lower {t lo hi : Ty} (ends : w.ends? t = some (lo, hi)) : HandsOn w s t lo
  /-- What the variable was settled to, and until then the parameter that it stands for. -/
  | var {t : Ty} {i : VarId} (shape : w.shape? t = some (.var i)) : HandsOn w s t (w.varUnderlying i)
  | param {t b lo hi : Ty} {p : Param} (shape : w.shape? t = some (.param p)) (tracked : s.bounds? p = some b)
    (ends : w.boundsParts? b = some (lo, hi)) : HandsOn w s t lo

/-- Comparisons with the target `t` are handed on finitely often, and always to types that are there. -/
inductive Grounded (w : World) (s : ConstraintStore) : Ty → Prop
  | intro {t : Ty} (present : t.present) (next : ∀ u, w.HandsOn s t u → Grounded w s u) : Grounded w s t

/-- The bottom class is as it was declared at the start, and no other symbol bears its name. -/
structure KeepsBottom (w : World) : Prop where
  parents : w.decls.parents Builtin.nothing.symbol = []
  typeParams : w.decls.typeParams Builtin.nothing.symbol = []
  members : ∀ name space, w.decls.member? Builtin.nothing.symbol name space = none
  name : ∀ s, w.decls.name s = Builtin.nothing.name → s = Builtin.nothing.symbol

/-- The shapes of a name of a type and of the absent prefix. -/
inductive IsStem : Shape → Prop
  | named (q : Ty) (c : Symbol) : IsStem (.named q c)
  | noPrefix : IsStem (.fixed .noPrefix)

/-- `t` has no members and no type parameters. -/
structure Barren (w : World) (t : Ty) : Prop where
  shape : ∃ d, w.shape? t = some d ∧ IsStem d
  member : ∀ name v, w ≤ v → ∃ v', t.member name v = .ok (.noType, v')
  params : ∀ n v, w ≤ v → v.openTypeParams n t = .ok []

/-- Whatever the slots of the constraints hold was given out. -/
def GaveOut (w : World) (s : ConstraintStore) : Prop :=
  ∀ b slots, s.slots? b = some slots → ∀ t ∈ slots, w.Has t

variable {w v : World} {s : ConstraintStore} {t u b : Ty} {p : Param}

theorem Grounded.present (h : w.Grounded s t) : t.present := by
  cases h
  assumption

theorem HandsOn.has (h : w.HandsOn s t u) : w.Has t := by
  cases h with
  | inter hshape | union hshape | parent hshape | var hshape | param hshape => exact Option.isSome_of_eq_some hshape
  | lower hends =>
    cases hd : w.shape? t with
    | some d => exact Option.isSome_of_eq_some hd
    | none => simp [ends?, shape, TypeTable.shape, show w.types.shape? t = none from hd] at hends

/-- A reference to a class is not handed on. -/
theorem Grounded.of_class {q : Ty} {cls : Symbol} (ht : w.shape? t = some (.named q cls)) (hcls : w.decls.isClass cls)
    (hp : t.present) : w.Grounded s t := by
  refine .intro hp fun u h => ?_
  cases h with
  | lower hends => cases (ends?_of_isClass ht hcls).symm.trans hends
  | inter h | union h | parent h | var h | param h => cases ht.symm.trans h

/-- Nothing is handed on for ever. -/
theorem Grounded.irrefl (h : w.Grounded s t) : ¬ Relation.TransGen (w.HandsOn s) t t := by
  induction h with
  | @intro t _ _ ih =>
    intro hloop
    obtain ⟨x, hx, hback⟩ := Relation.TransGen.head'_iff.1 hloop
    exact ih x hx (.tail' hback hx)

theorem GaveOut.has (h : w.GaveOut s) (hb : s.bounds? p = some b) : w.Has b := by
  obtain ⟨slots, hslots, hb⟩ := Option.bind_eq_some_iff.1 (Option.filter_eq_some_iff.1 hb).1
  exact h _ slots hslots b (List.mem_of_getElem? hb)

theorem HandsOn.has_right (hw : w.Built) (hs : w.GaveOut s) (h : w.HandsOn s t u) : w.Has u := by
  have hM := hw.closed.identity_matches
  have ht : (Corr.identity w).ty t t := ⟨rfl, h.has⟩
  cases h with
  | inter hshape hx =>
    cases hM.parts ht hshape with | inter ha hb =>
    rcases hx with rfl | rfl
    · exact ha.2
    · exact hb.2
  | union hshape hx =>
    cases hM.parts ht hshape with | union ha hb =>
    rcases hx with rfl | rfl
    · exact ha.2
    · exact hb.2
  | parent hshape =>
    cases hM.parts ht hshape with | refined hp _ _ =>
    exact hp.2
  | lower hends => exact (ends?_known hM ht hends).1.2
  | var hshape => exact (hM.held ht hshape).2
  | param _ hb hends => exact (boundsParts?_known hM ⟨rfl, hs.has hb⟩ hends).1.2

/-! ### Types with nothing to look up -/

theorem Barren.isStable (ht : w.Barren t) (n : Nat) (hv : w ≤ v) : v.isStable (n + 1) t = .ok false := by
  obtain ⟨d, hd, hstem⟩ := ht.shape
  rw [World.isStable, shape_of_shape? (hv.shape hd)]
  cases hstem <;> rfl

theorem barren_noPrefix (hw : w.Built) : w.Barren .noPrefix where
  shape := ⟨_, hw.shape_noPrefix, .noPrefix⟩
  member name v hv := by
    have hfinds : Finds [] 0 1 v (Walk.descend .noType (Member.step name) 65 .noPrefix) fun info _ => info = .noType := by
      refine finds_descend List.not_mem_nil (Nat.zero_lt_succ 63) (by omega) (.world_bind ?_)
      rw [shape_of_shape? (hv.shape hw.shape_noPrefix)]
      exact .pure rfl
    obtain ⟨info, v', hrun, -, rfl⟩ := finds_run hfinds
    exact ⟨v', hrun⟩
  params n v hv := by
    have hnone : v.typeSymbol? .noPrefix = none := by
      rw [typeSymbol?, typeSymbolFrom, shape_of_shape? (hv.shape hw.shape_noPrefix)]
      split <;> rfl
    rw [openTypeParams, hnone]
    rfl

theorem barren_bottom (hw : w.Built) (hparents : w.decls.parents Builtin.nothing.symbol = [])
    (hparams : w.decls.typeParams Builtin.nothing.symbol = [])
    (hmembers : ∀ name space, w.decls.member? Builtin.nothing.symbol name space = none) :
    w.Barren Builtin.nothing.type where
  shape := ⟨_, hw.standard.shape .nothing, .named ..⟩
  member name v hv := by
    have hfinds : Finds [] 0 1 v (Walk.descend .noType (Member.step name) 65 Builtin.nothing.type) fun info _ =>
        info = .noType := by
      refine finds_descend List.not_mem_nil (Nat.zero_lt_succ 63) (by omega) (.world_bind ?_)
      rw [shape_of_shape? (hv.shape (hw.standard.shape .nothing))]
      simp only [hv.decls, hw.standard.isClass .nothing, if_true]
      refine .world_bind ?_
      simp only [hv.decls, hmembers, hparents]
      exact .pure rfl
    obtain ⟨info, v', hrun, -, rfl⟩ := finds_run hfinds
    exact ⟨v', hrun⟩
  params n v hv := by
    have hshape := hv.shape (hw.standard.shape .nothing)
    have hcls : v.decls.isClass Builtin.nothing.symbol := hv.decls ▸ hw.standard.isClass .nothing
    simp only [openTypeParams, typeSymbol?_class hshape hcls, hv.decls, hparams]
    rfl

theorem KeepsBottom.barren (h : w.KeepsBottom) (hw : w.Built) : w.Barren Builtin.nothing.type :=
  barren_bottom hw h.parents h.typeParams h.members

/-- The bottom class is no instance of another class. -/
theorem baseType_bottom {c : Symbol} (hw : w.Built) (hparents : w.decls.parents Builtin.nothing.symbol = [])
    (hv : w ≤ v) (hc : c ≠ Builtin.nothing.symbol) : ∃ v', Builtin.nothing.type.baseType c v = .ok (.noType, v') := by
  have hfinds : Finds [] 0 1 v (Walk.descend .noType (BaseType.step c) 65 Builtin.nothing.type) fun base _ =>
      base = .noType := by
    refine finds_descend List.not_mem_nil (Nat.zero_lt_succ 63) (by omega) (.world_bind ?_)
    rw [World.shape_of_shape? (hv.shape (hw.standard.shape .nothing))]
    simp only [Ne.symm hc, if_false, hv.decls, hw.standard.isClass .nothing, if_true, hparents]
    exact .pure rfl
  obtain ⟨base, v', hrun, -, rfl⟩ := finds_run hfinds
  exact ⟨v', hrun⟩

end World

namespace CompareM

/-! ## One step -/

section Step

variable {w v : World} {s : ConstraintStore} {p : Place} {n : Nat} {sub : Ty → Ty → CompareM Bool} {t u : Ty}

/-- A source that the later steps find below the target is found below it, if it is below what the target hands it on
to. -/
theorem decides_first_of_handsOn (hw : w.Closed) (hs : w.GaveOut s) (hv : w ≤ v) (hu : w.Has u)
    (hlower : ∀ x, w.HandsOn s u x → Decides p s v (sub t x) true)
    (hnames : (v.shape t).isNamed → (v.shape u).isNamed → Decides p s v (names n sub t u) true)
    (hsecond : ((v.shape t).isNamed && (v.shape u).isNamed) = false → Decides p s v (second n sub t u) true) :
    Decides p s v (first n sub t u) true := by
  obtain ⟨d, hd⟩ := Option.isSome_iff_exists.1 hu
  have hdv := World.shape_of_shape? (hv.shape hd)
  rw [hdv] at hnames hsecond
  refine .world_bind ?_
  rw [hdv]
  cases d with
  | named q c | path q c =>
    cases hnamed : (v.shape t).isNamed with
    | true => exact hnames hnamed rfl
    | false => exact hsecond (by rw [hnamed, Bool.false_and])
  | fixed k =>
    cases k with
    | wildcard | error => exact decides_pure
    | noType | noPrefix => exact hsecond (Bool.and_false _)
  | var i =>
    have hrun : Decides p s v (sub t (v.varUnderlying i)) true := World.varUnderlying_later hv i ▸ hlower _ (.var hd)
    exact hrun
  | param x =>
    refine .bind (A := fun r s' v' => r = (s.bounds? x).bind v.boundsParts? ∧ s' = s ∧ v' = v)
      (fun c hc => ⟨_, c, v, currentBounds_run x c v, hc.place, le_rfl, by rw [hc.store], hc.store, rfl⟩) ?_
    rintro r s' v' - ⟨rfl, rfl, rfl⟩
    cases hb : s'.bounds? x with
    | none => exact hsecond (Bool.and_false _)
    | some b =>
      have kb : (Corr.identity w).ty b b := ⟨rfl, hs.has hb⟩
      rw [Option.bind_some, boundsParts?_later hw.identity_matches kb hv]
      cases hends : w.boundsParts? b with
      | none => exact hsecond (Bool.and_false _)
      | some ends => exact .orElse_true ((hlower _ (.param hd hb hends)).mono fun _ _ _ _ h => ⟨h.1, rfl, h.2⟩)
  | _ => exact hsecond (Bool.and_false _)

/-- A placeholder conforms to what it is handed on to. -/
theorem decides_first_hole (hw : w.Closed) (hs : w.GaveOut s) (hv : w ≤ v) (hu : w.Has u) (ht : isHole (v.shape t))
    (hlower : ∀ x, w.HandsOn s u x → Decides p s v (sub t x) true) : Decides p s v (first n sub t u) true := by
  refine decides_first_of_handsOn hw hs hv hu hlower (fun hnamed _ => ?_) fun _ => .world_bind ?_
  · cases hd : v.shape t <;> rw [hd] at ht hnamed <;> simp_all [isHole, Shape.isNamed]
  · cases hd : v.shape t with
    | fixed k => cases k <;> rw [hd] at ht <;> first | exact decides_pure | cases ht
    | _ => rw [hd] at ht; cases ht

/-! ### Sources with nothing to look up

The lemmas below say of a comparison that it comes to an end if those that it is handed on to do, and that it answers
true if, moreover, they do. -/

variable {P : Prop}

section Barren

variable (ht : w.Barren t) (hv : w ≤ v)
include ht hv

/-- There are no open parameters to compare with the arguments of a trait. -/
theorem ends_conformsAsConstructor_barren (hn : Limits.walkDepth.toNat + 1 ≤ n) :
    Ends p s v (conformsAsConstructor n sub t u) := by
  obtain ⟨args, hargs⟩ := v.typeArgs_finishes u
  exact ends_conformsAsConstructor (ht.params n v hv) (hargs n hn) fun _ _ _ _ _ _ hx => nomatch hx

/-- A named target is met through its lower end, and else by the rule for the source. -/
theorem decidesIf_thirdNamed_barren (hw : w.Built) (hn : Limits.walkDepth.toNat + 1 ≤ n) (hu : w.Has u)
    (hfourth : ∀ v', w ≤ v' → DecidesIf p s v' (fourth sub t u) P)
    (hlower : ∀ x v', w ≤ v' → w.HandsOn s u x → DecidesIf p s v' (sub t x) P) :
    DecidesIf p s v (thirdNamed n sub t u) P := by
  intro c hc
  obtain ⟨v₀, hv₀, hrun⟩ := thirdNamed_run hw.standard n sub t c hw.closed.identity_matches ⟨rfl, hu⟩ hv
  have hle := hv.trans hv₀
  suffices h : DecidesIf p s v₀ _ P by
    obtain ⟨a, c', v', hr, hplace, hle', h⟩ := h c hc
    exact ⟨a, c', v', hrun.trans hr, hplace, hv₀.trans hle', h⟩
  cases hends : w.ends? u with
  | some ends =>
    exact .orElse_last (hlower _ _ hle (.lower hends)).ends fun _ hv₁ => hfourth _ (hle.trans hv₁)
  | none =>
    obtain ⟨m, rfl⟩ : ∃ m, n = m + 1 := ⟨n - 1, by omega⟩
    refine .orElse_last ?_ fun v₁ hv₁ => .orElse_last ?_ fun v₂ hv₂ => .orElse_last ?_ fun v₃ hv₃ =>
      hfourth _ (hle.trans (hv₁.trans (hv₂.trans hv₃)))
    · exact .ite (fun _ => ends_reading (ht.isStable m hle)) fun _ => ends_pure _
    · exact .ite (fun _ => ends_lift (grows_isNotNull _)) fun _ => ends_pure _
    · exact .ite (fun _ => ends_conformsAsConstructor_barren ht (hle.trans (hv₁.trans hv₂)) hn) fun _ => ends_pure _

/-- A target that is not dealt with by the first step is met through its parts, and else by the rule for the source. -/
theorem decidesIf_second_barren (hw : w.Built) (hn : Limits.walkDepth.toNat + 1 ≤ n) (hu : w.Has u)
    (hfourth : ∀ v', w ≤ v' → DecidesIf p s v' (fourth sub t u) P)
    (hlower : ∀ x v', w ≤ v' → w.HandsOn s u x → DecidesIf p s v' (sub t x) P)
    (habsent : ∀ x v', Decides p s v' (sub .noType x) false) : DecidesIf p s v (second n sub t u) P := by
  obtain ⟨d, hd⟩ := Option.isSome_iff_exists.1 hu
  obtain ⟨e, he, hstem⟩ := ht.shape
  have hshape := World.shape_of_shape? (hv.shape he)
  refine yields_second (by rw [hshape]; cases hstem <;> rfl) ?_
  have hleaves (h : leaves d e) : DecidesIf p s v (third n sub t u) P := by
    refine .world_bind ?_
    rw [hshape, World.shape_of_shape? (hv.shape hd)]
    cases hstem <;> cases d <;> first | exact hfourth v hv | cases h
  cases d with
  | named | path =>
    refine .world_bind ?_
    rw [World.shape_of_shape? (hv.shape hd)]
    exact decidesIf_thirdNamed_barren ht hv hw hn hu hfourth hlower
  | refined parent name info =>
    refine yields_third_refined (hv.shape hd) (DecidesIf.orElse_last ?_ fun v₁ hv₁ => hfourth _ (hv.trans hv₁))
    refine Ends.andThen (hlower _ _ hv (.parent hd)).ends fun v₁ hv₁ => .ite (fun _ => ends_pure _) fun _ => ?_
    obtain ⟨v', hrun⟩ := ht.member name v₁ (hv.trans hv₁)
    refine .bind (.lift (grows_member _ _)) fun i s' v₂ _ ⟨hs, hmember⟩ => ?_
    subst hs
    cases hrun.symm.trans hmember
    exact (habsent _ _).ends
  | inter a b =>
    refine yields_third_inter (hv.shape hd) (DecidesIf.andThen (hlower _ _ hv (.inter hd (.inl rfl))) fun v' hv' => ?_)
    exact hlower _ _ (hv.trans hv') (.inter hd (.inr rfl))
  | union a b =>
    refine yields_third_union (hv.shape hd) (DecidesIf.orElse_last ?_ fun v₁ hv₁ => ?_)
    · exact (hlower _ _ hv (.union hd (.inl rfl))).ends
    exact .orElse_last (hlower _ _ (hv.trans hv₁) (.union hd (.inr rfl))).ends fun v₂ hv₂ =>
      hfourth _ (hv.trans (hv₁.trans hv₂))
  | _ => exact hleaves (by cases hstem <;> rfl)

end Barren

/-! ### The bottom class -/

section Nothing

variable (hw : w.Built) (hv : w ≤ v)
include hw hv

theorem decides_fourth_bottom : Decides p s v (fourth sub Builtin.nothing.type u) true :=
  decides_fourth_nothing (hv.shape (hw.standard.shape .nothing))

/-- Of the names that the bottom class is compared with, one of the class itself is met at once, and none other is a
class above it. -/
theorem decidesIf_names_bottom (hparents : w.decls.parents Builtin.nothing.symbol = [])
    (hbarren : w.Barren Builtin.nothing.type) (hn : Limits.walkDepth.toNat + 1 ≤ n) (hu : w.Has u)
    (hnamed : (w.shape u).isNamed)
    (hname : ∀ q c k, nameParts? (w.shape u) = some (q, c, k) → c ≠ Builtin.nothing.symbol →
      w.decls.name c = Builtin.nothing.name → ∀ v', w ≤ v' → Ends p s v' (sub .noPrefix q))
    (hlower : ∀ x v', w ≤ v' → w.HandsOn s u x → DecidesIf p s v' (sub Builtin.nothing.type x) P) :
    DecidesIf p s v (names n sub Builtin.nothing.type u) P := by
  have hshape := World.shape_of_shape? (hv.shape (hw.standard.shape .nothing))
  obtain ⟨q, c, k, hparts⟩ := nameParts?_of_isNamed hnamed
  obtain ⟨d, hd⟩ := Option.isSome_iff_exists.1 hu
  have hparts' : nameParts? (v.shape u) = some (q, c, k) := by
    rw [World.shape_of_shape? (hv.shape hd), ← World.shape_of_shape? hd, hparts]
  refine .world_bind ?_
  rw [hshape, hparts']
  show Yields p s v (if Builtin.nothing.symbol = c then _ else _) _
  split
  · next hc =>
    subst hc
    have hstatic : v.decls.isStatic Builtin.nothing.symbol := hv.decls ▸ hw.standard.isStatic .nothing
    refine .get_bind fun c hplace hstore => ?_
    rw [hstatic, Bool.or_true, if_pos rfl]
    exact decides_pure.decidesIf
  · next hc =>
    refine DecidesIf.orElse_last ?_ fun v₁ hv₁ => DecidesIf.orElse_last ?_ fun v₂ hv₂ => ?_
    · refine .ite (fun h => hname q c k hparts (Ne.symm hc) ?_ v hv) fun _ => ends_pure _
      rw [← hv.decls, ← h.2, hv.decls, hw.standard.name .nothing]
    · split
      · obtain ⟨v', hrun⟩ := World.baseType_bottom hw hparents (hv.trans hv₁) (Ne.symm hc)
        refine Yields.bind (.lift (grows_baseType _ _)) fun base s' v₂ _ ⟨hs, hbase⟩ => ?_
        subst hs
        cases hrun.symm.trans hbase
        exact ends_pure _
      · exact ends_pure _
    · exact decidesIf_thirdNamed_barren hbarren (hv.trans (hv₁.trans hv₂)) hw hn hu
        (fun v' hv' => (decides_fourth_bottom hw hv').decidesIf) hlower

end Nothing

end Step

/-! ## Along the target -/

/-- Where comparisons of `t` with the types in `l` are open. -/
structure Along (p : Place) (t : Ty) (l : List Ty) : Prop where
  bounds : p.bounds = .none
  room : HasRoom p (Limits.unlimited.toNat - l.length)
  pending : ∀ x ∈ p.pending, x.1 = t → x.2 ∈ l

section Along

variable {w v : World} {s : ConstraintStore} {p p' : Place} {t u : Ty} {l : List Ty}

theorem Along.opens (h : Along p t l) (hl : l.length < Limits.unlimited.toNat) (hp : Opens p (t, u) p') :
    Along p' t (u :: l) := by
  refine ⟨hp.bounds_eq.trans h.bounds, ?_, fun x hx ht => ?_⟩
  · have hroom : HasRoom p (Limits.unlimited.toNat - (u :: l).length + 1) := h.room.mono (by rw [List.length_cons]; omega)
    exact hroom.opens hp
  · rcases hp.pending_cases hx with rfl | hx
    · exact List.mem_cons_self
    · exact List.mem_cons_of_mem _ (h.pending x hx ht)

/-- The types along which a comparison was handed on are different ones, and none of them is absent, so there are fewer
of them than types. -/
theorem length_lt_of_path (hw : w.Built) (hu : w.Grounded s u) (hhas : w.Has u) (hnodup : l.Nodup)
    (hl : ∀ x ∈ l, Relation.TransGen (w.HandsOn s) x u ∧ x.present) : l.length + 2 ≤ w.types.size := by
  have hfresh : u ∉ l := fun h => hu.irrefl (hl u h).1
  have habsent : Ty.noType ∉ u :: l := by
    rintro (_ | ⟨_, h⟩)
    · exact absurd hu.present (by simp [Ty.present])
    · exact absurd (hl _ h).2 (by simp [Ty.present])
  have hgiven : ∀ x ∈ Ty.noType :: u :: l, w.Has x := by
    intro x hx
    rcases List.mem_cons.1 hx with rfl | hx
    · exact Option.isSome_of_eq_some hw.standard.absent
    · rcases List.mem_cons.1 hx with rfl | hx
      · exact hhas
      · obtain ⟨y, hy, -⟩ := Relation.TransGen.head'_iff.1 (hl x hx).1
        exact hy.has
  exact World.length_le_of_has hgiven (List.nodup_cons.2 ⟨habsent, List.nodup_cons.2 ⟨hfresh, hnodup⟩⟩)

/-- The induction is on the way along the target. Each comparison on it is one level deeper than the one before, and its
pair is not pending, because the way does not come round. -/
theorem decides_bottom_along (hw : w.Built) (hbottom : w.KeepsBottom) (hsize : w.types.size ≤ UInt32.size)
    (hs : w.GaveOut s) (ht : t = Builtin.nothing.type ∨ t = .wildcard ∨ t = .error) (hgrounded : w.Grounded s u) :
    ∀ {n p v l}, w.types.size + Limits.walkDepth.toNat ≤ n + l.length → w ≤ v → w.Has u → Along p t l → l.Nodup →
      (∀ x ∈ l, Relation.TransGen (w.HandsOn s) x u ∧ x.present) → Decides p s v (isSubType n t u) true := by
  induction hgrounded with
  | @intro u hpresent hnext ih =>
    intro n p v l hn hv hu hp hnodup hl
    have hgrounded : w.Grounded s u := .intro hpresent hnext
    have hlength := length_lt_of_path hw hgrounded hu hnodup hl
    have hwalk : Limits.walkDepth.toNat = 64 := rfl
    obtain ⟨m, rfl⟩ : ∃ m, n = m + 1 := ⟨n - 1, by omega⟩
    by_cases heq : t = u
    · subst heq
      exact decides_self hpresent
    have hword : UInt32.size = Limits.unlimited.toNat + 1 := rfl
    have hroom : HasRoom p (Limits.unlimited.toNat - l.length - 1 + 1) := hp.room.mono (by omega)
    have hfree : (t, u) ∉ p.pending := fun h => hgrounded.irrefl (hl u (hp.pending _ h rfl)).1
    have hpt : t.present := by rcases ht with rfl | rfl | rfl <;> rfl
    refine decides_isSubType hpt hpresent heq hroom hp.bounds hfree fun p' hopens => ?_
    have hlower : ∀ x v', w ≤ v' → w.HandsOn s u x → Decides p' s v' (isSubType m t x) true := by
      intro x v' hv' hx
      refine ih x hx (l := u :: l) ?_ hv' (hx.has_right hw hs) (hp.opens (by omega) hopens) ?_ fun y hy => ?_
      · simp only [List.length_cons]
        omega
      · exact List.nodup_cons.2 ⟨fun h => hgrounded.irrefl (hl u h).1, hnodup⟩
      · rcases List.mem_cons.1 hy with rfl | hy
        · exact ⟨.single hx, hpresent⟩
        · exact ⟨.tail (hl y hy).1 hx, (hl y hy).2⟩
    obtain ⟨d, hd⟩ := Option.isSome_iff_exists.1 hu
    have hkept : v.shape u = w.shape u := by
      rw [World.shape_of_shape? hd, World.shape_of_shape? (hv.shape hd)]
    have hbot := World.shape_of_shape? (hv.shape (hw.standard.shape .nothing))
    rcases ht with rfl | ht
    · have hbarren := hbottom.barren hw
      have hfourth : ∀ v', w ≤ v' → DecidesIf p' s v' (fourth (isSubType m) Builtin.nothing.type u) True :=
        fun v' hv' => (decides_fourth_bottom hw hv').decidesIf
      have hlower' : ∀ x v', w ≤ v' → w.HandsOn s u x → DecidesIf p' s v' (isSubType m Builtin.nothing.type x) True :=
        fun x v' hv' hx => (hlower x v' hv' hx).decidesIf
      obtain ⟨k, rfl⟩ : ∃ k, m = k + 1 := ⟨m - 1, by omega⟩
      refine decides_first_of_handsOn hw.closed hs hv hu (fun x => hlower x v hv) (fun _ hnamed => ?_) fun _ => ?_
      · refine (decidesIf_names_bottom hw hv hbottom.parents hbarren (by omega) hu (hkept ▸ hnamed) ?_ hlower').decides trivial
        exact fun _ c _ _ hc hname => absurd (hbottom.name c hname) hc
      · exact (decidesIf_second_barren hbarren hv hw (by omega) hu hfourth hlower' fun x v' => decides_pure).decides trivial
    · have hhole : isHole (v.shape t) := by
        rcases ht with rfl | rfl
        · rw [World.shape_of_shape? (hv.shape hw.shape_wildcard)]
          rfl
        · rw [World.shape_of_shape? (hv.shape hw.shape_error)]
          rfl
      exact decides_first_hole hw.closed hs hv hu hhole fun x => hlower x v hv

end Along

/-- **The bottom class and the placeholders conform to everything**: whatever is under inference, a comparison of one
of them with a type that hands it on finitely often, and never to an absent type, comes to an end with the answer true,
and leaves the constraints as they are. -/
theorem isSubType_bottom {w : World} {c : Comparer} {t u : Ty} (hw : w.Built) (hbottom : w.KeepsBottom)
    (hsize : w.types.size ≤ UInt32.size) (hc : c.place.Idle) (hstore : w.GaveOut c.constraint) (hu : w.Has u)
    (hgrounded : w.Grounded c.constraint u) (ht : t = Builtin.nothing.type ∨ t = .wildcard ∨ t = .error) :
    ∃ k, ∀ fuel, k ≤ fuel → ∃ c' w', isSubType fuel t u c w = .ok ((true, c'), w') ∧ c'.constraint = c.constraint := by
  have hp : Along c.place t [] := ⟨hc.bounds, .of_idle hc (Nat.sub_le _ _), fun x hx => absurd hx (hc.free x)⟩
  refine ⟨w.types.size + Limits.walkDepth.toNat, fun fuel hfuel => ?_⟩
  obtain ⟨a, c', w', hrun, -, -, rfl, hsame⟩ := decides_bottom_along hw hbottom hsize hstore ht hgrounded (l := []) hfuel
    le_rfl hu hp List.nodup_nil (fun _ h => nomatch h) c ⟨rfl, rfl⟩
  exact ⟨c', w', hrun, hsame⟩

/-! ### Variables that are not settled -/

/-- The parameters `X >: Int` and `Y >: NoType` of one binder, at `15` and `16`, a variable for each of them, at `17` and
`18`, and at `19` the union of the first variable with `String`. -/
def unsettledWorld : World :=
  let w := { World.initial with binders := World.initial.binders.push { kind := .universal, names := ["X", "Y"] } }
  let w := [.param ⟨⟨0⟩, 0⟩, .param ⟨⟨0⟩, 1⟩].foldl (fun w d => { w with types := (w.types.intern d).2 }) w
  let w := { w with vars := w.vars.push { origin := ⟨15⟩ } }
  let w := { w with vars := w.vars.push { origin := ⟨16⟩ } }
  let w := [.var ⟨0⟩, .var ⟨1⟩, .union ⟨17⟩ Builtin.string.type, .bounds Builtin.int.type Builtin.any.type,
    .bounds .noType Builtin.any.type].foldl (fun w d => { w with types := (w.types.intern d).2 }) w
  { w with binders := w.binders.modify 0 fun d => { d with infos := [⟨20⟩, ⟨21⟩], result := Builtin.any.type } }

/-- The two parameters are under inference, within their declared bounds. -/
def unsettledComparer : Comparer := { Comparer.vacant false with constraint := ⟨⟨[(⟨0⟩, [⟨20⟩, ⟨21⟩])]⟩, 0⟩ }

theorem unsettledWorld_built : unsettledWorld.Built := by
  have h₁ := World.Built.binder .initial .universal ["X", "Y"]
  have h₂ := h₁.intern (.param ⟨⟨0⟩, 0⟩) (World.mentions_param (by decide) _)
  have h₃ := h₂.intern (.param ⟨⟨0⟩, 1⟩) (World.mentions_param (by decide) _)
  have h₄ := h₃.var ⟨15⟩ (by decide)
  have h₅ := h₄.var ⟨16⟩ (by decide)
  have h₆ := h₅.intern (.var ⟨0⟩) (.var trivial)
  have h₇ := h₆.intern (.var ⟨1⟩) (.var trivial)
  have h₈ := h₇.intern (.union ⟨17⟩ Builtin.string.type) (.union ⟨rfl, by decide⟩ ⟨rfl, by decide⟩)
  have h₉ := h₈.intern (.bounds Builtin.int.type Builtin.any.type)
    (World.mentions_bounds (by decide) (by decide))
  have h₁₀ := h₉.intern (.bounds .noType Builtin.any.type)
    (World.mentions_bounds (by decide) (by decide))
  exact h₁₀.fill ⟨0⟩ [⟨20⟩, ⟨21⟩] Builtin.any.type (by decide) (by decide)

theorem unsettledWorld_keepsBottom : unsettledWorld.KeepsBottom where
  parents := by decide
  typeParams := by decide
  members := Declarations.member?_of_empty (by decide)
  name s hs := by
    have hname := unsettledWorld_built.standard.name .nothing
    rw [← hname] at hs
    refine Declarations.alone_of_declared ?_ ?_ s hs <;> decide

theorem unsettledWorld_gaveOut : unsettledWorld.GaveOut unsettledComparer.constraint := by
  intro b slots hslots t ht
  have h : b = ⟨0⟩ ∧ slots = [⟨20⟩, ⟨21⟩] := by
    by_cases hb : b = ⟨0⟩
    · subst hb
      exact ⟨rfl, (Option.some.inj hslots).symm⟩
    · simp [ConstraintStore.slots?, InsertionMap.find?, unsettledComparer, List.lookup_cons, beq_false_of_ne hb] at hslots
  obtain ⟨rfl, rfl⟩ := h
  revert t
  decide

/-- A union with a variable that is not settled: the variable stands for a parameter under inference, whose lower end
is `Int`. -/
theorem isSubType_bottom_union : unsettledWorld.Built ∧ unsettledWorld.KeepsBottom ∧
    unsettledWorld.types.size ≤ UInt32.size ∧ unsettledComparer.place.Idle ∧
    unsettledWorld.GaveOut unsettledComparer.constraint ∧ unsettledWorld.Has ⟨19⟩ ∧
    unsettledWorld.Grounded unsettledComparer.constraint ⟨19⟩ ∧
    ∃ k, ∀ fuel, k ≤ fuel → ∃ c w, isSubType fuel Builtin.nothing.type ⟨19⟩ unsettledComparer unsettledWorld =
      .ok ((true, c), w) ∧ c.constraint = unsettledComparer.constraint := by
  have hw := unsettledWorld_built
  have hclass (b : Builtin) (hb : b.type.present) :
      unsettledWorld.Grounded unsettledComparer.constraint b.type :=
    .of_class (hw.standard.shape b) (hw.standard.isClass b) hb
  have hparam : unsettledWorld.Grounded unsettledComparer.constraint ⟨15⟩ := by
    have hshape : unsettledWorld.shape? ⟨15⟩ = some (.param ⟨⟨0⟩, 0⟩) := by decide
    refine .intro rfl fun u h => ?_
    cases h with
    | param h hb hends =>
      cases hshape.symm.trans h
      have hlower : ((unsettledComparer.constraint.bounds? ⟨⟨0⟩, 0⟩).bind unsettledWorld.boundsParts?).map (·.1) =
          some Builtin.int.type := by decide
      rw [hb, Option.bind_some, hends] at hlower
      obtain rfl : u = Builtin.int.type := Option.some.inj hlower
      exact hclass .int rfl
    | lower hends => exact absurd (World.isNamed_of_ends hends) (by decide)
    | inter h | union h | parent h | var h => cases hshape.symm.trans h
  have hvar : unsettledWorld.Grounded unsettledComparer.constraint ⟨17⟩ := by
    have hshape : unsettledWorld.shape? ⟨17⟩ = some (.var ⟨0⟩) := by decide
    refine .intro rfl fun u h => ?_
    cases h with
    | var h =>
      cases hshape.symm.trans h
      have horigin : unsettledWorld.varUnderlying ⟨0⟩ = ⟨15⟩ := by decide
      exact horigin ▸ hparam
    | lower hends => exact absurd (World.isNamed_of_ends hends) (by decide)
    | inter h | union h | parent h | param h => cases hshape.symm.trans h
  have hunion : unsettledWorld.Grounded unsettledComparer.constraint ⟨19⟩ := by
    have hshape : unsettledWorld.shape? ⟨19⟩ = some (.union ⟨17⟩ Builtin.string.type) := by decide
    refine .intro rfl fun u h => ?_
    cases h with
    | union h hu =>
      cases hshape.symm.trans h
      rcases hu with rfl | rfl
      · exact hvar
      · exact hclass .string rfl
    | lower hends => exact absurd (World.isNamed_of_ends hends) (by decide)
    | inter h | parent h | var h | param h => cases hshape.symm.trans h
  have hsize : unsettledWorld.types.size ≤ UInt32.size := by decide
  have hidle : unsettledComparer.place.Idle := ⟨rfl, rfl, rfl, rfl⟩
  have hhas : unsettledWorld.Has ⟨19⟩ := by decide
  exact ⟨hw, unsettledWorld_keepsBottom, hsize, hidle, unsettledWorld_gaveOut, hhas, hunion,
    isSubType_bottom hw unsettledWorld_keepsBottom hsize hidle unsettledWorld_gaveOut hhas hunion (.inl rfl)⟩

/-- A variable that is not settled hands a comparison on to the parameter that it stands for, and that one, being under
inference, to its lower end. With an absent lower end the answer is false. -/
theorem isSubType_bottom_unsettled : unsettledWorld.Built ∧ unsettledWorld.KeepsBottom ∧ unsettledComparer.place.Idle ∧
    unsettledWorld.GaveOut unsettledComparer.constraint ∧ unsettledWorld.shape? ⟨18⟩ = some (.var ⟨1⟩) ∧
    unsettledWorld.varInstance? ⟨1⟩ = none ∧ unsettledWorld.varOrigin ⟨1⟩ = ⟨16⟩ ∧
    unsettledWorld.shape? ⟨16⟩ = some (.param ⟨⟨0⟩, 1⟩) ∧
    ((isSubType 12 Builtin.nothing.type ⟨18⟩ unsettledComparer unsettledWorld).toOption.map (·.1.1)) = some false :=
  ⟨unsettledWorld_built, unsettledWorld_keepsBottom, ⟨rfl, rfl, rfl, rfl⟩, unsettledWorld_gaveOut, by decide,
    by decide, by decide, by decide, by decide⟩

end CompareM
end Conformance
