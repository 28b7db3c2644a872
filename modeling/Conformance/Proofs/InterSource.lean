import Conformance.Proofs.ClassInference

/-!
# An operand that conforms

An intersection conforms to what one of its operands conforms to. The steps of the cascade ask this last, after other
ways in which the intersection might conform, so it rests on those leaving nothing behind when they fail. With nothing
under inference there is nothing to leave behind: an answered comparison of an intersection is positive if that of an
operand is (`isSubType_of_operand`). A parameter under inference can be narrowed by the parent of a refinement and keep
that narrowing when the member is refused, which then refuses the operand (`isSubType_of_operand_refused`).

Targets that are intersections or variables hand the comparison on before the source is looked at, and are left out.
-/

namespace Conformance

open CompareM

namespace CompareM

variable {α : Type} {p : Place} {s : ConstraintStore} {w v : World} {n : Nat} {c c' : Comparer}
  {sub : Ty → Ty → CompareM Bool} {t u m a b x y : Ty}

/-! ## Runs taken apart -/

theorem run_reading_ok {f : World → Except Halt α} {a : α} {w' : World}
    (h : (liftM (WorldM.reading f) : CompareM α) c w = .ok ((a, c'), w')) : f w = .ok a ∧ c' = c ∧ w' = w := by
  obtain ⟨h, hc⟩ := run_lift_ok h
  obtain ⟨h, hw⟩ := reading_ok h
  exact ⟨h, hc, hw⟩

/-! ## What a named target reads of the source -/

/-- The symbol of a target that names a type. -/
def targetSymbol (w : World) (u : Ty) : Symbol :=
  match w.shape u with
  | .named _ s => s
  | _ => .absent

/-- The readings that a named target without bounds takes before it looks at the operands of the source are answered. -/
structure Readable (n : Nat) (w : World) (t u : Ty) : Prop where
  stable : targetSymbol w u = Builtin.singleton.symbol → ∃ answer, w.isStable n t = .ok answer
  constructor : Builtin.isTrait (targetSymbol w u) →
    ∃ params args, w.openTypeParams n t = .ok params ∧ w.typeArgs n u = .ok args

/-- A trait of type constructors is none of the markers. -/
theorem ne_markers {d : Symbol} (h : Builtin.isTrait d) :
    d ≠ Builtin.singleton.symbol ∧ d ≠ Builtin.notNull.symbol := by
  constructor
  · rintro rfl
    exact absurd h (by decide)
  · rintro rfl
    exact absurd h (by decide)

theorem readings_of_conformsAsConstructor {r : (Bool × Comparer) × World}
    (h : conformsAsConstructor n sub t u c w = .ok r) :
    ∃ params args, w.openTypeParams n t = .ok params ∧ w.typeArgs n u = .ok args := by
  unfold conformsAsConstructor at h
  obtain ⟨params, c₁, w₁, hparams, h'⟩ := run_bind_ok h
  obtain ⟨hparams', rfl, rfl⟩ := run_reading_ok hparams
  obtain ⟨args, c₂, w₂, hargs, -⟩ := run_bind_ok h'
  exact ⟨params, args, hparams', (run_reading_ok hargs).1⟩

/-- A named target that came to an answer has taken them. -/
theorem readable_of_run {info : Ty} {r : (Bool × Comparer) × World} (hinfo : u.infoOf w = .ok (info, v))
    (hbounds : v.boundsParts? info = none) (h : thirdNamed n sub t u c w = .ok r) : Readable n v t u := by
  obtain ⟨info', c', v', hrun, hrest⟩ := run_bind_ok h
  obtain ⟨hinfo', rfl⟩ := run_lift_ok hrun
  cases hinfo.symm.trans hinfo'
  rw [run_world_bind, hbounds] at hrest
  change ((if targetSymbol v u = Builtin.singleton.symbol then WorldM.reading (·.isStable n t) else return false) <||>
    (if targetSymbol v u = Builtin.notNull.symbol then (t.isNotNull : WorldM Bool) else return false) <||>
    (if Builtin.isTrait (targetSymbol v u) then conformsAsConstructor n sub t u else return false) <||>
    fourth sub t u : CompareM Bool) c' v = _ at hrest
  generalize hd : targetSymbol v u = d at hrest
  refine ⟨fun hs => ?_, fun htrait => ?_⟩
  · obtain ⟨answer, c₁, v₁, hstable, -⟩ := run_bind_ok hrest
    rw [if_pos (hd.symm.trans hs)] at hstable
    exact ⟨answer, (run_reading_ok hstable).1⟩
  · rw [hd] at htrait
    rw [if_neg (ne_markers htrait).1, if_neg (ne_markers htrait).2, if_pos htrait] at hrest
    change (conformsAsConstructor n sub t u <||> fourth sub t u : CompareM Bool) c' v = _ at hrest
    obtain ⟨_, _, _, hconstructor, -⟩ := run_bind_ok hrest
    exact readings_of_conformsAsConstructor hconstructor

/-! ## Looking answers up -/

section Asking

variable {S : World → Ty → Ty → Prop}

theorem yields_asking (S : World → Ty → Ty → Prop) (t u : Ty) :
    Yields p s w (asking S t u) fun answer s' v => (answer = true ↔ S w t u) ∧ s' = s ∧ v = w := by
  classical
  exact fun c hc => ⟨_, c, w, rfl, hc.place, le_rfl, decide_eq_true_iff, hc.store, rfl⟩

theorem decides_asking (h : S w t u) : Decides p s w (asking S t u) true :=
  (yields_asking S t u).mono fun _ _ _ _ ⟨ha, hs, _⟩ => ⟨ha.2 h, hs⟩

/-- An operand that is looked up decides for the intersection, whatever is looked up before it. -/
theorem decides_fourth_operand (hm : w.shape? m = some (.inter a b)) (h : ∀ v, w ≤ v → S v a u ∨ S v b u) :
    Decides p s w (fourth (asking S) m u) true := by
  refine yields_fourth_inter hm ?_
  rcases h w le_rfl with ha | hb
  · exact .orElse_true ((decides_asking ha).mono fun _ _ _ _ ⟨ha, hs⟩ => ⟨ha, rfl, hs⟩)
  · refine .bind (yields_asking S a u) fun answer s' v _ ⟨_, hs, hv⟩ => ?_
    subst hs hv
    cases answer with
    | true => exact .pure ⟨rfl, rfl⟩
    | false => exact decides_asking hb

/-! ### Ways that are tried before -/

theorem ends_asking : Ends p s w (asking S t u) := (yields_asking S t u).mono fun _ _ _ _ h => h.2.1

theorem ends_conformsAsConstructor_asking {params : List Symbol} {args : List Ty}
    (hparams : w.openTypeParams n t = .ok params) (hargs : w.typeArgs n u = .ok args) :
    Ends p s w (conformsAsConstructor n (asking S) t u) := by
  refine ends_conformsAsConstructor hparams hargs fun base _ _ _ _ _ _ _ _ => ?_
  refine Ends.bind (ends_lift (grows_member base _)) fun info _ _ => ?_
  refine Ends.bind (ends_lift (grows_asBounds _)) fun _ _ _ => ?_
  exact Ends.bind (ends_lift (grows_asBounds _)) fun _ _ _ => ends_asking

/-! ### The steps -/

/-- A named target. -/
theorem decides_thirdNamed_operand {info : Ty} {v : World} (hinfo : u.infoOf w = .ok (info, v)) (hv : w ≤ v)
    (hreadable : v.boundsParts? info = none → Readable n v t u)
    (hfourth : ∀ v, w ≤ v → Decides p s v (fourth (asking S) t u) true) :
    Decides p s w (thirdNamed n (asking S) t u) true := by
  refine Yields.bind (yields_run hinfo hv) fun _ _ _ _ ⟨hi, hs, hw⟩ => ?_
  subst hi hs hw
  refine Yields.world_bind ?_
  cases hbounds : World.boundsParts? _ _ with
  | some ends => exact .orElse_last ends_asking fun v' hv' => hfourth v' (hv.trans hv')
  | none =>
    obtain ⟨hstable, hconstructor⟩ := hreadable hbounds
    show Decides p _ _ ((if targetSymbol _ u = Builtin.singleton.symbol then
        WorldM.reading (·.isStable n t) else return false) <||>
      (if targetSymbol _ u = Builtin.notNull.symbol then (t.isNotNull : WorldM Bool) else return false) <||>
      (if Builtin.isTrait (targetSymbol _ u) then conformsAsConstructor n (asking S) t u else return false) <||>
      fourth (asking S) t u) true
    generalize targetSymbol _ u = d at hstable hconstructor ⊢
    by_cases htrait : Builtin.isTrait d
    · obtain ⟨params, args, hparams, hargs⟩ := hconstructor htrait
      rw [if_neg (ne_markers htrait).1, if_neg (ne_markers htrait).2, if_pos htrait]
      show Decides p _ _ (conformsAsConstructor n (asking S) t u <||> fourth (asking S) t u) true
      exact .orElse_last (ends_conformsAsConstructor_asking hparams hargs) fun v' hv' => hfourth v' (hv.trans hv')
    · rw [if_neg htrait]
      refine .orElse_last ?_ fun v₁ hv₁ => .orElse_last ?_ fun v₂ hv₂ => .orElse_last (ends_pure _) fun v₃ hv₃ => ?_
      · split
        · next hd =>
          obtain ⟨answer, hanswer⟩ := hstable hd
          exact ends_reading hanswer
        · exact ends_pure _
      · split
        · exact ends_lift (grows_isNotNull t)
        · exact ends_pure _
      · exact hfourth v₃ (hv.trans (hv₁.trans (hv₂.trans hv₃)))

theorem yields_currentBounds_vacant (hs : s.slots.entries = []) (x : Param) :
    Yields p s w (currentBounds x) fun r s' v => r = none ∧ s' = s ∧ v = w := by
  intro c hc
  have hbounds : c.constraint.bounds? x = none := by
    rw [hc.store, ConstraintStore.bounds?, ConstraintStore.slots?, InsertionMap.find?, hs]
    rfl
  refine ⟨_, c, w, currentBounds_run x c w, hc.place, le_rfl, ?_, hc.store, rfl⟩
  rw [hbounds, Option.bind_none]

/-- **The cascade for an intersection one of whose operands conforms.** All targets but intersections and variables come
to the step for the source, unless they accept the intersection before. -/
theorem decides_first_operand (hm : w.shape? m = some (.inter a b)) (hs : s.slots.entries = [])
    (hinter : ∀ x y, w.shape u ≠ .inter x y) (hvar : (w.shape u).isVar = false)
    (hreadable : ∀ info v, (w.shape u).isNamed → u.infoOf w = .ok (info, v) → v.boundsParts? info = none →
      Readable n v m u)
    (h : ∀ v, w ≤ v → S v a u ∨ S v b u) : Decides p s w (first n (asking S) m u) true := by
  have hfourth : ∀ v, w ≤ v → Decides p s v (fourth (asking S) m u) true := fun v hv =>
    decides_fourth_operand (hv.shape hm) fun v' hv' => h v' (hv.trans hv')
  have hshape := World.shape_of_shape? hm
  have hnamed : (w.shape u).isNamed → Decides p s w (thirdNamed n (asking S) m u) true := by
    intro hu
    obtain ⟨info, v, hinfo, hv⟩ := (grows_infoOf u).total w
    exact decides_thirdNamed_operand hinfo hv (hreadable info v hu hinfo) hfourth
  have hthird : Decides p s w (third n (asking S) m u) true := by
    refine .world_bind ?_
    rw [hshape]
    generalize w.shape u = d at hinter hnamed ⊢
    cases d with
    | named | path => exact hnamed rfl
    | inter x y => exact absurd rfl (hinter x y)
    | refined parent name info =>
      refine .orElse_last (Ends.andThen ends_asking fun v hv => ?_) fun v hv => hfourth v hv
      split
      · exact ends_pure _
      · exact Ends.bind (ends_lift (grows_member m name)) fun _ _ _ => ends_asking
    | union x y =>
      refine .orElse_last ends_asking fun v hv => ?_
      exact .orElse_last ends_asking fun v' hv' => hfourth v' (hv.trans hv')
    | _ => exact hfourth w le_rfl
  have hsecond : Decides p s w (second n (asking S) m u) true := yields_second (by rw [hshape]; rfl) hthird
  refine .world_bind ?_
  rw [hshape]
  generalize w.shape u = d at hvar ⊢
  cases d with
  | fixed kind => cases kind <;> first | exact hsecond | exact decides_pure
  | var => cases hvar
  | param x =>
    refine Yields.bind (yields_currentBounds_vacant hs x) fun r s' v _ ⟨hr, hs', hv⟩ => ?_
    subst hr hs' hv
    exact hsecond
  | _ => exact hsecond

end Asking

/-! ## Intersections with nothing under inference -/

section Operands

variable {fuel fuel' : Nat} {d d' : Comparer} {w' v' : World} {answer : Bool}

theorem first_run_named (hm : w.shape? m = some (.inter a b))
    (hu : (w.shape u).isNamed) : first n sub m u c w = thirdNamed n sub m u c w := by
  have hm := World.shape_of_shape? hm
  have hthird : third n sub m u c w = thirdNamed n sub m u c w := by
    unfold third
    rw [run_world_bind]
    generalize w.shape u = d at hu ⊢
    cases d <;> first | rfl | cases hu
  have hsecond : second n sub m u c w = third n sub m u c w := by
    unfold second
    rw [run_world_bind, hm]
  unfold first
  rw [run_world_bind, hm]
  generalize w.shape u = d at hu ⊢
  cases d with
  | named | path => exact hsecond.trans hthird
  | _ => cases hu

/-- What was affirmed at rest is derivable, and stays so. -/
theorem conforms_of_run (hw : w.Closed) (hx : w.Has x) (hu : w.Has u) (hd : d.AtRest)
    (hrun : isSubType fuel x u d w = .ok ((true, d'), w')) (hv : w ≤ v) :
    Conforms d.options.erasedTypes v x u :=
  (conforms_iff_of_run trivial (hw.identity_matches.grow le_rfl hv) ⟨rfl, hx⟩ ⟨rfl, hu⟩ hd hrun).1 rfl

/-- **An operand that conforms decides for the intersection.** Nothing is under inference, and the target is neither an
intersection nor a variable. If the comparison of an operand with it answers true, then so does that of the
intersection, if it comes to an answer; options, thresholds and the course of the two comparisons may differ
otherwise. -/
theorem isSubType_of_operand (hw : w.Built) (hm : w.shape? m = some (.inter a b)) (hu : w.Has u)
    (hinter : ∀ x y, w.shape u ≠ .inter x y) (hvar : (w.shape u).isVar = false) (hx : x = a ∨ x = b) (hd : d.AtRest)
    (hc : c.AtRest) (herased : c.options.erasedTypes = d.options.erasedTypes)
    (hrun' : isSubType fuel' x u d w = .ok ((true, d'), w'))
    (hrun : isSubType fuel m u c w = .ok ((answer, c'), v')) : answer = true := by
  have hhasm : w.Has m := by
    rw [World.Has, hm]
    rfl
  have hhasx : w.Has x := by
    have hmentions : w.Mentions (.inter a b) := hw.closed.shape hm
    cases hmentions with
    | inter ha hb => rcases hx with rfl | rfl <;> [exact ha.2; exact hb.2]
  have hconforms : ∀ v, w ≤ v → Conforms c.options.erasedTypes v x u := fun v hv =>
    herased ▸ conforms_of_run hw.closed hhasx hu hd hrun' hv
  have hpu : u.present := by
    cases hconforms w le_rfl with
    | refl h => exact h
    | step _ _ h => exact h
  have hpm : m.present := hw.standard.present hm (by simp)
  have hrunm := run_within (uniform_apply m u) hc.level hrun
  have hroom := hasRoom_of_atRest hc (Nat.le_refl _)
  rcases isSubTypeWithin_cases hrunm with ⟨habsent, -⟩ | ⟨-, -, hr⟩ | ⟨-, -, -, levels, n, hlevels, rfl, hframed⟩
  · simp [hpm, hpu] at habsent
  · cases hr
    rfl
  rw [hlevels] at hroom
  rcases framed_vacant (vacant_of_atRest hc) hroom.level hc.bounds n m u with ⟨p', c₁, -, -, hbody⟩ | ⟨-, hrefused, -⟩
  · obtain ⟨c₂, hfirst⟩ := (hframed ▸ hbody w).of_ok
    -- what the run has read of the source is what the derivation has to read
    have hreadable : ∀ info v, (w.shape u).isNamed → u.infoOf w = .ok (info, v) → v.boundsParts? info = none →
        Readable n v m u := by
      intro info v hnamed hinfo hbounds
      rw [first_run_named hm hnamed] at hfirst
      exact readable_of_run hinfo hbounds hfirst
    have hdecides := decides_first_operand (p := (Comparer.vacant c.options.erasedTypes).place) (s := ⟨{}, 0⟩) hm rfl
      hinter
      hvar hreadable fun v hv => hx.imp (fun hxa => hxa ▸ hconforms v hv) fun hxb => hxb ▸ hconforms v hv
    obtain ⟨_, c₃, w₃, hholds, -, -, rfl, -⟩ := hdecides (.vacant c.options.erasedTypes) ⟨rfl, rfl⟩
    have hconf : Conforms c.options.erasedTypes w m u :=
      .step (Conforms c.options.erasedTypes) hpm hpu (fun _ _ _ => id) ⟨n, c₃, w₃, hholds⟩
    exact (decides hw.closed hhasm hu hc hrun).2 hconf
  · have hpending : (m, u) ∈ c.pending.openKeys := hroom.pending_of_refused hrefused
    rw [hc.pending] at hpending
    cases hpending

/-- `Int & String` conforms to `AnyVal` as `Int` does. -/
theorem isSubType_of_operand_builtin :
    let both := World.initial.types.intern (.inter Builtin.int.type Builtin.string.type)
    let w := { World.initial with types := both.2 }
    w.Built ∧ (Comparer.vacant false).AtRest ∧
      (∃ c w', isSubType 8 Builtin.int.type Builtin.anyVal.type (.vacant false) w = .ok ((true, c), w')) ∧
      ∃ answer c w', isSubType 8 both.1 Builtin.anyVal.type (.vacant false) w = .ok ((answer, c), w') ∧
        answer = true := by
  intro both w
  have hw : w.Built := .intern .initial _ (.inter ⟨rfl, by decide⟩ ⟨rfl, by decide⟩)
  have hrest := Comparer.atRest_vacant false
  have hm : w.shape? both.1 = some (.inter Builtin.int.type Builtin.string.type) := TypeTable.shape?_intern _ _
  have hshape : w.shape Builtin.anyVal.type = .named .noPrefix Builtin.anyVal.symbol := by decide
  obtain ⟨c, w', hyes⟩ :
      ∃ c w', isSubType 8 Builtin.int.type Builtin.anyVal.type (.vacant false) w = .ok ((true, c), w') :=
    exists_of_answer (by decide)
  obtain ⟨⟨⟨answer, c'⟩, v'⟩, hrun⟩ : ∃ r, isSubType 8 both.1 Builtin.anyVal.type (.vacant false) w = .ok r :=
    exists_of_isSome (by decide)
  have htrue := isSubType_of_operand hw hm (by decide) (fun x y h => by cases hshape.symm.trans h)
    (by rw [hshape]; rfl) (.inl rfl) hrest hrest rfl hyes hrun
  exact ⟨hw, hrest, ⟨c, w', hyes⟩, answer, c', v', hrun, htrue⟩

end Operands

/-! ### A narrowing that is left behind -/

/-- The types `[X] X`, `Any{A = Int} & Any{A = String}{T = String}` and `Any{A = X}{T = X}`. -/
def operandWorld : World :=
  [.bounds Builtin.int.type Builtin.int.type, .refined Builtin.any.type "A" ⟨17⟩,
    .bounds Builtin.string.type Builtin.string.type, .refined Builtin.any.type "A" ⟨19⟩, .refined ⟨20⟩ "T" ⟨19⟩,
    .inter ⟨18⟩ ⟨21⟩, .bounds ⟨15⟩ ⟨15⟩, .refined Builtin.any.type "A" ⟨23⟩, .refined ⟨24⟩ "T" ⟨23⟩].foldl
    (fun w d => { w with types := (w.types.intern d).2 }) SoleParam.leastWorld

/-- With the unbounded `X` under inference the second operand conforms to `Any{A = X}{T = X}` and the intersection does
not: its first operand has narrowed `X` to `Int` when the member `T` is refused. -/
theorem isSubType_of_operand_refused :
    operandWorld.shape? ⟨22⟩ = some (.inter ⟨18⟩ ⟨21⟩) ∧
      ((isSubType 12 ⟨21⟩ ⟨25⟩ SoleParam.leastComparer operandWorld).toOption.map (·.1.1)) = some true ∧
      ((isSubType 12 ⟨22⟩ ⟨25⟩ SoleParam.leastComparer operandWorld).toOption.map (·.1.1)) = some false := by
  exact ⟨by decide +kernel, by decide +kernel, by decide +kernel⟩

end CompareM

end Conformance
