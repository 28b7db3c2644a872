import Conformance.Proofs.Reachability

/-!
# Where the parameters in inferred bounds come from

A comparison puts types into the bounds of the parameters that it infers, and those types mention parameters of their own.
No parameter comes out of nowhere: one that is free in a bound afterwards was mentioned by the types compared, by the
bounds before, by a declaration, or by what these refer to, or it belongs to a binder that was copied on the way
(`isSubType_scope`). The parameters that universal and method types bind are among those: comparing the bodies of such
types can leave them in the bounds of a parameter from outside (`isSubType_scope_extrusion`).
-/

namespace Conformance

namespace World

/-- `p` occurs in `t` outside the body of the binder that it belongs to. -/
inductive Free (w : World) (p : Param) : Ty → Prop
  | param {t : Ty} (ht : w.shape? t = some (.param p)) : Free w p t
  | valueParam {t : Ty} (ht : w.shape? t = some (.valueParam p)) : Free w p t
  | skolem {t u : Ty} {k : SkolemId} (ht : w.shape? t = some (.skolem k u)) (hu : Free w p u) : Free w p t
  | child {t u : Ty} (hu : u ∈ w.children t) (ht : w.binderOf? t ≠ some p.binder) (h : Free w p u) : Free w p t

/-- What a comparison of `t₁` with `t₂` can draw on from the start: the two types, the bounds of the parameters under
inference, and the declarations. -/
inductive Source (S : ConstraintStore) (t₁ t₂ : Ty) : Node → Prop
  | left : Source S t₁ t₂ (.ty t₁)
  | right : Source S t₁ t₂ (.ty t₂)
  | slot {b : BinderId} {slots : List Ty} {t : Ty} (hslots : S.slots? b = some slots) (ht : t ∈ slots) :
    Source S t₁ t₂ (.ty t)
  | symbol (s : Symbol) : Source S t₁ t₂ (.sym s)

variable {w : World} {p : Param} {t u : Ty}

/-- `t` is not `p`, and its parts outside the body of the binder of `p` are in `l`. -/
def hides (w : World) (p : Param) (l : List Ty) (t : Ty) : Bool :=
  (match w.shape t with
    | .param q | .valueParam q => q ≠ p
    | .skolem _ u => u ∈ l
    | _ => true) &&
    (w.binderOf? t = some p.binder || (w.children t).all (· ∈ l))

theorem not_free_of_hides {l : List Ty} (hl : ∀ t ∈ l, w.hides p l t) (ht : t ∈ l) : ¬ w.Free p t := by
  intro hfree
  induction hfree with
  | param hd | valueParam hd =>
    have h := hl _ ht
    simp [hides, shape_of_shape? hd] at h
  | skolem hd _ ih =>
    have h := hl _ ht
    simp only [hides, shape_of_shape? hd, Bool.and_eq_true, decide_eq_true_eq] at h
    exact ih h.1
  | child hu hb _ ih =>
    have h := hl _ ht
    simp only [hides, Bool.and_eq_true, Bool.or_eq_true, decide_eq_true_eq, List.all_eq_true] at h
    exact ih ((h.2.resolve_left hb) _ hu)

end World

namespace Region

variable {R : Region} {w : World} {p : Param} {t u : Ty}

theorem Holds.children (h : R.Holds w) (ht : R.inside (.ty t)) (hu : u ∈ w.children t) : R.inside (.ty u) := by
  cases hd : w.shape t with
  | method b | universal b =>
    simp only [World.children, hd] at hu
    cases hb : w.binder? b with
    | none => simp [hb] at hu
    | some d =>
      obtain ⟨hinfos, hresult⟩ := h.binder_parts (h.parts ht hd _ (by simp [Shape.parts])) hb
      rw [hb] at hu
      rcases List.mem_append.1 hu with hu | hu
      · exact hinfos u hu
      · exact List.mem_singleton.1 hu ▸ hresult
  | fixed | self | literal | skolem | var | param | valueParam => simp [World.children, hd] at hu
  | named | path | classInfo | refined | inter | union | byName | bounds =>
    have hmem : .ty u ∈ (w.shape t).parts := by simpa [World.children, Shape.parts, hd] using hu
    exact h.parts ht rfl _ hmem

/-- A parameter that is free in a type from inside is inside. -/
theorem Holds.free (h : R.Holds w) (ht : R.inside (.ty t)) (hfree : w.Free p t) : R.inside (.param p) := by
  induction hfree with
  | param hd | valueParam hd => exact h.parts ht (World.shape_of_shape? hd) _ (by simp [Shape.parts])
  | skolem hd _ ih => exact ih (h.parts ht (World.shape_of_shape? hd) _ (by simp [Shape.parts]))
  | child hu _ _ ih => exact ih (h.children ht hu)

end Region

namespace CompareM

variable {w w' : World} {c c' : Comparer} {fuel : Nat} {t₁ t₂ u : Ty} {answer : Bool} {b : BinderId} {slots : List Ty}
  {p : Param}

/-- **Nothing but what was there gets into bounds.** Whatever a comparison answers, a parameter that is free in a bound
afterwards can be reached from the two types, from the bounds before or from a declaration, or its binder was made
on the way. Reaching opens the universal and method types that are met, so that their parameters count, and goes from a
parameter to its declared bounds, but to nothing else of its binder. -/
theorem isSubType_scope (hw : w.Standard) (hpre : w.shape? .noPrefix = some (.fixed .noPrefix))
    (hrun : isSubType fuel t₁ t₂ c w = .ok ((answer, c'), w')) (hslots : c'.constraint.slots? b = some slots)
    (hu : u ∈ slots) (hfree : w'.Free p u) :
    (∃ n, World.Source c.constraint t₁ t₂ n ∧ w.Reaches false n (.param p)) ∨ w.binder? p.binder = none := by
  let supplied : Node → Prop := fun m => ∃ n, World.Source c.constraint t₁ t₂ n ∧ w.Reaches false n m
  let avoided : Node → Prop := fun n => ∃ p, n = .param p ∧ (w.binder? p.binder).isSome ∧ ¬ supplied n
  have havoided : ∀ n, avoided n → ∃ b, n.binder? = some b ∧ (w.binder? b).isSome := by
    rintro _ ⟨p, rfl, hp, -⟩
    exact ⟨p.binder, rfl, hp⟩
  let R : Region := .avoiding w false avoided havoided hw hpre
  have hsource : ∀ {n}, World.Source c.constraint t₁ t₂ n → R.inside n := by
    rintro n hn m hm ⟨p, -, -, hnot⟩
    exact hnot ⟨n, hn, hm⟩
  have hbuiltin : ∀ d : Builtin, R.inside (.ty d.type) := by
    intro d
    refine R.shape (hw.shape d) fun n hn => ?_
    obtain rfl | rfl : n = .ty .noPrefix ∨ n = .sym d.symbol := by simpa [Shape.parts] using hn
    · exact R.noPrefix
    · exact hsource (.symbol _)
  have hJ : Supports R fun _ S₁ S₂ =>
      S₁ = S₂ ∧ ∀ b slots, S₁.slots? b = some slots → ∀ t ∈ slots, R.inside (.ty t) := by
    refine ⟨fun h _ _ => h, fun h _ => by rw [h.1], fun {w S₁ S₂ p t} h hp hopen => ?_, ?_⟩
    · obtain ⟨slots, hslots, ht, -⟩ := slot_of_bounds hopen
      exact ⟨h.2 _ slots hslots t (List.mem_of_getElem? ht), hbuiltin .nothing, hbuiltin .any⟩
    · rintro w w' S₁ _ p slots old bound narrowed ⟨rfl, h⟩ - hslots - - - hnarrowed - n
      refine ⟨rfl, fun b slots' hslots' t ht => ?_⟩
      rw [ConstraintStore.slots?, InsertionMap.find?_insert] at hslots'
      split at hslots'
      · cases hslots'
        rcases List.mem_or_eq_of_mem_set ht with ht | rfl
        · exact h p.binder slots hslots t ht
        · exact hnarrowed
      · exact h b slots' hslots' t ht
  have hstep := inStep_isSubType hJ fuel t₁ t₂ (hsource .left) (hsource .right) c c w R.holds_base
    ⟨rfl, rfl, fun b slots hslots t ht => hsource (.slot hslots ht)⟩
  rw [hrun] at hstep
  obtain ⟨-, -, -, -, hholds, -, -, hinside⟩ := hstep
  have hp : R.inside (.param p) := hholds.free (hinside b slots hslots u hu) hfree
  by_contra hcon
  obtain ⟨hnot, hsome⟩ := not_or.1 hcon
  exact hp _ .refl ⟨p, rfl, Option.isSome_iff_ne_none.2 hsome, hnot⟩

/-! ### A rigid parameter that gets out -/

/-- The types `[Y] Y` and `[Z] X` in the world of `[X] X`. -/
def scopeWorld : World :=
  let w := { SoleParam.leastWorld with
    binders := SoleParam.leastWorld.binders.push { kind := .universal, names := ["Y"] } }
  let w := { w with types := (w.types.intern (.param ⟨⟨1⟩, 0⟩)).2 }
  let w := { w with binders := w.binders.modify 1 fun d => { d with infos := [⟨14⟩], result := ⟨17⟩ } }
  let w := { w with types := (w.types.intern (.universal ⟨1⟩)).2 }
  let w := { w with binders := w.binders.push { kind := .universal, names := ["Z"] } }
  let w := { w with binders := w.binders.modify 2 fun d => { d with infos := [⟨14⟩], result := SoleParam.least.x } }
  { w with types := (w.types.intern (.universal ⟨2⟩)).2 }

theorem scopeWorld_built : scopeWorld.Built := by
  have h₁ := World.Built.binder SoleParam.leastWorld_built.1 .universal ["Y"]
  have h₂ := World.Built.intern h₁ (.param ⟨⟨1⟩, 0⟩) (World.mentions_param (by decide) _)
  have h₃ := World.Built.fill h₂ ⟨1⟩ [⟨14⟩] ⟨17⟩ (by decide) (by decide)
  have h₄ := World.Built.intern h₃ (.universal ⟨1⟩) (World.mentions_universal (by decide))
  have h₅ := World.Built.binder h₄ .universal ["Z"]
  have h₆ := World.Built.fill h₅ ⟨2⟩ [⟨14⟩] SoleParam.least.x (by decide) (by decide)
  exact .intern h₆ (.universal ⟨2⟩) (World.mentions_universal (by decide))

/-- `[Z] X` conforms to `[Y] Y`, with `Z` in the place of `Y`, and so `X` gets the upper bound `Z`. -/
theorem scope_run : ∃ c' w', isSubType 9 ⟨19⟩ ⟨18⟩ SoleParam.leastComparer scopeWorld = .ok ((true, c'), w') ∧
    c'.constraint.slots? ⟨0⟩ = some [⟨21⟩] ∧ ¬ c'.constraint.tracks ⟨2⟩ ∧
      w'.boundsParts? ⟨21⟩ = some (Builtin.nothing.type, ⟨20⟩) ∧ w'.Free ⟨⟨2⟩, 0⟩ ⟨21⟩ := by
  have hend : ((isSubType 9 ⟨19⟩ ⟨18⟩ SoleParam.leastComparer scopeWorld).toOption.map fun r =>
      (r.1.1, r.1.2.constraint.slots.entries, r.2.shape? ⟨20⟩, r.2.shape? ⟨21⟩)) =
        some (true, [(⟨0⟩, [⟨21⟩])], some (.param ⟨⟨2⟩, 0⟩), some (.bounds Builtin.nothing.type ⟨20⟩)) := by
    decide +kernel
  obtain ⟨⟨⟨answer, c'⟩, w'⟩, hrun⟩ := exists_of_isSome (x := isSubType 9 ⟨19⟩ ⟨18⟩ SoleParam.leastComparer scopeWorld)
    (by decide +kernel)
  rw [hrun] at hend
  obtain ⟨rfl, hentries, hz, hbounds⟩ : answer = true ∧ c'.constraint.slots.entries = [(⟨0⟩, [⟨21⟩])] ∧
      w'.shape? ⟨20⟩ = some (.param ⟨⟨2⟩, 0⟩) ∧ w'.shape? ⟨21⟩ = some (.bounds Builtin.nothing.type ⟨20⟩) := by
    simpa [Except.toOption] using hend
  refine ⟨c', w', hrun, ?_, ?_, by simp [World.boundsParts?, hbounds], ?_⟩
  · rw [ConstraintStore.slots?, InsertionMap.find?, hentries]
    rfl
  · rw [ConstraintStore.tracks, InsertionMap.contains, InsertionMap.find?, hentries]
    decide
  · refine .child (u := ⟨20⟩) ?_ ?_ (.param hz)
    · simp [World.children, World.shape_of_shape? hbounds]
    · simp [World.binderOf?, hbounds]

/-- The parameter in the new bound of `X` is one that `[Z] X` binds. -/
theorem isSubType_scope_rigid : ∃ c' w' n,
    isSubType 9 ⟨19⟩ ⟨18⟩ SoleParam.leastComparer scopeWorld = .ok ((true, c'), w') ∧
      World.Source SoleParam.leastComparer.constraint ⟨19⟩ ⟨18⟩ n ∧ scopeWorld.Reaches false n (.param ⟨⟨2⟩, 0⟩) := by
  obtain ⟨c', w', hrun, hslots, -, -, hfree⟩ := scope_run
  have hscope := isSubType_scope scopeWorld_built.standard scopeWorld_built.shape_noPrefix hrun hslots
    (List.mem_singleton.2 rfl) hfree
  obtain ⟨n, hn, hreach⟩ := hscope.resolve_right (by decide)
  exact ⟨c', w', n, hrun, hn, hreach⟩

/-- Opening universal types counts: `Z` is free in neither of the two types, nor in the bounds before or in the info of a
symbol, and after `[Z] X <: [Y] Y` it is free in the bounds of `X`, though not tracked. -/
theorem isSubType_scope_extrusion :
    scopeWorld.Built ∧ ∃ c' w', isSubType 9 ⟨19⟩ ⟨18⟩ SoleParam.leastComparer scopeWorld = .ok ((true, c'), w') ∧
      ∃ p b slots u, c'.constraint.slots? b = some slots ∧ u ∈ slots ∧ w'.Free p u ∧ ¬ c'.constraint.tracks p.binder ∧
        ¬ scopeWorld.Free p ⟨19⟩ ∧ ¬ scopeWorld.Free p ⟨18⟩ ∧
        (∀ b slots, SoleParam.leastComparer.constraint.slots? b = some slots → ∀ t ∈ slots, ¬ scopeWorld.Free p t) ∧
        ∀ s d, scopeWorld.decls.get? s = some d → ¬ scopeWorld.Free p d.info := by
  obtain ⟨c', w', hrun, hslots, htracks, -, hfree⟩ := scope_run
  let l : List Ty := [⟨0⟩, ⟨1⟩, ⟨4⟩, ⟨5⟩, ⟨14⟩, ⟨15⟩, ⟨17⟩, ⟨18⟩, ⟨19⟩]
  have hl : ∀ t ∈ l, ¬ scopeWorld.Free ⟨⟨2⟩, 0⟩ t := fun t ht =>
    World.not_free_of_hides (l := l) (by decide) ht
  have hinfos : ∀ d ∈ scopeWorld.decls.entries.toList, d.info ∈ l := by decide
  refine ⟨scopeWorld_built, c', w', hrun, ⟨⟨2⟩, 0⟩, ⟨0⟩, [⟨21⟩], ⟨21⟩, hslots, List.mem_singleton.2 rfl, hfree, htracks,
    hl _ (by decide), hl _ (by decide), fun b slots h t ht => ?_, fun s d hd => hl _ (hinfos d ?_)⟩
  · obtain ⟨-, rfl⟩ := SoleParam.slots_leastComparer h
    exact hl _ (List.mem_singleton.1 ht ▸ by decide)
  · rw [Declarations.get?] at hd
    split at hd
    · cases hd
    · exact Array.mem_toList_iff.2 (Array.mem_of_getElem? hd)

end CompareM

end Conformance
