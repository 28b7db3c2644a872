import Conformance.Proofs.Supplied
import Conformance.Proofs.VariantsConform

/-!
# Types on copied binders

A binder is copied by renaming its parameters to those of a fresh one, all the way down, so that the type on the copy is
a variant of the type on the binder (`World.variant_copy`), provided that the shapes are as the constructors make them.
Comparison does not tell the two apart (`CompareM.isSubType_copy`).
-/

namespace Conformance

open CompareM

/-! ## Copying -/

section Copying

variable {loose : Prop} {ρ : Corr} {w w₁ : World} {b c : BinderId} {fuel : Nat}

/-- Copies of binders that stand for each other do so as well. -/
theorem sim_copy {n m : Nat} (ho : ρ.opens) (hnm : loose ∨ n ≤ m) (h : ρ.binder b c) :
    Sim loose ρ Corr.binder (b.copy n) (c.copy m) := by
  refine .get_bind fun σ w₁ w₂ hσ hM => ?_
  obtain ⟨d₁, d₂, hb, hc, hd⟩ := hM.binder (hσ.opens ho) (hσ.binder h)
  simp only [hb, hc]
  rw [hd.kind, hd.names]
  refine .bind (sim_freshBinder (hσ.opens ho) d₁.kind d₁.names) fun τ hτ fresh₁ fresh₂ hfresh => ?_
  have ho := (hσ.trans hτ).opens ho
  have hrename : Likewise loose τ Corr.ty (Ty.substBinder n b fresh₁) (Ty.substBinder m c fresh₂) :=
    sim_substBinder ho hnm τ le_rfl (.inl ⟨ho, (hσ.trans hτ).binder h⟩) (.inl ⟨ho, hfresh.binder⟩)
  refine .bind (Sim.mapM_ty upward_ty hrename (Corr.tys_mono hτ hd.infos)) fun υ hυ infos₁ infos₂ hinfos => ?_
  refine .bind (hrename υ hυ _ _ (hυ.ty (hτ.ty hd.result))) fun φ hφ result₁ result₂ hresult => ?_
  have hfresh : φ.Fresh fresh₁ fresh₂ := (hfresh.mono hυ).mono hφ
  refine .bind_eq (sim_fillBinder ((hυ.trans hφ).opens ho) hfresh (Corr.tys_mono hφ hinfos) hresult) fun _ hχ _ => ?_
  exact .pure fun ψ hψ => (hχ.trans hψ).binder hfresh.binder

namespace World

/-- Copying comes to an end only for binders with an inside that does. -/
theorem lowInside_of_copy {r : BinderId × World} (h : b.copy fuel w = .ok r) : w.LowInside fuel b := by
  intro d hd
  rw [BinderId.copy, get_bind_run, hd] at h
  obtain ⟨fresh, w₀, hfresh, h⟩ := bind_ok h
  cases hfresh
  have hne : b ≠ ⟨w.binders.size⟩ := by
    rintro rfl
    exact absurd (Array.getElem?_eq_some_iff.1 hd).1 (Nat.lt_irrefl _)
  obtain ⟨infos, w₁, hinfos, h⟩ := bind_ok h
  obtain ⟨result, w₂, hresult, -⟩ := bind_ok h
  have hle : w ≤ w₁ := (le_freshBinder w _).trans
    ((Grows.mapM (grows_substBinder fuel b _) d.infos : Grows True _).le_of_ok hinfos)
  refine ⟨fun u hu => ?_, (low_of_substBinder hne _ _ _ _ hresult).before hle⟩
  obtain ⟨v, r, hv, hr⟩ := ran_of_mapM (grows_substBinder fuel b _) hinfos u hu
  exact (low_of_substBinder hne _ _ _ _ hr).before ((le_freshBinder w _).trans hv)

variable {t u : Ty} {w₂ : World} {d : Binder}

/-- **The type on a copy is a variant of the type on the binder**, every parameter in scope standing for itself. -/
theorem variant_copy (hw : w.Closed) (hstd : w.Standard) (hpre : w.shape? .noPrefix = some (.fixed .noPrefix))
    (hr : w.Regular) (ht : w.shape? t = some (d.kind.shape b)) (hd : w.binder? b = some d)
    (hsound : ∀ a, w.Within t a → w.Sound a) (hcopy : b.copy fuel w = .ok (c, w₁)) (hu : c.type w₁ = .ok (u, w₂)) :
    ∃ n, w₂.Variant n (.alike fun _ => True) t u := by
  have hchildren := children_of_binder ht hd
  have hself : ∀ m ≤ fuel, ∀ a ∈ d.infos ++ [d.result], w.Low m a → w.Variant m (w.lowest m) a a := by
    intro m _ a ha hlow
    have ha : a ∈ w.children t := hchildren ▸ ha
    exact variant_self hw hstd hr m a (hw.has_child ha) hlow fun x hx => hsound x (.head ha hx)
  obtain ⟨m, hm, hne, hinside⟩ := variant_inside (lowInside_of_copy hcopy) hd hself
  -- binders that were not given out yet are in scope nowhere
  let s : Pairing := ⟨fun a => (w.binder? a).isSome ∧ a ≠ b, fun p q => (w.binder? q).isSome ∧ p = q⟩
  have hsub : (w.lowest m).Sub w s := ⟨fun a ha h => ⟨ha, hne a h⟩, fun _ _ _ hq h => ⟨hq, h⟩⟩
  obtain ⟨f, infos, result, w', hle, hf, hf', hrun, hinfos, hresult⟩ :=
    RenamesAt.copied (s := s) hstd hpre (renamesAt m) (binderKind?_of_binder? hd) (fun _ h => h) (fun _ _ h => h.1) hm d.names
      (List.forall₂_same.2 fun a ha => (hinside a (List.mem_append_left _ ha)).imp hsub)
      ((hinside d.result (List.mem_append_right _ (List.mem_singleton.2 rfl))).imp hsub)
  have hcopied : b.copy fuel w = .ok (f, w') := by
    rw [BinderId.copy, get_bind_run, hd]
    exact hrun pure
  cases hcopied.symm.trans hcopy
  have hkind := binderKind?_of_binder? hf'
  rw [binderType_run hkind] at hu
  cases hu
  have hle' : w₁ ≤ { w₁ with types := (w₁.types.intern (d.kind.shape c)).2 } := le_intern _ w₁
  have hpair {v : World} : Pairing.Sub v { s.rename w w₁ b c with inner := fun a => (s.inner a ∨ w.Since w₁ a) ∧ a ≠ c }
      ((Pairing.alike fun _ => True).bind b c) := by
    have hb : (w.binder? b).isSome := by rw [hd]; rfl
    refine ⟨fun a _ ha => ⟨trivial, ha.1.elim (·.2) (·.ne hb), ha.2⟩, ?_⟩
    rintro p q - - ⟨q₀, ⟨hq, rfl⟩, rfl⟩
    by_cases hp : p = b
    · exact .inl ⟨hp, if_pos hp⟩
    · rw [if_neg hp]
      exact .inr ⟨hp, (hf.ne hq).symm, rfl⟩
  refine ⟨m + 1, .binder (e := { kind := d.kind, names := d.names, infos, result }) ((hle.trans hle').shape ht)
    (TypeTable.shape?_intern _ _) ((hle.trans hle').binder hd) (hle'.binder hf') trivial trivial rfl rfl ?_ ?_⟩
  · exact hinfos.imp fun _ _ h => (h.grow hle').imp hpair
  · exact (hresult.grow hle').imp hpair

end World

end Copying

/-! ## Comparison -/

namespace CompareM

variable {erased : Bool} {w w₁ w₂ : World} {t u : Ty} {b c : BinderId} {fuel : Nat}

/-- **Comparison does not see which binder a type is on.** -/
theorem isSubType_copy (hw : w.Built) (hr : w.Regular) (ht : w.binderOf? t = some b)
    (hsound : ∀ a, w.Within t a → w.Sound a) (hcopy : b.copy fuel w = .ok (c, w₁)) (hu : c.type w₁ = .ok (u, w₂)) :
    (∀ answer, w₂.Returns erased t u answer → answer = true) ∧ ∀ answer, w₂.Returns erased u t answer → answer = true := by
  have hcl := hw.closed
  obtain ⟨d, hd, ht⟩ : ∃ d, w.binder? b = some d ∧ w.shape? t = some (d.kind.shape b) := by
    have hshape : w.shape? t = some (.universal b) ∨ w.shape? t = some (.method b) := by
      rw [World.binderOf?] at ht
      split at ht <;> cases ht
      · exact .inl ‹_›
      · exact .inr ‹_›
    rcases hshape with ht | ht
    all_goals
      obtain ⟨k, hk, hshape⟩ := hr t _ ht
      obtain ⟨d, hd, rfl⟩ := Option.map_eq_some_iff.1 hk
      exact ⟨d, hd, hshape ▸ ht⟩
  obtain ⟨n, hvariant⟩ := World.variant_copy hcl hw.standard hw.shape_noPrefix hr ht hd hsound hcopy hu
  have kt : (Corr.identity w).ty t t := ⟨rfl, Option.isSome_of_eq_some ht⟩
  have kb : (Corr.identity w).binder b b := ⟨rfl, Option.isSome_of_eq_some hd⟩
  have hsim : Sim False (Corr.identity w) Corr.ty (b.copy fuel >>= BinderId.type) (b.copy fuel >>= BinderId.type) :=
    .bind (sim_copy trivial (.inr le_rfl) kb) fun _ hσ _ _ => sim_binderType (hσ.opens trivial)
  obtain ⟨σ, hσ, hM, ku⟩ := hcl.identity_matches.made hsim ((bind_run hcopy).trans hu)
  have hle : w ≤ w₂ := ((grows_copy fuel b).le_of_ok hcopy).trans ((grows_binderType c : Grows True _).le_of_ok hu)
  have hstd := hw.standard.grow hle
  have hpre := hle.shape hw.shape_noPrefix
  have hplain : Plain (.alike fun _ => True) := fun _ _ h => h
  refine ⟨fun answer h => (h.iff_selves (hσ.opens trivial) hM (hσ.ty kt) ku).2 ?_, fun answer h => (h.iff_selves (hσ.opens trivial) hM ku (hσ.ty kt)).2 ?_⟩
  · exact conformAt n (hσ.opens trivial) hM hstd hpre (hσ.ty kt) ku hplain hvariant
  · exact conformAt n (hσ.opens trivial) hM hstd hpre ku (hσ.ty kt) (fun p q h => (hplain q p h).symm) hvariant.symm

/-! ### Nested scopes -/

/-- The parameter `X` at `15`, and a variable at `16` that is settled to itself. -/
def knotWorld : World :=
  let w := World.initial
  let w := { w with binders := w.binders.push { kind := .universal, names := ["X"] } }
  let w := { w with binders := w.binders.push { kind := .universal, names := ["Z"] } }
  let w := { w with types := (w.types.intern (.param ⟨⟨0⟩, 0⟩)).2 }
  let w := { w with vars := w.vars.push { origin := ⟨15⟩ } }
  let w := { w with types := (w.types.intern (.var ⟨0⟩)).2 }
  { w with vars := w.vars.setIfInBounds 0 { origin := ⟨15⟩, inst := some ⟨16⟩ } }

theorem knotWorld_run : Session.SuppliedRun .initial ⟨knotWorld, [⟨1⟩, ⟨0⟩]⟩ := by
  have h₁ : Session.SuppliedRun .initial _ := .single (.start .universal ["X"] rfl)
  have h₂ := h₁.tail (.start .universal ["Z"] rfl)
  have h₃ := h₂.tail (.call (.add (.paramType (b := ⟨0⟩) 0 rfl)) rfl)
  have h₄ := h₃.tail (.call (.var (show World.Has _ ⟨15⟩ by decide)) rfl)
  exact h₄.tail (.call (.instantiate (show World.Has _ ⟨16⟩ by decide) (show World.Has _ ⟨16⟩ by decide)) rfl)

/-- With the type `[Z] (Z | X)`, at `19`. -/
def innerWorld : World :=
  let w := knotWorld
  let w := { w with types := (w.types.intern (.param ⟨⟨1⟩, 0⟩)).2 }
  let w := { w with types := (w.types.intern (.union ⟨17⟩ ⟨15⟩)).2 }
  let w := { w with binders := w.binders.modify 1 fun d => { d with infos := [⟨14⟩], result := ⟨18⟩ } }
  { w with types := (w.types.intern (.universal ⟨1⟩)).2 }

theorem innerWorld_run : Session.SuppliedRun .initial ⟨innerWorld, [⟨0⟩]⟩ := by
  have h₁ := knotWorld_run.tail (.call (.add (.paramType (b := ⟨1⟩) 0 rfl)) rfl)
  have h₂ := h₁.tail (.call (.add (.union (a := ⟨17⟩) (b := ⟨15⟩) (by decide) (by decide))) rfl)
  exact h₂.tail (.finish (show ∀ t ∈ [⟨14⟩], World.Has _ t by decide) (show World.Has _ ⟨18⟩ by decide) rfl rfl)

/-- With the type `[X] (o & [Z] (Z | X))`, at `21`. -/
def nestedWorld (o : Ty) : World :=
  let w := { innerWorld with types := (innerWorld.types.intern (.inter o ⟨19⟩)).2 }
  let w := { w with binders := w.binders.modify 0 fun d => { d with infos := [⟨14⟩], result := ⟨20⟩ } }
  { w with types := (w.types.intern (.universal ⟨0⟩)).2 }

theorem nestedWorld_run {o : Ty} (ho : o ∈ [Builtin.int.type, ⟨16⟩]) :
    Session.SuppliedRun .initial ⟨nestedWorld o, []⟩ := by
  rcases List.mem_pair.1 ho with rfl | rfl
  · have h := innerWorld_run.tail (.call (.add (.inter (a := Builtin.int.type) (b := ⟨19⟩) (by decide) (by decide))) rfl)
    exact h.tail (.finish (show ∀ t ∈ [⟨14⟩], World.Has _ t by decide) (show World.Has _ ⟨20⟩ by decide) rfl rfl)
  · have h := innerWorld_run.tail (.call (.add (.inter (a := ⟨16⟩) (b := ⟨19⟩) (by decide) (by decide))) rfl)
    exact h.tail (.finish (show ∀ t ∈ [⟨14⟩], World.Has _ t by decide) (show World.Has _ ⟨20⟩ by decide) rfl rfl)

/-- What the type is made of, if `o` is. -/
def nestedParts (o : Ty) : List Ty := [⟨21⟩, ⟨20⟩, o, ⟨19⟩, ⟨18⟩, ⟨17⟩, ⟨15⟩, ⟨14⟩, ⟨5⟩, ⟨4⟩, .noPrefix]

theorem nestedParts_within {o a : Ty} (ho : o ∈ [Builtin.int.type, ⟨16⟩]) (ha : (nestedWorld o).Within ⟨21⟩ a) :
    a ∈ nestedParts o := by
  have hclosed : ∀ t ∈ nestedParts o, ∀ u ∈ (nestedWorld o).children t, u ∈ nestedParts o := by
    rcases List.mem_pair.1 ho with rfl | rfl <;> decide
  induction ha with
  | refl => exact .head _
  | tail _ hu ih => exact hclosed _ ih _ hu

theorem nestedParts_present {o : Ty} (ho : o ∈ [Builtin.int.type, ⟨16⟩]) : ∀ a ∈ nestedParts o, a.present := by
  rcases List.mem_pair.1 ho with rfl | rfl <;> decide

theorem nestedWorld_noInfo {o : Ty} (ho : o ∈ [Builtin.int.type, ⟨16⟩]) (a q : Ty) (c : Symbol) :
    (nestedWorld o).shape? a ≠ some (.classInfo q c) := by
  have hcodes : ∀ d ∈ (nestedWorld o).types.shapes.toList, d.code.head? ≠ some 16 := by
    rcases List.mem_pair.1 ho with rfl | rfl <;> decide
  intro ha
  exact hcodes _ (Array.mem_toList_iff.2 (Array.mem_of_getElem? ha)) rfl

/-- What comparisons answer of the type on `b` and the type on a copy of `b`, in both directions. -/
def copyAnswers (b : BinderId) (t : Ty) : WorldM (Option Bool × Option Bool) := do
  let c ← b.copy 8
  let u ← c.type
  let w ← get
  let answer (x y : Ty) : Option Bool := (isSubType 80 x y (.vacant false) w).toOption.map (·.1.1)
  return (answer t u, answer u t)

theorem returns_of_copyAnswers {x y : Bool} (h : (copyAnswers b t w).toOption.map (·.1) = some (some x, some y)) :
    ∃ c u w₁ w₂, b.copy 8 w = .ok (c, w₁) ∧ c.type w₁ = .ok (u, w₂) ∧ w₂.Returns false t u x ∧ w₂.Returns false u t y := by
  obtain ⟨⟨answers, w'⟩, hrun, rfl⟩ := exists_of_map h
  obtain ⟨c, w₁, hcopy, hrun⟩ := bind_ok hrun
  obtain ⟨u, w₂, hu, hrun⟩ := bind_ok hrun
  have hanswers : (_, _) = (some x, some y) := congrArg Prod.fst (Except.ok.inj hrun)
  obtain ⟨hx, hy⟩ := Prod.mk.inj hanswers
  exact ⟨c, u, w₁, w₂, hcopy, hu, World.returns_of_run 80 hx, World.returns_of_run 80 hy⟩

/-- The type `[X] (Int & [Z] (Z | X))`, on its own binder and on a copy. -/
theorem isSubType_copy_nested : (nestedWorld Builtin.int.type).Built ∧ (nestedWorld Builtin.int.type).Regular ∧
    (nestedWorld Builtin.int.type).binderOf? ⟨21⟩ = some ⟨0⟩ ∧
    (∀ a, (nestedWorld Builtin.int.type).Within ⟨21⟩ a → (nestedWorld Builtin.int.type).Sound a) ∧
    ∃ c u w₁ w₂, BinderId.copy 8 ⟨0⟩ (nestedWorld Builtin.int.type) = .ok (c, w₁) ∧ c.type w₁ = .ok (u, w₂) ∧
      (∃ answer, w₂.Returns false ⟨21⟩ u answer ∧ answer = true) ∧ ∃ answer, w₂.Returns false u ⟨21⟩ answer ∧ answer = true := by
  have hint : Builtin.int.type ∈ [Builtin.int.type, ⟨16⟩] := .head _
  have hw : (nestedWorld Builtin.int.type).Built := (nestedWorld_run hint).layered.built
  have hr : (nestedWorld Builtin.int.type).Regular := (nestedWorld_run hint).regular
  have hb : (nestedWorld Builtin.int.type).binderOf? ⟨21⟩ = some ⟨0⟩ := by decide
  have hsound : ∀ a, (nestedWorld Builtin.int.type).Within ⟨21⟩ a → (nestedWorld Builtin.int.type).Sound a := by
    intro a ha
    have hleaf {t : Ty} {d : Shape} (ht : t.present) (hd : (nestedWorld Builtin.int.type).shape? t = some d)
        (hvar : d.isVar = false) (hinter : ∀ a b, d ≠ .inter a b) : (nestedWorld Builtin.int.type).Unfolds t :=
      .leaf ht hd hvar hinter
    have hoperands : ∀ d ∈ (nestedWorld Builtin.int.type).types.shapes.toList, ∀ x ∈ d.operands,
        x ∈ [⟨15⟩, ⟨17⟩, ⟨19⟩, Builtin.int.type] := by decide
    refine ⟨nestedParts_present hint a (nestedParts_within hint ha), nestedWorld_noInfo hint a, fun d x hd hx => ?_⟩
    have hx := hoperands d (Array.mem_toList_iff.2 (Array.mem_of_getElem? hd)) x hx
    simp only [List.mem_cons, List.not_mem_nil, or_false] at hx
    rcases hx with rfl | rfl | rfl | rfl
    · exact hleaf (d := .param ⟨⟨0⟩, 0⟩) (by decide) (by decide) rfl nofun
    · exact hleaf (d := .param ⟨⟨1⟩, 0⟩) (by decide) (by decide) rfl nofun
    · exact hleaf (d := .universal ⟨1⟩) (by decide) (by decide) rfl nofun
    · exact hleaf (by decide) (hw.standard.shape .int) rfl nofun
  obtain ⟨c, u, w₁, w₂, hcopy, hu, hx, hy⟩ :
      ∃ c u w₁ w₂, BinderId.copy 8 ⟨0⟩ (nestedWorld Builtin.int.type) = .ok (c, w₁) ∧ c.type w₁ = .ok (u, w₂) ∧
        w₂.Returns false ⟨21⟩ u true ∧ w₂.Returns false u ⟨21⟩ true := returns_of_copyAnswers (by decide +kernel)
  obtain ⟨hto, hfrom⟩ := @isSubType_copy false _ _ _ _ _ _ _ _ hw hr hb hsound hcopy hu
  exact ⟨hw, hr, hb, hsound, c, u, w₁, w₂, hcopy, hu, ⟨true, hx, hto true hx⟩, true, hy, hfrom true hy⟩

/-- The type `[X] (v & [Z] (Z | X))`, where `v` is settled to itself: a comparison of anything with `v` comes round
to itself, and is answered false there. -/
theorem isSubType_copy_settled_to_itself : (nestedWorld ⟨16⟩).Built ∧ (nestedWorld ⟨16⟩).Regular ∧
    (nestedWorld ⟨16⟩).binderOf? ⟨21⟩ = some ⟨0⟩ ∧
    (∀ a, (nestedWorld ⟨16⟩).Within ⟨21⟩ a → a.present ∧ ∀ q c, (nestedWorld ⟨16⟩).shape? a ≠ some (.classInfo q c)) ∧
    ∃ c u w₁ w₂, BinderId.copy 8 ⟨0⟩ (nestedWorld ⟨16⟩) = .ok (c, w₁) ∧ c.type w₁ = .ok (u, w₂) ∧
      w₂.Returns false ⟨21⟩ u false ∧ w₂.Returns false u ⟨21⟩ false := by
  have hvar : ⟨16⟩ ∈ [Builtin.int.type, ⟨16⟩] := .tail _ (.head _)
  have hrun := nestedWorld_run hvar
  refine ⟨hrun.layered.built, hrun.regular, by decide, fun a ha => ?_,
    returns_of_copyAnswers (by decide +kernel)⟩
  exact ⟨nestedParts_present hvar a (nestedParts_within hvar ha), nestedWorld_noInfo hvar a⟩

end CompareM

end Conformance
