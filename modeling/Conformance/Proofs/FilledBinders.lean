import Conformance.Proofs.Sessions

/-!
# Binders as builders leave them

A binder is complete when it has as many infos as names, and bounds for its infos if it binds types (`Binder.Complete`).
In a world that is reached call by call every binder that a type stands for is complete and of the kind that the type
says (`World.WellBound`, `Session.Run.wellBound`): builders check what they are given before they fill a binder in, and
whatever rebuilds a binder makes as many infos as there were, with bounds in place of bounds (`Rewrites`).
-/

namespace Conformance

open CompareM

/-! ## Complete binders -/

section Complete

variable {w w' : World} {b : BinderId} {t : Ty}

theorem isSome_boundsParts?_grow (hle : w ≤ w') (h : (w.boundsParts? t).isSome) : (w'.boundsParts? t).isSome := by
  obtain ⟨⟨lo, hi⟩, hends⟩ := Option.isSome_iff_exists.1 h
  rw [World.boundsParts?_eq_some_iff] at hends
  exact Option.isSome_iff_exists.2 ⟨(lo, hi), World.boundsParts?_eq_some_iff.2 (hle.shape hends)⟩

/-- As many infos as names, and bounds if types are bound. -/
structure Binder.Complete (w : World) (d : Binder) : Prop where
  length : d.infos.length = d.arity
  bounds : d.kind = .universal → ∀ t ∈ d.infos, (w.boundsParts? t).isSome

theorem Binder.Complete.grow {d : Binder} (h : d.Complete w) (hle : w ≤ w') : d.Complete w' :=
  ⟨h.length, fun hkind t ht => isSome_boundsParts?_grow hle (h.bounds hkind t ht)⟩

namespace World

/-- The binder was given out and is complete. -/
def Filled (w : World) (b : BinderId) : Prop := ∃ d, w.binder? b = some d ∧ d.Complete w

/-- Binders are complete, or have no infos yet; one that a type stands for is complete and of its kind. -/
structure WellBound (w : World) : Prop where
  binder : ∀ {b d}, w.binder? b = some d → d.infos = [] ∨ d.Complete w
  typed : ∀ {t d b}, w.shape? t = some d → .binder b ∈ d.parts → w.Filled b ∧ w.binderShape b = d

theorem Filled.grow (h : w.Filled b) (hle : w ≤ w') : w'.Filled b := by
  obtain ⟨d, hd, hcomplete⟩ := h
  exact ⟨d, hle.binder hd, hcomplete.grow hle⟩

theorem binderShape_grow (hle : w ≤ w') (h : w.Filled b) : w'.binderShape b = w.binderShape b := by
  obtain ⟨d, hd, -⟩ := h
  rw [binderShape, binderShape, binderKind?, binderKind?, hd, hle.binder hd]

namespace WellBound

/-- New types that stand for no binder, or for one that is complete, are in order. -/
theorem extend (h : w.WellBound) (hle : w ≤ w') (hbinders : w'.binders = w.binders)
    (hnew : ∀ {t d b}, w'.shape? t = some d → .binder b ∈ d.parts →
      w.shape? t = some d ∨ w.Filled b ∧ w.binderShape b = d) : w'.WellBound where
  binder hb := (h.binder (by simpa only [World.binder?, hbinders] using hb)).imp_right (·.grow hle)
  typed ht hb := by
    obtain ⟨hfilled, hshape⟩ := (hnew ht hb).elim (h.typed · hb) id
    exact ⟨hfilled.grow hle, (binderShape_grow hle hfilled).trans hshape⟩

/-- Nothing but types and binders is looked at. -/
theorem congr (h : w.WellBound) (htypes : w'.types = w.types) (hbinders : w'.binders = w.binders) : w'.WellBound := by
  obtain ⟨types, binders, vars, skolems, decls, snapshots⟩ := w
  obtain ⟨types', binders', vars', skolems', decls', snapshots'⟩ := w'
  subst htypes hbinders
  refine ⟨fun hb => (h.binder hb).imp_right fun hd => ⟨hd.length, hd.bounds⟩, fun ht hb => ?_⟩
  obtain ⟨⟨d, hd, hcomplete⟩, hshape⟩ := h.typed ht hb
  exact ⟨⟨d, hd, hcomplete.length, hcomplete.bounds⟩, hshape⟩

theorem intern (h : w.WellBound) {d : Shape} (hd : ∀ b, .binder b ∈ d.parts → w.Filled b ∧ w.binderShape b = d) :
    WellBound { w with types := (w.types.intern d).2 } :=
  h.extend (le_intern d w) rfl fun ht hb => by
    rcases shape?_of_intern ht with ht | rfl
    · exact .inl ht
    · exact .inr (hd _ hb)

theorem push (h : w.WellBound) (kind : BinderKind) (names : List String) :
    WellBound { w with binders := w.binders.push { kind, names } } where
  binder {b d} hb := by
    have hle := le_freshBinder w { kind, names }
    rw [World.binder?, Array.getElem?_push] at hb
    split at hb
    · obtain rfl := Option.some.inj hb
      exact .inl rfl
    · exact (h.binder hb).imp_right (·.grow hle)
  typed ht hb := by
    obtain ⟨hfilled, hshape⟩ := h.typed ht hb
    have hle := le_freshBinder w { kind, names }
    exact ⟨hfilled.grow hle, (binderShape_grow hle hfilled).trans hshape⟩

end WellBound

/-- The world with the binder filled in. -/
abbrev fill (w : World) (b : BinderId) (infos : List Ty) (result : Ty) : World :=
  { w with binders := w.binders.modify b.id fun d => { d with infos, result } }

variable {d : Binder} {infos : List Ty} {result : Ty}

theorem binder?_fill (hb : w.binder? b = some d) (c : BinderId) :
    (w.fill b infos result).binder? c = if c = b then some { d with infos, result } else w.binder? c := by
  show (w.binders.modify b.id _)[c.id]? = _
  rw [Array.getElem?_modify]
  by_cases hc : c = b
  · subst hc
    rw [if_pos rfl, if_pos rfl, show w.binders[c.id]? = some d from hb]
    rfl
  · rw [if_neg hc, if_neg fun hid => hc ?_]
    · rfl
    · obtain ⟨i⟩ := b
      obtain ⟨j⟩ := c
      exact congrArg BinderId.mk (Eq.symm hid)

theorem binderKind?_fill (hb : w.binder? b = some d) (c : BinderId) :
    (w.fill b infos result).binderKind? c = w.binderKind? c := by
  rw [binderKind?, binder?_fill hb]
  split
  · next hc => rw [binderKind?, hc, hb]; rfl
  · rfl

theorem filled_fill (hb : w.binder? b = some d) (hd : Binder.Complete w { d with infos, result }) :
    (w.fill b infos result).Filled b :=
  ⟨_, (binder?_fill hb b).trans (if_pos rfl), hd.length, hd.bounds⟩

/-- A binder is filled in with what completes it, or it stays without infos. -/
theorem WellBound.fill (h : w.WellBound) (hb : w.binder? b = some d)
    (hd : infos = [] ∧ d.infos = [] ∨ Binder.Complete w { d with infos, result }) :
    (w.fill b infos result).WellBound where
  binder {c e} hc := by
    rw [binder?_fill hb] at hc
    split at hc
    · obtain rfl := Option.some.inj hc
      exact hd.imp And.left fun hd => ⟨hd.length, hd.bounds⟩
    · exact (h.binder hc).imp_right fun he => ⟨he.length, he.bounds⟩
  typed {t e c} ht hc := by
    obtain ⟨⟨dc, hdc, hcomplete⟩, hshape⟩ := h.typed ht hc
    by_cases hcb : c = b
    · subst hcb
      obtain rfl : d = dc := Option.some.inj (hb.symm.trans hdc)
      refine ⟨filled_fill hb (hd.elim (fun hd => ⟨?_, ?_⟩) id), ?_⟩
      · rw [hd.1]
        exact hd.2 ▸ hcomplete.length
      · rw [hd.1]
        exact fun _ t ht => nomatch ht
      · rw [← hshape, binderShape, binderShape, binderKind?, binderKind?, binder?_fill hb, if_pos rfl, hb]
        rfl
    · have hsame : (w.fill b infos result).binder? c = w.binder? c := (binder?_fill hb c).trans (if_neg hcb)
      refine ⟨⟨dc, hsame.trans hdc, hcomplete.length, hcomplete.bounds⟩, ?_⟩
      rw [← hshape, binderShape, binderShape, binderKind?, binderKind?, hsame]

/-- The worlds that are well bound, with everything inside but binders that are not complete. -/
def wellBound : Domain where
  Holds := WellBound
  inside w n := ∀ b, n = .binder b → w.Filled b
  grow hle h b hb := (h b hb).grow hle
  step {w m n} hw hstep _ b hb := by
    subst hb
    cases hstep with
    | part ht hn => exact (hw.typed ht hn).1
    | declaration _ hn => simp [Declaration.parts] at hn
  noType _ _ h := nomatch h
  noPrefix _ _ h := nomatch h
  intern {w d} hw hmade _ := by
    refine ⟨hw.intern fun b hb => ?_, fun _ h => nomatch h⟩
    cases d <;> simp [Shape.parts] at hb
    · exact hmade.elim
    · exact hmade.elim
  binderType {w b d} hw hb hd := by
    refine ⟨hw.intern fun c hc => ?_, fun _ h => nomatch h⟩
    rw [← hd, parts_binderShape, List.mem_singleton] at hc
    cases hc
    exact ⟨hb b rfl, hd⟩
  skolem hw := hw.congr rfl rfl
  snapshot hw := hw.congr rfl rfl

end World

end Complete

/-! ## Rewriting keeps binders complete -/

namespace World

section Rewriting

variable {w₀ w w' : World} {α : Type} {f : Ty → WorldM Ty} {rename : BinderId → BinderId → Ty → WorldM Ty}

/-- The computation keeps binders complete, and makes bounds from bounds. -/
abbrev Rewrites (w₀ : World) (t : Ty) (m : WorldM Ty) : Prop :=
  wellBound.Makes w₀ (fun w t' => (w₀.boundsParts? t).isSome → (w.boundsParts? t').isSome) m

/-- Of anything but bounds any type may be made. -/
theorem Rewrites.of_runs {t : Ty} {m : WorldM Ty} (ht : w₀.boundsParts? t = none) (hm : wellBound.Runs w₀ m) :
    w₀.Rewrites t m := fun w t' w' hle hw hrun => by
  obtain ⟨hle', hw', -⟩ := hm w t' w' hle hw hrun
  exact ⟨hle', hw', fun h => by rw [ht] at h; cases h⟩

/-- Lists are rewritten place by place. -/
theorem makes_mapM {g : Ty → WorldM Ty} (hg : ∀ (w₀ : World) (t : Ty), w₀.Rewrites t (g t)) (l : List Ty) :
    wellBound.Makes w₀ (fun w ts => List.Forall₂ (fun t t' => (w₀.boundsParts? t).isSome → (w.boundsParts? t').isSome) l ts)
      (l.mapM g) :=
  .mapM_forall₂ (fun hle h hbounds => isSome_boundsParts?_grow hle (h hbounds)) fun t _ => hg w₀ t

theorem exists_of_mem_right {β : Type} {R : α → β → Prop} {l : List α} {l' : List β} (h : List.Forall₂ R l l') {b : β}
    (hb : b ∈ l') : ∃ a ∈ l, R a b := by
  obtain ⟨i, hi, rfl⟩ := List.mem_iff_getElem.1 hb
  have hi' : i < l.length := h.length_eq ▸ hi
  exact ⟨l[i], List.getElem_mem hi', h.get hi' hi⟩

/-- A fresh binder is filled in with as many infos as are given, bounds for bounds, so if those are complete, the binder
is. -/
theorem makes_fillFresh {kind : BinderKind} {names : List String} {g : BinderId → Ty → WorldM Ty}
    {P : World → α → Prop} (hg : ∀ (b : BinderId) (w₀ : World) (t : Ty), w₀.Rewrites t (g b t)) (hgrows : ∀ b t, Grows True (g b t))
    {infos : List Ty} {result : Ty}
    (hinfos : infos = [] ∨ infos.length = names.length ∧ (kind = .universal → ∀ t ∈ infos, (w₀.boundsParts? t).isSome))
    {k : BinderId → WorldM α} (hkgrows : ∀ b, Grows True (k b))
    (hk : ∀ w b, (infos.length = names.length → w.Filled b) → wellBound.Makes w P (k b)) :
    wellBound.Makes w₀ P (do
      let fresh ← WorldM.freshBinder kind names
      let infos ← infos.mapM (g fresh)
      let result ← g fresh result
      WorldM.fillBinder fresh infos result
      k fresh) := by
  intro w a w' hle hw hrun
  refine ⟨(grows_fillFresh hgrows infos result hkgrows).le_of_ok hrun, ?_⟩
  obtain ⟨fresh, w₁, hfresh, hrun⟩ := bind_ok hrun
  cases hfresh
  let fresh : BinderId := ⟨w.binders.size⟩
  let w₁ : World := { w with binders := w.binders.push { kind, names } }
  have hle₁ : w₀ ≤ w₁ := le_trans hle (le_freshBinder w { kind, names })
  have hw₁ : w₁.WellBound := WellBound.push hw kind names
  have hbounds : ∀ t ∈ infos, kind = .universal → (w₁.boundsParts? t).isSome := by
    intro t ht hkind
    rcases hinfos with rfl | ⟨-, hinfos⟩
    · cases ht
    · exact isSome_boundsParts?_grow hle₁ (hinfos hkind t ht)
  obtain ⟨infos', w₂, hmade, hrun⟩ := bind_ok hrun
  obtain ⟨hle₂, hw₂, hmap⟩ := makes_mapM (hg fresh) infos w₁ infos' w₂ le_rfl hw₁ hmade
  have hlength := hmap.length_eq
  have hinfos' : ∀ t ∈ infos', kind = .universal → (w₂.boundsParts? t).isSome := fun t' ht' hkind => by
    obtain ⟨t, ht, hmakes⟩ := exists_of_mem_right hmap ht'
    exact hmakes (hbounds t ht hkind)
  obtain ⟨result', w₃, hmade, hrun⟩ := bind_ok hrun
  obtain ⟨hle₃, hw₃, -⟩ := hg fresh w₂ result w₂ result' w₃ le_rfl hw₂ hmade
  obtain ⟨_, w₄, hfill, hrun⟩ := bind_ok hrun
  cases hfill
  have hfresh : w₁.binder? fresh = some { kind, names } := Array.getElem?_push_size
  have hb : w₃.binder? fresh = some { kind, names } := hle₃.binder (hle₂.binder hfresh)
  have hcomplete : infos.length = names.length →
      Binder.Complete w₃ { kind, names, infos := infos', result := result' } := fun h =>
    ⟨hlength.symm.trans h, fun hkind t ht => isSome_boundsParts?_grow hle₃ (hinfos' t ht hkind)⟩
  have hw₄ : (w₃.fill fresh infos' result').WellBound := WellBound.fill hw₃ hb <| by
    rcases hinfos with rfl | ⟨h, -⟩
    · exact .inl ⟨List.length_eq_zero_iff.1 hlength.symm, rfl⟩
    · exact .inr (hcomplete h)
  exact (hk _ fresh (fun h => filled_fill hb (hcomplete h)) _ a w' le_rfl hw₄ hrun).2

variable (hf : ∀ (w₀ : World) (t : Ty), w₀.Rewrites t (f t))
  (hr : ∀ (b c : BinderId) (w₀ : World) (t : Ty), w₀.Rewrites t (rename b c t))
  (hgrows : ∀ b c t, Grows True (rename b c t))

theorem runs_intern {d : Shape} (hd : ∀ w, d.Made w) : wellBound.Runs w₀ (WorldM.intern d) :=
  (Domain.makes_intern (fun w _ => hd w) fun n hn b hb => by
    subst hb
    cases d <;> simp [Shape.parts] at hn
    · exact (hd w₀).elim
    · exact (hd w₀).elim).runs

include hf in
theorem runs_rebuild₁ {make : Ty → WorldM Ty} (hmake : ∀ w₀ a, wellBound.Runs w₀ (make a)) (t old : Ty) :
    wellBound.Runs w₀ (Ty.rebuild₁ f t old make) :=
  .bind (hf w₀ old) fun w new _ _ _ => .ite (fun _ => .done _) fun _ => hmake w new

include hf in
theorem runs_rebuild₂ {make : Ty → Ty → WorldM Ty} (hmake : ∀ w₀ a b, wellBound.Runs w₀ (make a b)) (t old₁ old₂ : Ty) :
    wellBound.Runs w₀ (Ty.rebuild₂ f t old₁ old₂ make) :=
  .bind (hf w₀ old₁) fun w₁ new₁ _ _ _ => .bind (hf w₁ old₂) fun w₂ new₂ _ _ _ =>
    .ite (fun _ => .done _) fun _ => hmake w₂ new₁ new₂

include hf hr hgrows

/-- The binder of a type is complete, and so is the fresh one that takes its place. -/
theorem runs_rebuildBinder {t : Ty} {b : BinderId} (hb : w₀.Filled b) :
    wellBound.Runs w₀ (Ty.rebuildBinder f rename t b) := by
  obtain ⟨d, hd, hcomplete⟩ := hb
  refine .get_bind fun w hle hw => ?_
  rw [hle.binder hd]
  refine .bind (makes_mapM hf d.infos) fun v₁ infos hle₁ _ hmap => ?_
  have hlength : infos.length = d.names.length := hmap.length_eq.symm.trans hcomplete.length
  refine .bind (hf v₁ d.result) fun v₂ result hle₂ _ _ => .ite (fun _ => .done _) fun _ => ?_
  refine makes_fillFresh (hr b) (hgrows b) (.inr ⟨hlength, fun hkind t' ht' => ?_⟩) (fun _ => grows_binderType _)
    fun w c hc => (Domain.makes_binderType fun c' h => ?_).runs
  · obtain ⟨t, ht, hmakes⟩ := exists_of_mem_right hmap ht'
    exact isSome_boundsParts?_grow hle₂ (hmakes (isSome_boundsParts?_grow hle (hcomplete.bounds hkind t ht)))
  · cases h
    exact hc hlength

theorem runs_mapChildren (t : Ty) : wellBound.Runs w₀ (Ty.mapChildren f rename t) := by
  refine .get_bind fun w _ hw => ?_
  cases hd : w.shape t with
  | method b | universal b =>
    refine runs_rebuildBinder hf hr hgrows ?_
    exact hw.parts (D := wellBound) (t := t) (fun _ h => nomatch h) hd _ (by simp [Shape.parts]) b rfl
  | inter a b =>
    exact runs_rebuild₂ hf (fun w₀ a b => (Domain.makes_inter (fun _ h => nomatch h) fun _ h => nomatch h).runs) _ _ _
  | union a b =>
    exact runs_rebuild₂ hf (fun w₀ a b => (Domain.makes_union (fun _ h => nomatch h) fun _ h => nomatch h).runs) _ _ _
  | refined parent name info | bounds lo hi => exact runs_rebuild₂ hf (fun _ _ _ => runs_intern fun _ => by trivial) _ _ _
  | named pre s | path pre s | classInfo pre s | byName result => exact runs_rebuild₁ hf (fun _ _ => runs_intern fun _ => by trivial) _ _
  | _ => exact .done _

/-- What is made of bounds child by child is bounds. -/
theorem rewrites_mapChildren (t : Ty) : w₀.Rewrites t (Ty.mapChildren f rename t) := by
  cases hends : w₀.boundsParts? t with
  | none => exact .of_runs hends (runs_mapChildren hf hr hgrows t)
  | some ends =>
    obtain ⟨lo, hi⟩ := ends
    rw [boundsParts?_eq_some_iff] at hends
    refine .get_bind fun w hle hw => ?_
    rw [shape_of_shape? (hle.shape hends)]
    refine .bind (hf w lo) fun w₁ new₁ hle₁ _ _ => .bind (hf w₁ hi) fun w₂ new₂ hle₂ _ _ =>
      .ite (fun _ => .pure fun v hv h => ?_) fun _ => ?_
    · exact isSome_boundsParts?_grow (le_trans hle (le_trans hle₁ (le_trans hle₂ hv))) h
    · intro v t' v' hv hholds hrun
      obtain ⟨hle', hholds', -⟩ := (runs_intern fun _ => by trivial : wellBound.Runs w₂ (Ty.bounds new₁ new₂)) v t' v' hv hholds hrun
      refine ⟨hle', hholds', fun _ => Option.isSome_iff_exists.2 ⟨(new₁, new₂), boundsParts?_eq_some_iff.2 ?_⟩⟩
      cases hrun
      exact TypeTable.shape?_intern v.types _

end Rewriting

section Substitution

variable {w₀ w : World} {t : Ty} {fuel : Nat}

/-- The type that is there already. -/
theorem rewrites_self (t : Ty) : w₀.Rewrites t (pure t) := .pure fun _ hle h => isSome_boundsParts?_grow hle h

theorem since_rewrites {m : WorldM Ty} (hm : w.Rewrites t m) (hle : w₀ ≤ w) :
    wellBound.Makes w (fun v t' => (w₀.boundsParts? t).isSome → (v.boundsParts? t').isSome) m := by
  intro v t' v' hv hholds hrun
  obtain ⟨hle', hholds', h⟩ := hm v t' v' hv hholds hrun
  exact ⟨hle', hholds', fun hbounds => h (isSome_boundsParts?_grow hle hbounds)⟩

theorem boundsParts?_eq_none {d : Shape} (ht : w.shape t = d) (hd : ∀ lo hi, d ≠ .bounds lo hi) :
    w.boundsParts? t = none := by
  by_contra h
  obtain ⟨⟨lo, hi⟩, hends⟩ := Option.ne_none_iff_exists'.1 h
  rw [boundsParts?_eq_some_iff] at hends
  exact hd lo hi (ht.symm.trans (shape_of_shape? hends))

theorem rewrites_substBinder (n : Nat) :
    ∀ (old new : BinderId) (w₀ : World) (t : Ty), w₀.Rewrites t (Ty.substBinder n old new t) := by
  induction n with
  | zero => exact fun _ _ _ _ => .throw
  | succ n ih =>
    intro old new w₀ t
    refine .ite (fun _ => rewrites_self t) fun _ => .get_bind fun w hle hw => since_rewrites ?_ hle
    have hparam : ∀ p : Param, w.boundsParts? t = none →
        w.Rewrites t (if p.binder = old then Param.type ⟨new, p.index⟩ else return t) := fun p ht =>
      .ite (fun _ => Rewrites.of_runs ht (Domain.makes_paramType fun _ h => nomatch h).runs) fun _ => rewrites_self t
    split
    · next hd => exact hparam _ (boundsParts?_eq_none hd (by simp))
    · next hd => exact hparam _ (boundsParts?_eq_none hd (by simp))
    · exact rewrites_mapChildren (ih old new) ih (grows_substBinder n) t

theorem rewrites_substParam (p : Param) (r : Ty) (n : Nat) :
    ∀ (w₀ : World) (t : Ty), w₀.Rewrites t (Ty.substParam p r n t) := by
  induction n with
  | zero => exact fun _ _ => .throw
  | succ n ih =>
    intro w₀ t
    refine .get_bind fun w hle hw => since_rewrites ?_ hle
    split
    · next hd =>
      have ht : w.boundsParts? t = none := boundsParts?_eq_none hd (by simp)
      exact .of_runs ht (.ite (fun _ => .done _) fun _ => .done _)
    · exact rewrites_mapChildren ih (rewrites_substBinder n) (grows_substBinder n) t

theorem rewrites_dropRefinements (p : Param) (n : Nat) :
    ∀ (w₀ : World) (t : Ty), w₀.Rewrites t (Ty.dropRefinements p n t) := by
  induction n with
  | zero => exact fun _ _ => .throw
  | succ n ih =>
    intro w₀ t
    refine .get_bind fun w hle hw => since_rewrites ?_ hle
    have hchildren : ∀ v : World, v.Rewrites t _ := fun v =>
      rewrites_mapChildren ih (rewrites_substBinder n) (grows_substBinder n) t
    split
    · next hd =>
      have ht : w.boundsParts? t = none := boundsParts?_eq_none hd (by simp)
      refine .of_runs ht (.bind (.reading fun _ _ _ _ _ => trivial) fun v _ _ _ _ => ?_)
      exact .ite (fun _ => (ih v _).runs) fun _ => (hchildren v).runs
    · exact hchildren w

theorem makes_copy (b : BinderId) :
    wellBound.Makes w₀ (fun w c => w₀.Filled b → w.Filled c) (b.copy fuel) := by
  refine .get_bind fun w hle hw => ?_
  cases hd : w.binder? b with
  | none => exact .pure fun v hv hb => hb.grow (le_trans hle hv)
  | some d =>
    have hsame : ∀ {d'}, w₀.binder? b = some d' → d' = d := fun hd' =>
      Option.some.inj ((hle.binder hd').symm.trans hd)
    refine makes_fillFresh (fun c => rewrites_substBinder fuel b c) (fun c t => grows_substBinder fuel b c t)
      (hw.binder hd |>.imp_right fun h => ⟨h.length, h.bounds⟩) (fun _ => .pure _) fun v c hc => .pure fun v' hv' hb => ?_
    obtain ⟨d', hd', hcomplete⟩ := hb
    exact (hc (hsame hd' ▸ hcomplete.length)).grow hv'

theorem runs_simpleMethod (formals : List Ty) (result : Ty) (flags : MethodFlags) :
    wellBound.Runs w₀ (simpleMethod formals result flags) := by
  intro w t w' hle hw hrun
  refine ⟨(grows_simpleMethod formals result flags).le_of_ok hrun, ?_, trivial⟩
  let d : Binder := { kind := .method flags, names := (List.range formals.length).map fun i => "x" ++ toString i }
  let b : BinderId := ⟨w.binders.size⟩
  let w₁ : World := { w with binders := w.binders.push d }
  have hb : w₁.binder? b = some d := Array.getElem?_push_size
  have hcomplete : Binder.Complete w₁ { d with infos := formals, result } :=
    ⟨by simp [Binder.arity, d], fun hkind => nomatch hkind⟩
  have hw₂ : (w₁.fill b formals result).WellBound := (WellBound.push hw d.kind d.names).fill hb (.inr hcomplete)
  have hfilled := filled_fill hb hcomplete
  have hshape : (w₁.fill b formals result).binderShape b = .method b := by
    rw [binderShape, binderKind?, binder?_fill hb, if_pos rfl]
    rfl
  cases hrun
  refine hw₂.intern fun c hc => ?_
  obtain rfl : c = b := by simpa [Shape.parts] using hc
  exact ⟨hfilled, hshape⟩

theorem wide_wellBound : wellBound.Wide where
  ty _ _ := fun _ h => nomatch h
  sym _ _ := fun _ h => nomatch h
  param _ _ := fun _ h => nomatch h
  substBinder w₀ n old new t := (rewrites_substBinder n old new w₀ t).runs
  substParam w₀ p r n t := (rewrites_substParam p r n w₀ t).runs
  dropRefinements w₀ p n t := (rewrites_dropRefinements p n w₀ t).runs
  simpleMethod w₀ := runs_simpleMethod
  copy w₀ n b := fun v c v' hle hv hrun => by
    obtain ⟨hle', hv', hc⟩ := makes_copy b v c v' hle hv hrun
    refine ⟨hle', hv', fun hb c' hc' => ?_⟩
    cases hc'
    exact hc (hb b rfl)

end Substitution

end World

/-! ## Sessions keep binders complete -/

namespace World

variable {w w' : World}

theorem durable_wellBound : Durable WellBound where
  add hm hw hrun := (hm.runs wide_wellBound _ _ _ _ le_rfl hw hrun).2.1
  internVar v hw := hw.intern fun b hb => by simp [Shape.parts] at hb
  pushVar _ hw := hw.congr rfl rfl
  settle _ hw _ _ := hw.congr rfl rfl
  declare hw _ := hw.congr rfl rfl

/-- At the start there are no binders, and no types of binders. -/
theorem wellBound_initial : initial.WellBound where
  binder {b d} hb := by
    have hnone : initial.binders = #[] := by decide
    rw [binder?, hnone] at hb
    cases hb
  typed {t d b} ht hb := by
    have hplain : ∀ d ∈ initial.types.shapes.toList, d.isBinderType = false := by decide
    have hd := hplain d (Array.mem_toList_iff.2 (Array.mem_of_getElem? ht))
    cases d <;> simp [Shape.parts] at hb <;> cases hd

/-- A universal binder is finished with infos that were checked to be bounds. -/
theorem bounds_of_check {infos : List Ty} (h : infos.forM Ty.expectBounds w = .ok (.ok ⟨⟩, w)) :
    ∀ t ∈ infos, (w.boundsParts? t).isSome := by
  induction infos with
  | nil => exact fun _ ht => nomatch ht
  | cons a l ih =>
    have hcheck : a.expectBounds w =
        if (w.boundsParts? a).isNone then .ok (.error (.notBounds a), w) else .ok (.ok ⟨⟩, w) := by
      show (if (w.boundsParts? a).isNone then throw (.notBounds a) else pure ⟨⟩ : BuildM Unit) w = _
      split <;> rfl
    obtain ⟨_, -, he⟩ | ⟨_, w₁, ha, hl⟩ := build_bind_ok (f := fun _ => l.forM Ty.expectBounds) h
    · cases he
    · rw [hcheck] at ha
      split at ha
      · cases ha
      · next hsome =>
        cases ha
        intro t ht
        rcases List.mem_cons.1 ht with rfl | ht
        · exact Option.isSome_iff_ne_none.2 (by simpa using hsome)
        · exact ih hl t ht

end World

namespace Session

variable {s s' : Session}

/-- One step keeps binders complete. -/
theorem Step.wellBound (h : Step s s') (hw : s.world.WellBound) : s'.world.WellBound := by
  cases h with
  | @call _ _ a w w' _ hm hrun => exact hm.upholds World.durable_wellBound.steady w a w' hw hrun
  | start kind names hrun =>
    cases hrun
    exact hw.push kind names
  | @finish infos result b d _ w _ _ hd hrun =>
    obtain ⟨-, rfl⟩ | ⟨hlength, hchecked, t, ht, -⟩ := finish_cases (checks_check d.kind) hrun
    · exact hw
    · have hcomplete : Binder.Complete w { d with infos, result } :=
        ⟨hlength, fun hkind => World.bounds_of_check (by
          rw [show d.kind = .universal from hkind] at hchecked
          exact hchecked)⟩
      have hfilled := World.filled_fill hd hcomplete
      have hfill := World.WellBound.fill hw hd (.inr hcomplete)
      exact (Domain.makes_binderType (D := World.wellBound) (fun c hc => by cases hc; exact hfilled) _ t _ le_rfl hfill
        ht).2.1
  | giveUp => exact hw

theorem Run.wellBound (h : Run s s') (hw : s.world.WellBound) : s'.world.WellBound := by
  induction h with
  | refl => exact hw
  | tail _ hstep ih => exact hstep.wellBound ih

end Session

end Conformance
