import Conformance.Proofs.StoreSubstitution

/-!
# Putting a universal type under inference

`track` adds one entry to the store and leaves the others alone (`ConstraintStore.Adds`). A binder that was not under
inference gets its declared bounds. For one that was, a copy is made on a fresh binder: its bounds are the declared ones,
not those that inference has arrived at, with the parameters of the copy in place of the old ones, and neither they nor
the body mention a parameter of the old binder any more (`World.Copied`). So two uses of one universal type are inferred
apart (`CompareM.track_independent`).
-/

namespace Conformance

namespace World

variable {w v w' : World} {b b' : BinderId} {d e : Binder} {t u : Ty} {bad : Shape → Prop} {fuel n : Nat}

/-! ## Copies -/

/-- `u` is `t` with the parameters of `b'` in place of those of `b`; the binder `b'` was given out then, and has been
filled in since. -/
structure CopyOf (w w' : World) (fuel : Nat) (b b' : BinderId) (t u : Ty) : Prop where
  renamed : ∃ v v', w ≤ v ∧ Ty.substBinder fuel b b' t v = .ok (u, v') ∧ v'.Retains [b'] w'
  independent : w'.Clear true (·.IsParamOf b) u
  /-- If there is no skolem or variable in `t` that could hide a type, there is none in `u`. -/
  shown : w.Clear true (·.isOpaque) t → w'.Clear true (·.isOpaque) u

/-- The binder `b'` is a copy of `b`. -/
structure Copied (w w' : World) (fuel : Nat) (b b' : BinderId) (d e : Binder) : Prop where
  fresh : w.binder? b' = none
  kind : e.kind = d.kind
  names : e.names = d.names
  infos : List.Forall₂ (w.CopyOf w' fuel b b') d.infos e.infos
  result : w.CopyOf w' fuel b b' d.result e.result

theorem watches_hiding (w : World) : w.Watches (·.isOpaque) where
  kind {d} hd := by cases d <;> first | exact .inl rfl | cases hd
  binder {d c} hd hc := by cases d <;> first | cases hd; done | (exfalso; simp [Shape.parts] at hc)
  param {d c} hd hc := by
    obtain ⟨i, rfl | rfl⟩ := hc <;> cases hd

theorem CopyOf.later (h : w.CopyOf v fuel b b' t u) (hv : v ≤ w') : w.CopyOf w' fuel b b' t u where
  renamed := by
    obtain ⟨v₁, v₂, hv₁, hrun, hretains⟩ := h.renamed
    exact ⟨v₁, v₂, hv₁, hrun, hretains.trans (.of_le hv) fun _ _ _ => id⟩
  independent := h.independent.later hv
  shown ht := (h.shown ht).later hv

theorem Copied.later (h : w.Copied v fuel b b' d e) (hv : v ≤ w') : w.Copied w' fuel b b' d e where
  fresh := h.fresh
  kind := h.kind
  names := h.names
  infos := h.infos.imp fun _ _ h => h.later hv
  result := h.result.later hv

/-- What was renamed when the fresh binder had been given out is a copy once it is filled in. -/
theorem copyOf_of_ran {w₁ : World} (hb : (w.binder? b).isSome) (hb' : w.binder? b' = none) (ht : w.Settled t)
    (hw₁ : w ≤ w₁) (hnew : (w₁.binder? b').isSome) (hran : Ran w₁ v (Ty.substBinder fuel b b' t) u) (l : List Ty)
    (result : Ty) : w.CopyOf (v.fill b' l result) fuel b b' t u := by
  obtain ⟨v₁, v₂, hv₁, hv₂, hrun⟩ := hran
  have hle : v₁ ≤ v := ((grows_substBinder fuel b b' t).le_of_ok hrun).trans hv₂
  have hne : b ≠ b' := by
    rintro rfl
    rw [hb'] at hb
    cases hb
  have hlater {c : BinderId} {w v : World} (hc : (w.binder? c).isSome) (hv : w ≤ v) : (v.binder? c).isSome := by
    obtain ⟨e, he⟩ := Option.isSome_iff_exists.1 hc
    exact Option.isSome_of_eq_some (hv.binder he)
  have hclear {bad : Shape → Prop} (hbad : v₁.Watches bad) (hfree : ∀ d, d.IsParamOf b' → ¬ bad d)
      (ht : w.Clear true (fun d => bad d ∧ ¬ d.IsParamOf b) t) : v.Clear true bad u :=
    (clear_substBinder fuel hbad (hlater hnew hv₁) hfree (ht.later (hw₁.trans hv₁)) hrun).later hv₂
  have hapart : v.Clear true (fun d => .binder b' ∈ d.parts) u := by
    refine hclear (watches_apart (hlater hnew hv₁)) ?_ ((ht.apart hb').imp fun _ hd => hd.1)
    rintro _ ⟨i, rfl | rfl⟩ <;> simp [Shape.parts]
  obtain ⟨e, he⟩ := Option.isSome_iff_exists.1 (hlater hnew (hv₁.trans hle))
  refine ⟨⟨v₁, v₂, hw₁.trans hv₁, hrun, (World.Retains.of_le hv₂).fill (List.mem_singleton.2 rfl) l result⟩,
    .fill_apart (hclear (watches_paramOf (hlater hb (hw₁.trans hv₁))) ?_ (ht.imp fun _ hd => hd.2 hd.1)) hapart he,
    fun hshown => .fill_apart (hclear (watches_hiding v₁) ?_ (hshown.imp fun _ hd => hd.1)) hapart he⟩
  · exact fun _ h' h => hne (h.unique h')
  · rintro _ ⟨i, rfl | rfl⟩ <;> exact Bool.false_ne_true

/-- **A copy is one**, in every respect. -/
theorem copied_of_copy (hb : w.binder? b = some d) (hd : ∀ u ∈ d.infos ++ [d.result], w.Settled u)
    (hrun : b.copy fuel w = .ok (b', w')) : ∃ e, w'.binder? b' = some e ∧ w.Copied w' fuel b b' d e := by
  rw [BinderId.copy, get_bind_run, hb] at hrun
  obtain ⟨fresh, w₁, hfresh, hrun⟩ := bind_ok hrun
  obtain ⟨infos, w₂, hinfos, hrun⟩ := bind_ok hrun
  obtain ⟨result, w₃, hresult, hrun⟩ := bind_ok hrun
  have hfreshNone : w.binder? fresh = none := by
    cases hfresh
    exact Array.getElem?_eq_none (Nat.le_refl _)
  have hnew : w₁.binder? fresh = some { kind := d.kind, names := d.names } := by
    cases hfresh
    exact Array.getElem?_push_size
  have hle₁ : w ≤ w₁ := by
    cases hfresh
    exact le_freshBinder _ _
  have hle₂ : w₁ ≤ w₂ := (Grows.mapM (grows_substBinder fuel b fresh) d.infos : Grows True _).le_of_ok hinfos
  have hle₃ : w₂ ≤ w₃ := (grows_substBinder fuel b fresh d.result).le_of_ok hresult
  obtain ⟨-, -, hrans⟩ := makes_mapM_ran (grows_substBinder fuel b fresh) w₁ d.infos w₁ infos w₂ le_rfl trivial hinfos
  cases hrun
  have hnew₃ := hle₃.binder (hle₂.binder hnew)
  have hcopy {t u : Ty} (ht : t ∈ d.infos ++ [d.result]) (hran : Ran w₁ w₃ (Ty.substBinder fuel b b' t) u) :
      w.CopyOf (w₃.fill b' infos result) fuel b b' t u :=
    copyOf_of_ran (Option.isSome_of_eq_some hb) hfreshNone (hd t ht) hle₁ (Option.isSome_of_eq_some hnew) hran infos result
  refine ⟨_, (binder?_fill hnew₃ b').trans (if_pos rfl), hfreshNone, rfl, rfl, ?_, ?_⟩
  · refine List.forall₂_iff_get.2 ⟨hrans.length_eq, fun i hi hi' => ?_⟩
    exact hcopy (List.mem_append_left _ (List.getElem_mem hi)) ((hrans.get hi hi').mono le_rfl hle₃)
  · exact hcopy (by simp) ⟨w₂, w₃, hle₂, le_rfl, hresult⟩

/-- The copy of a binder whose infos and result nest finitely comes to an end. -/
theorem total_copy (hb : w.binder? b = some d) (hd : ∀ u ∈ d.infos ++ [d.result], w.Settled u ∧ w.Low n u)
    (hfuel : n ≤ fuel) : ∃ s, b.copy fuel w = .ok s := by
  rw [BinderId.copy, get_bind_run, hb]
  obtain ⟨b', w₁, hfresh⟩ : ∃ b' w₁, WorldM.freshBinder d.kind d.names w = .ok (b', w₁) := ⟨_, _, rfl⟩
  have hnew : w₁.binder? b' = some { kind := d.kind, names := d.names } := by
    cases hfresh
    exact Array.getElem?_push_size
  have hle₁ : w ≤ w₁ := by
    cases hfresh
    exact le_freshBinder _ _
  have hends : ∀ t ∈ d.infos ++ [d.result], ∀ v, w₁ ≤ v → ∃ s, Ty.substBinder fuel b b' t v = .ok s := by
    intro t ht v hv
    obtain ⟨hsettled, hlow⟩ := hd t ht
    have hle := hle₁.trans hv
    obtain ⟨u, v', hrun, -⟩ := total_substBinder n b hfuel (Option.isSome_of_eq_some (hv.binder hnew))
      (hsettled.later hle) (hlow.later hsettled hle)
    exact ⟨_, hrun⟩
  obtain ⟨⟨infos, w₂⟩, hinfos⟩ := ConstraintStore.total_mapM (grows_substBinder fuel b b') (l := d.infos)
    fun t ht => hends t (List.mem_append_left _ ht)
  have hle₂ : w₁ ≤ w₂ := (Grows.mapM (grows_substBinder fuel b b') d.infos : Grows True _).le_of_ok hinfos
  obtain ⟨⟨result, w₃⟩, hresult⟩ := hends d.result (by simp) w₂ hle₂
  exact ⟨_, (bind_run hfresh).trans ((bind_run hinfos).trans ((bind_run hresult).trans rfl))⟩

end World

/-! ## Tracking -/

/-- `S'` is `S` with one more entry. -/
structure ConstraintStore.Adds (S S' : ConstraintStore) (b : BinderId) (slots : List Ty) : Prop where
  new : S.slots? b = none
  slots (c : BinderId) : S'.slots? c = if c = b then some slots else S.slots? c

namespace CompareM

variable {w w' : World} {c c' : Comparer} {b : BinderId} {d : Binder} {poly : Ty} {fuel : Nat}

theorem adds_of_add {S S' : ConstraintStore} (hnew : S.tracks b = false) (hd : w.binder? b = some d)
    (hrun : S.add b w = .ok (S', w')) : S.Adds S' b d.infos ∧ w ≤ w' := by
  have hle : w ≤ w' := (grows_add hnew).le_of_ok hrun
  rw [add_run hnew hd] at hrun
  cases hrun
  refine ⟨⟨?_, fun c => InsertionMap.find?_insert _ _ _ _⟩, hle⟩
  exact Option.not_isSome_iff_eq_none.1 (Bool.not_eq_true _ ▸ hnew)

theorem binderKind_universal (hd : w.binder? b = some d) (hkind : d.kind = .universal) :
    w.binderKind? b = some .universal := by
  rw [World.binderKind?, hd]
  exact congrArg some hkind

/-- **Tracking gives independent copies.** A universal type is never refused; the store gets one more entry and keeps the
others. The entry is for the binder of the type with its declared bounds, or if that binder was under inference already,
for a copy of it. A type that nests finitely can be tracked. -/
theorem track_independent (h : c.constraint.Valid w) (hsettled : w.Settled poly) (hpoly : w.shape poly = .universal b)
    (hd : w.binder? b = some d) (hkind : d.kind = .universal) (fuel : Nat) :
    (∀ r c' w', track fuel poly c w = .ok ((r, c'), w') → ∃ t b' e, r = .ok t ∧ w'.shape? t = some (.universal b') ∧
      w'.binder? b' = some e ∧ c.constraint.Adds c'.constraint b' e.infos ∧
      (c.constraint.tracks b = false → b' = b ∧ t = poly ∧ e = d) ∧
      (c.constraint.tracks b = true → w.Copied w' fuel b b' d e)) ∧
    ∀ n, (∀ u ∈ d.infos ++ [d.result], w.Low n u) → n ≤ fuel →
      ∃ t c' w', track fuel poly c w = .ok ((.ok t, c'), w') := by
  have hinside : ∀ u ∈ d.infos ++ [d.result], w.Settled u := by
    intro u hu
    refine hsettled.child ?_
    simpa only [World.inside_true, World.children, hpoly, hd] using hu
  rw [track_universal hpoly]
  refine ⟨fun r c' w' hrun => ?_, fun n hlow hfuel => ?_⟩
  · by_cases htracks : c.constraint.tracks b
    · rw [if_pos htracks] at hrun
      obtain ⟨b', w₁, hcopy, hrun⟩ := bind_ok hrun
      obtain ⟨S, w₂, hadd, hrun⟩ := bind_ok hrun
      obtain ⟨t, w₃, htype, hrun⟩ := bind_ok hrun
      cases hrun
      obtain ⟨e, he, hcopied⟩ := World.copied_of_copy hd hinside hcopy
      obtain ⟨hadds, hle₂⟩ := adds_of_add (not_tracks h hcopied.fresh) he hadd
      rw [World.binderType_run (binderKind_universal (hle₂.binder he) (hcopied.kind.trans hkind))] at htype
      obtain ⟨hle₃, ht⟩ := World.intern_ok htype
      refine ⟨t, b', e, rfl, ht, hle₃.binder (hle₂.binder he), hadds, fun hnone => ?_, fun _ =>
        hcopied.later (hle₂.trans hle₃)⟩
      rw [htracks] at hnone
      cases hnone
    · rw [if_neg htracks] at hrun
      rw [Bool.not_eq_true] at htracks
      obtain ⟨S, w₁, hadd, hrun⟩ := bind_ok hrun
      cases hrun
      obtain ⟨hadds, hle⟩ := adds_of_add htracks hd hadd
      refine ⟨poly, b, d, rfl, hle.shape (World.shape?_of_shape hpoly (by simp)), hle.binder hd, hadds,
        fun _ => ⟨rfl, rfl, rfl⟩, fun hsome => ?_⟩
      rw [htracks] at hsome
      cases hsome
  · by_cases htracks : c.constraint.tracks b
    · rw [if_pos htracks]
      obtain ⟨⟨b', w₁⟩, hcopy⟩ := World.total_copy hd (fun u hu => ⟨hinside u hu, hlow u hu⟩) hfuel
      obtain ⟨e, he, hcopied⟩ := World.copied_of_copy hd hinside hcopy
      have hadd := add_run (not_tracks h hcopied.fresh) he
      have htype := World.binderType_run (b := b') (w := { w₁ with snapshots := w₁.snapshots + 1 })
        (binderKind_universal he (hcopied.kind.trans hkind))
      exact ⟨_, _, _, (bind_run hcopy).trans ((bind_run hadd).trans (bind_run htype))⟩
    · rw [if_neg htracks]
      rw [Bool.not_eq_true] at htracks
      exact ⟨poly, _, _, (bind_run (add_run htracks hd)).trans rfl⟩

open ConstraintStore in
/-- The type `[X, Y, Z <: X & Y] Z` is tracked once more, on a copy. -/
theorem track_independent_triple : ∃ (c : Comparer) (poly : Ty) (b : BinderId) (d : Binder),
    c.constraint.Valid tripleWorld ∧ tripleWorld.Settled poly ∧ tripleWorld.shape poly = .universal b ∧
    tripleWorld.binder? b = some d ∧ d.kind = .universal ∧ c.constraint.tracks b = true ∧
    ∃ t c' w' b' e, track 5 poly c tripleWorld = .ok ((.ok t, c'), w') ∧ w'.binder? b' = some e ∧
      c.constraint.Adds c'.constraint b' e.infos ∧ tripleWorld.Copied w' 5 b b' d e := by
  let c : Comparer := { SoleParam.leastComparer with constraint := tripleStore }
  let d : Binder := { kind := .universal, names := ["X", "Y", "Z"], infos := [⟨14⟩, ⟨14⟩, ⟨19⟩], result := ⟨17⟩ }
  have hsettled : tripleWorld.Settled ⟨20⟩ := tripleWorld_built.closed.settled (by decide)
  have hpoly : tripleWorld.shape ⟨20⟩ = .universal ⟨0⟩ := by decide
  have hd : tripleWorld.binder? ⟨0⟩ = some d := by decide
  have htracks : c.constraint.tracks ⟨0⟩ = true := by decide
  have hlow : ∀ u ∈ d.infos ++ [d.result], tripleWorld.Low 5 u := by decide
  obtain ⟨hspec, htotal⟩ := track_independent (c := c) tripleStore_valid hsettled hpoly hd rfl 5
  obtain ⟨t, c', w', hrun⟩ := htotal 5 hlow le_rfl
  obtain ⟨_, b', e, ht, -, he, hadds, -, hcopied⟩ := hspec _ c' w' hrun
  exact ⟨c, ⟨20⟩, ⟨0⟩, d, tripleStore_valid, hsettled, hpoly, hd, rfl, htracks, t, c', w', b', e, hrun, he, hadds,
    hcopied htracks⟩

end CompareM

end Conformance
