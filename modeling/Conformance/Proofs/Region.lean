import Conformance.Proofs.Domain

/-!
# Regions of a world

A `Region` is a fixed set of nodes of one world, and of whatever is new in the worlds that extend it, that no computation
on types leads out of. It makes a domain (`Region.domain`), so that what the computations make is inside; those that make
binders are dealt with here.
-/

namespace Conformance

/-- A set of nodes of `base`, and of whatever is new in the worlds that extend it, that no computation leads out of. -/
structure Region where
  base : World
  inside : Node → Prop
  step : ∀ {m n : Node}, base.Step m n → inside m → inside n
  shape : ∀ {t : Ty} {d : Shape}, base.shape? t = some d → (∀ n ∈ d.parts, inside n) → inside (.ty t)
  newTy : ∀ {t : Ty}, base.shape? t = none → inside (.ty t)
  newBinder : ∀ {b : BinderId}, base.binder? b = none → inside (.binder b) ∧ ∀ i, inside (.param ⟨b, i⟩)
  noType : inside (.ty .noType)
  noPrefix : inside (.ty .noPrefix)

namespace Region

/-- The world extends the base of the region, and what is new in it refers to the inside only. -/
structure Holds (R : Region) (w : World) : Prop where
  le : R.base ≤ w
  shape : ∀ {t : Ty} {d : Shape}, R.base.shape? t = none → w.shape? t = some d → ∀ n ∈ d.parts, R.inside n
  binder : ∀ {b : BinderId} {d : Binder}, R.base.binder? b = none → w.binder? b = some d →
    (∀ t ∈ d.infos, R.inside (.ty t)) ∧ R.inside (.ty d.result)

variable {R : Region} {w w₀ w' : World} {t lo hi : Ty} {p : Param} {b : BinderId} {v : VarId}

theorem holds_base (R : Region) : R.Holds R.base := by
  refine ⟨le_rfl, fun hnone hsome => ?_, fun hnone hsome => ?_⟩
  · rw [hnone] at hsome
    cases hsome
  · rw [hnone] at hsome
    cases hsome

namespace Holds

/-- The infos and the result of a binder of the world are inside if the binder, or a parameter that reads them, is. -/
theorem filled (h : R.Holds w) {d : Binder} (hd : w.binder? b = some d) :
    R.base.binder? b = some d ∨ (∀ t ∈ d.infos, R.inside (.ty t)) ∧ R.inside (.ty d.result) := by
  cases hbase : R.base.binder? b with
  | none => exact .inr (h.binder hbase hd)
  | some e => exact .inl ((h.le.binder hbase).symm.trans hd)

theorem step (h : R.Holds w) {m n : Node} (hstep : w.Step m n) (hm : R.inside m) : R.inside n := by
  cases hstep with
  | @part t d n ht hn =>
    cases hbase : R.base.shape? t with
    | none => exact h.shape hbase ht n hn
    | some e =>
      obtain rfl : e = d := Option.some.inj ((h.le.shape hbase).symm.trans ht)
      exact R.step (.part hbase hn) hm
  | info hb ht => exact (h.filled hb).elim (fun hbase => R.step (.info hbase ht) hm) fun hnew => hnew.1 _ ht
  | result hb => exact (h.filled hb).elim (fun hbase => R.step (.result hbase) hm) fun hnew => hnew.2
  | bound b i => exact R.step (.bound b i) hm
  | declared hb ht =>
    exact (h.filled hb).elim (fun hbase => R.step (.declared hbase ht) hm) fun hnew => hnew.1 _ (List.mem_of_getElem? ht)
  | declaration hs hn => exact R.step (.declaration (h.le.decls ▸ hs) hn) hm
  | origin hv => exact R.step (.origin (h.le.vars ▸ hv)) hm
  | settled hv ht => exact R.step (.settled (h.le.vars ▸ hv) ht) hm

theorem extend (h : R.Holds w) (hle : w ≤ w') (hshape : w'.types = w.types) (hbinder : w'.binders = w.binders) :
    R.Holds w' where
  le := le_trans h.le hle
  shape hbase ht := h.shape hbase (by simpa only [World.shape?, hshape] using ht)
  binder hbase hb := h.binder hbase (by simpa only [World.binder?, hbinder] using hb)

theorem intern (h : R.Holds w) {d : Shape} (hd : ∀ n ∈ d.parts, R.inside n) :
    R.Holds { w with types := (w.types.intern d).2 } ∧ R.inside (.ty (w.types.intern d).1) := by
  have hle : w ≤ { w with types := (w.types.intern d).2 } := le_intern d w
  refine ⟨⟨le_trans h.le hle, fun {t e} hbase ht => ?_, h.binder⟩, ?_⟩
  · rcases World.shape?_of_intern ht with ht | rfl
    · exact h.shape hbase ht
    · exact hd
  · cases hbase : R.base.shape? (w.types.intern d).1 with
    | none => exact R.newTy hbase
    | some e =>
      obtain rfl : e = d :=
        Option.some.inj (((le_trans h.le hle).shape hbase).symm.trans (TypeTable.shape?_intern w.types d))
      exact R.shape hbase hd

end Holds

/-- The worlds that the region holds, with its inside. -/
abbrev domain (R : Region) : Domain where
  Holds := R.Holds
  inside _ := R.inside
  grow _ h := h
  step h hstep hm := Holds.step h hstep hm
  noType _ := R.noType
  noPrefix _ := R.noPrefix
  intern h _ hd := Holds.intern h hd
  binderType h hb hd := Holds.intern h fun n hn => by
    rw [← hd, parts_binderShape] at hn
    exact List.mem_singleton.1 hn ▸ hb
  skolem h := h.extend (le_freshSkolem _) rfl rfl
  snapshot h := h.extend ((grows_freshSnapshot : Grows True _) _) rfl rfl

namespace Holds

theorem parts (h : R.Holds w) (ht : R.inside (.ty t)) {d : Shape} (hd : w.shape t = d) : ∀ n ∈ d.parts, R.inside n :=
  Domain.Holds.parts (D := R.domain) h ht hd

theorem boundsParts (h : R.Holds w) (ht : R.inside (.ty t)) (hb : w.boundsParts? t = some (lo, hi)) :
    R.inside (.ty lo) ∧ R.inside (.ty hi) := Domain.Holds.boundsParts (D := R.domain) h ht hb

theorem binder_parts (h : R.Holds w) {d : Binder} (hb : R.inside (.binder b)) (hd : w.binder? b = some d) :
    (∀ t ∈ d.infos, R.inside (.ty t)) ∧ R.inside (.ty d.result) :=
  Domain.Holds.binder_parts (D := R.domain) h hb hd

theorem varUnderlying (h : R.Holds w) (hv : R.inside (.var v)) : R.inside (.ty (w.varUnderlying v)) :=
  Domain.Holds.varUnderlying (D := R.domain) h hv

end Holds

/-- Where the region holds the world, the computation keeps it so and makes results with `P`. -/
abbrev Makes {α : Type} (R : Region) (P : α → Prop) (m : WorldM α) : Prop := R.domain.Makes R.base (fun _ => P) m

/-- The computation makes types that are inside. -/
abbrev MakesTy (R : Region) (m : WorldM Ty) : Prop := R.Makes (fun t => R.inside (.ty t)) m

theorem Makes.weaken {α : Type} {P : α → Prop} {m : WorldM α} (hm : R.Makes P m) : R.domain.Makes w₀ (fun _ => P) m :=
  fun w a w' _ hw hrun => hm w a w' hw.le hw hrun

/-! ## New binders -/

/-- A binder that `base` does not hold. -/
def New (R : Region) (b : BinderId) : Prop := R.base.binder? b = none

theorem makes_freshBinder (kind : BinderKind) (names : List String) :
    R.Makes R.New (WorldM.freshBinder kind names) := by
  intro w b w' _ h hrun
  obtain ⟨rfl, rfl⟩ := Prod.mk.injEq .. ▸ Except.ok.inj hrun
  have hle := le_freshBinder w { kind, names }
  refine ⟨hle, ⟨le_trans h.le hle, h.shape, fun {b d} hbase hb => ?_⟩, ?_⟩
  · rw [World.binder?, Array.getElem?_push] at hb
    split at hb
    · obtain rfl := Option.some.inj hb
      exact ⟨by simp, R.noType⟩
    · exact h.binder hbase hb
  · show R.base.binders[w.binders.size]? = none
    exact Array.getElem?_eq_none (World.binders_size_le h.le)

/-- Filling in a new binder is no step to an extension, but it stays an extension of the base. -/
theorem Holds.fill (h : R.Holds w) (hb : R.New b) {infos : List Ty} {result : Ty}
    (hi : ∀ t ∈ infos, R.inside (.ty t)) (hr : R.inside (.ty result)) :
    R.Holds { w with binders := w.binders.modify b.id fun d => { d with infos, result } } := by
  have hsize : R.base.binders.size ≤ b.id := by simpa [New, World.binder?] using hb
  refine ⟨le_fillBinder h.le hsize infos result, h.shape, fun {b' d} hbase hb' => ?_⟩
  rw [World.binder?, Array.getElem?_modify] at hb'
  split at hb'
  · obtain ⟨d', -, rfl⟩ := Option.map_eq_some_iff.1 hb'
    exact ⟨hi, hr⟩
  · exact h.binder hbase hb'

section Rebuilding

variable {f : Ty → WorldM Ty} {rename : BinderId → BinderId → Ty → WorldM Ty}

/-- Infos and result of a fresh binder are made before it is filled in. -/
theorem makes_fillFresh {kind : BinderKind} {names : List String} {g : BinderId → Ty → WorldM Ty}
    (hg : ∀ b a, (∀ i, R.inside (.param ⟨b, i⟩)) → R.inside (.ty a) → R.MakesTy (g b a))
    (hgrows : ∀ b a, Grows True (g b a)) {infos : List Ty} {result : Ty} (hinfos : ∀ t ∈ infos, R.inside (.ty t))
    (hresult : R.inside (.ty result)) :
    R.MakesTy (do
      let fresh ← WorldM.freshBinder kind names
      let infos ← infos.mapM (g fresh)
      let result ← g fresh result
      WorldM.fillBinder fresh infos result
      fresh.type) := by
  intro w t w' _ h hrun
  refine ⟨(grows_fillFresh hgrows infos result fun _ => grows_binderType _).le_of_ok hrun, ?_⟩
  obtain ⟨fresh, w₁, hfresh, hrun⟩ := bind_ok hrun
  obtain ⟨-, h₁, hnew⟩ := makes_freshBinder kind names w fresh w₁ h.le h hfresh
  obtain ⟨hbinder, hparams⟩ := R.newBinder hnew
  obtain ⟨infos', w₂, hmade, hrun⟩ := bind_ok hrun
  obtain ⟨-, h₂, hinfos'⟩ :=
    Domain.Makes.mapM (fun a ha => hg fresh a hparams (hinfos a ha)) (fun _ h => h) w₁ infos' w₂ h₁.le h₁ hmade
  obtain ⟨result', w₃, hmade, hrun⟩ := bind_ok hrun
  obtain ⟨-, h₃, hresult'⟩ := hg fresh result hparams hresult w₂ result' w₃ h₂.le h₂ hmade
  obtain ⟨_, w₄, hfill, hrun⟩ := bind_ok hrun
  cases hfill
  have h₄ := h₃.fill hnew hinfos' hresult'
  exact (Domain.makes_binderType (D := R.domain) hbinder _ t w' le_rfl h₄ hrun).2

variable (hf : ∀ a, R.inside (.ty a) → R.MakesTy (f a))
  (hr : ∀ b c a, (∀ i, R.inside (.param ⟨c, i⟩)) → R.inside (.ty a) → R.MakesTy (rename b c a))
  (hgrows : ∀ b c a, Grows True (rename b c a))

include hf hr hgrows

theorem makes_rebuildBinder (ht : R.inside (.ty t)) (hb : R.inside (.binder b)) :
    R.MakesTy (Ty.rebuildBinder f rename t b) := by
  refine .get_bind fun w _ hw => ?_
  split
  · exact .pure_ty ht
  · next d hd =>
    obtain ⟨hinfos, hresult⟩ := hw.binder_parts hb hd
    refine .bind (.mapM (fun a ha => (hf a (hinfos a ha)).weaken) fun _ h => h) fun _ infos _ _ hinfos => ?_
    refine .bind (hf _ hresult).weaken fun _ result _ _ hresult => .ite (fun _ => .pure_ty ht) fun _ => ?_
    exact (makes_fillFresh (hr b) (hgrows b) hinfos hresult).weaken

theorem makes_mapChildren (ht : R.inside (.ty t)) : R.MakesTy (Ty.mapChildren f rename t) :=
  Domain.makes_mapChildren (D := R.domain) (fun _ ha => (hf _ ha).weaken) ht fun _ _ hb =>
    (makes_rebuildBinder hf hr hgrows ht hb).weaken

end Rebuilding

/-- Substitution needs the parameters of the new binder inside; those of the old one are not looked at. -/
theorem makes_substBinder (n : Nat) : ∀ (old new : BinderId) (t : Ty), (∀ i, R.inside (.param ⟨new, i⟩)) →
    R.inside (.ty t) → R.MakesTy (Ty.substBinder n old new t) := by
  induction n with
  | zero => exact fun _ _ _ _ _ => .throw
  | succ n ih =>
    intro old new t hparams ht
    refine .ite (fun _ => .pure_ty ht) fun _ => .get_bind fun w _ hw => ?_
    split
    · exact .ite (fun _ => Domain.makes_paramType (hparams _)) fun _ => .pure_ty ht
    · exact .ite (fun _ => Domain.makes_paramType (hparams _)) fun _ => .pure_ty ht
    · exact (makes_mapChildren (fun a ha => ih old new a hparams ha) ih (grows_substBinder n) ht).weaken

end Region

end Conformance
