import Conformance.Proofs.Evaluation
import Conformance.Proofs.Variants

/-!
# Renaming the parameters of a binder

Renaming comes to an end in a variant and gives a variant again (`renamesAt`): the parameters of the new binder stand
where those of the old one stood, and what was rebuilt on a fresh binder has that one in the place of its own. Different
types stay different (`Renamed.inj`), so that no intersection and no union collapses on the way; this is where it
matters that fresh binders are given out once.
-/

namespace Conformance

/-! ## What was renamed -/

namespace World

/-- The binder was given out between `w` and `w'`. -/
def Since (w w' : World) (b : BinderId) : Prop := w.binder? b = none ∧ (w'.binder? b).isSome

/-- One layer of `Renamed`. -/
inductive RenamedLayer (w w' : World) (old new : BinderId) (S : Ty → Ty → Prop) (t u : Ty) : Prop
  | same (eq : u = t)
  | param {k : BinderKind} (i : Nat) (shape₁ : w'.shape? t = some (k.param ⟨old, i⟩))
    (shape₂ : w'.shape? u = some (k.param ⟨new, i⟩))
  | layer {d e : Shape} (shape₁ : w'.shape? t = some d) (shape₂ : w'.shape? u = some e) (parts : Shape.Over S d e)
  | binder {k : BinderKind} {c : BinderId} (shape : w'.shape? u = some (k.shape c)) (since : w.Since w' c)

/-- Between `w` and `w'` the type `t` was renamed to `u`: parameters of `old` gave way to those of `new`, and binders to
fresh ones. -/
def Renamed (w w' : World) (old new : BinderId) : Nat → Ty → Ty → Prop
  | 0, t, u => u = t
  | n + 1, t, u => RenamedLayer w w' old new (Renamed w w' old new n) t u

end World

namespace Pairing

/-- Between `w` and `w'` the second side was renamed. -/
def rename (s : Pairing) (w w' : World) (old new : BinderId) : Pairing where
  inner a := s.inner a ∨ w.Since w' a
  rel p q := ∃ q₀, s.rel p q₀ ∧ q = if q₀ = old then new else q₀

/-- On the second side `new`, which is not in scope there, may take the place of `old`. -/
structure Admits (w : World) (s : Pairing) (old new : BinderId) : Prop where
  ne : old ≠ new
  kinds : ∃ k, w.binderKind? old = some k ∧ w.binderKind? new = some k
  inner : ∀ a, s.inner a → (w.binder? a).isSome ∧ a ≠ old ∧ a ≠ new
  rel : ∀ p q, s.rel p q → (w.binder? q).isSome ∧ q ≠ new

end Pairing

namespace World

variable {w w₀ w₁ w₂ v : World} {s : Pairing} {n : Nat} {t u x y c d : Ty} {old new b : BinderId}

theorem isSome_later (h : (w.binder? b).isSome) (hv : w ≤ v) : (v.binder? b).isSome := by
  obtain ⟨d, hd⟩ := Option.isSome_iff_exists.1 h
  rw [hv.binder hd]
  rfl

theorem Since.mono (h : w.Since w₁ b) (hw : w₀ ≤ w) (hv : w₁ ≤ v) : w₀.Since v b := by
  refine ⟨?_, isSome_later h.2 hv⟩
  cases hb : w₀.binder? b with
  | none => rfl
  | some d => exact (hw.binder hb).symm.trans h.1

theorem Since.ne {a : BinderId} (h : w.Since w₁ a) (hb : (w.binder? b).isSome) : a ≠ b := by
  rintro rfl
  rw [h.1] at hb
  cases hb

theorem Renamed.refl (w w' : World) (old new : BinderId) (n : Nat) (t : Ty) : Renamed w w' old new n t t := by
  cases n with
  | zero => exact rfl
  | succ n => exact .same rfl

theorem Renamed.mono (h : Renamed w w₁ old new n t u) (hw : w₀ ≤ w) (hv : w₁ ≤ v) : Renamed w₀ v old new n t u := by
  induction n generalizing t u with
  | zero => exact h
  | succ n ih =>
    cases h with
    | same eq => exact .same eq
    | param i shape₁ shape₂ => exact .param i (hv.shape shape₁) (hv.shape shape₂)
    | layer shape₁ shape₂ parts => exact .layer (hv.shape shape₁) (hv.shape shape₂) (parts.imp fun _ _ => ih)
    | binder shape since => exact .binder (hv.shape shape) (since.mono hw hv)

/-! ### Clashes of shapes -/

theorem param_ne_shape {k l : BinderKind} {p : Param} : k.param p ≠ l.shape b := by
  cases k <;> cases l <;> rintro ⟨⟩

theorem not_over_param {S : Ty → Ty → Prop} {e : Shape} {k : BinderKind} {p : Param} : ¬ Shape.Over S e (k.param p) := by
  cases k <;> rintro ⟨⟩

theorem not_over_shape {S : Ty → Ty → Prop} {e : Shape} {k : BinderKind} : ¬ Shape.Over S e (k.shape b) := by
  cases k <;> rintro ⟨⟩

/-- What a layer says of a type whose shape is known. -/
theorem Variant.rel_of_shape {k : BinderKind} {q : BinderId} {i : Nat} (h : w.Variant n s x y)
    (hy : w.shape? y = some (k.param ⟨q, i⟩)) : ∃ p, s.rel p q := by
  cases n with
  | zero => exact h.elim
  | succ n =>
    cases h with
    | leaf shape isLeaf eq =>
      rw [eq, shape] at hy
      cases hy
      cases k <;> cases isLeaf
    | @param p _ _ _ rel _ _ _ shape =>
      have heq := BinderKind.param_inj (Option.some.inj (shape.symm.trans hy))
      cases heq
      exact ⟨p, rel⟩
    | layer _ shape parts => exact absurd (Option.some.inj (shape.symm.trans hy) ▸ parts) not_over_param
    | binder _ shape => exact absurd (Option.some.inj (hy.symm.trans shape)) param_ne_shape

theorem Variant.isSome_of_shape {k : BinderKind} (h : w.Variant n s x y) (hy : w.shape? y = some (k.shape b)) :
    (w.binder? b).isSome := by
  cases n with
  | zero => exact h.elim
  | succ n =>
    cases h with
    | leaf shape isLeaf eq =>
      rw [eq, shape] at hy
      cases hy
      cases k <;> cases isLeaf
    | param _ _ _ _ _ shape => exact absurd (Option.some.inj (shape.symm.trans hy)) param_ne_shape
    | layer _ shape parts => exact absurd (Option.some.inj (shape.symm.trans hy) ▸ parts) not_over_shape
    | binder _ shape _ hc =>
      rw [← BinderKind.shape_inj (Option.some.inj (shape.symm.trans hy)), hc]
      rfl

theorem Variant.over_of_shape {S : Ty → Ty → Prop} {e f : Shape} (h : w.Variant (n + 1) s x y)
    (hy : w.shape? y = some e) (he : Shape.Over S f e ∨ Shape.Over S e f) : ∃ d, Shape.Over (w.Variant n s) d e := by
  have hshape : ¬ e.isLeaf ∧ (∀ k p, e ≠ BinderKind.param k p) ∧ ∀ k b, e ≠ BinderKind.shape k b := by
    rcases he with he | he <;> cases he <;> refine ⟨by rintro ⟨⟩, fun k p => ?_, fun k b => ?_⟩ <;> cases k <;>
      rintro ⟨⟩
  cases h with
  | leaf shape isLeaf eq =>
    rw [eq, shape] at hy
    cases hy
    exact absurd isLeaf hshape.1
  | param _ _ _ _ _ shape => exact absurd (Option.some.inj (hy.symm.trans shape)) (hshape.2.1 _ _)
  | layer _ shape parts => exact ⟨_, Option.some.inj (shape.symm.trans hy) ▸ parts⟩
  | binder _ shape => exact absurd (Option.some.inj (hy.symm.trans shape)) (hshape.2.2 _ _)

/-- **Renaming keeps different types different**, when they are renamed one after the other. -/
theorem Renamed.inj (hs : s.Admits w old new) (hw : w ≤ w₁) (hw₁ : w₁ ≤ w₂) :
    ∀ {n : Nat} {a b c d x : Ty}, w.Variant n s a c → w.Variant n s b d → Renamed w w₁ old new n c x →
      Renamed w₁ w₂ old new n d x → c = d := by
  intro n
  induction n with
  | zero =>
    intro a b c d x hc
    exact hc.elim
  | succ n ih =>
    intro a b c d x hc hd h h'
    have hclear {y : Ty} {k : BinderKind} {i : Nat} {a : Ty} (hv : w.Variant (n + 1) s a y)
        (hy : w₂.shape? y = some (k.param ⟨new, i⟩)) : False := by
      obtain ⟨e, he⟩ := Option.isSome_iff_exists.1 hv.has.2
      cases ((hw.trans hw₁).shape he).symm.trans hy
      obtain ⟨p, hp⟩ := hv.rel_of_shape he
      exact (hs.rel _ _ hp).2 rfl
    have hold {y : Ty} {k : BinderKind} {f : BinderId} {a : Ty} (hv : w.Variant (n + 1) s a y)
        (hy : w₂.shape? y = some (k.shape f)) : (w.binder? f).isSome := by
      obtain ⟨e, he⟩ := Option.isSome_iff_exists.1 hv.has.2
      cases ((hw.trans hw₁).shape he).symm.trans hy
      exact hv.isSome_of_shape he
    have hover {ec ed f : Shape} (hec : w₂.shape? c = some ec) (hed : w₂.shape? d = some ed)
        (hpc : Shape.Over (Renamed w w₁ old new n) ec f) (hpd : Shape.Over (Renamed w₁ w₂ old new n) ed f) : c = d := by
      obtain ⟨e, he⟩ := Option.isSome_iff_exists.1 hc.has.2
      cases ((hw.trans hw₁).shape he).symm.trans hec
      obtain ⟨e', he'⟩ := Option.isSome_iff_exists.1 hd.has.2
      cases ((hw.trans hw₁).shape he').symm.trans hed
      obtain ⟨_, hc'⟩ := hc.over_of_shape he (.inr hpc)
      obtain ⟨_, hd'⟩ := hd.over_of_shape he' (.inr hpd)
      refine TypeTable.shape?_injective he (((hc'.along hpc).unique (hd'.along hpd) ?_) ▸ he')
      rintro a b x ⟨⟨_, ha⟩, hax⟩ ⟨⟨_, hb⟩, hbx⟩
      exact ih ha hb hax hbx
    cases h with
    | same eq =>
      cases eq
      cases h' with
      | same eq => exact eq
      | param _ _ shape => exact (hclear hc shape).elim
      | layer shape₁ shape₂ parts => exact hover shape₂ shape₁ (parts.self.imp fun _ _ h => h ▸ .refl ..) parts
      | binder shape since => exact absurd rfl ((since.mono hw le_rfl).ne (hold hc shape))
    | param i shape₁ shape₂ =>
      cases h' with
      | same eq => exact (hclear hd (eq ▸ hw₁.shape shape₂)).elim
      | param j shape₁' shape₂' =>
        have hshape := Option.some.inj ((hw₁.shape shape₂).symm.trans shape₂')
        cases BinderKind.param_inj hshape
        exact TypeTable.shape?_injective (hw₁.shape shape₁) (BinderKind.param_congr hshape _ ▸ shape₁')
      | layer _ shape parts =>
        exact absurd (Option.some.inj (shape.symm.trans (hw₁.shape shape₂)) ▸ parts) not_over_param
      | binder shape => exact absurd (Option.some.inj ((hw₁.shape shape₂).symm.trans shape)) param_ne_shape
    | layer shape₁ shape₂ parts =>
      cases h' with
      | same eq =>
        cases eq
        exact hover (hw₁.shape shape₁) (hw₁.shape shape₂) parts (parts.self.imp fun _ _ h => h ▸ .refl ..)
      | param _ _ shape =>
        exact absurd (Option.some.inj ((hw₁.shape shape₂).symm.trans shape) ▸ parts) not_over_param
      | layer shape₁' shape₂' parts' =>
        cases (hw₁.shape shape₂).symm.trans shape₂'
        exact hover (hw₁.shape shape₁) shape₁' parts parts'
      | binder shape => exact absurd (Option.some.inj ((hw₁.shape shape₂).symm.trans shape) ▸ parts) not_over_shape
    | binder shape since =>
      cases h' with
      | same eq => exact absurd rfl (since.ne (hold hd (eq ▸ hw₁.shape shape)))
      | param _ _ shape' => exact absurd (Option.some.inj (shape'.symm.trans (hw₁.shape shape))) param_ne_shape
      | layer _ shape' parts =>
        exact absurd (Option.some.inj (shape'.symm.trans (hw₁.shape shape)) ▸ parts) not_over_shape
      | binder shape' since' =>
        have hshape := BinderKind.shape_inj (Option.some.inj ((hw₁.shape shape).symm.trans shape'))
        exact absurd hshape.symm (since'.ne since.2)

theorem Renamed.noPrefix (hpre : w₁.shape? .noPrefix = some (.fixed .noPrefix))
    (h : Renamed w w₁ old new n c .noPrefix) : c = .noPrefix := by
  cases n with
  | zero => exact h.symm
  | succ n =>
    cases h with
    | same eq => exact eq.symm
    | @param k _ _ shape =>
      cases k <;> cases shape.symm.trans hpre
    | layer _ shape parts =>
      cases shape.symm.trans hpre
      cases parts
    | @binder k _ shape =>
      cases k <;> cases shape.symm.trans hpre

/-- Nothing is renamed to a built-in class. -/
theorem Renamed.builtin (hstd : w₁.Standard) (hpre : w₁.shape? .noPrefix = some (.fixed .noPrefix)) {b : Builtin}
    (h : Renamed w w₁ old new n c b.type) : c = b.type := by
  cases n with
  | zero => exact h.symm
  | succ n =>
    cases h with
    | same eq => exact eq.symm
    | @param k _ _ shape =>
      cases k <;> cases shape.symm.trans (hstd.shape b)
    | layer shape₁ shape₂ parts =>
      cases shape₂.symm.trans (hstd.shape b)
      cases parts with | named h =>
      cases h.noPrefix hpre
      exact TypeTable.shape?_injective shape₁ (hstd.shape b)
    | @binder k _ shape =>
      cases k <;> cases shape.symm.trans (hstd.shape b)

/-- Operands that do not collapse do not do so when they have been renamed. -/
theorem Renamed.distinct {a b c' d' : Ty} (hs : s.Admits w old new) (hw : w ≤ w₁) (hw₁ : w₁ ≤ w₂) (hstd : w₁.Standard)
    (hpre : w₁.shape? .noPrefix = some (.fixed .noPrefix)) (hc : w.Variant n s a c) (hd : w.Variant n s b d)
    (h : Renamed w w₁ old new n c c') (h' : Renamed w₁ w₂ old new n d d') (hcd : c.Distinct d) : c'.Distinct d' := by
  have hstd₂ := hstd.grow hw₁
  have hpre₂ := hw₁.shape hpre
  obtain ⟨hne, ⟨hca, hcn⟩, hda, hdn⟩ := hcd
  refine ⟨?_, ⟨?_, ?_⟩, ?_, ?_⟩
  · rintro rfl
    exact hne (h.inj hs hw hw₁ hc hd h')
  · rintro rfl
    exact hca (h.builtin hstd hpre)
  · rintro rfl
    exact hcn (h.builtin hstd hpre)
  · rintro rfl
    exact hda (h'.builtin hstd₂ hpre₂)
  · rintro rfl
    exact hdn (h'.builtin hstd₂ hpre₂)

end World

namespace Pairing

open World

variable {w w₀ w₁ w₂ : World} {s : Pairing} {old new : BinderId}

theorem Admits.grow {v : World} (h : s.Admits w old new) (hv : w ≤ v) : s.Admits v old new where
  ne := h.ne
  kinds := by
    obtain ⟨k, hold, hnew⟩ := h.kinds
    exact ⟨k, binderKind?_later hold hv, binderKind?_later hnew hv⟩
  inner a ha := ⟨isSome_later (h.inner a ha).1 hv, (h.inner a ha).2⟩
  rel p q hpq := ⟨isSome_later (h.rel p q hpq).1 hv, (h.rel p q hpq).2⟩

theorem rename_sub (s : Pairing) (v : World) (hw : w₀ ≤ w) (hv : w₁ ≤ w₂) :
    (s.rename w w₁ old new).Sub v (s.rename w₀ w₂ old new) where
  inner _ _ ha := ha.imp id fun ha => ha.mono hw hv
  rel _ _ _ _ h := h

end Pairing

/-! ## Runs of renaming -/

section Runs

open World

/-- Rebuilding a type around its one child. -/
theorem rebuild₁_run {f make : Ty → WorldM Ty} {shape : Ty → Shape} {t c c' : Ty} {w w₁ : World} (hw : w ≤ w₁)
    (ht : w.shape? t = some (shape c)) (hf : f c w = .ok (c', w₁)) (hmake : make c' = WorldM.intern (shape c')) :
    ∃ t' w', Ty.rebuild₁ f t c make w = .ok (t', w') ∧ w₁ ≤ w' ∧ w'.shape? t' = some (shape c') := by
  rw [Ty.rebuild₁, bind_run hf]
  split_ifs with h
  · exact ⟨t, w₁, rfl, le_rfl, h ▸ hw.shape ht⟩
  · rw [hmake]
    exact ⟨_, _, rfl, le_intern _ _, TypeTable.shape?_intern _ _⟩

/-- Rebuilding a type around its two children. -/
theorem rebuild₂_run {f : Ty → WorldM Ty} {make : Ty → Ty → WorldM Ty} {shape : Ty → Ty → Shape} {t c c' d d' : Ty}
    {w w₁ w₂ : World} (hw : w ≤ w₁) (hw₁ : w₁ ≤ w₂) (ht : w.shape? t = some (shape c d)) (hc : f c w = .ok (c', w₁))
    (hd : f d w₁ = .ok (d', w₂)) (hmake : make c' d' w₂ = WorldM.intern (shape c' d') w₂) :
    ∃ t' w', Ty.rebuild₂ f t c d make w = .ok (t', w') ∧ w₂ ≤ w' ∧ w'.shape? t' = some (shape c' d') := by
  rw [Ty.rebuild₂, bind_run hc, bind_run hd]
  split_ifs with h
  · exact ⟨t, w₂, rfl, le_rfl, h.1 ▸ h.2 ▸ (hw.trans hw₁).shape ht⟩
  · rw [hmake]
    exact ⟨_, _, rfl, le_intern _ _, TypeTable.shape?_intern _ _⟩

theorem Ty.Distinct.inter_run {a b : Ty} (h : a.Distinct b) (w : World) :
    Ty.inter a b w = WorldM.intern (.inter a b) w :=
  CompareM.inter_run h.1 ⟨h.2.1.1, h.2.2.1⟩ ⟨h.2.1.2, h.2.2.2⟩

theorem Ty.Distinct.union_run {a b : Ty} (h : a.Distinct b) (w : World) :
    Ty.union a b w = WorldM.intern (.union a b) w := by
  obtain ⟨hne, ha, hb⟩ := h
  simp only [Ty.union, hne, ha.1, ha.2, hb.1, hb.2, or_self, if_false]

/-- Renaming a type that is a variant of height `n` comes to an end, and gives such a variant again. -/
def RenamesAt (n : Nat) : Prop :=
  ∀ {w : World} {s : Pairing} {old new : BinderId} {x y : Ty} {fuel : Nat}, w.Standard →
    w.shape? .noPrefix = some (.fixed .noPrefix) → s.Admits w old new → w.Variant n s x y → n ≤ fuel →
    ∃ y' w', Ty.substBinder fuel old new y w = .ok (y', w') ∧ w ≤ w' ∧
      w'.Variant n (s.rename w w' old new) x y' ∧ Renamed w w' old new n y y'

/-- The types of a list one after the other. -/
theorem RenamesAt.list {s : Pairing} {old new : BinderId} {n fuel : Nat} (hn : RenamesAt n) (hfuel : n ≤ fuel)
    (xs : List Ty) : ∀ {ys : List Ty} {w : World}, w.Standard → w.shape? .noPrefix = some (.fixed .noPrefix) →
      s.Admits w old new → List.Forall₂ (w.Variant n s) xs ys →
      ∃ ys' w', ys.mapM (Ty.substBinder fuel old new) w = .ok (ys', w') ∧ w ≤ w' ∧
        List.Forall₂ (w'.Variant n (s.rename w w' old new)) xs ys' := by
  induction xs with
  | nil =>
    rintro _ w - - - ⟨⟩
    exact ⟨[], w, rfl, le_rfl, .nil⟩
  | cons x xs ih =>
    rintro _ w hstd hpre hs (_ | ⟨hxy, hxys⟩)
    obtain ⟨y', w₁, hy, hle, hvariant, -⟩ := hn hstd hpre hs hxy hfuel
    obtain ⟨ys', w₂, hys, hle', hvariants⟩ := ih (hstd.grow hle) (hle.shape hpre) (hs.grow hle)
      (hxys.imp fun _ _ h => h.grow hle)
    refine ⟨y' :: ys', w₂, ?_, hle.trans hle', .cons ?_ ?_⟩
    · rw [List.mapM_cons, bind_run hy, bind_run hys]
      rfl
    · exact (hvariant.grow hle').imp (s.rename_sub w₂ le_rfl hle')
    · exact hvariants.imp fun _ _ h => h.imp (s.rename_sub w₂ hle le_rfl)

section Steps

variable {w : World} {s : Pairing} {old new : BinderId} {n fuel : Nat} (hstd : w.Standard)
  (hpre : w.shape? .noPrefix = some (.fixed .noPrefix))
include hstd hpre

/-- One child after the other. -/
theorem RenamesAt.pair (hn : RenamesAt n) (hs : s.Admits w old new) (hfuel : n ≤ fuel) {a b c d : Ty}
    (hc : w.Variant n s a c) (hd : w.Variant n s b d) : ∃ c' w₁ d' w₂,
      Ty.substBinder fuel old new c w = .ok (c', w₁) ∧ Ty.substBinder fuel old new d w₁ = .ok (d', w₂) ∧ w ≤ w₁ ∧
        w₁ ≤ w₂ ∧ (∀ v, w₂ ≤ v → v.Variant n (s.rename w v old new) a c' ∧ Renamed w v old new n c c' ∧
          v.Variant n (s.rename w v old new) b d' ∧ Renamed w v old new n d d') ∧
        (c.Distinct d → c'.Distinct d') := by
  obtain ⟨c', w₁, hcrun, hle, hcv, hcr⟩ := hn hstd hpre hs hc hfuel
  obtain ⟨d', w₂, hdrun, hle', hdv, hdr⟩ := hn (hstd.grow hle) (hle.shape hpre) (hs.grow hle) (hd.grow hle) hfuel
  refine ⟨c', w₁, d', w₂, hcrun, hdrun, hle, hle', fun v hv => ⟨?_, ?_, ?_, ?_⟩, ?_⟩
  · exact (hcv.grow (hle'.trans hv)).imp (s.rename_sub v le_rfl (hle'.trans hv))
  · exact hcr.mono le_rfl (hle'.trans hv)
  · exact (hdv.grow hv).imp (s.rename_sub v hle hv)
  · exact hdr.mono hle hv
  · exact hcr.distinct hs hle hle' (hstd.grow hle) (hle.shape hpre) hc hd hdr

/-- Renaming around the children. -/
theorem RenamesAt.layer (hn : RenamesAt n) (hs : s.Admits w old new) (hfuel : n ≤ fuel) {d e : Shape} {y : Ty}
    (hy : w.shape? y = some e) (h : Shape.Over (w.Variant n s) d e) (rename : BinderId → BinderId → Ty → WorldM Ty) :
    ∃ y' w' e', Ty.mapChildren (Ty.substBinder fuel old new) rename y w = .ok (y', w') ∧ w ≤ w' ∧
      w'.shape? y' = some e' ∧ Shape.Over (w'.Variant n (s.rename w w' old new)) d e' ∧
      Shape.Over (Renamed w w' old new n) e e' := by
  have hone {a c : Ty} {make : Ty → WorldM Ty} {f : Ty → Shape} (h : w.Variant n s a c)
      (hy : w.shape? y = some (f c)) (hmake : ∀ c, make c = WorldM.intern (f c)) :
      ∃ y' w' c', Ty.rebuild₁ (Ty.substBinder fuel old new) y c make w = .ok (y', w') ∧ w ≤ w' ∧
        w'.shape? y' = some (f c') ∧ w'.Variant n (s.rename w w' old new) a c' ∧ Renamed w w' old new n c c' := by
    obtain ⟨c', w₁, hrun, hle, hv, hr⟩ := hn hstd hpre hs h hfuel
    obtain ⟨y', w', hy', hle', hshape⟩ := rebuild₁_run hle hy hrun (hmake c')
    exact ⟨y', w', c', hy', hle.trans hle', hshape, (hv.grow hle').imp (s.rename_sub w' le_rfl hle'), hr.mono le_rfl hle'⟩
  have htwo {a b c d : Ty} {make : Ty → Ty → WorldM Ty} {f : Ty → Ty → Shape} (ha : w.Variant n s a c)
      (hb : w.Variant n s b d) (hy : w.shape? y = some (f c d))
      (hmake : ∀ c' d' v, (c.Distinct d → c'.Distinct d') → make c' d' v = WorldM.intern (f c' d') v) :
      ∃ y' w' c' d', Ty.rebuild₂ (Ty.substBinder fuel old new) y c d make w = .ok (y', w') ∧ w ≤ w' ∧
        w'.shape? y' = some (f c' d') ∧ w'.Variant n (s.rename w w' old new) a c' ∧ Renamed w w' old new n c c' ∧
        w'.Variant n (s.rename w w' old new) b d' ∧ Renamed w w' old new n d d' ∧ (c.Distinct d → c'.Distinct d') := by
    obtain ⟨c', w₁, d', w₂, hc, hd, hle, hle', hlater, hdistinct⟩ := hn.pair hstd hpre hs hfuel ha hb
    obtain ⟨y', w', hy', hle'', hshape⟩ := rebuild₂_run hle hle' hy hc hd (hmake c' d' w₂ hdistinct)
    obtain ⟨hva, hra, hvb, hrb⟩ := hlater w' hle''
    exact ⟨y', w', c', d', hy', (hle.trans hle').trans hle'', hshape, hva, hra, hvb, hrb, hdistinct⟩
  rw [Ty.mapChildren, get_bind_run, shape_of_shape? hy]
  cases h with
  | named h sym =>
    obtain ⟨y', w', c', hrun, hle, hshape, hv, hr⟩ := hone (f := (.named · sym)) h hy fun _ => rfl
    exact ⟨y', w', _, hrun, hle, hshape, .named hv sym, .named hr sym⟩
  | path h sym =>
    obtain ⟨y', w', c', hrun, hle, hshape, hv, hr⟩ := hone (f := (.path · sym)) h hy fun _ => rfl
    exact ⟨y', w', _, hrun, hle, hshape, .path hv sym, .path hr sym⟩
  | byName h =>
    obtain ⟨y', w', c', hrun, hle, hshape, hv, hr⟩ := hone (f := .byName) h hy fun _ => rfl
    exact ⟨y', w', _, hrun, hle, hshape, .byName hv, .byName hr⟩
  | refined ha name hb =>
    obtain ⟨y', w', c', d', hrun, hle, hshape, hva, hra, hvb, hrb, -⟩ :=
      htwo (f := (.refined · name ·)) ha hb hy fun _ _ _ _ => rfl
    exact ⟨y', w', _, hrun, hle, hshape, .refined hva name hvb, .refined hra name hrb⟩
  | bounds ha hb =>
    obtain ⟨y', w', c', d', hrun, hle, hshape, hva, hra, hvb, hrb, -⟩ :=
      htwo (f := .bounds) ha hb hy fun _ _ _ _ => rfl
    exact ⟨y', w', _, hrun, hle, hshape, .bounds hva hvb, .bounds hra hrb⟩
  | inter hab hcd ha hb =>
    obtain ⟨y', w', c', d', hrun, hle, hshape, hva, hra, hvb, hrb, hdistinct⟩ :=
      htwo (f := .inter) ha hb hy fun _ _ v h => (h hcd).inter_run v
    have hcd' := hdistinct hcd
    exact ⟨y', w', _, hrun, hle, hshape, .inter hab hcd' hva hvb, .inter hcd hcd' hra hrb⟩
  | union hab hcd ha hb =>
    obtain ⟨y', w', c', d', hrun, hle, hshape, hva, hra, hvb, hrb, hdistinct⟩ :=
      htwo (f := .union) ha hb hy fun _ _ v h => (h hcd).union_run v
    have hcd' := hdistinct hcd
    exact ⟨y', w', _, hrun, hle, hshape, .union hab hcd' hva hvb, .union hcd hcd' hra hrb⟩

/-- **A fresh binder for the types inside another one.** They are renamed while no type is made of the fresh binder, so
that filling it in with them changes none of them. -/
theorem RenamesAt.copied (hn : RenamesAt n) {b : BinderId} {kind : BinderKind} (hb : w.binderKind? b = some kind)
    (hinner : ∀ a, s.inner a → (w.binder? a).isSome ∧ a ≠ b) (hrel : ∀ p q, s.rel p q → (w.binder? q).isSome)
    (hfuel : n ≤ fuel) (names : List String) {xs ys : List Ty} {x y : Ty} (hxys : List.Forall₂ (w.Variant n s) xs ys)
    (hxy : w.Variant n s x y) : ∃ c ys' y' w', w ≤ w' ∧ w.Since w' c ∧
      w'.binder? c = some { kind, names, infos := ys', result := y' } ∧
      (∀ {α : Type} (k : BinderId → WorldM α), (do
        let fresh ← WorldM.freshBinder kind names
        let infos ← ys.mapM (Ty.substBinder fuel b fresh)
        let result ← Ty.substBinder fuel b fresh y
        WorldM.fillBinder fresh infos result
        k fresh : WorldM α) w = k c w') ∧
      List.Forall₂ (w'.Variant n { s.rename w w' b c with inner := fun a => (s.inner a ∨ w.Since w' a) ∧ a ≠ c }) xs ys' ∧
      w'.Variant n { s.rename w w' b c with inner := fun a => (s.inner a ∨ w.Since w' a) ∧ a ≠ c } x y' := by
  let c : BinderId := ⟨w.binders.size⟩
  let w₁ : World := { w with binders := w.binders.push { kind, names } }
  have hle₁ : w ≤ w₁ := le_freshBinder w { kind, names }
  have hcnone : w.binder? c = none := Array.getElem?_eq_none (Nat.le_refl _)
  have hcsome : w₁.binder? c = some { kind, names } := by simp [w₁, c, World.binder?]
  have hbsome := isSome_of_binderKind? hb
  have hne {a : BinderId} (ha : (w.binder? a).isSome) : a ≠ c := by
    rintro rfl
    rw [hcnone] at ha
    cases ha
  have hs : s.Admits w₁ b c := by
    refine ⟨hne hbsome, ⟨kind, binderKind?_later hb hle₁, binderKind?_of_binder? hcsome⟩, fun a ha => ?_, fun p q hpq => ?_⟩
    · obtain ⟨ha, hab⟩ := hinner a ha
      exact ⟨isSome_later ha hle₁, hab, hne ha⟩
    · have hq := hrel p q hpq
      exact ⟨isSome_later hq hle₁, hne hq⟩
  obtain ⟨ys', w₂, hys, hle₂, hvys⟩ := hn.list hfuel xs (hstd.grow hle₁) (hle₁.shape hpre) hs
    (hxys.imp fun _ _ h => h.grow hle₁)
  obtain ⟨y', w₃, hy, hle₃, hvy, -⟩ := hn (hstd.grow (hle₁.trans hle₂)) ((hle₁.trans hle₂).shape hpre) (hs.grow hle₂)
    (hxy.grow (hle₁.trans hle₂)) hfuel
  let w₄ : World := { w₃ with binders := w₃.binders.modify c.id fun d => { d with infos := ys', result := y' } }
  have hle₄ : w ≤ w₄ := le_fillBinder (hle₁.trans (hle₂.trans hle₃)) (Nat.le_refl _) ys' y'
  have hcsome₃ := (hle₂.trans hle₃).binder hcsome
  have hcsome₄ : w₄.binder? c = some { kind, names, infos := ys', result := y' } := by
    rw [World.binder?] at hcsome₃
    simp [w₄, World.binder?, Array.getElem?_modify, hcsome₃]
  have hother {a : BinderId} (ha : a ≠ c) : w₄.binder? a = w₃.binder? a := by
    have hid : c.id ≠ a.id := fun h => ha (by cases a; cases h; rfl)
    simp [w₄, World.binder?, Array.getElem?_modify, hid]
  have hkept {a : BinderId} (ha : (w₃.binder? a).isSome) : (w₄.binder? a).isSome := by
    by_cases hac : a = c
    · rw [hac, hcsome₄]
      rfl
    · rwa [hother hac]
  have hlater {u v : Ty} (h : w₃.Variant n (s.rename w₁ w₃ b c) u v) :
      w₄.Variant n { s.rename w w₄ b c with inner := fun a => (s.inner a ∨ w.Since w₄ a) ∧ a ≠ c } u v := by
    have hsub : (s.rename w₁ w₃ b c).Sub w₃
        { s.rename w w₄ b c with inner := fun a => (s.inner a ∨ w.Since w₄ a) ∧ a ≠ c } := by
      refine ⟨?_, fun _ _ _ _ h => h⟩
      rintro a - (ha | ha)
      · exact ⟨.inl ha, hne (hinner a ha).1⟩
      · have hw := ha.mono hle₁ le_rfl
        exact ⟨.inr ⟨hw.1, hkept hw.2⟩, ha.ne (by rw [hcsome]; rfl)⟩
    refine (h.imp hsub).kept id rfl ?_ ?_
    · intro a k hk
      by_cases hac : a = c
      · rw [hac, binderKind?_of_binder? hcsome₃] at hk
        rw [hac, binderKind?_of_binder? hcsome₄, ← hk]
      · rw [binderKind?] at hk ⊢
        rwa [hother hac]
    · rintro a d ⟨-, hac⟩ hd
      rwa [hother hac]
  refine ⟨c, ys', y', w₄, hle₄, ⟨hcnone, by rw [hcsome₄]; rfl⟩, hcsome₄, fun k => ?_, ?_, ?_⟩
  · have hpush : WorldM.freshBinder kind names w = .ok (c, w₁) := rfl
    have hfill : WorldM.fillBinder c ys' y' w₃ = .ok ((), w₄) := rfl
    rw [bind_run hpush, bind_run hys, bind_run hy, bind_run hfill]
  · exact hvys.imp fun _ _ h => hlater ((h.grow hle₃).imp (s.rename_sub w₃ le_rfl hle₃))
  · exact hlater (hvy.imp (s.rename_sub w₃ hle₂ le_rfl))

/-- Renaming inside a binder: the type stays as it is, or it is rebuilt on a fresh binder. -/
theorem RenamesAt.binder (hn : RenamesAt n) (hs : s.Admits w old new) (hfuel : n ≤ fuel) {x y : Ty} {b c : BinderId}
    {d e : Binder} (hx : w.shape? x = some (d.kind.shape b)) (hy : w.shape? y = some (e.kind.shape c))
    (hd : w.binder? b = some d) (he : w.binder? c = some e) (hb : s.inner b) (hc : s.inner c) (hkind : e.kind = d.kind)
    (hnames : e.names = d.names) (hinfos : List.Forall₂ (w.Variant n (s.bind b c)) d.infos e.infos)
    (hresult : w.Variant n (s.bind b c) d.result e.result) :
    ∃ y' w', Ty.rebuildBinder (Ty.substBinder fuel old new) (Ty.substBinder fuel) y c w = .ok (y', w') ∧ w ≤ w' ∧
      w'.Variant (n + 1) (s.rename w w' old new) x y' ∧ Renamed w w' old new (n + 1) y y' := by
  have hbsome : (w.binder? b).isSome := (hs.inner b hb).1
  have hcsome : (w.binder? c).isSome := (hs.inner c hc).1
  obtain ⟨knew, -, hknew⟩ := hs.kinds
  have hs' : (s.bind b c).Admits w old new := by
    refine ⟨hs.ne, hs.kinds, fun a ha => hs.inner a ha.1, ?_⟩
    rintro p q (⟨-, rfl⟩ | ⟨-, -, hpq⟩)
    · exact ⟨hcsome, (hs.inner q hc).2.2⟩
    · exact hs.rel p q hpq
  obtain ⟨infos, w₁, hrun₁, hle₁, hinfos₁⟩ := hn.list hfuel d.infos hstd hpre hs' hinfos
  obtain ⟨result, w₂, hrun₂, hle₂, hresult₂, -⟩ := hn (hstd.grow hle₁) (hle₁.shape hpre) (hs'.grow hle₁)
    (hresult.grow hle₁) hfuel
  have hle := hle₁.trans hle₂
  have hinfos₂ : List.Forall₂ (w₂.Variant n ((s.bind b c).rename w w₂ old new)) d.infos infos :=
    hinfos₁.imp fun _ _ h => (h.grow hle₂).imp ((s.bind b c).rename_sub w₂ le_rfl hle₂)
  replace hresult₂ := hresult₂.imp ((s.bind b c).rename_sub w₂ hle₁ le_rfl)
  -- inside the binders the renaming leaves the pair of them alone
  have hrel {p q : BinderId} (h : ((s.bind b c).rename w w₂ old new).rel p q) :
      p = b ∧ q = c ∨ p ≠ b ∧ q ≠ c ∧ (w.binder? q).isSome ∧ (s.rename w w₂ old new).rel p q := by
    obtain ⟨q₀, ⟨rfl, rfl⟩ | ⟨hp, hq₀, hpq₀⟩, rfl⟩ := h
    · exact .inl ⟨rfl, if_neg (hs.inner _ hc).2.1⟩
    · refine .inr ⟨hp, ?_, ?_, q₀, hpq₀, rfl⟩
      · split
        · exact (hs.inner c hc).2.2.symm
        · exact hq₀
      · split
        · exact isSome_of_binderKind? hknew
        · exact (hs.rel p q₀ hpq₀).1
  rw [Ty.rebuildBinder, get_bind_run, he]
  dsimp only
  rw [bind_run hrun₁, bind_run hrun₂]
  split_ifs with hsame
  · obtain ⟨rfl, rfl⟩ := hsame
    have hsub : ((s.bind b c).rename w w₂ old new).Sub w₂ ((s.rename w w₂ old new).bind b c) := by
      refine ⟨?_, fun p q _ _ h => (hrel h).imp id fun h => ⟨h.1, h.2.1, h.2.2.2⟩⟩
      rintro a - (ha | ha)
      · exact ⟨.inl ha.1, ha.2⟩
      · exact ⟨.inr ha, ha.ne hbsome, ha.ne hcsome⟩
    refine ⟨y, w₂, rfl, hle, ?_, .refl ..⟩
    exact .binder (hle.shape hx) (hle.shape hy) (hle.binder hd) (hle.binder he) (.inl hb) (.inl hc) hkind hnames
      (hinfos₂.imp fun _ _ h => h.imp hsub) (hresult₂.imp hsub)
  · have hinner : ∀ a, ((s.bind b c).rename w w₂ old new).inner a → (w₂.binder? a).isSome ∧ a ≠ c := by
      rintro a (ha | ha)
      · exact ⟨isSome_later (hs.inner a ha.1).1 hle, ha.2.2⟩
      · exact ⟨ha.2, ha.ne hcsome⟩
    have hknown : ∀ p q, ((s.bind b c).rename w w₂ old new).rel p q → (w₂.binder? q).isSome := by
      intro p q h
      rcases hrel h with ⟨-, rfl⟩ | ⟨-, -, hq, -⟩
      · exact isSome_later hcsome hle
      · exact isSome_later hq hle
    obtain ⟨f, infos', result', w₃, hle₃, hf, hf', hrun, hinfos₃, hresult₃⟩ :=
      hn.copied (hstd.grow hle) (hle.shape hpre) (binderKind?_of_binder? (hle.binder he)) hinner hknown hfuel e.names
        hinfos₂ hresult₂
    have hle' := hle.trans hle₃
    rw [hrun, binderType_run (binderKind?_of_binder? hf')]
    let w₄ : World := { w₃ with types := (w₃.types.intern (e.kind.shape f)).2 }
    have hle₄ : w₃ ≤ w₄ := le_intern _ w₃
    have hfnew : w.Since w₄ f := hf.mono hle hle₄
    have hsub : Pairing.Sub w₄ { ((s.bind b c).rename w w₂ old new).rename w₂ w₃ c f with
        inner := fun a => (((s.bind b c).rename w w₂ old new).inner a ∨ w₂.Since w₃ a) ∧ a ≠ f }
        ((s.rename w w₄ old new).bind b f) := by
      refine ⟨?_, ?_⟩
      · rintro a - ⟨(ha | ha) | ha, haf⟩
        · exact ⟨.inl ha.1, ha.2.1, haf⟩
        · exact ⟨.inr (ha.mono le_rfl (hle₃.trans hle₄)), ha.ne hbsome, haf⟩
        · exact ⟨.inr (ha.mono hle hle₄), (ha.mono hle le_rfl).ne hbsome, haf⟩
      · rintro p q - - ⟨q₁, hpq₁, rfl⟩
        rcases hrel hpq₁ with ⟨rfl, rfl⟩ | ⟨hp, hq₁, hsome, hpq⟩
        · exact .inl ⟨rfl, if_pos rfl⟩
        · rw [if_neg hq₁]
          exact .inr ⟨hp, (hfnew.ne hsome).symm, hpq⟩
    have hshape : w₄.shape? (w₃.types.intern (e.kind.shape f)).1 = some (e.kind.shape f) :=
      TypeTable.shape?_intern w₃.types _
    refine ⟨_, w₄, rfl, hle'.trans hle₄, ?_, .binder hshape hfnew⟩
    exact .binder (e := { e with infos := infos', result := result' }) ((hle'.trans hle₄).shape hx) hshape
      ((hle'.trans hle₄).binder hd) (hle₄.binder hf') (.inl hb) (.inr hfnew) hkind hnames
      (hinfos₃.imp fun _ _ h => (h.grow hle₄).imp hsub) ((hresult₃.grow hle₄).imp hsub)

end Steps

/-- **Renaming gives variants.** The induction is on the height; the types inside a binder are renamed twice, the second
time to the fresh binder. -/
theorem renamesAt (n : Nat) : RenamesAt n := by
  induction n with
  | zero =>
    intro w s old new x y fuel _ _ _ h
    exact h.elim
  | succ n ih =>
    intro w s old new x y fuel hstd hpre hs h hfuel
    obtain ⟨fuel, rfl⟩ := Nat.exists_eq_add_of_le' (Nat.le_of_add_left_le hfuel)
    replace hfuel : n ≤ fuel := Nat.le_of_succ_le_succ hfuel
    have hstep {d : Shape} (hy : w.shape? y = some d) (hd : ∀ k p, d ≠ BinderKind.param k p) :
        Ty.substBinder (fuel + 1) old new y w =
          Ty.mapChildren (Ty.substBinder fuel old new) (Ty.substBinder fuel) y w := by
      rw [Ty.substBinder, if_neg hs.ne, get_bind_run, shape_of_shape? hy]
      cases d with
      | param p => exact absurd rfl (hd .universal p)
      | valueParam p => exact absurd rfl (hd (.method {}) p)
      | _ => rfl
    cases h with
    | @leaf d shape isLeaf eq =>
      cases eq
      refine ⟨x, w, ?_, le_rfl, .leaf shape isLeaf rfl, .refl ..⟩
      rw [hstep shape (by rintro (_ | _) p rfl <;> cases isLeaf), Ty.mapChildren, get_bind_run, shape_of_shape? shape]
      cases d <;> first | rfl | cases isLeaf
    | @param p q k i rel kind₁ kind₂ shape₁ shape₂ =>
      have hrun : Ty.substBinder (fuel + 1) old new y w =
          (if q = old then Param.type ⟨new, i⟩ else pure y : WorldM Ty) w := by
        rw [Ty.substBinder, if_neg hs.ne, get_bind_run, shape_of_shape? shape₂]
        cases k <;> rfl
      rw [hrun]
      split_ifs with hq
      · obtain ⟨k', hold, hnew⟩ := hs.kinds
        cases (hq ▸ kind₂).symm.trans hold
        rw [paramType_run hnew]
        have hle : w ≤ { w with types := (w.types.intern (k.param ⟨new, i⟩)).2 } := le_intern _ w
        have hshape := TypeTable.shape?_intern w.types (k.param ⟨new, i⟩)
        refine ⟨_, _, rfl, hle, ?_, .param i (hle.shape (hq ▸ shape₂)) hshape⟩
        exact .param i ⟨q, rel, (if_pos hq).symm⟩ (binderKind?_later kind₁ hle) (binderKind?_later hnew hle)
          (hle.shape shape₁) hshape
      · exact ⟨y, w, rfl, le_rfl, .param i ⟨q, rel, (if_neg hq).symm⟩ kind₁ kind₂ shape₁ shape₂, .refl ..⟩
    | layer shape₁ shape₂ parts operands₁ operands₂ =>
      obtain ⟨y', w', e', hrun, hle, hshape, hparts, hparts'⟩ :=
        ih.layer hstd hpre hs hfuel shape₂ parts (Ty.substBinder fuel)
      have hoperands : ∀ a ∈ e'.operands, w'.Unfolds a := by
        intro c hc
        obtain ⟨a, ha, hv⟩ := hparts.operands c hc
        exact hv.unfolds (hstd.grow hle) ((operands₁ a ha).grow hle)
      refine ⟨y', w', ?_, hle, ?_, .layer (hle.shape shape₂) hshape hparts'⟩
      · rw [hstep shape₂ (by rintro k p rfl; exact not_over_param parts), hrun]
      · exact .layer (hle.shape shape₁) hshape hparts (fun a ha => (operands₁ a ha).grow hle) hoperands
    | @binder b c d e shape₁ shape₂ binder₁ binder₂ inner₁ inner₂ kind names infos result =>
      obtain ⟨y', w', hrun, h⟩ := ih.binder hstd hpre hs hfuel shape₁ shape₂ binder₁ binder₂ inner₁ inner₂ kind names
        infos result
      refine ⟨y', w', ?_, h⟩
      rw [hstep shape₂ fun k p h => param_ne_shape h.symm, Ty.mapChildren, get_bind_run, shape_of_shape? shape₂, ← hrun]
      cases e.kind <;> rfl

end Runs

end Conformance
