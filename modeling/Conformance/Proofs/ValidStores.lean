import Conformance.Proofs.Bearing
import Conformance.Proofs.FilledBinders
import Conformance.Proofs.StaticBases

/-!
# What constraint stores hold

A store is valid in a world if its keys are universal binders, each with a slot for every parameter, and every slot is
cleared or holds bounds (`ConstraintStore.Valid`). Each update of a store keeps it valid: narrowing puts bounds in the
place of bounds, a binder goes with its last open slot, and a choice is put into the remaining bounds by a rewriting that
makes bounds of bounds.

`Inference` is a session together with a comparer whose calls are followed. Whatever is called, a store that starts out
empty stays valid (`Inference.Run.valid`); so parameters can always be put under inference, and there is a choice for a
parameter just when it is in the domain of the store (`Inference.store_valid`).
-/

namespace Conformance

open CompareM

/-! ## Maps -/

namespace InsertionMap

variable {α β : Type} [DecidableEq α] {k : α} {v : β} {e : α × β} {l : List (α × β)}

theorem nodup_put (h : (l.map (·.1)).Nodup) : ((put k v l).map (·.1)).Nodup := by
  induction l with
  | nil => simp [put]
  | cons a l ih =>
    rw [List.map_cons, List.nodup_cons] at h
    rw [put]
    split
    · next hak =>
      rw [List.map_cons, List.nodup_cons]
      exact ⟨hak ▸ h.1, h.2⟩
    · next hak =>
      rw [List.map_cons, List.nodup_cons]
      refine ⟨fun hmem => ?_, ih h.2⟩
      obtain ⟨e, he, hea⟩ := List.mem_map.1 hmem
      rcases mem_put he with rfl | he
      · exact hak hea.symm
      · exact h.1 (List.mem_map.2 ⟨e, he, hea⟩)

theorem lookup_of_mem (hnodup : (l.map (·.1)).Nodup) (h : (k, v) ∈ l) : l.lookup k = some v := by
  induction l with
  | nil => cases h
  | cons a l ih =>
    obtain ⟨x, y⟩ := a
    rw [List.map_cons, List.nodup_cons] at hnodup
    rcases List.mem_cons.1 h with heq | h
    · cases heq
      exact List.lookup_cons_self
    · have hne : k ≠ x := fun hkx => hnodup.1 (List.mem_map.2 ⟨_, h, hkx⟩)
      rw [List.lookup_cons, beq_false_of_ne hne]
      exact ih hnodup.2 h

end InsertionMap

/-! ## Valid stores -/

namespace ConstraintStore

/-- The slots are those of a universal binder: one for each parameter, cleared or holding bounds, and not all of them
cleared if there are any. -/
structure Slotted (w : World) (b : BinderId) (slots : List Ty) : Prop where
  binder : ∃ d, w.binder? b = some d ∧ d.kind = .universal ∧ slots.length = d.arity
  slot : ∀ t ∈ slots, t = .noType ∨ (w.boundsParts? t).isSome
  live : slots ≠ [] → ∃ t ∈ slots, t.present

/-- Each key comes once, with slots that are its own. -/
structure Valid (w : World) (S : ConstraintStore) : Prop where
  nodup : S.slots.keys.Nodup
  slotted : ∀ b slots, (b, slots) ∈ S.slots.entries → Slotted w b slots

variable {w w' : World} {S : ConstraintStore} {b : BinderId} {p : Param} {slots slots' : List Ty} {t : Ty}
  {opened : List BinderId}

theorem isSome_boundsParts?_retained (hw : w.Retains opened w') (h : (w.boundsParts? t).isSome) :
    (w'.boundsParts? t).isSome := by
  obtain ⟨ends, hends⟩ := Option.isSome_iff_exists.1 h
  rw [World.boundsParts?_eq_some_iff] at hends
  exact Option.isSome_iff_exists.2 ⟨ends, World.boundsParts?_eq_some_iff.2 (hw.shape hends)⟩

theorem present_of_bounds (hw : w.Standard) (h : (w.boundsParts? t).isSome) : t.present := by
  obtain ⟨ends, hends⟩ := Option.isSome_iff_exists.1 h
  exact hw.present (World.boundsParts?_eq_some_iff.1 hends) (by simp)

theorem Slotted.retained (h : Slotted w b slots) (hw : w.Retains opened w') : Slotted w' b slots where
  binder := by
    obtain ⟨d, hd, hkind, hlength⟩ := h.binder
    obtain ⟨d', hd', hkind', hnames⟩ := hw.opened hd
    exact ⟨d', hd', hkind'.trans hkind, hlength.trans (congrArg List.length hnames.symm)⟩
  slot t ht := (h.slot t ht).imp_right (isSome_boundsParts?_retained hw)
  live := h.live

namespace Valid

theorem retained (h : S.Valid w) (hw : w.Retains opened w') : S.Valid w' :=
  ⟨h.nodup, fun b slots hb => (h.slotted b slots hb).retained hw⟩

theorem grow (h : S.Valid w) (hle : w ≤ w') : S.Valid w' := h.retained (.of_le hle : w.Retains [] w')

theorem empty (h : S.isEmpty) : S.Valid w := by
  have hentries : S.slots.entries = [] := List.isEmpty_iff.1 h
  refine ⟨?_, fun b slots hb => ?_⟩
  · rw [InsertionMap.keys, hentries]
    exact List.nodup_nil
  · rw [hentries] at hb
    cases hb

theorem slots? (h : S.Valid w) (hslots : S.slots? b = some slots) : Slotted w b slots :=
  h.slotted b slots (InsertionMap.mem_of_find? hslots)

theorem insert (h : S.Valid w) (hb : Slotted w b slots) (n : Nat) : Valid w ⟨S.slots.insert b slots, n⟩ where
  nodup := InsertionMap.nodup_put h.nodup
  slotted c slots' hc := by
    rcases InsertionMap.mem_put hc with heq | hc
    · cases heq
      exact hb
    · exact h.slotted c slots' hc

theorem erase (h : S.Valid w) (b : BinderId) (n : Nat) : Valid w ⟨S.slots.erase b, n⟩ where
  nodup := h.nodup.sublist (List.filter_sublist.map _)
  slotted c slots' hc := h.slotted c slots' (List.mem_of_mem_filter hc)

/-- A parameter is in the domain just when it is still to be chosen. -/
theorem mem_domain_iff (h : S.Valid w) : p ∈ S.domain ↔ (S.bounds? p).isSome := by
  simp only [domain, List.mem_flatMap, List.mem_map, List.mem_filter, bounds?, Option.isSome_iff_exists,
    Option.filter_eq_some_iff, Option.bind_eq_some_iff]
  constructor
  · rintro ⟨⟨b, slots⟩, hb, ⟨t, i⟩, ⟨hi, ht⟩, rfl⟩
    exact ⟨t, ⟨slots, InsertionMap.lookup_of_mem h.nodup hb, List.mk_mem_zipIdx_iff_getElem?.1 hi⟩, ht⟩
  · rintro ⟨t, ⟨slots, hslots, hi⟩, ht⟩
    exact ⟨⟨p.binder, slots⟩, InsertionMap.mem_of_find? hslots, ⟨t, p.index⟩, ⟨List.mk_mem_zipIdx_iff_getElem?.2 hi, ht⟩, rfl⟩

/-- The bounds of a parameter of the domain are bounds. -/
theorem bounds? (h : S.Valid w) (hp : S.bounds? p = some t) : (w.boundsParts? t).isSome := by
  obtain ⟨slots, hslots, hi, ht⟩ := slot_of_bounds hp
  rcases (h.slots? hslots).slot t (List.mem_of_getElem? hi) with rfl | hbounds
  · cases ht
  · exact hbounds

end Valid

/-! ## Updates -/

/-- One slot is changed, bounds being put in the place of whatever it holds. -/
theorem Slotted.set (h : Slotted w b slots) (hw : w.Standard) {i : Nat} (hi : i < slots.length)
    (ht : (w.boundsParts? t).isSome) : Slotted w b (slots.set i t) where
  binder := by
    obtain ⟨d, hd, hkind, hlength⟩ := h.binder
    exact ⟨d, hd, hkind, List.length_set.trans hlength⟩
  slot u hu := by
    rcases List.mem_or_eq_of_mem_set hu with hu | rfl
    · exact h.slot u hu
    · exact .inr ht
  live _ := ⟨t, List.mem_set hi t, present_of_bounds hw ht⟩

/-- One slot is cleared, and there is an open one left. -/
theorem Slotted.clear (h : Slotted w b slots) {i : Nat} (hlive : ∃ t ∈ slots.set i .noType, t.present) :
    Slotted w b (slots.set i .noType) where
  binder := by
    obtain ⟨d, hd, hkind, hlength⟩ := h.binder
    exact ⟨d, hd, hkind, List.length_set.trans hlength⟩
  slot u hu := (List.mem_or_eq_of_mem_set hu).elim (h.slot u) .inl
  live _ := hlive

/-- What takes the place of a slot: a cleared one stays cleared, and bounds are replaced by bounds. -/
structure Replaces (w w' : World) (t t' : Ty) : Prop where
  cleared : t = .noType → t' = .noType
  bounds : (w.boundsParts? t).isSome → (w'.boundsParts? t').isSome

theorem Slotted.replace (h : Slotted w b slots) (hle : w ≤ w') (hw : w'.Standard)
    (hslots : List.Forall₂ (Replaces w w') slots slots') : Slotted w' b slots' where
  binder := by
    obtain ⟨d, hd, hkind, hlength⟩ := h.binder
    exact ⟨d, hle.binder hd, hkind, hslots.length_eq.symm.trans hlength⟩
  slot t' ht' := by
    obtain ⟨t, ht, hreplaces⟩ := World.exists_of_mem_right hslots ht'
    exact (h.slot t ht).imp hreplaces.cleared hreplaces.bounds
  live hne := by
    obtain ⟨t, ht, hlive⟩ := h.live fun hnil => hne (by cases hnil ▸ hslots; rfl)
    obtain ⟨t', ht', hreplaces⟩ := World.exists_of_mem_right hslots.flip ht
    rcases h.slot t ht with rfl | hbounds
    · cases hlive
    · exact ⟨t', ht', present_of_bounds hw (hreplaces.bounds hbounds)⟩

section Making

variable {D : Domain} {w₀ : World} {d : Binder} {fuel : Nat}

theorem makes_ofSlots {m : InsertionMap BinderId (List Ty)} (h : ∀ n, Valid w₀ ⟨m, n⟩) :
    D.Makes w₀ (fun w S => S.Valid w) (ofSlots m) :=
  .bind Domain.makes_freshSnapshot fun _ n hle _ _ => .pure fun _ hle' => (h n).grow (le_trans hle hle')

/-- A universal binder that is complete has the slots that it starts with. -/
theorem slotted_infos (hw : w.Standard) (hb : w.binder? b = some d) (hkind : d.kind = .universal) (hd : d.Complete w) :
    Slotted w b d.infos where
  binder := ⟨d, hb, hkind, hd.length⟩
  slot t ht := .inr (hd.bounds hkind t ht)
  live hne := by
    obtain ⟨t, ht⟩ := List.exists_mem_of_ne_nil _ hne
    exact ⟨t, ht, present_of_bounds hw (hd.bounds hkind t ht)⟩

theorem makes_add (h : S.Valid w₀) (hw : w₀.Standard) (hb : w₀.binder? b = some d) (hkind : d.kind = .universal)
    (hd : d.Complete w₀) : D.Makes w₀ (fun w S => S.Valid w) (S.add b) := by
  unfold add
  split
  · exact .throw
  refine .get_bind fun w hle _ => ?_
  rw [hle.binder hb]
  exact makes_ofSlots fun n => (h.insert (slotted_infos hw hb hkind hd) n).grow hle

theorem makes_without (h : S.Valid w₀) (p : Param) : D.Makes w₀ (fun w S => S.Valid w) (S.without p) := by
  have hsame : D.Makes w₀ (fun w S => S.Valid w) (pure S) := .pure fun _ hle => h.grow hle
  unfold without
  split
  · exact hsame
  · next slots hslots =>
    refine .ite (fun _ => hsame) fun _ => .ite (fun _ => makes_ofSlots fun n => h.erase p.binder n) fun hlive => ?_
    refine makes_ofSlots fun n => h.insert ((h.slots? hslots).clear ?_) n
    simpa using hlive

/-- The slots that are open are rewritten. -/
theorem makes_mapOpenSlots {f : Ty → WorldM Ty} (hf : ∀ (w₀ : World) (t : Ty), w₀.Rewrites t (f t)) (slots : List Ty) :
    World.wellBound.Makes w₀ (fun w slots' => List.Forall₂ (Replaces w₀ w) slots slots') (mapOpenSlots f slots) := by
  refine .mapM_forall₂ (fun hle h => ⟨h.cleared, fun hbounds => isSome_boundsParts?_grow hle (h.bounds hbounds)⟩)
    fun t _ => .ite (fun ht => ?_) fun _ => ?_
  · intro w t' w' hle hw hrun
    obtain ⟨hle', hw', hbounds⟩ := hf w₀ t w t' w' hle hw hrun
    exact ⟨hle', hw', fun hcleared => absurd hcleared (Ty.present_iff.1 ht), hbounds⟩
  · exact .pure fun _ hle => ⟨id, isSome_boundsParts?_grow hle⟩

/-- Choosing a parameter keeps a store valid. -/
theorem makes_subst (h : S.Valid w₀) (hw : w₀.Standard) (p : Param) (r : Ty) :
    World.wellBound.Makes w₀ (fun w S => S.Valid w) (S.subst fuel p r) := by
  refine .bind (makes_without h p) fun w₁ cleared hle₁ _ hcleared => ?_
  have hentries : World.wellBound.Makes w₁ (fun w entries => List.Forall₂
      (fun e e' => e'.1 = e.1 ∧ List.Forall₂ (Replaces w₁ w) e.2 e'.2) cleared.slots.entries entries)
      (cleared.slots.entries.mapM fun e => do return (e.1, ← mapOpenSlots (Ty.substParam p r fuel) e.2)) := by
    refine .mapM_forall₂ (fun hle h => ⟨h.1, h.2.imp fun _ _ h => ⟨h.cleared, fun hbounds =>
      isSome_boundsParts?_grow hle (h.bounds hbounds)⟩⟩) fun e _ => ?_
    refine .bind (makes_mapOpenSlots (World.rewrites_substParam p r fuel) e.2) fun w₂ slots hle₂ _ hslots => ?_
    exact .pure fun w hle => ⟨rfl, hslots.imp fun _ _ h => ⟨h.cleared, fun hbounds =>
      isSome_boundsParts?_grow hle (h.bounds hbounds)⟩⟩
  refine .bind hentries fun w₂ entries hle₂ _ hmapped => .ite (fun _ => .pure fun w hle => ?_) fun _ => ?_
  · exact hcleared.grow (le_trans hle₂ hle)
  · refine makes_ofSlots fun n => ⟨?_, fun b slots hb => ?_⟩
    · have hkeys : cleared.slots.entries.map (·.1) = entries.map (·.1) :=
        List.forall₂_eq_eq_eq ▸ List.forall₂_map_left_iff.2 (List.forall₂_map_right_iff.2 (hmapped.imp fun _ _ h => h.1.symm))
      show (entries.map (·.1)).Nodup
      exact hkeys ▸ hcleared.nodup
    · obtain ⟨e, he, hkey, hslots⟩ := World.exists_of_mem_right hmapped hb
      obtain rfl : b = e.1 := hkey
      exact (hcleared.slotted e.1 e.2 he).replace hle₂ ((hw.grow hle₁).grow hle₂) hslots

end Making

end ConstraintStore

/-! ## Choices are types -/

namespace World

variable {w w₀ w' : World} {t u : Ty} {d : Shape} {fuel : Nat} {p : Param}

/-- No part of the type, binders opened, is the absent type. -/
def Whole (w : World) (t : Ty) : Prop := ∀ u, w.Within t u → w.shape u ≠ .fixed .noType

theorem Whole.child (h : w.Whole t) (hu : u ∈ w.children t) : w.Whole u := fun v hv => h v (.head hu hv)

theorem Whole.shape? (h : w.Whole t) : w.shape? t = some (w.shape t) := shape?_of_shape rfl (h t .refl)

theorem Whole.present (hw : w.Standard) (h : w.Whole t) : t.present := hw.present h.shape? (h t .refl)

theorem whole_of_closed {l : List Ty} (hl : ∀ t ∈ l, w.shape t ≠ .fixed .noType ∧ ∀ u ∈ w.children t, u ∈ l)
    (ht : t ∈ l) : w.Whole t := by
  intro u hu
  have hmem : u ∈ l := by
    induction hu with
    | refl => exact ht
    | tail _ hchild ih => exact (hl _ ih).2 _ hchild
  exact (hl u hmem).1

theorem present_of_intern (hw : w.Standard) (hd : d ≠ .fixed .noType) (hrun : WorldM.intern d w = .ok (t, w')) :
    t.present := by
  cases hrun
  exact (hw.grow (le_intern d w)).present (TypeTable.shape?_intern w.types d) hd

section Rebuilding

variable {f : Ty → WorldM Ty} {rename : BinderId → BinderId → Ty → WorldM Ty}

theorem present_rebuild₁ {make : Ty → WorldM Ty} {a : Ty} (hw : w.Standard) (ht : t.present) (hf : ∀ a, Grows True (f a))
    (hmake : ∀ {v : World} {b u w'}, v.Standard → make b v = .ok (u, w') → u.present)
    (hrun : Ty.rebuild₁ f t a make w = .ok (u, w')) : u.present := by
  obtain ⟨b, w₁, hb, hrun⟩ := bind_ok hrun
  split at hrun
  · cases hrun
    exact ht
  · exact hmake (hw.grow ((hf a).le_of_ok hb)) hrun

/-- What is made of two children may depend on both being there. -/
theorem present_rebuild₂ {make : Ty → Ty → WorldM Ty} {a b : Ty} (hw : w.Standard) (ht : t.present)
    (hf : ∀ a, Grows True (f a)) {P : Ty → Prop} (hP : ∀ {v c w'}, w ≤ v → (f a v = .ok (c, w') ∨ f b v = .ok (c, w')) → P c)
    (hmake : ∀ {v : World} {c d u w'}, v.Standard → P c → P d → make c d v = .ok (u, w') → u.present)
    (hrun : Ty.rebuild₂ f t a b make w = .ok (u, w')) : u.present := by
  obtain ⟨c, w₁, hc, hrun⟩ := bind_ok hrun
  obtain ⟨d, w₂, hd, hrun⟩ := bind_ok hrun
  have hle₁ : w ≤ w₁ := (hf a).le_of_ok hc
  have hle₂ : w₁ ≤ w₂ := (hf b).le_of_ok hd
  split at hrun
  · cases hrun
    exact ht
  · exact hmake ((hw.grow hle₁).grow hle₂) (hP le_rfl (.inl hc)) (hP hle₁ (.inr hd)) hrun

theorem present_rebuildBinder {b : BinderId} (hw : w.Standard) (ht : t.present) (hf : ∀ a, Grows True (f a))
    (hr : ∀ b c a, Grows True (rename b c a)) (hrun : Ty.rebuildBinder f rename t b w = .ok (u, w')) : u.present := by
  have hw' : w'.Standard := hw.grow ((grows_rebuildBinder hf hr t b).le_of_ok hrun)
  rw [Ty.rebuildBinder, get_bind_run] at hrun
  cases hd : w.binder? b with
  | none =>
    rw [hd] at hrun
    cases hrun
    exact ht
  | some d =>
    rw [hd] at hrun
    obtain ⟨infos, w₁, -, hrun⟩ := bind_ok hrun
    obtain ⟨result, w₂, -, hrun⟩ := bind_ok hrun
    split at hrun
    · cases hrun
      exact ht
    · obtain ⟨fresh, w₃, -, hrun⟩ := bind_ok hrun
      obtain ⟨infos', w₄, -, hrun⟩ := bind_ok hrun
      obtain ⟨result', w₅, -, hrun⟩ := bind_ok hrun
      obtain ⟨_, w₆, -, hrun⟩ := bind_ok hrun
      rw [binderType_eq_intern] at hrun
      cases hrun
      refine hw'.present (TypeTable.shape?_intern w₆.types _) fun hd => ?_
      have hparts := parts_binderShape w₆ fresh
      rw [hd] at hparts
      cases hparts

/-- What a type is rebuilt to is there if what its operands are rebuilt to is. -/
theorem present_mapChildren (hw : w.Standard) (ht : t.present) (hf : ∀ a, Grows True (f a))
    (hr : ∀ b c a, Grows True (rename b c a))
    (hoperands : ∀ a b, w.shape t = .inter a b ∨ w.shape t = .union a b →
      ∀ {v c w'}, w ≤ v → (f a v = .ok (c, w') ∨ f b v = .ok (c, w')) → c.present)
    (hrun : Ty.mapChildren f rename t w = .ok (u, w')) : u.present := by
  rw [Ty.mapChildren, get_bind_run] at hrun
  cases hd : w.shape t with
  | named pre s | path pre s | classInfo pre s | byName result =>
    rw [hd] at hrun
    exact present_rebuild₁ hw ht hf (fun hv => present_of_intern hv (by simp)) hrun
  | refined parent name info | bounds lo hi =>
    rw [hd] at hrun
    exact present_rebuild₂ hw ht hf (P := fun _ => True) (fun _ _ => trivial)
      (fun hv _ _ => present_of_intern hv (by simp)) hrun
  | inter a b =>
    rw [hd] at hrun
    exact present_rebuild₂ hw ht hf (hoperands a b (.inl hd)) (fun hv hc hd => present_of_inter hv hc hd) hrun
  | union a b =>
    rw [hd] at hrun
    exact present_rebuild₂ hw ht hf (hoperands a b (.inr hd)) (fun hv hc hd => present_of_union hv hc hd) hrun
  | method b | universal b =>
    rw [hd] at hrun
    exact present_rebuildBinder hw ht hf hr hrun
  | _ =>
    rw [hd] at hrun
    cases hrun
    exact ht

end Rebuilding

/-- What is left of a type when refinements are dropped is a type if the type is whole. -/
theorem present_dropRefinements (hw₀ : w₀.Standard) (n : Nat) : ∀ {t w u w'}, w₀.Whole t → w₀ ≤ w →
    Ty.dropRefinements p n t w = .ok (u, w') → u.present := by
  induction n with
  | zero => exact fun _ _ hrun => nomatch hrun
  | succ n ih =>
    intro t w u w' ht hle hrun
    have hshape : w.shape t = w₀.shape t := shape_of_shape? (hle.shape ht.shape?)
    have hchild {a : Ty} (ha : a ∈ w₀.children t) {v : World} {c : Ty} {v' : World} (hv : w ≤ v)
        (hrun : Ty.dropRefinements p n a v = .ok (c, v')) : c.present := ih (ht.child ha) (le_trans hle hv) hrun
    have hmap {v : World} (hv : w ≤ v) (hshape' : v.shape t = w₀.shape t)
        (hrun : Ty.mapChildren (Ty.dropRefinements p n) (Ty.substBinder n) t v = .ok (u, w')) : u.present := by
      refine present_mapChildren (hw₀.grow (le_trans hle hv)) (ht.present hw₀) (grows_dropRefinements p n)
        (grows_substBinder n) (fun a b hab v' c w' hv' hc => ?_) hrun
      have hmem : a ∈ w₀.children t ∧ b ∈ w₀.children t := by
        rw [hshape'] at hab
        rcases hab with hab | hab <;> simp [children, hab]
      exact hc.elim (hchild hmem.1 (le_trans hv hv')) (hchild hmem.2 (le_trans hv hv'))
    rw [Ty.dropRefinements, get_bind_run] at hrun
    cases hd : w.shape t with
    | refined parent name info =>
      rw [hd] at hrun
      obtain ⟨mentioned, v, hmentions, hrun⟩ := bind_ok hrun
      obtain ⟨-, rfl⟩ := reading_ok hmentions
      cases mentioned with
      | true => exact hchild (by simp [children, ← hshape, hd]) le_rfl hrun
      | false => exact hmap le_rfl hshape hrun
    | _ =>
      rw [hd] at hrun
      exact hmap le_rfl hshape hrun

end World

/-! ## Calls -/

namespace CompareM

section Calls

variable {fuel : Nat} {poly : Ty} {b : BinderId} {d : Binder} {p : Param} {c c' : Comparer} {w w' : World}

theorem replace_run (p : Param) (inst : Ty) (c : Comparer) : replace fuel p inst c = (do
    let store ← c.constraint.subst fuel p inst
    return (store, { c with constraint := store }) : WorldM (ConstraintStore × Comparer)) := by
  simp only [replace, constraint, bind_assoc, pure_bind]
  funext w
  rw [run_get_bind, lift_bind_run]
  rfl

theorem approximate_run (p : Param) (fromBelow : Bool) (c : Comparer) (w : World) :
    approximate fuel p fromBelow c w =
      match (c.constraint.bounds? p).bind w.boundsParts? with
      | none => .ok ((.noType, c), w)
      | some (lo, hi) => (do
        let inst ← Ty.dropRefinements p fuel (if fromBelow then lo else hi)
        let store ← c.constraint.subst fuel p inst
        return (inst, { c with constraint := store }) : WorldM (Ty × Comparer)) w := by
  rw [approximate, run_bind (currentBounds_run p c w)]
  cases hends : (c.constraint.bounds? p).bind w.boundsParts? with
  | none => rfl
  | some ends =>
    obtain ⟨lo, hi⟩ := ends
    dsimp only
    rw [lift_bind_run]
    refine congrFun (congrArg _ (funext fun inst => ?_)) w
    have hdrop : (discard (replace fuel p inst) >>= fun _ => pure inst : CompareM Ty) =
        replace fuel p inst >>= fun _ => pure inst := by
      simp only [discard, map_const, Function.comp_def, bind_map_left]
    rw [hdrop]
    funext w₁
    show Except.bind (replace fuel p inst c w₁) _ = _
    rw [replace_run]
    show Except.bind (Except.bind (c.constraint.subst fuel p inst w₁) _) _ =
      Except.bind (c.constraint.subst fuel p inst w₁) _
    cases c.constraint.subst fuel p inst w₁ <;> rfl

/-- One run beside itself, with a valid store. -/
def ValidAlike : StoreRel := fun w S₁ S₂ => S₁ = S₂ ∧ S₁.Valid w ∧ w.Standard

/-- Narrowing puts bounds in the place of bounds. -/
theorem isSome_boundsInter {a b t : Ty} (hrun : Ty.boundsInter a b w = .ok (t, w')) : (w'.boundsParts? t).isSome := by
  obtain ⟨_, _, -, hrun⟩ := bind_ok hrun
  obtain ⟨_, _, -, hrun⟩ := bind_ok hrun
  obtain ⟨lo, _, -, hrun⟩ := bind_ok hrun
  obtain ⟨hi, w₁, -, hrun⟩ := bind_ok hrun
  cases hrun
  exact Option.isSome_iff_exists.2 ⟨(lo, hi), World.boundsParts?_eq_some_iff.2 (TypeTable.shape?_intern w₁.types _)⟩

theorem supports_validAlike (w₀ : World) : Supports (Region.everything w₀) ValidAlike where
  grow h hle _ := ⟨h.1, h.2.1.grow hle, h.2.2.grow hle⟩
  slots h _ := by rw [h.1]
  open_slot _ _ _ := ⟨trivial, trivial, trivial⟩
  narrow := by
    rintro w w' S₁ _ p slots old bound narrowed ⟨rfl, h, hw⟩ - hslots hold - - - hrun n
    have hle : w ≤ w' := (grows_boundsInter old bound).le_of_ok hrun
    have hi : p.index < slots.length := (List.getElem?_eq_some_iff.1 hold).1
    have hset := ((h.grow hle).slots? hslots).set (hw.grow hle) hi (isSome_boundsInter hrun)
    exact ⟨rfl, (h.grow hle).insert hset n, hw.grow hle⟩

/-- A universal type stands for a universal binder that is complete. -/
theorem universal_of_shape (hw : w.WellBound) (hd : w.shape poly = .universal b) :
    ∃ d, w.binder? b = some d ∧ d.kind = .universal ∧ d.Complete w := by
  obtain ⟨⟨d, hb, hcomplete⟩, hshape⟩ := hw.typed (World.shape?_of_shape hd (by simp)) (List.mem_singleton.2 rfl)
  refine ⟨d, hb, ?_, hcomplete⟩
  rw [World.binderShape, World.binderKind?, hb] at hshape
  cases hkind : d.kind with
  | universal => rfl
  | method flags =>
    rw [Option.map_some, hkind] at hshape
    cases hshape

/-- A copy is a new binder of the same kind. -/
theorem copy_ok {copy : BinderId} (hb : w.binder? b = some d) (hrun : b.copy fuel w = .ok (copy, w')) :
    w.binder? copy = none ∧ ∃ d', w'.binder? copy = some d' ∧ d'.kind = d.kind := by
  rw [BinderId.copy, get_bind_run, hb] at hrun
  obtain ⟨fresh, w₁, hfresh, hrun⟩ := bind_ok hrun
  cases hfresh
  obtain ⟨infos, w₂, hinfos, hrun⟩ := bind_ok hrun
  obtain ⟨result, w₃, hresult, hrun⟩ := bind_ok hrun
  obtain ⟨_, w₄, hfill, hrun⟩ := bind_ok hrun
  cases hfill
  cases hrun
  refine ⟨Array.getElem?_eq_none (Nat.le_refl _), ?_⟩
  have hle₂ := (Grows.mapM (grows_substBinder fuel b _) d.infos : Grows True _).le_of_ok hinfos
  have hle₃ := (grows_substBinder fuel b _ d.result : Grows True _).le_of_ok hresult
  have hnew := hle₃.binder (hle₂.binder (Array.getElem?_push_size : World.binder? { w with
    binders := w.binders.push { kind := d.kind, names := d.names } } ⟨w.binders.size⟩ = _))
  exact ⟨_, (World.binder?_fill hnew _).trans (if_pos rfl), rfl⟩

/-- Whatever is copied is not under inference yet. -/
theorem not_tracks {copy : BinderId} (h : c.constraint.Valid w) (hcopy : w.binder? copy = none) :
    c.constraint.tracks copy = false := by
  by_contra htracks
  obtain ⟨slots, hslots⟩ := Option.isSome_iff_exists.1 (Bool.of_not_eq_false htracks)
  obtain ⟨d, hd, -⟩ := (h.slots? hslots).binder
  rw [hcopy] at hd
  cases hd

theorem makes_copyUniversal (hb : w.binder? b = some d) (hkind : d.kind = .universal) (hd : d.Complete w) :
    World.wellBound.Makes w (fun v copy => ∃ e, v.binder? copy = some e ∧ e.kind = .universal ∧ e.Complete v)
      (b.copy fuel) := by
  intro v copy v' hle hv hrun
  obtain ⟨hle', hv', hfilled⟩ := World.makes_copy b v copy v' hle hv hrun
  obtain ⟨-, e, he, hkind'⟩ := copy_ok (hle.binder hb) hrun
  obtain ⟨e', he', hcomplete⟩ := hfilled ⟨d, hb, hd⟩
  obtain rfl : e = e' := Option.some.inj (he.symm.trans he')
  exact ⟨hle', hv', e, he, hkind'.trans hkind, hcomplete⟩

theorem track_valid {r : Except BuildError Ty} (hw : w.WellBound) (hstd : w.Standard) (h : c.constraint.Valid w)
    (hrun : track fuel poly c w = .ok ((r, c'), w')) : c'.constraint.Valid w' := by
  by_cases hpoly : ∃ b, w.shape poly = .universal b
  · obtain ⟨b, hd⟩ := hpoly
    obtain ⟨d, hb, hkind, hcomplete⟩ := universal_of_shape hw hd
    rw [track_universal hd] at hrun
    refine (Domain.Makes.ite (D := World.wellBound) (P := fun v (r : Except BuildError Ty × Comparer) =>
      r.2.constraint.Valid v) (fun _ => ?_) (fun _ => ?_) w (r, c') w' le_rfl hw hrun).2.2
    · refine .bind (makes_copyUniversal hb hkind hcomplete) fun w₁ copy hle₁ _ hcopy => ?_
      obtain ⟨e, he, hkind', hcomplete'⟩ := hcopy
      refine .bind (ConstraintStore.makes_add (h.grow hle₁) (hstd.grow hle₁) he hkind' hcomplete')
        fun w₂ store hle₂ _ hstore => ?_
      have hfilled : World.wellBound.inside w₂ (.binder copy) := fun c' hc' => by
        cases hc'
        exact ⟨e, hle₂.binder he, hcomplete'.grow hle₂⟩
      exact .bind (Domain.makes_binderType hfilled).runs fun w₃ t hle₃ _ _ =>
        .pure fun v hle => hstore.grow (le_trans hle₃ hle)
    · exact .bind (ConstraintStore.makes_add h hstd hb hkind hcomplete) fun w₂ store _ _ hstore =>
        .pure fun v hle => hstore.grow hle
  · rw [track_other fun b hd => hpoly ⟨b, hd⟩] at hrun
    cases hrun
    exact h

/-- **Calls keep a store valid**, whatever they answer. -/
theorem Operation.valid {α : Type} {m : CompareM α} {a : α} (hm : Operation m) (hw : w.WellBound) (hstd : w.Standard)
    (h : c.constraint.Valid w) (hrun : m c w = .ok ((a, c'), w')) : c'.constraint.Valid w' := by
  cases hm with
  | ask hm =>
    have hstep := hm.inStep_everything w (supports_validAlike w) c c w (Region.holds_base _) ⟨rfl, rfl, h, hstd⟩
    rw [hrun] at hstep
    obtain ⟨-, -, -, -, -, -, -, hvalid, -⟩ := hstep
    exact hvalid
  | track fuel poly => exact track_valid hw hstd h hrun
  | replace fuel p inst =>
    rw [replace_run] at hrun
    obtain ⟨store, w₁, hstore, hrun⟩ := bind_ok hrun
    cases hrun
    exact (ConstraintStore.makes_subst h hstd p inst w _ _ le_rfl hw hstore).2.2
  | approximate fuel p fromBelow =>
    rw [approximate_run] at hrun
    split at hrun
    · cases hrun
      exact h
    · obtain ⟨inst, w₁, hinst, hrun⟩ := bind_ok hrun
      obtain ⟨store, w₂, hstore, hrun⟩ := bind_ok hrun
      cases hrun
      obtain ⟨hle, hw₁, -⟩ := World.wide_wellBound.dropRefinements w p fuel _ w _ w₁ le_rfl hw hinst
      exact (ConstraintStore.makes_subst (h.grow hle) (hstd.grow hle) p _ w₁ _ _ le_rfl hw₁ hstore).2.2

theorem grows_ofSlots (slots : InsertionMap BinderId (List Ty)) : Grows True (ConstraintStore.ofSlots slots) :=
  .bind grows_freshSnapshot fun _ => .pure _

theorem grows_add {S : ConstraintStore} (hb : S.tracks b = false) : Grows True (S.add b) := by
  unfold ConstraintStore.add
  rw [hb]
  refine .get_bind fun w => ?_
  split
  · exact .pure _
  · exact grows_ofSlots _

/-- Putting a universal type under inference breaks no rule of use: its binder is not under inference, or is copied. -/
theorem track_error {e : Halt} (h : c.constraint.Valid w) (hw : w.WellBound)
    (hrun : track fuel poly c w = .error e) : e = .outOfFuel := by
  by_cases hpoly : ∃ b, w.shape poly = .universal b
  · obtain ⟨b, hd⟩ := hpoly
    obtain ⟨d, hb, -⟩ := universal_of_shape hw hd
    rw [track_universal hd] at hrun
    split at hrun
    · change Except.bind (b.copy fuel w) _ = _ at hrun
      cases hcopy : b.copy fuel w with
      | error e' =>
        rw [hcopy] at hrun
        cases hrun
        exact (grows_copy fuel b).error hcopy
      | ok r =>
        obtain ⟨copy, w₁⟩ := r
        rw [hcopy] at hrun
        have hfresh := not_tracks h (copy_ok hb hcopy).1
        exact (Grows.bind (grows_add hfresh) (fun _ => .bind (grows_binderType copy) fun _ => .pure _)).error hrun
    · next hb =>
      exact (Grows.bind (grows_add (Bool.eq_false_iff.2 hb)) fun _ => .pure _).error hrun
  · rw [track_other fun b hd => hpoly ⟨b, hd⟩] at hrun
    cases hrun

/-- There is no choice for a parameter outside the domain, and nothing is done. -/
theorem approximate_outside (h : c.constraint.Valid w) (hp : p ∉ c.constraint.domain) (fromBelow : Bool) :
    approximate fuel p fromBelow c w = .ok ((.noType, c), w) := by
  rw [h.mem_domain_iff, Bool.not_eq_true, Option.isSome_eq_false_iff, Option.isNone_iff_eq_none] at hp
  rw [approximate_run, hp]
  rfl

theorem grows_subst (S : ConstraintStore) (r : Ty) : Grows True (S.subst fuel p r) := by
  have hwithout : Grows True (S.without p) := by
    unfold ConstraintStore.without
    split
    · exact .pure _
    · exact .ite (.pure _) (.ite (grows_ofSlots _) (grows_ofSlots _))
  refine .bind hwithout fun cleared => .bind (.mapM (fun e => ?_) _) fun _ => .ite (.pure _) (grows_ofSlots _)
  exact .bind (.mapM (fun t => .ite (grows_substParam p r fuel t) (.pure _)) _) fun _ => .pure _

/-- The choice for a parameter of the domain is a type, if its bounds are whole. -/
theorem approximate_inside (h : c.constraint.Valid w) (hw : w.Standard) (hp : p ∈ c.constraint.domain)
    (hwhole : ∀ t, c.constraint.bounds? p = some t → w.Whole t) (fromBelow : Bool) :
    approximate fuel p fromBelow c w = .error .outOfFuel ∨
      ∃ inst c' w', approximate fuel p fromBelow c w = .ok ((inst, c'), w') ∧ inst ≠ .noType := by
  obtain ⟨t, ht⟩ := Option.isSome_iff_exists.1 (h.mem_domain_iff.1 hp)
  obtain ⟨⟨lo, hi⟩, hends⟩ := Option.isSome_iff_exists.1 (h.bounds? ht)
  have hshape : w.shape t = .bounds lo hi := World.shape_of_shape? (World.boundsParts?_eq_some_iff.1 hends)
  have hend : w.Whole (if fromBelow then lo else hi) := by
    refine (hwhole t ht).child ?_
    rw [World.children, hshape]
    cases fromBelow <;> simp
  rw [approximate_run, ht, Option.bind_some, hends]
  dsimp only
  generalize hrun : ((do
    let inst ← Ty.dropRefinements p fuel (if fromBelow then lo else hi)
    let store ← c.constraint.subst fuel p inst
    return (inst, { c with constraint := store })) : WorldM (Ty × Comparer)) w = r
  rcases r with e | ⟨⟨inst, c'⟩, w'⟩
  · have hfuel : e = .outOfFuel := Grows.error (.bind (grows_dropRefinements p fuel _) fun inst =>
      .bind (grows_subst c.constraint inst) fun _ => .pure _) hrun
    exact .inl (congrArg _ hfuel)
  · obtain ⟨inst', w₁, hinst, hrun⟩ := bind_ok hrun
    obtain ⟨store, w₂, -, hrun⟩ := bind_ok hrun
    cases hrun
    exact .inr ⟨_, _, _, rfl, Ty.present_iff.1 (World.present_dropRefinements hw fuel hend le_rfl hinst)⟩

end Calls

end CompareM

/-! ## Runs -/

namespace World

variable {w w' : World} {opened : List BinderId}

theorem Standard.retained (h : w.Standard) (hw : w.Retains opened w') : w'.Standard where
  absent := hw.shape h.absent
  shape b := hw.shape (h.shape b)
  declared b := by
    obtain ⟨d, hd, heq⟩ := Option.map_eq_some_iff.1 (h.declared b)
    obtain ⟨d', hd', hheading⟩ := hw.decls hd
    simp only [Declaration.heading, Prod.mk.injEq] at hheading
    rw [hd', Option.map_some, ← heq, hheading.1, hheading.2.1, hheading.2.2.2.1]

end World

/-- A session, and the comparer whose calls are followed. -/
structure Inference where
  session : Session
  comparer : Comparer

namespace Inference

/-- The comparer is called, or something else is done. -/
inductive Step : Inference → Inference → Prop
  | call {α : Type} {m : CompareM α} {a : α} {c c' : Comparer} {w w' : World} {opened : List BinderId}
    (hm : Operation m) (hrun : m c w = .ok ((a, c'), w')) : Step ⟨⟨w, opened⟩, c⟩ ⟨⟨w', opened⟩, c'⟩
  | session {s s' : Session} {c : Comparer} (h : s.Step s') : Step ⟨s, c⟩ ⟨s', c⟩

/-- Any number of calls. -/
def Run : Inference → Inference → Prop := Relation.ReflTransGen Step

/-- The binders of the world are complete, and the store is valid there. -/
structure Sound (i : Inference) : Prop where
  wellBound : i.session.world.WellBound
  standard : i.session.world.Standard
  valid : i.comparer.constraint.Valid i.session.world

variable {i i' : Inference}

/-- One call keeps the store valid. -/
theorem Step.sound (h : Step i i') (hi : i.Sound) : i'.Sound := by
  cases h with
  | @call _ _ _ c c' w w' _ hm hrun =>
    obtain ⟨hle, hw, -⟩ := hm.runs World.wide_wellBound c w w _ w' le_rfl hi.wellBound hrun
    exact ⟨hw, hi.standard.grow hle, hm.valid hi.wellBound hi.standard hi.valid hrun⟩
  | session h =>
    have hretains := h.continues.retains
    exact ⟨h.wellBound hi.wellBound, hi.standard.retained hretains, hi.valid.retained hretains⟩

theorem Run.sound (h : Run i i') (hi : i.Sound) : i'.Sound := by
  induction h with
  | refl => exact hi
  | tail _ hstep ih => exact hstep.sound ih

/-- **Stores stay valid.** A comparer with nothing under inference, called any number of times in any world that is
reached call by call, has a valid store. So no rule of use is broken where a type is put under inference, and there is a
choice for a parameter just when it is in the domain of the store, if its bounds are whole. -/
theorem store_valid {s : Session} {c : Comparer} (hs : Session.Run .initial s) (hc : c.constraint.isEmpty)
    (h : Run ⟨s, c⟩ i) :
    i.comparer.constraint.Valid i.session.world ∧
      (∀ fuel poly e, track fuel poly i.comparer i.session.world = .error e → e = .outOfFuel) ∧
      (∀ fuel p fromBelow, p ∉ i.comparer.constraint.domain →
        approximate fuel p fromBelow i.comparer i.session.world = .ok ((.noType, i.comparer), i.session.world)) ∧
      ∀ fuel p fromBelow, p ∈ i.comparer.constraint.domain →
        (∀ t, i.comparer.constraint.bounds? p = some t → i.session.world.Whole t) →
        approximate fuel p fromBelow i.comparer i.session.world = .error .outOfFuel ∨
          ∃ inst c' w', approximate fuel p fromBelow i.comparer i.session.world = .ok ((inst, c'), w') ∧
            inst ≠ .noType := by
  have hstart : Sound ⟨s, c⟩ :=
    ⟨hs.wellBound World.wellBound_initial, World.standard_initial.retained hs.continues.retains, .empty hc⟩
  have hi := h.sound hstart
  exact ⟨hi.valid, fun fuel poly e => track_error hi.valid hi.wellBound, fun fuel p fromBelow hp =>
    approximate_outside hi.valid hp fromBelow, fun fuel p fromBelow hp hwhole =>
    approximate_inside hi.valid hi.standard hp hwhole fromBelow⟩

/-- The world of the unbounded `X` is reached by opening its binder, making the parameter and finishing the binder. -/
theorem run_leastWorld : Session.Run .initial ⟨SoleParam.leastWorld, []⟩ := by
  let w₁ : World := { World.initial with binders := World.initial.binders.push { kind := .universal, names := ["X"] } }
  let w₂ : World := { w₁ with types := (w₁.types.intern (.param ⟨⟨0⟩, 0⟩)).2 }
  have hstart : Session.Step .initial ⟨w₁, [⟨0⟩]⟩ := .start .universal ["X"] rfl
  have hparams : Session.Step ⟨w₁, [⟨0⟩]⟩ ⟨w₂, [⟨0⟩]⟩ := .call (.add (.paramTypes ⟨0⟩)) rfl
  have hbinder : w₂.binder? ⟨0⟩ = some { kind := .universal, names := ["X"] } := rfl
  have hfinish : Session.Step ⟨w₂, [⟨0⟩]⟩ ⟨SoleParam.leastWorld, []⟩ := .finish [⟨14⟩] ⟨15⟩ hbinder rfl
  exact .head hstart (.head hparams (.single hfinish))

/-- `X` is put under inference, and narrowed by `Int` from below. It is in the domain then, and there is a choice for
it. -/
theorem store_valid_narrowed : ∃ (c : Comparer) (i : Inference) (p : Param),
    Session.Run .initial ⟨SoleParam.leastWorld, []⟩ ∧ c.constraint.isEmpty ∧ Run ⟨⟨SoleParam.leastWorld, []⟩, c⟩ i ∧
      i.comparer.constraint.domain = [p] ∧ (∀ t, i.comparer.constraint.bounds? p = some t → i.session.world.Whole t) ∧
      i.comparer.constraint.Valid i.session.world ∧
      ∃ inst c' w', approximate 6 p true i.comparer i.session.world = .ok ((inst, c'), w') ∧ inst ≠ .noType := by
  let c : Comparer := { SoleParam.leastComparer with constraint := ⟨{}, 0⟩ }
  let w₁ : World := { SoleParam.leastWorld with snapshots := 1 }
  let p : Param := ⟨⟨0⟩, 0⟩
  let parts : List Ty := [⟨18⟩, Builtin.int.type, Builtin.any.type, .noPrefix]
  have htrack : track 6 ⟨16⟩ c SoleParam.leastWorld = .ok ((.ok ⟨16⟩, SoleParam.leastComparer), w₁) := rfl
  obtain ⟨⟨⟨answer, c₂⟩, w₂⟩, hnarrow, hchecked⟩ := exists_of_map (x := isSubType 6 Builtin.int.type SoleParam.least.x
    SoleParam.leastComparer w₁) (b := true) (f := fun r => decide (r.1.2.constraint.slots.entries = [(⟨0⟩, [⟨18⟩])] ∧
      (∀ t ∈ parts, r.2.shape t ≠ .fixed .noType ∧ ∀ u ∈ r.2.children t, u ∈ parts) ∧
      (approximate 6 p true r.1.2 r.2).toOption.isSome)) (by decide +kernel)
  obtain ⟨hstore, hparts, happroximate⟩ := of_decide_eq_true hchecked
  have hrun : Run ⟨⟨SoleParam.leastWorld, []⟩, c⟩ ⟨⟨w₂, []⟩, c₂⟩ :=
    .head (.call (.track 6 ⟨16⟩) htrack) (.single (.call (.ask (.subType Builtin.int.type SoleParam.least.x)) hnarrow))
  have hentries : c₂.constraint.slots = ⟨[(⟨0⟩, [⟨18⟩])]⟩ := congrArg InsertionMap.mk hstore
  have hdomain : c₂.constraint.domain = [p] := by
    rw [ConstraintStore.domain, hentries]
    rfl
  have hwhole : ∀ t, c₂.constraint.bounds? p = some t → w₂.Whole t := by
    intro t ht
    rw [ConstraintStore.bounds?, ConstraintStore.slots?, hentries] at ht
    obtain rfl : ⟨18⟩ = t := Option.some.inj ht
    exact World.whole_of_closed hparts List.mem_cons_self
  obtain ⟨hvalid, -, -, hpresent⟩ := store_valid run_leastWorld rfl hrun
  refine ⟨c, _, p, run_leastWorld, rfl, hrun, hdomain, hwhole, hvalid, ?_⟩
  refine (hpresent 6 p true (hdomain ▸ List.mem_singleton.2 rfl) hwhole).resolve_left fun hfuel => ?_
  rw [hfuel] at happroximate
  cases happroximate

end Inference

end Conformance
