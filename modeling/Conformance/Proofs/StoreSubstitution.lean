import Conformance.Proofs.FiniteTypes
import Conformance.Proofs.ValidStores

/-!
# Choosing a parameter

`ConstraintStore.subst` clears the slot of the parameter, drops its binder if that was the last open slot, and puts the
choice in place of the parameter in all other open slots (`ConstraintStore.SlotsAfter`). So the domain loses the
parameter and nothing else, the bounds of each other parameter are what `Ty.substParam` makes of the old ones, those
that do not mention the parameter are kept, and if the choice does not mention the parameter, nothing does any more
(`ConstraintStore.subst_spec`).

Bounds are rewritten one after the other, each in the world that the ones before have left; by itself each would be
rewritten to the same up to the handles that are given out on the way (`sim_substParam`).
-/

namespace Conformance

/-! ## Runs inside a computation -/

/-- Somewhere between `w` and `w'` the computation was run, and gave `a`. -/
def Ran {α : Type} (w w' : World) (m : WorldM α) (a : α) : Prop := ∃ v v', w ≤ v ∧ v' ≤ w' ∧ m v = .ok (a, v')

theorem Ran.mono {α : Type} {w w₀ w' v' : World} {m : WorldM α} {a : α} (h : Ran w w' m a) (hw : w₀ ≤ w) (hw' : w' ≤ v') :
    Ran w₀ v' m a := by
  obtain ⟨v, v₁, hv, hv₁, hrun⟩ := h
  exact ⟨v, v₁, hw.trans hv, hv₁.trans hw', hrun⟩

/-- The members of a list are run one after the other. -/
theorem makes_mapM_ran {α β : Type} {f : α → WorldM β} (hf : ∀ a, Grows True (f a)) (w₀ : World) (l : List α) :
    Domain.all.Makes w₀ (fun w bs => List.Forall₂ (fun a b => Ran w₀ w (f a) b) l bs) (l.mapM f) :=
  .mapM_forall₂ (fun hle h => h.mono le_rfl hle) fun a _ w _ w' hle _ hrun =>
    ⟨(hf a).le_of_ok hrun, trivial, w, w', hle, le_rfl, hrun⟩

section Likewise

variable {loose : Prop} {ρ : Corr} {b c : BinderId} {r₁ r₂ : Ty} {i : Nat}

/-- Replacing a parameter goes alike for paired parameters and replacements. -/
theorem sim_substParam {n m : Nat} (ho : ρ.opens) (hnm : loose ∨ n ≤ m) (hb : ρ.Scope b c) (hr : ρ.ty r₁ r₂) :
    Likewise loose ρ Corr.ty (Ty.substParam ⟨b, i⟩ r₁ n) (Ty.substParam ⟨c, i⟩ r₂ m) := by
  induction n generalizing m ρ with
  | zero => exact fun _ _ _ _ _ => .halt _
  | succ n ih =>
    intro σ hσ t₁ t₂ ht
    cases m with
    | zero => exact .halt_right (hnm.resolve_right (by omega)) _
    | succ m =>
      have hnm : loose ∨ n ≤ m := hnm.imp_right (by omega)
      refine .get_bind fun τ w₁ w₂ hτ hM => ?_
      have hρ := hσ.trans hτ
      have ht := hτ.ty ht
      have hshape := hM.shape ht
      have hb := hb.mono hρ
      have hr := hρ.ty hr
      have ho := hρ.opens ho
      have hchildren := sim_mapChildren ho (ih ho hnm hb hr) (sim_substBinder ho hnm) ht
      generalize w₁.shape t₁ = d₁, w₂.shape t₂ = d₂ at hshape ⊢
      cases hshape with
      | @param b' c' hp j =>
        have hiff : (⟨b', j⟩ : Param) = ⟨b, i⟩ ↔ (⟨c', j⟩ : Param) = ⟨c, i⟩ := by
          rw [Param.mk.injEq, Param.mk.injEq, hM.scope_inj hp hb]
        exact .ite hiff (.pure_ty hr) (.pure_ty ht)
      | _ => exact hchildren

/-- What was made somewhere later is, up to the choice of handles, what is made here. -/
theorem Ran.here {w w' : World} {p : Param} {r t t' : Ty} {fuel : Nat} (hw : w.Closed) (hp : (w.binder? p.binder).isSome)
    (hr : w.Has r) (ht : w.Has t) (h : Ran w w' (Ty.substParam p r fuel t) t') :
    ∃ u v σ, Ty.substParam p r fuel t w = .ok (u, v) ∧ Corr.identity w ≤ σ ∧ σ.Matches v w' ∧ σ.ty u t' := by
  obtain ⟨v₁, v₂, hv₁, hv₂, hrun⟩ := h
  have hM : (Corr.identity w).Matches v₁ w := hw.identity_matches.grow hv₁ le_rfl
  have kb : (Corr.identity w).Scope p.binder p.binder := .inl ⟨trivial, rfl, hp⟩
  have kr : (Corr.identity w).ty r r := ⟨rfl, hr⟩
  have hsim : Sim False (Corr.identity w) Corr.ty (Ty.substParam p r fuel t) (Ty.substParam p r fuel t) :=
    sim_substParam trivial (.inr le_rfl) kb kr _ le_rfl _ _ ⟨rfl, ht⟩
  obtain ⟨u, v, σ, hrun', hσ, hM', htu⟩ := (hsim _ _ _ le_rfl hM).ends hrun
  have hσ' : (Corr.identity w).symm ≤ σ.symm := ⟨hσ.base₂, hσ.base₁, hσ.ty, hσ.binder, hσ.params, hσ.skolem, hσ.sym,
    hσ.var, hσ.opens⟩
  have hid : Corr.identity w ≤ σ.symm := by
    refine ⟨hσ.base₂, hσ.base₁, fun h => hσ.ty ?_, fun h => hσ.binder ?_, fun h => h.elim, fun h => hσ.skolem ?_, hσ.sym, hσ.var,
      hσ.opens⟩
    · exact ⟨h.1.symm, h.1 ▸ h.2⟩
    · exact ⟨h.1.symm, h.1 ▸ h.2⟩
    · exact ⟨h.1.symm, h.1 ▸ h.2⟩
  exact ⟨u, v, σ.symm, hrun', hid, hM'.symm.grow le_rfl hv₂, htu⟩

end Likewise

namespace ConstraintStore

variable {w w' w₁ : World} {S S' S₁ : ConstraintStore} {b : BinderId} {p q : Param} {r t t' : Ty} {slots slots' : List Ty}
  {fuel n k : Nat}

/-! ## Clearing a slot -/

/-- The slots of `b`, with that of `p` cleared if it is among them. -/
def cleared (p : Param) (b : BinderId) (slots : List Ty) : List Ty :=
  if b = p.binder then slots.set p.index .noType else slots

/-- Of the slots of `b` only that of `p` is still open. -/
def Exhausts (p : Param) (b : BinderId) (slots : List Ty) : Prop :=
  b = p.binder ∧ (∃ t, slots[p.index]? = some t ∧ t.present) ∧ ∀ t ∈ cleared p b slots, t = .noType

@[simp] theorem cleared_own (p : Param) (slots : List Ty) :
    cleared p p.binder slots = slots.set p.index .noType := if_pos rfl

theorem cleared_other (h : b ≠ p.binder) (slots : List Ty) : cleared p b slots = slots := if_neg h

theorem getElem?_cleared (hq : q ≠ p) (slots : List Ty) : (cleared p q.binder slots)[q.index]? = slots[q.index]? := by
  rw [cleared]
  split
  · next heq =>
    rw [List.getElem?_set_ne]
    intro hindex
    exact hq (by obtain ⟨b, i⟩ := q; obtain ⟨c, j⟩ := p; simp_all)
  · rfl

theorem mem_of_mem_cleared (ht : t ∈ cleared p b slots) (habsent : t ≠ .noType) : t ∈ slots := by
  rw [cleared] at ht
  split_ifs at ht
  · exact (List.mem_or_eq_of_mem_set ht).resolve_right habsent
  · exact ht

/-- Clearing a slot that is not open changes nothing. -/
theorem set_of_closed {i : Nat} (h : ((slots[i]?).filter (·.present)).isNone) : slots.set i .noType = slots := by
  by_cases hi : i < slots.length
  · rw [List.getElem?_eq_getElem hi] at h
    have habsent : slots[i] = .noType := by simpa using h
    rw [← habsent, List.set_getElem_self]
  · exact List.set_eq_of_length_le (by omega)

/-- What becomes of the slots of a binder. -/
theorem without_slots (hrun : S.without p w = .ok (S₁, w₁)) (b : BinderId) :
    S.slots? b = none ∧ S₁.slots? b = none ∨ ∃ slots, S.slots? b = some slots ∧
      (Exhausts p b slots ∧ S₁.slots? b = none ∨ ¬ Exhausts p b slots ∧ S₁.slots? b = some (cleared p b slots)) := by
  have hother (hb : b ≠ p.binder) (hsame : S₁.slots? b = S.slots? b) : S.slots? b = none ∧ S₁.slots? b = none ∨
      ∃ slots, S.slots? b = some slots ∧ (Exhausts p b slots ∧ S₁.slots? b = none ∨
        ¬ Exhausts p b slots ∧ S₁.slots? b = some (cleared p b slots)) := by
    cases hslots : S.slots? b with
    | none => exact .inl ⟨rfl, hsame.trans hslots⟩
    | some slots =>
      exact .inr ⟨slots, rfl, .inr ⟨fun h => hb h.1, (hsame.trans hslots).trans (by rw [cleared_other hb])⟩⟩
  by_cases hb : b = p.binder
  · subst hb
    rw [without] at hrun
    cases hslots : S.slots? p.binder with
    | none =>
      rw [hslots] at hrun
      cases hrun
      exact .inl ⟨rfl, hslots⟩
    | some slots =>
      rw [hslots] at hrun
      refine .inr ⟨slots, rfl, ?_⟩
      dsimp only at hrun
      split_ifs at hrun with hclosed hall
      · cases hrun
        refine .inr ⟨fun h => ?_, ?_⟩
        · obtain ⟨-, ⟨t, ht, hpresent⟩, -⟩ := h
          rw [ht] at hclosed
          simp [Option.filter, hpresent] at hclosed
        · rw [cleared_own, set_of_closed hclosed, hslots]
      · cases hrun
        refine .inl ⟨⟨rfl, ?_, ?_⟩, ?_⟩
        · simp only [Option.isNone_iff_eq_none, Option.filter_eq_none_iff, not_forall] at hclosed
          obtain ⟨t, ht, hpresent⟩ := hclosed
          exact ⟨t, ht, by simpa using hpresent⟩
        · rw [cleared_own]
          simpa using hall
        · exact (InsertionMap.find?_erase _ _ _).trans (if_pos rfl)
      · cases hrun
        refine .inr ⟨fun h => hall ?_, ?_⟩
        · have hcleared := h.2.2
          rw [cleared_own] at hcleared
          simpa using hcleared
        · rw [cleared_own]
          exact (InsertionMap.find?_insert _ _ _ _).trans (if_pos rfl)
  · refine hother hb ?_
    rw [without] at hrun
    cases hslots : S.slots? p.binder with
    | none =>
      rw [hslots] at hrun
      cases hrun
      rfl
    | some slots =>
      rw [hslots] at hrun
      dsimp only at hrun
      split_ifs at hrun with hclosed hall
      · cases hrun
        rfl
      · cases hrun
        exact (InsertionMap.find?_erase _ _ _).trans (if_neg hb)
      · cases hrun
        exact (InsertionMap.find?_insert _ _ _ _).trans (if_neg hb)

/-! ## What a choice does to the slots -/

/-- What is put in the place of a slot. -/
def SlotAfter (w w' : World) (fuel : Nat) (p : Param) (r t t' : Ty) : Prop :=
  if t = .noType then t' = .noType else Ran w w' (Ty.substParam p r fuel t) t'

theorem SlotAfter.mono {w₀ v' : World} (h : SlotAfter w w' fuel p r t t') (hw : w₀ ≤ w) (hw' : w' ≤ v') :
    SlotAfter w₀ v' fuel p r t t' := by
  rw [SlotAfter] at h ⊢
  split_ifs at h ⊢
  · exact h
  · exact h.mono hw hw'

/-- What becomes of the slots of `b` when `p` is chosen to be `r`. -/
inductive SlotsAfter (w w' : World) (fuel : Nat) (p : Param) (r : Ty) (b : BinderId) :
    Option (List Ty) → Option (List Ty) → Prop
  | untracked : SlotsAfter w w' fuel p r b none none
  | dropped {slots : List Ty} (h : Exhausts p b slots) : SlotsAfter w w' fuel p r b (some slots) none
  | kept {slots slots' : List Ty} (h : ¬ Exhausts p b slots)
    (hslots : List.Forall₂ (SlotAfter w w' fuel p r) (cleared p b slots) slots') :
    SlotsAfter w w' fuel p r b (some slots) (some slots')

theorem makes_slotsAfter (w₀ : World) (fuel : Nat) (p : Param) (r : Ty) (slots : List Ty) :
    Domain.all.Makes w₀ (fun w slots' => List.Forall₂ (SlotAfter w₀ w fuel p r) slots slots')
      (mapOpenSlots (Ty.substParam p r fuel) slots) := by
  refine .mapM_forall₂ (fun hle h => h.mono le_rfl hle) fun t _ => .ite (fun ht => ?_) fun ht => .pure fun v _ => ?_
  · intro w t' w' hle _ hrun
    have hslot : SlotAfter w₀ w' fuel p r t t' := by
      rw [SlotAfter, if_neg (Ty.present_iff.1 ht)]
      exact ⟨w, w', hle, le_rfl, hrun⟩
    exact ⟨(grows_substParam p r fuel t).le_of_ok hrun, trivial, hslot⟩
  · rw [Bool.not_eq_true, Ty.present_eq_false_iff] at ht
    have hslot : SlotAfter w₀ v fuel p r t t := by
      rw [SlotAfter, if_pos ht]
      exact ht
    exact hslot

/-- A value for each key, in the same order. -/
theorem lookup_of_forall₂ {α β : Type} [DecidableEq α] {R : β → β → Prop} {l l' : List (α × β)} {x : α}
    (h : List.Forall₂ (fun e e' => e'.1 = e.1 ∧ R e.2 e'.2) l l') :
    l.lookup x = none ∧ l'.lookup x = none ∨ ∃ v v', l.lookup x = some v ∧ l'.lookup x = some v' ∧ R v v' := by
  induction h with
  | nil => exact .inl ⟨rfl, rfl⟩
  | @cons e e' l l' he _ ih =>
    obtain ⟨a, v⟩ := e
    obtain ⟨a', v'⟩ := e'
    obtain ⟨rfl, hv⟩ := he
    rw [List.lookup_cons, List.lookup_cons]
    by_cases hx : x == a'
    · rw [hx]
      exact .inr ⟨v, v', rfl, rfl, hv⟩
    · rw [Bool.not_eq_true] at hx
      rw [hx]
      exact ih

/-- **What becomes of the slots**, binder by binder; no key comes twice. -/
theorem subst_slots (h : S.Valid w) (hrun : S.subst fuel p r w = .ok (S', w')) :
    w ≤ w' ∧ S'.slots.keys.Nodup ∧ ∀ b, SlotsAfter w w' fuel p r b (S.slots? b) (S'.slots? b) := by
  obtain ⟨S₁, w₁, hwithout, hrun⟩ := bind_ok hrun
  obtain ⟨hle₁, -, hvalid⟩ := makes_without (D := Domain.all) h p w S₁ w₁ le_rfl trivial hwithout
  obtain ⟨mapped, w₂, hmapped, hrun⟩ := bind_ok hrun
  have hentries : Domain.all.Makes w₁ (fun v entries => List.Forall₂
      (fun e e' => e'.1 = e.1 ∧ List.Forall₂ (SlotAfter w₁ v fuel p r) e.2 e'.2) S₁.slots.entries entries)
      (S₁.slots.entries.mapM fun e => do return (e.1, ← mapOpenSlots (Ty.substParam p r fuel) e.2)) := by
    refine .mapM_forall₂ (fun hle h => ⟨h.1, h.2.imp fun _ _ h => h.mono le_rfl hle⟩) fun e _ => ?_
    exact .bind (makes_slotsAfter w₁ fuel p r e.2) fun v slots hle _ hslots => .pure fun v' hle' =>
      ⟨rfl, hslots.imp fun _ _ h => h.mono le_rfl hle'⟩
  obtain ⟨hle₂, -, hforall⟩ := hentries w₁ mapped w₂ le_rfl trivial hmapped
  obtain ⟨hle₃, hS'⟩ : w₂ ≤ w' ∧ S'.slots = ⟨mapped⟩ := by
    split_ifs at hrun with hsame
    · cases hrun
      exact ⟨le_rfl, congrArg InsertionMap.mk hsame.symm⟩
    · obtain ⟨m, w₃, hsnapshot, hrun⟩ := bind_ok hrun
      cases hrun
      exact ⟨(grows_freshSnapshot : Grows True _).le_of_ok hsnapshot, rfl⟩
  have hkeys : S₁.slots.entries.map (·.1) = mapped.map (·.1) :=
    List.forall₂_eq_eq_eq ▸ List.forall₂_map_left_iff.2 (List.forall₂_map_right_iff.2 (hforall.imp fun _ _ h => h.1.symm))
  refine ⟨hle₁.trans (hle₂.trans hle₃), ?_, fun b => ?_⟩
  · rw [InsertionMap.keys, hS', ← hkeys]
    exact hvalid.nodup
  have hlookup := lookup_of_forall₂ (x := b) hforall
  change S₁.slots? b = none ∧ _ ∨ _ at hlookup
  have hslots' : S'.slots? b = mapped.lookup b := by
    rw [slots?, hS']
    rfl
  rw [← hslots'] at hlookup
  rcases without_slots hwithout b with ⟨hnone, hnone₁⟩ | ⟨slots, hslots, ⟨hexhausts, hnone₁⟩ | ⟨hlive, hsome₁⟩⟩
  · rcases hlookup with ⟨-, hnone'⟩ | ⟨v, v', hv, -, -⟩
    · rw [hnone, hnone']
      exact .untracked
    · cases hnone₁.symm.trans hv
  · rcases hlookup with ⟨-, hnone'⟩ | ⟨v, v', hv, -, -⟩
    · rw [hslots, hnone']
      exact .dropped hexhausts
    · cases hnone₁.symm.trans hv
  · rcases hlookup with ⟨hnone₁, -⟩ | ⟨v, v', hv, hv', hafter⟩
    · cases hnone₁.symm.trans hsome₁
    · cases hsome₁.symm.trans hv
      rw [hslots, hv']
      exact .kept hlive (hafter.imp fun _ _ h => h.mono hle₁ hle₃)

/-! ## Bounds and domain -/

theorem bounds_of_slot (hslots : S.slots? p.binder = some slots) (hi : slots[p.index]? = some t) (ht : t ≠ .noType) :
    S.bounds? p = some t := by
  rw [bounds?, hslots, Option.bind_some, hi]
  simpa [Option.filter] using ht

/-- Bounds are replaced by bounds. -/
theorem bounds_of_substParam {lo hi : Ty} (ht : w.shape? t = some (.bounds lo hi))
    (hrun : Ty.substParam p r fuel t w = .ok (t', w')) : (w'.boundsParts? t').isSome := by
  have hends {v : World} {u a b : Ty} (hu : v.shape? u = some (.bounds a b)) : (v.boundsParts? u).isSome :=
    Option.isSome_iff_exists.2 ⟨(a, b), World.boundsParts?_eq_some_iff.2 hu⟩
  have hle := (grows_substParam p r fuel t).le_of_ok hrun
  cases fuel with
  | zero => cases hrun
  | succ fuel =>
    rw [Ty.substParam, get_bind_run, World.shape_of_shape? ht] at hrun
    dsimp only at hrun
    rw [Ty.mapChildren, get_bind_run, World.shape_of_shape? ht] at hrun
    obtain ⟨lo', w₁, -, hrun⟩ := bind_ok hrun
    obtain ⟨hi', w₂, -, hrun⟩ := bind_ok hrun
    split_ifs at hrun
    · cases hrun
      exact hends (hle.shape ht)
    · exact hends (World.intern_ok hrun).2

theorem Ran.bounds (ht : (w.boundsParts? t).isSome) (h : Ran w w' (Ty.substParam p r fuel t) t') :
    (w'.boundsParts? t').isSome := by
  obtain ⟨v, v', hv, hv', hrun⟩ := h
  obtain ⟨⟨lo, hi⟩, hends⟩ := Option.isSome_iff_exists.1 ht
  exact isSome_boundsParts?_grow hv' (bounds_of_substParam (hv.shape (World.boundsParts?_eq_some_iff.1 hends)) hrun)

/-- Choosing a parameter keeps a store valid. -/
theorem Valid.subst (h : S.Valid w) (hw : w.Standard) (hrun : S.subst fuel p r w = .ok (S', w')) : S'.Valid w' := by
  obtain ⟨hle, hnodup, hslots⟩ := subst_slots h hrun
  refine ⟨hnodup, fun b slots' hb => ?_⟩
  have hb' : S'.slots? b = some slots' := InsertionMap.lookup_of_mem hnodup hb
  have hafter := hslots b
  rw [hb'] at hafter
  generalize hS : S.slots? b = o at hafter
  cases hafter with
  | @kept slots _ hlive hafter =>
    have hslotted : Slotted w b slots := h.slots? hS
    have hcleared : Slotted w b (cleared p b slots) := by
      rw [cleared]
      split_ifs with hbp
      · by_cases hopen : ∃ t, slots[p.index]? = some t ∧ t.present
        · refine hslotted.clear ?_
          by_contra hnone
          refine hlive ⟨hbp, hopen, fun t ht => ?_⟩
          rw [cleared, if_pos hbp] at ht
          by_contra hne
          exact hnone ⟨t, ht, Ty.present_iff.2 hne⟩
        · rw [set_of_closed]
          · exact hslotted
          · rw [Option.isNone_iff_eq_none, Option.filter_eq_none_iff]
            exact fun t ht hpresent => hopen ⟨t, ht, hpresent⟩
      · exact hslotted
    refine hcleared.replace hle (hw.grow hle) (hafter.imp fun t t' h => ⟨fun ht => ?_, fun ht => ?_⟩)
    · rwa [SlotAfter, if_pos ht] at h
    · rw [SlotAfter, if_neg (Ty.present_iff.1 (present_of_bounds hw ht))] at h
      exact Ran.bounds ht h

/-- The parameter is chosen. -/
theorem subst_bounds_self (h : S.Valid w) (hrun : S.subst fuel p r w = .ok (S', w')) : S'.bounds? p = none := by
  obtain ⟨-, -, hslots⟩ := subst_slots h hrun
  have hafter := hslots p.binder
  generalize hS : S.slots? p.binder = o, hS' : S'.slots? p.binder = o' at hafter
  cases hafter with
  | untracked | dropped =>
    rw [bounds?, hS']
    rfl
  | @kept slots slots' _ hafter =>
    rw [bounds?, hS', Option.bind_some]
    cases hi : slots'[p.index]? with
    | none => rfl
    | some t' =>
      obtain ⟨hlt, rfl⟩ := List.getElem?_eq_some_iff.1 hi
      have hlt' : p.index < (cleared p p.binder slots).length := by rwa [hafter.length_eq]
      have hslot := hafter.get hlt' hlt
      simp only [cleared_own, List.get_eq_getElem, List.getElem_set_self, SlotAfter, if_true] at hslot
      rw [hslot]
      rfl

/-- What becomes of the bounds of the others. -/
theorem subst_bounds (h : S.Valid w) (hw : w.Standard) (hrun : S.subst fuel p r w = .ok (S', w')) (hq : q ≠ p) :
    S.bounds? q = none ∧ S'.bounds? q = none ∨
      ∃ t t', S.bounds? q = some t ∧ S'.bounds? q = some t' ∧ Ran w w' (Ty.substParam p r fuel t) t' := by
  obtain ⟨hle, -, hslots⟩ := subst_slots h hrun
  have hafter := hslots q.binder
  generalize hS : S.slots? q.binder = o, hS' : S'.slots? q.binder = o' at hafter
  cases hafter with
  | untracked => exact .inl ⟨by rw [bounds?, hS]; rfl, by rw [bounds?, hS']; rfl⟩
  | @dropped slots hexhausts =>
    refine .inl ⟨?_, by rw [bounds?, hS']; rfl⟩
    rw [bounds?, hS, Option.bind_some, ← getElem?_cleared hq]
    cases hi : (cleared p q.binder slots)[q.index]? with
    | none => rfl
    | some t =>
      rw [hexhausts.2.2 t (List.mem_of_getElem? hi)]
      rfl
  | @kept slots slots' _ hafter =>
    cases hi : slots[q.index]? with
    | none =>
      have hi' : slots'[q.index]? = none := by
        rw [← getElem?_cleared hq, List.getElem?_eq_none_iff] at hi
        rw [List.getElem?_eq_none_iff, ← hafter.length_eq]
        exact hi
      exact .inl ⟨by rw [bounds?, hS, Option.bind_some, hi]; rfl, by rw [bounds?, hS', Option.bind_some, hi']; rfl⟩
    | some t =>
      have hi₁ := hi
      rw [← getElem?_cleared hq] at hi₁
      obtain ⟨hlt, ht⟩ := List.getElem?_eq_some_iff.1 hi₁
      have hlt' : q.index < slots'.length := by rwa [← hafter.length_eq]
      have hslot := hafter.get hlt hlt'
      rw [List.get_eq_getElem, List.get_eq_getElem, ht, SlotAfter] at hslot
      have hi' : slots'[q.index]? = some slots'[q.index] := List.getElem?_eq_getElem hlt'
      split_ifs at hslot with habsent
      · refine .inl ⟨?_, ?_⟩
        · rw [bounds?, hS, Option.bind_some, hi, habsent]
          rfl
        · rw [bounds?, hS', Option.bind_some, hi', hslot]
          rfl
      · have hbounds : (w.boundsParts? t).isSome :=
          ((h.slots? hS).slot t (List.mem_of_getElem? hi)).resolve_left habsent
        have hpresent := present_of_bounds (hw.grow hle) (Ran.bounds hbounds hslot)
        exact .inr ⟨t, _, bounds_of_slot hS hi habsent, bounds_of_slot hS' hi' (Ty.present_iff.1 hpresent), hslot⟩

/-! ## Coming to an end -/

theorem total_mapM {α β : Type} {f : α → WorldM β} (hgrows : ∀ a, Grows True (f a)) {l : List α} :
    ∀ {w : World}, (∀ a ∈ l, ∀ v, w ≤ v → ∃ s, f a v = .ok s) → ∃ s, l.mapM f w = .ok s := by
  induction l with
  | nil => exact fun _ => ⟨_, rfl⟩
  | cons a l ih =>
    intro w hf
    obtain ⟨⟨b, w₁⟩, ha⟩ := hf a List.mem_cons_self w le_rfl
    have hle : w ≤ w₁ := (hgrows a).le_of_ok ha
    obtain ⟨⟨bs, w₂⟩, hl⟩ := ih fun c hc v hv => hf c (List.mem_cons_of_mem a hc) v (hle.trans hv)
    exact ⟨_, by rw [List.mapM_cons, bind_run ha, bind_run hl]; rfl⟩

theorem total_without (S : ConstraintStore) (p : Param) (w : World) : ∃ s, S.without p w = .ok s := by
  rw [without]
  cases S.slots? p.binder with
  | none => exact ⟨_, rfl⟩
  | some slots =>
    dsimp only
    split_ifs <;> exact ⟨_, rfl⟩

theorem mem_of_entries_without (h : S.Valid w) (hrun : S.without p w = .ok (S₁, w₁)) {e : BinderId × List Ty}
    (he : e ∈ S₁.slots.entries) (ht : t ∈ e.2) (hpresent : t.present) : ∃ q, S.bounds? q = some t := by
  obtain ⟨-, -, hvalid⟩ := makes_without (D := Domain.all) h p w S₁ w₁ le_rfl trivial hrun
  have hslots₁ : S₁.slots? e.1 = some e.2 := InsertionMap.lookup_of_mem hvalid.nodup he
  rcases without_slots hrun e.1 with ⟨-, hnone⟩ | ⟨slots, hslots, ⟨-, hnone⟩ | ⟨-, hsome⟩⟩
  · cases hnone.symm.trans hslots₁
  · cases hnone.symm.trans hslots₁
  · have hcleared : cleared p e.1 slots = e.2 := Option.some.inj (hsome.symm.trans hslots₁)
    have hmem : t ∈ slots := mem_of_mem_cleared (hcleared ▸ ht) (Ty.present_iff.1 hpresent)
    obtain ⟨i, hi⟩ := List.getElem?_of_mem hmem
    exact ⟨⟨e.1, i⟩, bounds_of_slot hslots hi (Ty.present_iff.1 hpresent)⟩

/-- A choice comes to an end if all bounds can be rewritten. -/
theorem total_subst (h : S.Valid w)
    (hbounds : ∀ q t, S.bounds? q = some t → ∀ v, w ≤ v → ∃ s, Ty.substParam p r fuel t v = .ok s) :
    ∃ S' w', S.subst fuel p r w = .ok (S', w') := by
  obtain ⟨⟨S₁, w₁⟩, hwithout⟩ := total_without S p w
  obtain ⟨hle₁, -, -⟩ := makes_without (D := Domain.all) h p w S₁ w₁ le_rfl trivial hwithout
  have hgrows (slots : List Ty) : Grows True (mapOpenSlots (Ty.substParam p r fuel) slots) :=
    .mapM (fun t => .ite (grows_substParam p r fuel t) (.pure _)) _
  have hentry : ∀ e ∈ S₁.slots.entries, ∀ v, w₁ ≤ v →
      ∃ s, (do return (e.1, ← mapOpenSlots (Ty.substParam p r fuel) e.2) : WorldM (BinderId × List Ty)) v = .ok s := by
    intro e he v hv
    obtain ⟨⟨slots, w₂⟩, hslots⟩ : ∃ s, mapOpenSlots (Ty.substParam p r fuel) e.2 v = .ok s := by
      refine total_mapM (fun t => .ite (grows_substParam p r fuel t) (.pure _)) fun t ht v' hv' => ?_
      split_ifs with hpresent
      · obtain ⟨q, hq⟩ := mem_of_entries_without h hwithout he ht hpresent
        exact hbounds q t hq v' (hle₁.trans (hv.trans hv'))
      · exact ⟨_, rfl⟩
    exact ⟨_, (bind_run hslots).trans rfl⟩
  obtain ⟨⟨mapped, w₂⟩, hmapped⟩ := total_mapM (fun (e : BinderId × List Ty) => .bind (hgrows e.2) fun _ => .pure _) hentry
  have hrun : S.subst fuel p r w = (if mapped = S₁.slots.entries then pure S₁ else ofSlots ⟨mapped⟩ :
      WorldM ConstraintStore) w₂ := (bind_run hwithout).trans (bind_run hmapped)
  rw [hrun]
  split_ifs <;> exact ⟨_, _, rfl⟩

/-! ## The whole -/

/-- Bounds were given out. -/
theorem Valid.has (h : S.Valid w) (hq : S.bounds? q = some t) : w.Has t := by
  obtain ⟨ends, hends⟩ := Option.isSome_iff_exists.1 (h.bounds? hq)
  exact Option.isSome_of_eq_some (World.boundsParts?_eq_some_iff.1 hends)

/-- A parameter that is chosen leaves the domain. -/
theorem mem_domain_subst (h : S.Valid w) (hw : w.Standard) (hrun : S.subst fuel p r w = .ok (S', w')) :
    q ∈ S'.domain ↔ q ∈ S.domain ∧ q ≠ p := by
  rw [(h.subst hw hrun).mem_domain_iff, h.mem_domain_iff]
  by_cases hq : q = p
  · subst hq
    simp [subst_bounds_self h hrun]
  · rcases subst_bounds h hw hrun hq with ⟨hnone, hnone'⟩ | ⟨t, t', ht, ht', -⟩
    · simp [hnone, hnone']
    · simp [ht, ht', hq]

/-- A binder goes with its last open slot. -/
theorem tracks_subst (h : S.Valid w) (hw : w.Standard) (hrun : S.subst fuel p r w = .ok (S', w')) (b : BinderId) :
    S'.tracks b ↔ S.tracks b ∧ (b = p.binder → p ∈ S.domain → ∃ q ∈ S'.domain, q.binder = b) := by
  obtain ⟨-, -, hslots⟩ := subst_slots h hrun
  have hafter := hslots b
  have htracks : S.tracks b = (S.slots? b).isSome := rfl
  have htracks' : S'.tracks b = (S'.slots? b).isSome := rfl
  rw [htracks, htracks']
  generalize hS : S.slots? b = o, hS' : S'.slots? b = o' at hafter
  cases hafter with
  | untracked => simp
  | @dropped slots hexhausts =>
    obtain ⟨rfl, ⟨t, ht, hpresent⟩, -⟩ := hexhausts
    refine iff_of_false (by simp) fun hleft => ?_
    have hdomain : p ∈ S.domain :=
      h.mem_domain_iff.2 (Option.isSome_of_eq_some (bounds_of_slot hS ht (Ty.present_iff.1 hpresent)))
    obtain ⟨q, hq, hb⟩ := hleft.2 rfl hdomain
    rw [(h.subst hw hrun).mem_domain_iff, bounds?, hb, hS'] at hq
    cases hq
  | @kept slots slots' hlive =>
    refine iff_of_true rfl ⟨rfl, fun hb hdomain => ?_⟩
    subst hb
    obtain ⟨old, hold⟩ := Option.isSome_iff_exists.1 (h.mem_domain_iff.1 hdomain)
    obtain ⟨_, hslots, hi, hpresent⟩ := CompareM.slot_of_bounds hold
    cases hslots.symm.trans hS
    obtain ⟨t, ht, habsent⟩ : ∃ t ∈ cleared p p.binder slots, t ≠ .noType := by
      by_contra hnone
      push Not at hnone
      exact hlive ⟨rfl, ⟨old, hi, hpresent⟩, hnone⟩
    obtain ⟨i, ht⟩ := List.getElem?_of_mem ht
    have hne : (⟨p.binder, i⟩ : Param) ≠ p := by
      intro heq
      rw [cleared_own, show i = p.index from congrArg Param.index heq, List.getElem?_set_self
        (List.getElem?_eq_some_iff.1 hi).1] at ht
      exact habsent (Option.some.inj ht).symm
    have hopen : (⟨p.binder, i⟩ : Param) ∈ S.domain :=
      h.mem_domain_iff.2 (Option.isSome_of_eq_some (bounds_of_slot hS ((getElem?_cleared hne slots).symm.trans ht) habsent))
    exact ⟨_, (mem_domain_subst h hw hrun).2 ⟨hopen, hne⟩, rfl⟩

/-- What is left of a store in which `p` has been chosen to be `r`. -/
structure Chosen (w w' : World) (fuel : Nat) (p : Param) (r : Ty) (S S' : ConstraintStore) : Prop where
  valid : S'.Valid w'
  domain (q : Param) : q ∈ S'.domain ↔ q ∈ S.domain ∧ q ≠ p
  /-- Another parameter has the bounds that it had, with `r` in place of `p`: those that replacing would give at once, up
  to the binders and handles that are given out on the way. -/
  bounds (q : Param) (t : Ty) : q ≠ p → S.bounds? q = some t → ∃ t', S'.bounds? q = some t' ∧
    ∃ u v σ, Ty.substParam p r fuel t w = .ok (u, v) ∧ Corr.identity w ≤ σ ∧ σ.Matches v w' ∧ σ.ty u t'
  /-- Slots in which nothing mentions `p` are kept, but for that of `p` itself. -/
  kept (b : BinderId) (slots : List Ty) : S.slots? b = some slots → (∀ t ∈ cleared p b slots, w.Lacks p t) → S'.tracks b →
    S'.slots? b = some (cleared p b slots)
  /-- Only the binder of `p` can go, and goes exactly if `p` was open and no slot of the binder still is. -/
  tracks (b : BinderId) : S'.tracks b ↔ S.tracks b ∧ (b = p.binder → p ∈ S.domain → ∃ q ∈ S'.domain, q.binder = b)
  lacks : w.Lacks p r → ∀ q t, S'.bounds? q = some t → w'.Lacks p t

section Whole

variable (hw : w.Closed) (h : S.Valid w) (hstd : w.Standard) (hp : (w.binder? p.binder).isSome) (hr : w.Has r)

include hw in
/-- What does not mention the parameter is not rewritten. -/
theorem same_of_lacks (ht : w.Has t) (hlacks : w.Lacks p t) (hran : Ran w w' (Ty.substParam p r fuel t) t') : t' = t := by
  obtain ⟨v, v', hv, -, hrun⟩ := hran
  have hlater := ((hw.clear_of_lacks ht hlacks).later hv).lacks
  exact (Prod.mk.injEq .. ▸ World.substParam_same fuel hlater hrun).1

include hw h in
/-- Slots that do not mention the parameter are kept as they are, but for that of the parameter itself. -/
theorem subst_kept (hrun : S.subst fuel p r w = .ok (S', w')) (hslots : S.slots? b = some slots)
    (hlacks : ∀ t ∈ cleared p b slots, w.Lacks p t) (htracks : S'.tracks b) : S'.slots? b = some (cleared p b slots) := by
  obtain ⟨hle, -, hafter⟩ := subst_slots h hrun
  have hafter := hafter b
  have hsome : (S'.slots? b).isSome := htracks
  rw [hslots] at hafter
  generalize S'.slots? b = o at hafter hsome
  cases hafter with
  | dropped => cases hsome
  | @kept _ slots' _ hafter =>
    have heq : List.Forall₂ (fun t t' => t' = t) (cleared p b slots) slots' := by
      refine List.forall₂_iff_get.2 ⟨hafter.length_eq, fun i hi hi' => ?_⟩
      have hslot := hafter.get hi hi'
      have hmem := List.get_mem (cleared p b slots) ⟨i, hi⟩
      rw [SlotAfter] at hslot
      split_ifs at hslot with habsent
      · exact hslot.trans habsent.symm
      · refine same_of_lacks hw ?_ (hlacks _ hmem) hslot
        have hmem := mem_of_mem_cleared hmem habsent
        obtain ⟨j, hj⟩ := List.getElem?_of_mem hmem
        exact h.has (bounds_of_slot (p := ⟨b, j⟩) hslots hj habsent)
    have heq : cleared p b slots = slots' := List.forall₂_eq_eq_eq ▸ heq.imp fun _ _ h => h.symm
    rw [heq]

include h hstd in
/-- The bounds that are left are clear of what is watched for if the old ones, but for the parameter, and the choice
are. -/
theorem subst_clear {bad : Shape → Prop} (hbad : w.Watches bad)
    (hS : ∀ q t, S.bounds? q = some t → w.Clear true (fun d => bad d ∧ d ≠ .param p) t) (hr : w.Clear true bad r)
    (hrun : S.subst fuel p r w = .ok (S', w')) (hq : S'.bounds? q = some t') : w'.Clear true bad t' := by
  have hne : q ≠ p := by
    rintro rfl
    rw [subst_bounds_self h hrun] at hq
    cases hq
  rcases subst_bounds h hstd hrun hne with ⟨-, hnone⟩ | ⟨t, t'', ht, ht', v, v', hv, hv', hrun⟩
  · cases hnone.symm.trans hq
  · cases ht'.symm.trans hq
    exact (World.clear_substParam fuel (hbad.later hv) (hr.later hv) ((hS q t ht).later hv) hrun).later hv'

include h hstd in
/-- A choice comes to an end if the bounds and the choice nest finitely, and then the bounds that are left do. -/
theorem total_subst_low (hS : ∀ q t, S.bounds? q = some t → w.Settled t ∧ w.Low n t) (hr : w.Settled r ∧ w.Low k r)
    (hfuel : n + k ≤ fuel) : ∃ S' w', S.subst fuel p r w = .ok (S', w') ∧
      ∀ q t, S'.bounds? q = some t → w'.Settled t ∧ w'.Low (n + k) t := by
  have hends {q : Param} {t : Ty} {v : World} (ht : S.bounds? q = some t) (hv : w ≤ v) :
      ∃ u v', Ty.substParam p r fuel t v = .ok (u, v') ∧ v'.Low (n + k) u := by
    obtain ⟨hsettled, hlow⟩ := hS q t ht
    exact World.total_substParam n hfuel (hsettled.later hv) (hlow.later hsettled hv) (hr.1.later hv) (hr.2.later hr.1 hv)
  have hsettles {S' : ConstraintStore} {w' : World} {q : Param} {t : Ty} (hrun : S.subst fuel p r w = .ok (S', w'))
      (hq : S'.bounds? q = some t) : w'.Settled t :=
    subst_clear h hstd (World.watches_nothing w) (fun q t ht => (hS q t ht).1.imp fun _ hd => hd.1) hr.1 hrun hq
  obtain ⟨S', w', hrun⟩ : ∃ S' w', S.subst fuel p r w = .ok (S', w') := total_subst h fun q t ht v hv => by
    obtain ⟨u, v', hrun, -⟩ := hends ht hv
    exact ⟨_, hrun⟩
  refine ⟨S', w', hrun, fun q t' hq => ⟨hsettles hrun hq, ?_⟩⟩
  have hne : q ≠ p := by
    rintro rfl
    rw [subst_bounds_self h hrun] at hq
    cases hq
  rcases subst_bounds h hstd hrun hne with ⟨-, hnone⟩ | ⟨t, t'', ht, ht', v, v', hv, hv', hran⟩
  · cases hnone.symm.trans hq
  · cases ht'.symm.trans hq
    obtain ⟨u, v'', hran', hlow⟩ := hends ht hv
    cases hran'.symm.trans hran
    have hsettled : v'.Settled t' := World.clear_substParam fuel (World.watches_nothing v) (hr.1.later hv)
      (((hS q t ht).1.imp fun _ hd => hd.1).later hv) hran
    exact hlow.later hsettled hv'

include h hstd hp in
/-- If the choice does not mention the parameter, no bound does any more. -/
theorem subst_lacks (hsettled : ∀ q t, S.bounds? q = some t → w.Settled t) (hr : w.Clear true (· = .param p) r)
    (hrun : S.subst fuel p r w = .ok (S', w')) (hq : S'.bounds? q = some t') : w'.Lacks p t' :=
  (subst_clear h hstd (World.watches_param hp) (fun q t ht => (hsettled q t ht).imp fun _ hd => hd.2 hd.1) hr hrun hq).lacks

include hw h hstd hp hr

/-- **Choosing a parameter puts the choice in its place**, and nothing else happens to the store. If the bounds and the
choice nest finitely, the choice comes to an end. -/
theorem subst_spec (fuel : Nat) :
    (∀ S' w', S.subst fuel p r w = .ok (S', w') → Chosen w w' fuel p r S S') ∧
    (∀ n k, (∀ q t, S.bounds? q = some t → w.Low n t) → w.Low k r → n + k ≤ fuel →
      ∃ S' w', S.subst fuel p r w = .ok (S', w')) := by
  refine ⟨fun S' w' hrun => ?_, fun n k hbounds hlow hfuel => ?_⟩
  · refine ⟨h.subst hstd hrun, fun q => mem_domain_subst h hstd hrun, fun q t hq ht => ?_,
      fun b slots hslots hlacks htracks => subst_kept hw h hrun hslots hlacks htracks, tracks_subst h hstd hrun,
      fun hlacks q t hq => subst_lacks h hstd hp (fun q t ht => hw.settled (h.has ht)) (hw.clear_of_lacks hr hlacks) hrun hq⟩
    rcases subst_bounds h hstd hrun hq with ⟨hnone, -⟩ | ⟨t₁, t', ht₁, ht', hran⟩
    · cases hnone.symm.trans ht
    · cases ht₁.symm.trans ht
      exact ⟨t', ht', hran.here hw hp hr (h.has ht)⟩
  · obtain ⟨S', w', hrun, -⟩ := total_subst_low h hstd (fun q t ht => ⟨hw.settled (h.has ht), hbounds q t ht⟩)
      ⟨hw.settled hr, hlow⟩ hfuel
    exact ⟨S', w', hrun⟩

end Whole

/-! ### Three parameters -/

/-- The type `[X, Y, Z <: X & Y] Z` at `20`; the bounds of `Z` are at `19`. -/
def tripleWorld : World :=
  let w := { World.initial with binders := World.initial.binders.push { kind := .universal, names := ["X", "Y", "Z"] } }
  let w := { w with types := (w.types.intern (.param ⟨⟨0⟩, 0⟩)).2 }
  let w := { w with types := (w.types.intern (.param ⟨⟨0⟩, 1⟩)).2 }
  let w := { w with types := (w.types.intern (.param ⟨⟨0⟩, 2⟩)).2 }
  let w := { w with types := (w.types.intern (.inter ⟨15⟩ ⟨16⟩)).2 }
  let w := { w with types := (w.types.intern (.bounds Builtin.nothing.type ⟨18⟩)).2 }
  let w := { w with binders := w.binders.modify 0 fun d => { d with infos := [⟨14⟩, ⟨14⟩, ⟨19⟩], result := ⟨17⟩ } }
  { w with types := (w.types.intern (.universal ⟨0⟩)).2 }

theorem tripleWorld_built : tripleWorld.Built := by
  have h₁ := World.Built.binder .initial .universal ["X", "Y", "Z"]
  have h₂ := h₁.intern (.param ⟨⟨0⟩, 0⟩) (World.mentions_param (by decide) _)
  have h₃ := h₂.intern (.param ⟨⟨0⟩, 1⟩) (World.mentions_param (by decide) _)
  have h₄ := h₃.intern (.param ⟨⟨0⟩, 2⟩) (World.mentions_param (by decide) _)
  have h₅ := h₄.intern (.inter ⟨15⟩ ⟨16⟩) (.inter ⟨rfl, by decide⟩ ⟨rfl, by decide⟩)
  have h₆ := h₅.intern (.bounds Builtin.nothing.type ⟨18⟩) (World.mentions_bounds (by decide) (by decide))
  have h₇ := h₆.fill ⟨0⟩ [⟨14⟩, ⟨14⟩, ⟨19⟩] ⟨17⟩ (by decide) (by decide)
  exact h₇.intern (.universal ⟨0⟩) (World.mentions_universal (by decide))

/-- `X`, `Y` and `Z` under inference. -/
def tripleStore : ConstraintStore := ⟨⟨[(⟨0⟩, [⟨14⟩, ⟨14⟩, ⟨19⟩])]⟩, 0⟩

theorem tripleStore_valid : tripleStore.Valid tripleWorld where
  nodup := by decide
  slotted b slots h := by
    obtain ⟨rfl, rfl⟩ : b = ⟨0⟩ ∧ slots = [⟨14⟩, ⟨14⟩, ⟨19⟩] := by simpa [tripleStore] using h
    exact ⟨⟨_, rfl, rfl, rfl⟩, by decide, fun _ => ⟨⟨14⟩, by decide, rfl⟩⟩

theorem bounds_triple {q : Param} {t : Ty} (h : tripleStore.bounds? q = some t) : t ∈ ([⟨14⟩, ⟨19⟩] : List Ty) := by
  obtain ⟨slots, hslots, hi, -⟩ := CompareM.slot_of_bounds h
  obtain ⟨-, rfl⟩ : q.binder = ⟨0⟩ ∧ slots = [⟨14⟩, ⟨14⟩, ⟨19⟩] := by
    simpa [tripleStore] using InsertionMap.mem_of_find? hslots
  simpa using List.mem_of_getElem? hi

/-- `X` is chosen to be `Int`. -/
theorem subst_spec_triple : tripleWorld.Closed ∧ tripleStore.Valid tripleWorld ∧ tripleWorld.Standard ∧
    (tripleWorld.binder? ⟨0⟩).isSome ∧ tripleWorld.Has Builtin.int.type ∧
    ∃ S' w', tripleStore.subst 5 ⟨⟨0⟩, 0⟩ Builtin.int.type tripleWorld = .ok (S', w') ∧
      Chosen tripleWorld w' 5 ⟨⟨0⟩, 0⟩ Builtin.int.type tripleStore S' := by
  have hclosed := tripleWorld_built.closed
  have hstd := tripleWorld_built.standard
  have hbinder : (tripleWorld.binder? ⟨0⟩).isSome := by decide
  have hint : tripleWorld.Has Builtin.int.type := by decide
  have hlow : ∀ t ∈ ([⟨14⟩, ⟨19⟩] : List Ty), tripleWorld.Low 3 t := by decide
  have hlowr : tripleWorld.Low 2 Builtin.int.type := by decide
  obtain ⟨hspec, htotal⟩ := subst_spec (p := ⟨⟨0⟩, 0⟩) hclosed tripleStore_valid hstd hbinder hint 5
  obtain ⟨S', w', hrun⟩ := htotal 3 2 (fun q t hq => hlow t (bounds_triple hq)) hlowr (by decide)
  exact ⟨hclosed, tripleStore_valid, hstd, hbinder, hint, S', w', hrun, hspec S' w' hrun⟩

end ConstraintStore

end Conformance
