import Mathlib.Data.List.Nodup
import Mathlib.Data.List.Perm.Subperm
import Conformance.Proofs.Correspondence

/-!
# Worlds that hold what they mention

A world is closed when every handle that it mentions was given out. The world to start from is closed and every way to
extend a world keeps it so (`World.Built.closed`). A closed world corresponds to itself, each handle paired with itself
(`World.Closed.identity_matches`).
-/

namespace Conformance

/-- The pairs of each handle that was given out with itself. -/
def Corr.identity (w : World) : Corr where
  base₁ := w
  base₂ := w
  ty a b := a = b ∧ (w.shape? a).isSome
  binder b c := b = c ∧ (w.binder? b).isSome
  params _ _ := False
  skolem j k := j = k ∧ j.id < w.skolems
  sym _ := True
  var _ := True
  opens := True

namespace World

/-- The handle was given out. -/
def Has (w : World) (t : Ty) : Prop := (w.shape? t).isSome

instance (w : World) (t : Ty) : Decidable (w.Has t) := inferInstanceAs (Decidable (_ = true))

theorem id_lt_of_has {w : World} {t : Ty} (h : w.Has t) : t.id < w.types.shapes.size := by
  obtain ⟨d, hd⟩ := Option.isSome_iff_exists.1 h
  exact (Array.getElem?_eq_some_iff.1 hd).1

theorem Has.grow {w w' : World} {t : Ty} (h : w.Has t) (hle : w ≤ w') : w'.Has t := by
  obtain ⟨d, hd⟩ := Option.isSome_iff_exists.1 h
  exact Option.isSome_iff_exists.2 ⟨d, hle.shape hd⟩

/-- Different types that were given out are no more than there are types. -/
theorem length_le_of_has {w : World} {l : List Ty} (hl : ∀ t ∈ l, w.Has t) (hnodup : l.Nodup) :
    l.length ≤ w.types.size := by
  have hmem : l.map Ty.id ⊆ List.range w.types.size := by
    intro i hi
    obtain ⟨t, ht, rfl⟩ := List.mem_map.1 hi
    exact List.mem_range.2 (id_lt_of_has (hl t ht))
  have hids : (l.map Ty.id).Nodup := List.Nodup.map (fun _ _ h => Ty.id_inj.1 h) hnodup
  have hle := (List.subperm_of_subset hids hmem).length_le
  rwa [List.length_map, List.length_range] at hle

/-- All that the shape mentions was given out. -/
def Mentions (w : World) (d : Shape) : Prop := (Corr.identity w).Shapes d d

theorem mentions_named {w : World} {pre : Ty} (h : w.Has pre) (s : Symbol) : w.Mentions (.named pre s) :=
  Corr.Shapes.named (ρ := Corr.identity w) ⟨rfl, h⟩ (s := s) trivial

theorem mentions_path {w : World} {pre : Ty} (h : w.Has pre) (s : Symbol) : w.Mentions (.path pre s) :=
  Corr.Shapes.path (ρ := Corr.identity w) ⟨rfl, h⟩ (s := s) trivial

theorem mentions_classInfo {w : World} {pre : Ty} (h : w.Has pre) (s : Symbol) : w.Mentions (.classInfo pre s) :=
  Corr.Shapes.classInfo (ρ := Corr.identity w) ⟨rfl, h⟩ (c := s) trivial

theorem mentions_bounds {w : World} {lo hi : Ty} (hlo : w.Has lo) (hhi : w.Has hi) : w.Mentions (.bounds lo hi) :=
  Corr.Shapes.bounds (ρ := Corr.identity w) ⟨rfl, hlo⟩ ⟨rfl, hhi⟩

theorem mentions_refined {w : World} {parent info : Ty} (hp : w.Has parent) (name : String) (hi : w.Has info) :
    w.Mentions (.refined parent name info) :=
  Corr.Shapes.refined (ρ := Corr.identity w) ⟨rfl, hp⟩ name ⟨rfl, hi⟩

theorem mentions_param {w : World} {b : BinderId} (h : (w.binder? b).isSome) (i : Nat) : w.Mentions (.param ⟨b, i⟩) :=
  Corr.Shapes.param (ρ := Corr.identity w) (.inl ⟨trivial, rfl, h⟩) i

theorem mentions_universal {w : World} {b : BinderId} (h : (w.binder? b).isSome) : w.Mentions (.universal b) :=
  Corr.Shapes.universal (ρ := Corr.identity w) ⟨rfl, h⟩

theorem mentions_method {w : World} {b : BinderId} (h : (w.binder? b).isSome) : w.Mentions (.method b) :=
  Corr.Shapes.method (ρ := Corr.identity w) ⟨rfl, h⟩

theorem mentions_byName {w : World} {result : Ty} (h : w.Has result) : w.Mentions (.byName result) :=
  Corr.Shapes.byName (ρ := Corr.identity w) ⟨rfl, h⟩

/-- Every handle that is mentioned was given out. -/
structure Closed (w : World) : Prop where
  shape : ∀ {t : Ty} {d : Shape}, w.shape? t = some d → w.Mentions d
  binder : ∀ {b : BinderId} {d : Binder}, w.binder? b = some d → (∀ t ∈ d.infos, w.Has t) ∧ w.Has d.result
  fixed : ∀ t : Ty, t.id < Ty.fixedCount + Builtin.all.length → w.Has t
  var : ∀ c ∈ w.vars, w.Has c.origin ∧ ∀ t ∈ c.inst, w.Has t
  decl : ∀ d ∈ w.decls.entries, w.Has d.info ∧ ∀ t ∈ d.parents, w.Has t

/-- The worlds that are built from the initial one, each step with handles that were given out before. -/
inductive Built : World → Prop
  | initial : Built .initial
  | intern {w : World} (h : Built w) (d : Shape) (hd : w.Mentions d) : Built { w with types := (w.types.intern d).2 }
  | skolem {w : World} (h : Built w) : Built { w with skolems := w.skolems + 1 }
  | snapshot {w : World} (h : Built w) : Built { w with snapshots := w.snapshots + 1 }
  | var {w : World} (h : Built w) (origin : Ty) (ho : w.Has origin) : Built { w with vars := w.vars.push { origin } }
  | instantiate {w : World} (h : Built w) (v : Nat) (c : VarCell) (hc : c ∈ w.vars) (t : Ty) (ht : w.Has t) :
    Built { w with vars := w.vars.setIfInBounds v { c with inst := some t } }
  | binder {w : World} (h : Built w) (kind : BinderKind) (names : List String) :
    Built { w with binders := w.binders.push { kind, names } }
  | fill {w : World} (h : Built w) (b : BinderId) (infos : List Ty) (result : Ty) (hi : ∀ t ∈ infos, w.Has t)
    (hr : w.Has result) : Built { w with binders := w.binders.modify b.id fun d => { d with infos, result } }
  | register {w : World} (h : Built w) (d : Declaration) (hi : w.Has d.info) (hp : ∀ t ∈ d.parents, w.Has t) :
    Built { w with decls := (w.decls.register d).2 }
  | parents {w : World} (h : Built w) (s : Symbol) (parents : List Ty) (hp : ∀ t ∈ parents, w.Has t) :
    Built { w with decls := w.decls.setParents s parents }

/-- What was given out in `w` is given out in `w'`. -/
structure Retained (w w' : World) : Prop where
  shape : ∀ {t : Ty}, w.Has t → w'.Has t
  binder : ∀ {b : BinderId}, (w.binder? b).isSome → (w'.binder? b).isSome
  skolems : w.skolems ≤ w'.skolems

theorem Retained.mentions {w w' : World} (h : w.Retained w') {d : Shape} (hd : w.Mentions d) : w'.Mentions d := by
  refine Corr.Shapes.imp (ρ := Corr.identity w) (σ := Corr.identity w') ?_ ?_ ?_ ?_ id id hd
  · rintro a b ⟨rfl, ha⟩
    exact ⟨rfl, h.shape ha⟩
  · rintro a b ⟨rfl, ha⟩
    exact ⟨rfl, h.binder ha⟩
  · rintro a b (⟨-, rfl, ha⟩ | hfalse)
    · exact .inl ⟨trivial, rfl, h.binder ha⟩
    · exact hfalse.elim
  · rintro a b ⟨rfl, ha⟩
    exact ⟨rfl, Nat.lt_of_lt_of_le ha h.skolems⟩

theorem mem_of_get? {ds : Declarations} {s : Symbol} {d : Declaration} (h : ds.get? s = some d) : d ∈ ds.entries := by
  obtain ⟨_ | n⟩ := s
  · cases h
  · exact Array.mem_of_getElem? h

namespace Closed

variable {w w' : World}

/-- A closed world corresponds to itself. -/
theorem identity_matches (h : w.Closed) : (Corr.identity w).Matches w w where
  le₁ := le_rfl
  le₂ := le_rfl
  ty := by
    rintro a b ⟨rfl, ha⟩
    obtain ⟨d, hd⟩ := Option.isSome_iff_exists.1 ha
    exact ⟨d, d, hd, hd, h.shape hd⟩
  ty_inj := by
    rintro a b a' b' ⟨rfl, -⟩ ⟨rfl, -⟩
    rfl
  binder := by
    rintro - a b ⟨rfl, ha⟩
    obtain ⟨d, hd⟩ := Option.isSome_iff_exists.1 ha
    obtain ⟨hinfos, hresult⟩ := h.binder hd
    exact ⟨d, d, hd, hd, rfl, rfl, List.forall₂_same.2 fun t ht => ⟨rfl, hinfos t ht⟩, rfl, hresult⟩
  binder_inj := by
    rintro a b a' b' ⟨rfl, -⟩ ⟨rfl, -⟩
    rfl
  params := False.elim
  scope_inj := by
    rintro a b a' b' (⟨-, rfl, -⟩ | hfalse) (⟨-, rfl, -⟩ | hfalse') <;> first | rfl | contradiction
  skolem := by
    rintro a b ⟨rfl, ha⟩
    exact ⟨ha, ha⟩
  skolem_inj := by
    rintro a b a' b' ⟨rfl, -⟩ ⟨rfl, -⟩
    rfl
  fixed t ht := ⟨rfl, h.fixed t ht⟩
  builtin _ := trivial
  vars := rfl
  var _ hc :=
    have hcell := h.var _ (Array.mem_of_getElem? hc)
    ⟨⟨rfl, hcell.1⟩, fun t ht => ⟨rfl, hcell.2 t ht⟩⟩
  decls := rfl
  decl _ hd :=
    have hdecl := h.decl _ (mem_of_get? hd)
    ⟨⟨rfl, hdecl.1⟩, fun t ht => ⟨rfl, hdecl.2 t ht⟩, fun _ _ => trivial, fun _ _ _ => trivial⟩
  unopened hno := absurd trivial hno

/-- A closed world stays closed when more is given out, provided that what it holds then mentions only that. -/
theorem retained (h : w.Closed) (hw : w.Retained w')
    (hshape : ∀ {t d}, w'.shape? t = some d → w.shape? t = some d ∨ w'.Mentions d)
    (hbinder : ∀ {b d}, w'.binder? b = some d →
      w.binder? b = some d ∨ ((∀ t ∈ d.infos, w'.Has t) ∧ w'.Has d.result))
    (hvar : ∀ c ∈ w'.vars, c ∈ w.vars ∨ (w'.Has c.origin ∧ ∀ t ∈ c.inst, w'.Has t))
    (hdecl : ∀ d ∈ w'.decls.entries, (w'.Has d.info ∧ ∀ t ∈ d.parents, w'.Has t)) : w'.Closed where
  shape ht := (hshape ht).elim (fun h' => hw.mentions (h.shape h')) id
  binder hb := (hbinder hb).elim
    (fun h' => ⟨fun t ht => hw.shape ((h.binder h').1 t ht), hw.shape (h.binder h').2⟩) id
  fixed t ht := hw.shape (h.fixed t ht)
  var c hc := (hvar c hc).elim (fun h' => ⟨hw.shape (h.var c h').1, fun t ht => hw.shape ((h.var c h').2 t ht)⟩) id
  decl := hdecl

theorem decl_retained (h : w.Closed) (hw : w.Retained w') (hdecls : w'.decls = w.decls) :
    ∀ d ∈ w'.decls.entries, w'.Has d.info ∧ ∀ t ∈ d.parents, w'.Has t := by
  rw [hdecls]
  intro d hd
  exact ⟨hw.shape (h.decl d hd).1, fun t ht => hw.shape ((h.decl d hd).2 t ht)⟩

end Closed

theorem closed_initial : initial.Closed := by
  have hshapes : initial.types.shapes = #[.fixed .noType, .fixed .noPrefix, .fixed .wildcard, .fixed .error,
      .named .noPrefix ⟨1⟩, .named .noPrefix ⟨2⟩, .named .noPrefix ⟨3⟩, .named .noPrefix ⟨4⟩, .named .noPrefix ⟨5⟩,
      .named .noPrefix ⟨6⟩, .named .noPrefix ⟨7⟩, .named .noPrefix ⟨8⟩, .named .noPrefix ⟨9⟩, .named .noPrefix ⟨10⟩,
      .bounds ⟨5⟩ ⟨4⟩] := by decide
  have hhas : ∀ t : Ty, t.id < 15 → initial.Has t := by
    intro t ht
    simp [Has, World.shape?, TypeTable.shape?, hshapes, ht]
  refine ⟨fun {t d} hd => ?_, fun {b d} hb => ?_, fun t ht => hhas t (Nat.lt_of_lt_of_le ht (by decide)), ?_, ?_⟩
  · have hself : ∀ t : Ty, t.id < 15 → (Corr.identity initial).ty t t := fun t ht => ⟨rfl, hhas t ht⟩
    have hmem : d ∈ initial.types.shapes := Array.mem_of_getElem? hd
    rw [hshapes] at hmem
    simp only [List.mem_toArray, List.mem_cons, List.not_mem_nil, or_false] at hmem
    rcases hmem with rfl | rfl | rfl | rfl | rfl | rfl | rfl | rfl | rfl | rfl | rfl | rfl | rfl | rfl | rfl
    · exact .fixed _
    · exact .fixed _
    · exact .fixed _
    · exact .fixed _
    iterate 10 exact .named (hself _ (by decide)) trivial
    · exact .bounds (hself _ (by decide)) (hself _ (by decide))
  · have hnone : initial.binder? b = none := by
      simp [World.binder?, show initial.binders = #[] by decide]
    rw [hnone] at hb
    cases hb
  · rw [show initial.vars = #[] by decide]
    intro c hc
    cases Array.not_mem_empty _ hc
  · have hdecls : ∀ d ∈ initial.decls.entries, d.info.id < 15 ∧ ∀ t ∈ d.parents, t.id < 15 := by decide
    exact fun d hd => ⟨hhas _ (hdecls d hd).1, fun t ht => hhas t ((hdecls d hd).2 t ht)⟩

/-- A shape that the table holds after taking in `d` was there before or is `d`. -/
theorem shape?_of_intern {tbl : TypeTable} {d e : Shape} {t : Ty} (h : (tbl.intern d).2.shape? t = some e) :
    tbl.shape? t = some e ∨ e = d := by
  cases hf : tbl.find? d with
  | some s =>
    rw [TypeTable.intern_of_shape? (TypeTable.find?_eq_some_iff.1 hf)] at h
    exact .inl h
  | none =>
    rw [TypeTable.shape?, (TypeTable.intern_of_find?_none hf).2, Array.getElem?_push] at h
    split at h
    · exact .inr (Option.some.inj h).symm
    · exact .inl h

theorem Retained.same {w w' : World} (hs : w'.types = w.types) (hb : w'.binders = w.binders)
    (hk : w.skolems ≤ w'.skolems) : w.Retained w' where
  shape {t} ht := by simpa only [Has, World.shape?, hs] using ht
  binder {b} h := by simpa only [World.binder?, hb] using h
  skolems := hk

/-- An update leaves an entry as it is, or applies `f` to it. -/
theorem mem_update {ds : Declarations} {s : Symbol} {f : Declaration → Declaration} {d : Declaration}
    (h : d ∈ (ds.update s f).entries) : d ∈ ds.entries ∨ ∃ d' ∈ ds.entries, d = f d' := by
  obtain ⟨_ | n⟩ := s
  · exact .inl h
  · obtain ⟨i, hi, rfl⟩ := Array.mem_iff_getElem.1 h
    have hi' : i < ds.entries.size := by simpa [Declarations.update] using hi
    simp only [Declarations.update, Array.getElem_modify]
    split
    · exact .inr ⟨_, Array.getElem_mem hi', rfl⟩
    · exact .inl (Array.getElem_mem hi')

theorem enroll_keeps (d : Declaration) (kind : DeclKind) (name : String) (s : Symbol) :
    (d.enroll kind name s).info = d.info ∧ (d.enroll kind name s).parents = d.parents := by
  cases kind <;> exact ⟨rfl, rfl⟩

theorem Built.closed {w : World} (h : w.Built) : w.Closed := by
  induction h with
  | initial => exact closed_initial
  | @intern w _ d hd ih =>
    have hw : w.Retained { w with types := (w.types.intern d).2 } := by
      refine ⟨fun ht => ?_, id, Nat.le_refl _⟩
      obtain ⟨e, he⟩ := Option.isSome_iff_exists.1 ht
      exact Option.isSome_iff_exists.2 ⟨e, TypeTable.shape?_intern_of_shape? d he⟩
    refine ih.retained hw (fun ht => ?_) .inl (fun c => .inl) (ih.decl_retained hw rfl)
    rcases shape?_of_intern ht with ht | rfl
    · exact .inl ht
    · exact .inr (hw.mentions hd)
  | @skolem w _ ih =>
    have hw : w.Retained { w with skolems := w.skolems + 1 } := .same rfl rfl (Nat.le_succ _)
    exact ih.retained hw .inl .inl (fun c => .inl) (ih.decl_retained hw rfl)
  | @snapshot w _ ih =>
    have hw : w.Retained { w with snapshots := w.snapshots + 1 } := .same rfl rfl (Nat.le_refl _)
    exact ih.retained hw .inl .inl (fun c => .inl) (ih.decl_retained hw rfl)
  | @var w _ origin ho ih =>
    have hw : w.Retained { w with vars := w.vars.push { origin } } := .same rfl rfl (Nat.le_refl _)
    refine ih.retained hw .inl .inl (fun c hc => ?_) (ih.decl_retained hw rfl)
    rcases Array.mem_push.1 hc with hc | rfl
    · exact .inl hc
    · exact .inr ⟨hw.shape ho, fun t ht => nomatch ht⟩
  | @instantiate w _ v c hc t ht ih =>
    have hw : w.Retained { w with vars := w.vars.setIfInBounds v { c with inst := some t } } :=
      .same rfl rfl (Nat.le_refl _)
    refine ih.retained hw .inl .inl (fun c' hc' => ?_) (ih.decl_retained hw rfl)
    rcases Array.mem_or_eq_of_mem_setIfInBounds hc' with hc' | rfl
    · exact .inl hc'
    · refine .inr ⟨hw.shape (ih.var c hc).1, fun u hu => ?_⟩
      obtain rfl : t = u := by simpa using hu
      exact hw.shape ht
  | @binder w _ kind names ih =>
    have hw : w.Retained { w with binders := w.binders.push { kind, names } } := by
      refine ⟨id, fun {b} hb => ?_, Nat.le_refl _⟩
      have hlt : b.id < w.binders.size := by simpa [World.binder?] using hb
      simp [World.binder?]
      omega
    refine ih.retained hw .inl (fun {b d} hb => ?_) (fun c => .inl) (ih.decl_retained hw rfl)
    rw [World.binder?, Array.getElem?_push] at hb
    split at hb
    · obtain rfl := Option.some.inj hb
      exact .inr ⟨fun t ht => (nomatch ht), hw.shape (ih.fixed .noType (by decide))⟩
    · exact .inl hb
  | @fill w _ b infos result hi hr ih =>
    have hw : w.Retained { w with binders := w.binders.modify b.id fun d => { d with infos, result } } := by
      refine ⟨id, fun {b} hb => ?_, Nat.le_refl _⟩
      simpa [World.binder?] using hb
    refine ih.retained hw .inl (fun {b' d} hb => ?_) (fun c => .inl) (ih.decl_retained hw rfl)
    rw [World.binder?, Array.getElem?_modify] at hb
    split at hb
    · obtain ⟨d', -, rfl⟩ := Option.map_eq_some_iff.1 hb
      exact .inr ⟨fun t ht => hw.shape (hi t ht), hw.shape hr⟩
    · exact .inl hb
  | @register w _ d hi hp ih =>
    have hw : w.Retained { w with decls := (w.decls.register d).2 } := .same rfl rfl (Nat.le_refl _)
    refine ih.retained hw .inl .inl (fun c => .inl) fun e he => ?_
    have hpush : ∀ e ∈ w.decls.entries.push d, w.Has e.info ∧ ∀ t ∈ e.parents, w.Has t := by
      intro e he
      rcases Array.mem_push.1 he with he | rfl
      · exact ih.decl e he
      · exact ⟨hi, hp⟩
    rcases mem_update he with he | ⟨e', he', rfl⟩
    · exact hpush e he
    · rw [(enroll_keeps e' _ _ _).1, (enroll_keeps e' _ _ _).2]
      exact hpush e' he'
  | @parents w _ s parents hp ih =>
    have hw : w.Retained { w with decls := w.decls.setParents s parents } := .same rfl rfl (Nat.le_refl _)
    refine ih.retained hw .inl .inl (fun c => .inl) fun e he => ?_
    rcases mem_update he with he | ⟨e', he', rfl⟩
    · exact ih.decl e he
    · exact ⟨(ih.decl e' he').1, hp⟩

/-! ## Built-in classes -/

/-- The absent type and the built-in classes are what they are at the start. -/
structure Standard (w : World) : Prop where
  absent : w.shape? .noType = some (.fixed .noType)
  shape : ∀ b : Builtin, w.shape? b.type = some (.named .noPrefix b.symbol)
  declared : ∀ b : Builtin,
    (w.decls.get? b.symbol).map (fun d => (d.kind, d.name, d.flags)) = some (.cls, b.name, { static := true })

namespace Standard

variable {w w' : World}

theorem grow (h : w.Standard) (hw : w ≤ w') : w'.Standard where
  absent := hw.shape h.absent
  shape b := hw.shape (h.shape b)
  declared b := by rw [hw.decls]; exact h.declared b

theorem isClass (h : w.Standard) (b : Builtin) : w.decls.isClass b.symbol := by
  have hb := h.declared b
  cases hd : w.decls.get? b.symbol with
  | none => rw [hd] at hb; cases hb
  | some d =>
    rw [hd] at hb
    simp only [Option.map_some, Option.some.injEq, Prod.mk.injEq] at hb
    simp [Declarations.isClass, Declarations.kind?, hd, hb.1]

theorem name (h : w.Standard) (b : Builtin) : w.decls.name b.symbol = b.name := by
  have hb := h.declared b
  cases hd : w.decls.get? b.symbol with
  | none => rw [hd] at hb; cases hb
  | some d =>
    rw [hd] at hb
    simp only [Option.map_some, Option.some.injEq, Prod.mk.injEq] at hb
    simp [Declarations.name, hd, hb.2.1]

/-- A handle that stands for anything but the absent type is present. -/
theorem present (h : w.Standard) {t : Ty} {d : Shape} (ht : w.shape? t = some d) (hd : d ≠ .fixed .noType) :
    t.present := by
  rw [Ty.present_iff]
  rintro rfl
  exact hd (Option.some.inj (ht.symm.trans h.absent))

end Standard

theorem standard_initial : initial.Standard where
  absent := by decide
  shape b := by cases b <;> decide
  declared b := by cases b <;> decide

/-- What a declaration is called is not changed by later ones. -/
theorem declared_update {ds : Declarations} {s t : Symbol} {f : Declaration → Declaration}
    {r : DeclKind × String × DeclFlags}
    (hf : ∀ d, ((f d).kind, (f d).name, (f d).flags) = (d.kind, d.name, d.flags))
    (h : (ds.get? t).map (fun d => (d.kind, d.name, d.flags)) = some r) :
    ((ds.update s f).get? t).map (fun d => (d.kind, d.name, d.flags)) = some r := by
  rw [Declarations.get?_update]
  split
  · rw [Option.map_map, ← h]
    exact congrArg (Option.map · _) (funext hf)
  · exact h

theorem get?_push {ds : Declarations} {s : Symbol} {d : Declaration} (h : ds.get? s = some d) (e : Declaration) :
    Declarations.get? ⟨ds.entries.push e⟩ s = some d := by
  obtain ⟨_ | n⟩ := s
  · cases h
  · have hlt : n < ds.entries.size := (Array.getElem?_eq_some_iff.1 h).1
    simpa [Declarations.get?, Array.getElem?_push, Nat.ne_of_lt hlt] using h

theorem Standard.register {w : World} (h : w.Standard) (d : Declaration) :
    Standard { w with decls := (w.decls.register d).2 } := by
  refine ⟨h.absent, h.shape, fun b => declared_update (fun e => ?_) ?_⟩
  · cases d.kind <;> rfl
  · obtain ⟨e, he, hr⟩ := Option.map_eq_some_iff.1 (h.declared b)
    rw [get?_push he, Option.map_some, hr]

theorem Standard.setParents {w : World} (h : w.Standard) (s : Symbol) (parents : List Ty) :
    Standard { w with decls := w.decls.setParents s parents } :=
  ⟨h.absent, h.shape, fun b => declared_update (fun _ => rfl) (h.declared b)⟩

theorem Built.standard {w : World} (h : w.Built) : w.Standard := by
  induction h with
  | initial => exact standard_initial
  | intern _ d _ ih => exact ih.grow (le_intern d _)
  | skolem _ ih => exact ⟨ih.absent, ih.shape, ih.declared⟩
  | snapshot _ ih => exact ⟨ih.absent, ih.shape, ih.declared⟩
  | var _ _ _ ih => exact ⟨ih.absent, ih.shape, ih.declared⟩
  | instantiate _ _ _ _ _ _ ih => exact ⟨ih.absent, ih.shape, ih.declared⟩
  | binder _ _ _ ih => exact ⟨ih.absent, ih.shape, ih.declared⟩
  | fill _ _ _ _ _ _ ih => exact ⟨ih.absent, ih.shape, ih.declared⟩
  | register _ d _ _ ih => exact ih.register d
  | parents _ s parents _ ih => exact ih.setParents s parents

/-- The types of the start keep their handles. -/
theorem Built.shape_initial {w : World} (h : w.Built) {t : Ty} {d : Shape} (ht : World.initial.shape? t = some d) :
    w.shape? t = some d := by
  induction h with
  | initial => exact ht
  | intern _ d _ ih => exact (le_intern d _).shape ih
  | _ => assumption

theorem Built.shape_noPrefix {w : World} (h : w.Built) : w.shape? .noPrefix = some (.fixed .noPrefix) :=
  h.shape_initial (by decide)

theorem Built.shape_wildcard {w : World} (h : w.Built) : w.shape? .wildcard = some (.fixed .wildcard) :=
  h.shape_initial (by decide)

theorem Built.shape_error {w : World} (h : w.Built) : w.shape? .error = some (.fixed .error) :=
  h.shape_initial (by decide)

end World

end Conformance
