import Conformance.Proofs.BoundedWalks
import Conformance.Proofs.FiniteTypes

/-!
# Worlds built layer by layer

In a world that is built without forged handles, a binder being filled in before there is a type of it, every type is
made of types with smaller handles (`World.Layered`, `Layered.child_lt`). So walks and rewriting that follow the
structure of types come to an end, and they come to the same result at every allowance that is large enough
(`WorldM.extends_substParam` and the like).
-/

namespace Conformance

/-! ## Larger allowances -/

namespace WorldM

section Rebuilding

variable {f f' : Ty → WorldM Ty} {rename rename' : BinderId → BinderId → Ty → WorldM Ty}
  (hf : ∀ t, Extends (f t) (f' t)) (hr : ∀ b c t, Extends (rename b c t) (rename' b c t))

include hf

theorem extends_rebuild₁ (t old : Ty) (make : Ty → WorldM Ty) :
    Extends (Ty.rebuild₁ f t old make) (Ty.rebuild₁ f' t old make) := .bind (hf _) fun _ => .refl _

theorem extends_rebuild₂ (t old₁ old₂ : Ty) (make : Ty → Ty → WorldM Ty) :
    Extends (Ty.rebuild₂ f t old₁ old₂ make) (Ty.rebuild₂ f' t old₁ old₂ make) :=
  .bind (hf _) fun _ => .bind (hf _) fun _ => .refl _

include hr

theorem extends_rebuildBinder (t : Ty) (b : BinderId) :
    Extends (Ty.rebuildBinder f rename t b) (Ty.rebuildBinder f' rename' t b) := by
  refine .bind (.refl _) fun w => ?_
  split
  · exact .refl _
  · refine .bind (.mapM hf _) fun _ => .bind (hf _) fun _ => .ite (.refl _) ?_
    exact .bind (.refl _) fun _ => .bind (.mapM (hr _ _) _) fun _ => .bind (hr _ _ _) fun _ => .refl _

theorem extends_mapChildren (t : Ty) : Extends (Ty.mapChildren f rename t) (Ty.mapChildren f' rename' t) := by
  refine .bind (.refl _) fun w => ?_
  cases w.shape t with
  | named | path | classInfo | byName => exact extends_rebuild₁ hf _ _ _
  | refined | inter | union | bounds => exact extends_rebuild₂ hf _ _ _ _
  | method b | universal b => exact extends_rebuildBinder hf hr t b
  | _ => exact .refl _

end Rebuilding

theorem extends_substBinder : ∀ {n m : Nat} (old new : BinderId) (t : Ty), n ≤ m →
    Extends (Ty.substBinder n old new t) (Ty.substBinder m old new t)
  | 0, _, _, _, _, _ => fun _ _ h => nomatch h
  | n + 1, 0, _, _, _, h => absurd h (Nat.not_succ_le_zero n)
  | n + 1, m + 1, old, new, t, h => by
    have ih (b c : BinderId) (t : Ty) := extends_substBinder b c t (Nat.le_of_succ_le_succ h)
    refine .ite (.refl _) (.bind (.refl _) fun w => ?_)
    cases w.shape t with
    | param p | valueParam p => exact .refl _
    | _ => exact extends_mapChildren (ih old new) ih t

/-- A larger allowance changes no result. -/
theorem extends_substParam {p : Param} {r : Ty} : ∀ {n m : Nat} (t : Ty), n ≤ m →
    Extends (Ty.substParam p r n t) (Ty.substParam p r m t)
  | 0, _, _, _ => fun _ _ h => nomatch h
  | n + 1, 0, _, h => absurd h (Nat.not_succ_le_zero n)
  | n + 1, m + 1, t, h => by
    have hle : n ≤ m := Nat.le_of_succ_le_succ h
    refine .bind (.refl _) fun w => ?_
    cases w.shape t with
    | param q => exact .refl _
    | _ => exact extends_mapChildren (fun t => extends_substParam t hle) (fun b c t => extends_substBinder b c t hle) t

theorem anyM_mono {f g : α → Except Halt Bool} (hfg : ∀ a b, f a = .ok b → g a = .ok b) :
    ∀ {l : List α} {m : Bool}, l.anyM f = .ok m → l.anyM g = .ok m
  | [], _, h => h
  | a :: l, m, h => by
    rw [List.anyM_cons] at h ⊢
    match hfa : f a with
    | .error e => rw [hfa] at h; cases h
    | .ok true => rw [hfa] at h; rw [hfg a true hfa]; exact h
    | .ok false => rw [hfa] at h; rw [hfg a false hfa]; exact anyM_mono hfg h

theorem mentions_mono {w : World} {p : Param} : ∀ {n m : Nat} {t : Ty} {b : Bool}, n ≤ m → w.mentions p n t = .ok b →
    w.mentions p m t = .ok b
  | 0, _, _, _, _, h => nomatch h
  | n + 1, 0, _, _, hle, _ => absurd hle (Nat.not_succ_le_zero n)
  | n + 1, m + 1, t, b, hle, h => by
    rw [World.mentions] at h ⊢
    split at h
    · exact h
    · exact anyM_mono (fun u b => mentions_mono (Nat.le_of_succ_le_succ hle)) h

theorem extends_dropRefinements {p : Param} : ∀ {n m : Nat} (t : Ty), n ≤ m →
    Extends (Ty.dropRefinements p n t) (Ty.dropRefinements p m t)
  | 0, _, _, _ => fun _ _ h => nomatch h
  | n + 1, 0, _, h => absurd h (Nat.not_succ_le_zero n)
  | n + 1, m + 1, t, h => by
    have hle : n ≤ m := Nat.le_of_succ_le_succ h
    have hmap := extends_mapChildren (fun t => extends_dropRefinements (p := p) t hle)
      (fun b c t => extends_substBinder b c t hle) t
    refine .bind (.refl _) fun w => ?_
    split
    · refine .bind (fun v ⟨b, v'⟩ hr => ?_) fun _ => .ite (extends_dropRefinements _ hle) hmap
      obtain ⟨hmentions, rfl⟩ := reading_ok hr
      exact reading_run (mentions_mono hle hmentions)
    · exact hmap

end WorldM

/-! ## Worlds built layer by layer -/

namespace World

/-- The worlds that are built from the initial one, each step with handles that were given out before, and a binder
being filled in before there is a type of it. -/
inductive Layered : World → Prop
  | initial : Layered .initial
  | intern {w : World} (h : Layered w) (d : Shape) (hd : w.Mentions d) :
    Layered { w with types := (w.types.intern d).2 }
  | skolem {w : World} (h : Layered w) : Layered { w with skolems := w.skolems + 1 }
  | snapshot {w : World} (h : Layered w) : Layered { w with snapshots := w.snapshots + 1 }
  | var {w : World} (h : Layered w) (origin : Ty) (ho : w.Has origin) :
    Layered { w with vars := w.vars.push { origin } }
  | instantiate {w : World} (h : Layered w) (v : Nat) (c : VarCell) (hc : c ∈ w.vars) (t : Ty) (ht : w.Has t) :
    Layered { w with vars := w.vars.setIfInBounds v { c with inst := some t } }
  | binder {w : World} (h : Layered w) (kind : BinderKind) (names : List String) :
    Layered { w with binders := w.binders.push { kind, names } }
  | fill {w : World} (h : Layered w) (b : BinderId) (hb : ∀ t d, w.shape? t = some d → .binder b ∉ d.parts)
    (infos : List Ty) (result : Ty) (hi : ∀ t ∈ infos, w.Has t) (hr : w.Has result) :
    Layered { w with binders := w.binders.modify b.id fun d => { d with infos, result } }
  | register {w : World} (h : Layered w) (d : Declaration) (hi : w.Has d.info) (hp : ∀ t ∈ d.parents, w.Has t) :
    Layered { w with decls := (w.decls.register d).2 }
  | parents {w : World} (h : Layered w) (s : Symbol) (parents : List Ty) (hp : ∀ t ∈ parents, w.Has t) :
    Layered { w with decls := w.decls.setParents s parents }

variable {w v w' : World} {t u r : Ty} {p q : Param} {n : Nat} {b : BinderId}

theorem Layered.built (h : w.Layered) : w.Built := by
  induction h with
  | initial => exact .initial
  | intern _ d hd ih => exact ih.intern d hd
  | skolem _ ih => exact ih.skolem
  | snapshot _ ih => exact ih.snapshot
  | var _ origin ho ih => exact ih.var origin ho
  | instantiate _ v c hc t ht ih => exact ih.instantiate v c hc t ht
  | binder _ kind names ih => exact ih.binder kind names
  | fill _ b _ infos result hi hr ih => exact ih.fill b infos result hi hr
  | register _ d hi hp ih => exact ih.register d hi hp
  | parents _ s parents hp ih => exact ih.parents s parents hp

/-- The types inside a type of a shape that mentions only what was given out were given out. -/
theorem Closed.has_child_of_shape {d : Shape} (hw : w.Closed) (hd : w.Mentions d) (hv : v.binders = w.binders)
    (ht : v.shape? t = some d) (hu : u ∈ v.children t) : w.Has u := by
  rw [children, shape_of_shape? ht] at hu
  cases hd with
  | named h | path h | classInfo h | byName h => exact List.mem_singleton.1 hu ▸ h.2
  | refined h _ h' | inter h h' | union h h' | bounds h h' =>
    rcases List.mem_pair.1 hu with rfl | rfl
    · exact h.2
    · exact h'.2
  | @method b _ h | @universal b _ h =>
    have hsame : v.binder? b = w.binder? b := by rw [binder?, hv, binder?]
    dsimp only at hu
    split at hu
    · next e he =>
      obtain ⟨hinfos, hresult⟩ := hw.binder (hsame ▸ he)
      rcases List.mem_append.1 hu with hu | hu
      · exact hinfos u hu
      · exact List.mem_singleton.1 hu ▸ hresult
    · cases hu
  | _ => cases hu

theorem isBinderType_of_part {d : Shape} (hb : .binder b ∈ d.parts) : d.isBinderType := by
  cases d <;> simp [Shape.parts] at hb <;> rfl

theorem has_of_mem_children (hu : u ∈ w.children t) : w.Has t := by
  by_contra hnot
  have habsent : w.shape t = .fixed .noType := by
    rw [World.Has, Option.not_isSome_iff_eq_none] at hnot
    exact congrArg (Option.getD · _) hnot
  rw [children, habsent] at hu
  cases hu

theorem size_le_of_not_has (ht : ¬ w.Has t) : w.types.shapes.size ≤ t.id := by
  by_contra hlt
  exact ht (Option.isSome_iff_exists.2 ⟨_, Array.getElem?_eq_getElem (Nat.lt_of_not_le hlt)⟩)

/-- What the shape of a type refers to has a smaller handle. -/
theorem Layered.part_lt (h : w.Layered) {d : Shape} (ht : w.shape? t = some d) (hu : .ty u ∈ d.parts) : u.id < t.id := by
  induction h with
  | initial =>
    have hlt : ∀ i < World.initial.types.shapes.size, ∀ u ∈ (World.initial.shape ⟨i⟩).parts.filterMap fun n => match n with
        | .ty u => some u
        | _ => none, u.id < i := by decide
    refine hlt t.id (id_lt_of_has (Option.isSome_iff_exists.2 ⟨d, ht⟩)) u (List.mem_filterMap.2 ⟨.ty u, ?_, rfl⟩)
    rwa [shape_of_shape? ht]
  | @intern w h e he ih =>
    by_cases hhas : w.Has t
    · obtain ⟨d', hd'⟩ := Option.isSome_iff_exists.1 hhas
      cases ((le_intern e w).shape hd').symm.trans ht
      exact ih hd'
    · obtain hold | rfl := shape?_of_intern ht
      · exact (hhas (Option.isSome_iff_exists.2 ⟨d, hold⟩)).elim
      · exact Nat.lt_of_lt_of_le (id_lt_of_has (h.built.closed.given he hu)) (size_le_of_not_has hhas)
  | skolem _ ih | snapshot _ ih | var _ _ _ ih | instantiate _ _ _ _ _ _ ih | binder _ _ _ ih | fill _ _ _ _ _ _ _ ih
  | register _ _ _ _ ih | parents _ _ _ _ ih => exact ih ht

/-- The types inside a type have smaller handles. -/
theorem Layered.child_lt (h : w.Layered) (hu : u ∈ w.children t) : u.id < t.id := by
  induction h with
  | initial =>
    have hinitial : ∀ i < World.initial.types.shapes.size, ∀ u ∈ World.initial.children ⟨i⟩, u.id < i := by decide
    exact hinitial t.id (id_lt_of_has (has_of_mem_children hu)) u hu
  | @intern w h d hd ih =>
    have hclosed := h.built.closed
    by_cases ht : w.Has t
    · rw [(hclosed.known ht).children (le_intern d w)] at hu
      exact ih hu
    · obtain ⟨e, he⟩ := Option.isSome_iff_exists.1 (has_of_mem_children hu)
      obtain hold | rfl := shape?_of_intern he
      · exact (ht (Option.isSome_iff_exists.2 ⟨e, hold⟩)).elim
      · have hhas : w.Has u := hclosed.has_child_of_shape hd (v := { w with types := (w.types.intern e).2 }) rfl he hu
        exact Nat.lt_of_lt_of_le (id_lt_of_has hhas) (size_le_of_not_has ht)
  | @binder w h kind names ih =>
    have ht := has_of_mem_children hu
    change w.Has t at ht
    rw [(h.built.closed.known ht).children (le_freshBinder w { kind, names })] at hu
    exact ih hu
  | @fill w h b hb infos result _ _ ih =>
    have ht := has_of_mem_children hu
    change w.Has t at ht
    obtain ⟨d, hd⟩ := Option.isSome_iff_exists.1 ht
    cases hbinder : w.binder? b with
    | some e =>
      have hsame : (w.fill b infos result).children t = w.children t :=
        children_fill (by rw [shape_of_shape? hd]; exact hb t d hd) hbinder
      exact ih (hsame ▸ hu)
    | none =>
      have hsame : w.binders.modify b.id (fun d => { d with infos, result }) = w.binders := by
        have hsize : w.binders.size ≤ b.id := Array.getElem?_eq_none_iff.1 hbinder
        refine Array.ext (by rw [Array.size_modify]) fun i hi hi' => ?_
        rw [Array.getElem_modify, if_neg (by omega)]
      rw [hsame] at hu
      exact ih hu
  | skolem _ ih | snapshot _ ih | var _ _ _ ih | instantiate _ _ _ _ _ _ ih | register _ _ _ _ ih | parents _ _ _ _ ih =>
    exact ih hu

/-- A type nests no deeper than its handle is large. -/
theorem low_of_child_lt (h : ∀ {t u : Ty}, u ∈ w.children t → u.id < t.id) (t : Ty) : w.Low (t.id + 1) t := by
  have hlow : ∀ n, ∀ t : Ty, t.id < n → w.Low n t := by
    intro n
    induction n with
    | zero => exact fun t ht => absurd ht (Nat.not_lt_zero _)
    | succ n ih => exact fun t ht u hu => ih u (Nat.lt_of_lt_of_le (h hu) (Nat.le_of_lt_succ ht))
  exact hlow _ t (Nat.lt_succ_self _)

theorem Layered.low (h : w.Layered) : ∀ t : Ty, w.Low (t.id + 1) t := low_of_child_lt h.child_lt

/-- What a search for a parameter answers, alike at every allowance that covers the type. -/
theorem exists_mentions (h : w.Low n t) (q : Param) :
    ∃ m, (∀ fuel, n ≤ fuel → w.mentions q fuel t = .ok m) ∧ (m = false ↔ w.Lacks q t) := by
  obtain ⟨m, hm⟩ := total_mentions (p := q) n (Nat.le_refl n) h
  have hlacks := mentions_ok n hm
  refine ⟨m, fun fuel hfuel => ?_, hlacks⟩
  obtain ⟨m', hm'⟩ := total_mentions (p := q) n hfuel h
  have hlacks' := mentions_ok fuel hm'
  rw [hm']
  cases m <;> cases m' <;> simp_all

end World

end Conformance
