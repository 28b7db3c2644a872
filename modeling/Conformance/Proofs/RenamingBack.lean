import Conformance.Proofs.Images
import Conformance.Proofs.ParameterSubstitution
import Conformance.Proofs.SolvingOrder

/-!
# Renaming can be undone

The parameters of one binder are renamed to those of another one and back, and the type that comes out is the one that
went in, with the same handle (`substBinder_undone`). Each layer of the type is rebuilt twice. The second time nothing is
added, since the layer is there already; and intersections and unions do not collapse on the way, since operands that
can be told apart can be told apart by what they are renamed back to (`GivesBack.distinct`). Methods and universal types
would be rebuilt on fresh binders, so they may not mention the parameters that are renamed.
-/

namespace Conformance

/-- Whether a shape is that of a parameter of `b` is seen from the shape. -/
instance (b : BinderId) : (d : Shape) → Decidable (d.IsParamOf b)
  | .param p => decidable_of_iff (p.binder = b)
    ⟨fun h => ⟨p.index, .inl (h ▸ rfl)⟩, fun ⟨_, h⟩ => h.elim (fun h => by cases h; rfl) fun h => by cases h⟩
  | .valueParam p => decidable_of_iff (p.binder = b)
    ⟨fun h => ⟨p.index, .inr (h ▸ rfl)⟩, fun ⟨_, h⟩ => h.elim (fun h => by cases h) fun h => by cases h; rfl⟩
  | .fixed _ | .named .. | .path .. | .self _ | .literal _ | .skolem .. | .var _ | .refined .. | .inter .. | .union ..
  | .method _ | .universal _ | .byName _ | .bounds .. | .classInfo .. =>
    .isFalse (by rintro ⟨i, h | h⟩ <;> cases h)

namespace World

variable {w v v' : World} {a b : BinderId} {t t' u c c' d d' : Ty} {n : Nat}

/-- From `w` on, renaming the parameters of `b` to those of `a` makes `t` of `u` and adds nothing. -/
def GivesBack (w : World) (n : Nat) (b a : BinderId) (u t : Ty) : Prop :=
  ∀ v, w ≤ v → Ty.substBinder n b a u v = .ok (t, v)

/-- From `w` on, renaming the parameters of `a` to those of `b` in `t` comes to an end with an allowance of `n` levels,
and what it makes can be renamed back. -/
def Undone (w : World) (n : Nat) (a b : BinderId) (t : Ty) : Prop :=
  ∀ v, w ≤ v → ∃ u v', Ty.substBinder n a b t v = .ok (u, v') ∧ v'.GivesBack n b a u t

theorem GivesBack.later (h : w.GivesBack n b a u t) (hv : w ≤ v) : v.GivesBack n b a u t := fun v' hv' => h v' (hv.trans hv')

theorem GivesBack.unique (h : w.GivesBack n b a u t) (h' : w.GivesBack n b a u t') : t = t' :=
  (Prod.mk.inj (Except.ok.inj ((h w le_rfl).symm.trans (h' w le_rfl)))).1

/-- A type without the parameters is left alone. -/
theorem givesBack_same (hb : (w.binder? b).isSome) (ht : w.Clear true (·.IsParamOf a) t) (hlow : w.Low n t) :
    w.GivesBack n a b t t := by
  intro v hv
  obtain ⟨u, v', hrun, -⟩ := total_substBinder n a (Nat.le_refl n) (isSome_later hb hv) (ht.settled.later hv)
    (hlow.later ht.settled hv)
  rw [hrun, substBinder_same n (ht.later hv) hrun]

/-- Where neither binder has a parameter in it, the type goes there and back unchanged. -/
theorem undone_same (ha : (w.binder? a).isSome) (hb : (w.binder? b).isSome) (hta : w.Clear true (·.IsParamOf a) t)
    (htb : w.Clear true (·.IsParamOf b) t) (hlow : w.Low n t) : w.Undone n a b t := by
  intro v hv
  exact ⟨t, v, givesBack_same hb hta hlow v hv, (givesBack_same ha htb hlow).later hv⟩

/-! ## Layers -/

section Layers

variable {f : Ty → WorldM Ty} {mk : Ty → Shape} {node : Ty → Ty → Shape}

/-- Rebuilding a layer that is there already adds nothing. -/
theorem rebuild₁_back (ht : w.shape? t = some (mk c)) (hu : w.shape? u = some (mk c')) (hf : f c' w = .ok (c, w)) :
    Ty.rebuild₁ f u c' (fun c => WorldM.intern (mk c)) w = .ok (t, w) := by
  rw [Ty.rebuild₁, bind_run hf]
  split_ifs with heq
  · rw [TypeTable.shape?_injective ht (heq ▸ hu)]
    rfl
  · show Except.ok ((w.types.intern (mk c)).1, { w with types := (w.types.intern (mk c)).2 }) = _
    rw [TypeTable.intern_of_shape? ht]

theorem rebuild₂_back {make : Ty → Ty → WorldM Ty} (ht : w.shape? t = some (node c d))
    (hu : w.shape? u = some (node c' d')) (hc : f c' w = .ok (c, w)) (hd : f d' w = .ok (d, w))
    (hmake : make c d w = WorldM.intern (node c d) w) : Ty.rebuild₂ f u c' d' make w = .ok (t, w) := by
  rw [Ty.rebuild₂, bind_run hc, bind_run hd]
  split_ifs with heq
  · rw [TypeTable.shape?_injective ht (heq.1 ▸ heq.2 ▸ hu)]
    rfl
  · rw [hmake]
    show Except.ok ((w.types.intern (node c d)).1, { w with types := (w.types.intern (node c d)).2 }) = _
    rw [TypeTable.intern_of_shape? ht]

theorem Undone.around₁ (hne : a ≠ b) (hmk : Shape.Around₁ mk) (ht : w.shape? t = some (mk c))
    (hc : w.Undone n a b c) : w.Undone (n + 1) a b t := by
  intro v hv
  obtain ⟨c', v₁, hrun, hback⟩ := hc v hv
  have hle : v ≤ v₁ := (grows_substBinder n a b c).le_of_ok hrun
  obtain ⟨u, v', hu, hle', hshape⟩ : ∃ u v', Ty.rebuild₁ (Ty.substBinder n a b) t c (fun c => WorldM.intern (mk c)) v =
      .ok (u, v') ∧ v₁ ≤ v' ∧ v'.shape? u = some (mk c') := rebuild₁_run hle (hv.shape ht) hrun rfl
  refine ⟨u, v', ?_, fun x hx => ?_⟩
  · rw [substBinder_layer hne (hv.shape ht) (by cases hmk <;> rfl), mapChildren_around₁ hmk (hv.shape ht)]
    exact hu
  · rw [substBinder_layer hne.symm (hx.shape hshape) (by cases hmk <;> rfl), mapChildren_around₁ hmk (hx.shape hshape)]
    exact rebuild₁_back ((hv.trans (hle.trans (hle'.trans hx))).shape ht) (hx.shape hshape) (hback x (hle'.trans hx))

/-- A layer around two types is rebuilt there and back, if making it of what these become, and of these, takes it in as
it is. -/
theorem Undone.rebuild₂ (make : Ty → Ty → WorldM Ty) (ht : w.shape? t = some (node c d))
    (hlayer : ∀ {x p q v n old new}, old ≠ new → v.shape? x = some (node p q) →
      Ty.substBinder (n + 1) old new x v = Ty.rebuild₂ (Ty.substBinder n old new) x p q make v)
    (hne : a ≠ b) (hc : w.Undone n a b c) (hd : w.Undone n a b d) (hthere : ∀ {v c' d'}, w ≤ v → v.GivesBack n b a c' c →
      v.GivesBack n b a d' d → make c' d' v = WorldM.intern (node c' d') v)
    (hback : ∀ v, make c d v = WorldM.intern (node c d) v) : w.Undone (n + 1) a b t := by
  intro v hv
  obtain ⟨c', v₁, hrun₁, hback₁⟩ := hc v hv
  have hle₁ : v ≤ v₁ := (grows_substBinder n a b c).le_of_ok hrun₁
  obtain ⟨d', v₂, hrun₂, hback₂⟩ := hd v₁ (hv.trans hle₁)
  have hle₂ : v₁ ≤ v₂ := (grows_substBinder n a b d).le_of_ok hrun₂
  obtain ⟨u, v', hu, hle', hshape⟩ := rebuild₂_run hle₁ hle₂ (hv.shape ht) hrun₁ hrun₂
    (hthere (hv.trans (hle₁.trans hle₂)) (hback₁.later hle₂) hback₂)
  refine ⟨u, v', ?_, fun x hx => ?_⟩
  · rw [hlayer hne (hv.shape ht)]
    exact hu
  · rw [hlayer hne.symm (hx.shape hshape)]
    exact rebuild₂_back ((hv.trans (hle₁.trans (hle₂.trans (hle'.trans hx)))).shape ht) (hx.shape hshape)
      (hback₁ x (hle₂.trans (hle'.trans hx))) (hback₂ x (hle'.trans hx)) (hback x)

theorem Undone.around₂ (hne : a ≠ b) (hnode : Shape.Around₂ node) (ht : w.shape? t = some (node c d))
    (hc : w.Undone n a b c) (hd : w.Undone n a b d) : w.Undone (n + 1) a b t := by
  refine rebuild₂ (fun c d => WorldM.intern (node c d)) ht (fun hne hx => ?_) hne hc hd (fun _ _ _ => rfl)
    fun _ => rfl
  rw [substBinder_layer hne hx (by cases hnode <;> rfl), mapChildren_around₂ hnode hx]

/-- Built-in classes have no parameters in them. -/
theorem Built.builtin_clear (hw : w.Built) (β : Builtin) (b : BinderId) : w.Clear true (·.IsParamOf b) β.type := by
  have hshape := hw.standard.shape β
  refine hw.closed.clear (Option.isSome_iff_exists.2 ⟨_, hshape⟩) fun u hu => ?_
  rcases Relation.ReflTransGen.cases_head hu with rfl | ⟨x, hx, hu⟩
  · rw [shape_of_shape? hshape]
    rintro ⟨i, h | h⟩ <;> cases h
  · rw [children, shape_of_shape? hshape] at hx
    cases List.mem_singleton.1 hx
    have hpre := shape_of_shape? hw.shape_noPrefix
    rcases Relation.ReflTransGen.cases_head hu with rfl | ⟨y, hy, -⟩
    · rw [hpre]
      rintro ⟨i, h | h⟩ <;> cases h
    · rw [children, hpre] at hy
      cases hy

/-- What can be renamed back to types that do not collapse does not collapse. -/
theorem GivesBack.distinct (hw : w.Built) (hv : w ≤ v) (hc : v.GivesBack n b a c' c) (hd : v.GivesBack n b a d' d)
    (h : c.Distinct d) : c'.Distinct d' := by
  have hbuiltin {x : Ty} (β : Builtin) (hx : v.GivesBack n b a β.type x) : x = β.type := by
    cases substBinder_same n ((hw.builtin_clear β b).later hv) (hx v le_rfl)
    rfl
  obtain ⟨hne, ⟨hca, hcn⟩, hda, hdn⟩ := h
  refine ⟨?_, ⟨?_, ?_⟩, ?_, ?_⟩ <;> rintro rfl
  · exact hne (hc.unique hd)
  · exact hca (hbuiltin _ hc)
  · exact hcn (hbuiltin _ hc)
  · exact hda (hbuiltin _ hd)
  · exact hdn (hbuiltin _ hd)

theorem Undone.joint {unit zero : Ty} (hw : w.Built) (hr : w.Regular) (hne : a ≠ b) (hnode : Shape.Joint node unit zero)
    (ht : w.shape? t = some (node c d)) (hc : w.Undone n a b c) (hd : w.Undone n a b d) : w.Undone (n + 1) a b t := by
  cases hnode with
  | inter =>
    have hdistinct : c.Distinct d := hr t _ ht
    refine rebuild₂ Ty.inter ht (fun hne hx => ?_) hne hc hd
      (fun hv hc hd => (hc.distinct hw hv hd hdistinct).inter_run _) fun v => hdistinct.inter_run v
    rw [substBinder_layer hne hx rfl, Ty.mapChildren, get_bind_run, shape_of_shape? hx]
  | union =>
    have hdistinct : c.Distinct d := hr t _ ht
    refine rebuild₂ Ty.union ht (fun hne hx => ?_) hne hc hd
      (fun hv hc hd => (hc.distinct hw hv hd hdistinct).union_run _) fun v => hdistinct.union_run v
    rw [substBinder_layer hne hx rfl, Ty.mapChildren, get_bind_run, shape_of_shape? hx]

/-- A parameter gives way to the parameter of the other binder at its place, of the kind that this one binds. -/
theorem undone_param {k : BinderKind} {i : Nat} (hne : a ≠ b) (hk : w.binderKind? a = some k)
    (hb : (w.binder? b).isSome) (ht : w.shape? t = some (k.param ⟨a, i⟩)) : w.Undone (n + 1) a b t := by
  intro v hv
  obtain ⟨d, hd⟩ := Option.isSome_iff_exists.1 hb
  have hkb : v.binderKind? b = some d.kind := binderKind?_of_binder? (hv.binder hd)
  obtain ⟨u, v', hrun⟩ : ∃ u v', WorldM.intern (d.kind.param ⟨b, i⟩) v = .ok (u, v') := ⟨_, _, rfl⟩
  obtain ⟨hle, hshape⟩ := intern_ok hrun
  refine ⟨u, v', ?_, fun x hx => ?_⟩
  · rw [substBinder_param hne (hv.shape ht), if_pos rfl, paramType_run hkb, hrun]
  · have hle' := hv.trans (hle.trans hx)
    rw [substBinder_param hne.symm (hx.shape hshape), if_pos rfl, paramType_run (binderKind?_later hk hle')]
    show Except.ok ((x.types.intern _).1, { x with types := (x.types.intern _).2 }) = _
    rw [TypeTable.intern_of_shape? (hle'.shape ht)]

end Layers

/-! ## Types -/

/-- `t` has no parameter of `b` in it, and no method or universal type in it has one of `a`. -/
structure Frees (w : World) (a b : BinderId) (t : Ty) : Prop where
  free : ∀ x, w.Within t x → ¬ (w.shape x).IsParamOf b
  bound : ∀ x, w.Within t x → (w.shape x).isBinderType → ∀ y, w.Within x y → ¬ (w.shape y).IsParamOf a

theorem Frees.child (h : w.Frees a b t) (hc : c ∈ w.children t) : w.Frees a b c :=
  ⟨fun x hx => h.free x (.head hc hx), fun x hx => h.bound x (.head hc hx)⟩

/-- The induction is on the height of the type. -/
theorem Frees.undone (hw : w.Built) (hr : w.Regular) (hne : a ≠ b) (ha : (w.binder? a).isSome)
    (hb : (w.binder? b).isSome) (n : Nat) : ∀ {t : Ty}, w.Has t → w.Low n t → w.Frees a b t → w.Undone n a b t := by
  induction n with
  | zero => exact fun _ hlow => hlow.elim
  | succ n ih =>
    intro t hhas hlow hfree
    have hchild {x : Ty} (hx : x ∈ w.children t) : w.Undone n a b x :=
      ih (hw.closed.has_child hx) (hlow x hx) (hfree.child hx)
    have hsame (hin : ∀ x, w.Within t x → ¬ (w.shape x).IsParamOf a) : w.Undone (n + 1) a b t :=
      undone_same ha hb (hw.closed.clear hhas hin) (hw.closed.clear hhas hfree.free) hlow
    have hleaf (hnone : w.children t = []) (hd : ¬ (w.shape t).IsParamOf a) : w.Undone (n + 1) a b t := by
      refine hsame fun x hx => ?_
      rcases Relation.ReflTransGen.cases_head hx with rfl | ⟨y, hy, -⟩
      · exact hd
      · rw [hnone] at hy
        cases hy
    obtain ⟨d, hd⟩ := Option.isSome_iff_exists.1 hhas
    have hshape := shape_of_shape? hd
    cases d with
    | param p | valueParam p =>
      obtain ⟨k, hk, hkp⟩ := hr t _ hd
      by_cases hpa : p.binder = a
      · obtain ⟨c, i⟩ := p
        cases hpa
        exact undone_param hne hk hb (hkp ▸ hd)
      · refine hleaf (by rw [children, hshape]) ?_
        rw [hshape]
        rintro ⟨i, h | h⟩ <;> cases h
        exact hpa rfl
    | named c s => exact .around₁ hne (.named s) hd (hchild (by simp [children, hshape]))
    | path c s => exact .around₁ hne (.path s) hd (hchild (by simp [children, hshape]))
    | classInfo c cls => exact .around₁ hne (.classInfo cls) hd (hchild (by simp [children, hshape]))
    | byName c => exact .around₁ hne .byName hd (hchild (by simp [children, hshape]))
    | refined c name d =>
      exact .around₂ hne (.refined name) hd (hchild (by simp [children, hshape])) (hchild (by simp [children, hshape]))
    | bounds c d =>
      exact .around₂ hne .bounds hd (hchild (by simp [children, hshape])) (hchild (by simp [children, hshape]))
    | inter c d =>
      exact .joint hw hr hne .inter hd (hchild (by simp [children, hshape])) (hchild (by simp [children, hshape]))
    | union c d =>
      exact .joint hw hr hne .union hd (hchild (by simp [children, hshape])) (hchild (by simp [children, hshape]))
    | method c | universal c => exact hsame (hfree.bound t .refl (by rw [hshape]; rfl))
    | fixed | self | literal | skolem | var =>
      refine hleaf (by rw [children, hshape]) ?_
      rw [hshape]
      rintro ⟨i, h | h⟩ <;> cases h

/-- **Renaming can be undone.** In a world built without forged handles let `t` have no parameter of `b` in it, and no
method or universal type in it a parameter of `a`. Then the parameters of `a` are renamed to those of `b`, at every
allowance from some point on with the same result, which has no parameter of `a` in it; and when the parameters of `b`
are renamed to those of `a` in the result, it is `t` again, with the same handle, and nothing is added to the world. -/
theorem substBinder_undone (hw : w.Layered) (hr : w.Regular) (ha : (w.binder? a).isSome) (hb : (w.binder? b).isSome)
    (ht : w.Has t) (hfree : ∀ x, w.Within t x → ¬ (w.shape x).IsParamOf b)
    (hbound : ∀ x, w.Within t x → (w.shape x).isBinderType → ∀ y, w.Within x y → ¬ (w.shape y).IsParamOf a) :
    ∃ k u w', w ≤ w' ∧
      (∀ fuel, k ≤ fuel → Ty.substBinder fuel a b t w = .ok (u, w') ∧ Ty.substBinder fuel b a u w' = .ok (t, w')) ∧
      (∀ x, w'.Within u x → ¬ (w'.shape x).IsParamOf a) ∧
      ∀ i fuel, k ≤ fuel → w'.mentions ⟨a, i⟩ fuel u = .ok false := by
  have hclosed := hw.built.closed
  have hlow := hw.low t
  let k := t.id + 1
  obtain ⟨u, w', hrun, hulow⟩ := total_substBinder k a (Nat.le_refl k) hb (hclosed.settled ht) hlow
  have hle : w ≤ w' := (grows_substBinder k a b t).le_of_ok hrun
  -- with `a` and `b` the same nothing is done
  have hback : w'.GivesBack k b a u t ∧ w'.Clear true (·.IsParamOf a) u := by
    by_cases hne : a = b
    · subst hne
      change (if a = a then pure t else _ : WorldM Ty) w = _ at hrun
      rw [if_pos rfl] at hrun
      cases hrun
      refine ⟨fun v _ => ?_, hclosed.clear ht hfree⟩
      show (if a = a then pure t else _ : WorldM Ty) v = _
      rw [if_pos rfl]
      rfl
    · obtain ⟨u₁, w₁, hrun₁, hback⟩ := Frees.undone hw.built hr hne ha hb k ht hlow ⟨hfree, hbound⟩ w le_rfl
      cases hrun.symm.trans hrun₁
      refine ⟨hback, clear_substBinder k (watches_paramOf ha) hb (fun d hd hda => hne (hda.unique hd)) ?_ hrun⟩
      exact hclosed.clear ht fun x _ h => h.2 h.1
  refine ⟨k, u, w', hle, fun fuel hfuel => ⟨WorldM.extends_substBinder a b t hfuel w _ hrun,
    WorldM.extends_substBinder b a u hfuel w' _ (hback.1 w' le_rfl)⟩, fun x hx => hback.2.not_within hx, fun i fuel hfuel => ?_⟩
  obtain ⟨m, hm, hlacks⟩ := exists_mentions hulow ⟨a, i⟩
  rw [hm fuel hfuel, hlacks.2 fun x hx h => hback.2.not_within hx ⟨i, .inl h⟩]

/-- What is inside a type has no larger handle. -/
theorem Layered.within_le (hw : w.Layered) (hu : w.Within t u) : u.id ≤ t.id := by
  induction hu with
  | refl => exact Nat.le_refl _
  | tail _ hchild ih => exact Nat.le_trans (Nat.le_of_lt (hw.child_lt hchild)) ih

/-- The parameter `X`, at `17`, the method binder of `y`, and the type `(X & Int) with T = [Z] Z`, at `19`. -/
def fieldWorld : World :=
  let w := World.initial
  let w := { w with binders := w.binders.push { kind := .universal, names := ["X"] } }
  let w := { w with binders := w.binders.push { kind := .method {}, names := ["y"] } }
  let w := { w with binders := w.binders.push { kind := .universal, names := ["Z"] } }
  let w := { w with types := (w.types.intern (.param ⟨⟨2⟩, 0⟩)).2 }
  let w := { w with binders := w.binders.modify 2 fun d => { d with infos := [⟨14⟩], result := ⟨15⟩ } }
  let w := { w with types := (w.types.intern (.universal ⟨2⟩)).2 }
  let w := { w with types := (w.types.intern (.param ⟨⟨0⟩, 0⟩)).2 }
  let w := { w with types := (w.types.intern (.inter ⟨17⟩ Builtin.int.type)).2 }
  { w with types := (w.types.intern (.refined ⟨18⟩ "T" ⟨16⟩)).2 }

theorem fieldWorld_run : Session.SuppliedRun .initial ⟨fieldWorld, [⟨1⟩, ⟨0⟩]⟩ := by
  have h₁ : Session.SuppliedRun .initial _ := .single (.start .universal ["X"] rfl)
  have h₂ := h₁.tail (.start (.method {}) ["y"] rfl)
  have h₃ := h₂.tail (.start .universal ["Z"] rfl)
  have h₄ := h₃.tail (.call (.add (.paramType (b := ⟨2⟩) 0 rfl)) rfl)
  have h₅ := h₄.tail (.finish (show ∀ t ∈ [⟨14⟩], World.Has _ t by decide) (show World.Has _ ⟨15⟩ by decide) rfl rfl)
  have h₆ := h₅.tail (.call (.add (.paramType (b := ⟨0⟩) 0 rfl)) rfl)
  have h₇ := h₆.tail (.call (.add (.inter (a := ⟨17⟩) (b := Builtin.int.type) (by decide) (by decide))) rfl)
  exact h₇.tail (.call (.add (.refined "T" (show World.Has _ ⟨18⟩ by decide) (show World.Has _ ⟨16⟩ by decide))) rfl)

/-- `X` becomes the value parameter `y`, a type of another shape, and `X` again. -/
theorem substBinder_undone_field : fieldWorld.Layered ∧ fieldWorld.Regular ∧ ∃ k w', fieldWorld ≤ w' ∧
    (∀ fuel, k ≤ fuel → Ty.substBinder fuel ⟨0⟩ ⟨1⟩ ⟨19⟩ fieldWorld = .ok (⟨22⟩, w') ∧
      Ty.substBinder fuel ⟨1⟩ ⟨0⟩ ⟨22⟩ w' = .ok (⟨19⟩, w')) ∧
    (∀ x, w'.Within ⟨22⟩ x → ¬ (w'.shape x).IsParamOf ⟨0⟩) ∧
    ∀ i fuel, k ≤ fuel → w'.mentions ⟨⟨0⟩, i⟩ fuel ⟨22⟩ = .ok false := by
  have hlayered : fieldWorld.Layered := fieldWorld_run.layered
  have hregular : fieldWorld.Regular := fieldWorld_run.regular
  have hle {x y : Ty} (hy : fieldWorld.Within x y) : y.id ≤ x.id := hlayered.within_le hy
  have hparams : ∀ i < 20, ¬ (fieldWorld.shape ⟨i⟩).IsParamOf ⟨1⟩ := by decide
  -- the one type of a binder is older than `X`
  have hbinders : ∀ i < 20, (fieldWorld.shape ⟨i⟩).isBinderType → i ≤ 16 := by decide
  have hbelow : ∀ i < 17, ¬ (fieldWorld.shape ⟨i⟩).IsParamOf ⟨0⟩ := by decide
  have hfree (x : Ty) (hx : fieldWorld.Within ⟨19⟩ x) : ¬ (fieldWorld.shape x).IsParamOf ⟨1⟩ :=
    hparams x.id (Nat.lt_succ_of_le (hle hx))
  have hbound (x : Ty) (hx : fieldWorld.Within ⟨19⟩ x) (hbinder : (fieldWorld.shape x).isBinderType) (y : Ty)
      (hy : fieldWorld.Within x y) : ¬ (fieldWorld.shape y).IsParamOf ⟨0⟩ :=
    hbelow y.id (Nat.lt_succ_of_le ((hle hy).trans (hbinders x.id (Nat.lt_succ_of_le (hle hx)) hbinder)))
  obtain ⟨k, u, w', hgrown, hrun, hclear⟩ := substBinder_undone hlayered hregular (a := ⟨0⟩) (b := ⟨1⟩)
    (t := ⟨19⟩) (by decide) (by decide) (by decide) hfree hbound
  obtain ⟨⟨_, v⟩, hv, rfl⟩ : ∃ r, Ty.substBinder 5 ⟨0⟩ ⟨1⟩ ⟨19⟩ fieldWorld = .ok r ∧ r.1 = ⟨22⟩ :=
    CompareM.exists_of_map (by decide +kernel)
  have hlarge := WorldM.extends_substBinder ⟨0⟩ ⟨1⟩ ⟨19⟩ (Nat.le_max_right k 5) fieldWorld _ hv
  cases (hrun _ (Nat.le_max_left k 5)).1.symm.trans hlarge
  exact ⟨hlayered, hregular, k, w', hgrown, hrun, hclear⟩

end World

end Conformance
