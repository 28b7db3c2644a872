import Conformance.Proofs.StoreSubstitution

/-!
# The order of choices does not matter

Two parameters are chosen one after the other, each choice mentioning neither of them. What becomes of a type is followed
in one world that holds all that is made on the way: there `Replaced` says layer by layer what replacing a parameter makes
of a type, whenever and with whatever allowance it is done. It is a function of the type (`Replaced.unique`), and two
replacements can be exchanged (`Replaced.comm`). Intersections and unions are where this is not plain: operands collapse,
so one order may drop an operand that the other still rewrites. But an operand is dropped only beside one that takes all,
and that one stays (`Combines.through`).

Types of binders are rebuilt on fresh binders, so which handles they get depends on the order; here they occur only where
nothing is replaced in them.
-/

namespace Conformance

namespace World

variable {w w' W : World} {p q x y : Param} {r a b t t' u c c' d d' unit zero : Ty} {mk : Ty → Shape}
  {node : Ty → Ty → Shape} {n : Nat}

theorem children_around₁ (hmk : Shape.Around₁ mk) (ht : W.shape? t = some (mk c)) : W.children t = [c] := by
  rw [children, shape_of_shape? ht]
  cases hmk <;> rfl

theorem children_around₂ (hmk : Shape.Around₂ node) (ht : W.shape? t = some (node c d)) : W.children t = [c, d] := by
  rw [children, shape_of_shape? ht]
  cases hmk <;> rfl

theorem children_joint (hnode : Shape.Joint node unit zero) (ht : W.shape? t = some (node c d)) :
    W.children t = [c, d] := by
  rw [children, shape_of_shape? ht]
  cases hnode <;> rfl

theorem Lacks.of_children (hshape : W.shape t ≠ .param p) (h : ∀ u ∈ W.children t, W.Lacks p u) : W.Lacks p t := by
  intro x hx
  rcases Relation.ReflTransGen.cases_head hx with rfl | ⟨u, hu, hx⟩
  · exact hshape
  · exact h u hu x hx

/-! ## Joining -/

/-- `t` is the intersection or union of `c` and `d`, collapsed if it can be. -/
def Combines (W : World) (node : Ty → Ty → Shape) (unit zero c d t : Ty) : Prop :=
  if c = d then t = c else if c = unit then t = d else if d = unit then t = c
  else if c = zero ∨ d = zero then t = zero else W.shape? t = some (node c d)

theorem Combines.unique (h : W.Combines node unit zero c d t) (h' : W.Combines node unit zero c d t') : t = t' := by
  rw [Combines] at h h'
  split_ifs at h h'
  all_goals first
    | exact h.trans h'.symm
    | exact TypeTable.shape?_injective h h'

theorem combines_self (c : Ty) : W.Combines node unit zero c c c := by
  rw [Combines, if_pos rfl]

theorem combines_unit_left (d : Ty) : W.Combines node unit zero unit d d := by
  rw [Combines]
  split_ifs <;> simp_all

theorem combines_unit_right (c : Ty) : W.Combines node unit zero c unit c := by
  rw [Combines]
  split_ifs <;> simp_all

/-- The operand that takes all takes all. -/
theorem Combines.of_zero (hnode : Shape.Joint node unit zero) (h : W.Combines node unit zero c d t) (hz : c = zero ∨ d = zero) :
    t = zero := by
  have hne : zero ≠ unit := by cases hnode <;> decide
  rw [Combines] at h
  split_ifs at h with hcd hc hd
  · rcases hz with rfl | rfl
    · exact h
    · exact h.trans hcd
  · rcases hz with rfl | rfl
    · exact (hne hc).elim
    · exact h
  · rcases hz with rfl | rfl
    · exact h
    · exact (hne hd).elim
  · exact h

theorem combines_of_inter (hw : w' ≤ W) (hrun : Ty.inter c d w = .ok (t, w')) :
    W.Combines .inter Builtin.any.type Builtin.nothing.type c d t := by
  rw [Ty.inter] at hrun
  rw [Combines]
  split_ifs at hrun ⊢
  all_goals first
    | exact (congrArg Prod.fst (Except.ok.inj hrun)).symm
    | exact hw.shape (intern_ok hrun).2

theorem combines_of_union (hw : w' ≤ W) (hrun : Ty.union c d w = .ok (t, w')) :
    W.Combines .union Builtin.nothing.type Builtin.any.type c d t := by
  rw [Ty.union] at hrun
  rw [Combines]
  split_ifs at hrun ⊢
  all_goals first
    | exact (congrArg Prod.fst (Except.ok.inj hrun)).symm
    | exact hw.shape (intern_ok hrun).2

/-! ## Replacing -/

/-- `t'` is `t` with `r` in place of `p`. -/
inductive Replaced (W : World) (p : Param) (r : Ty) : Ty → Ty → Prop
  | same {t : Ty} (lacks : W.Lacks p t) : Replaced W p r t t
  | param {t : Ty} (shape : W.shape? t = some (.param p)) : Replaced W p r t r
  | around₁ {t t' c c' : Ty} {mk : Ty → Shape} (hmk : Shape.Around₁ mk) (shape : W.shape? t = some (mk c))
    (child : Replaced W p r c c') (shape' : W.shape? t' = some (mk c')) : Replaced W p r t t'
  | around₂ {t t' c c' d d' : Ty} {mk : Ty → Ty → Shape} (hmk : Shape.Around₂ mk) (shape : W.shape? t = some (mk c d))
    (left : Replaced W p r c c') (right : Replaced W p r d d') (shape' : W.shape? t' = some (mk c' d')) :
    Replaced W p r t t'
  | joint {t t' c c' d d' unit zero : Ty} {node : Ty → Ty → Shape} (hnode : Shape.Joint node unit zero)
    (shape : W.shape? t = some (node c d)) (left : Replaced W p r c c') (right : Replaced W p r d d')
    (whole : if c' = c ∧ d' = d then t' = t else W.Combines node unit zero c' d' t') : Replaced W p r t t'

namespace Replaced

theorem of_lacks (h : W.Replaced p r t t') (ht : W.Lacks p t) : t' = t := by
  induction h with
  | same => rfl
  | param shape => exact absurd (shape_of_shape? shape) (ht _ .refl)
  | around₁ hmk shape _ shape' ih =>
    rw [ih (ht.child (by simp [children_around₁ hmk shape]))] at shape'
    exact TypeTable.shape?_injective shape' shape
  | around₂ hmk shape _ _ shape' ihc ihd =>
    rw [ihc (ht.child (by simp [children_around₂ hmk shape])), ihd (ht.child (by simp [children_around₂ hmk shape]))]
      at shape'
    exact TypeTable.shape?_injective shape' shape
  | joint hnode shape _ _ whole ihc ihd =>
    rwa [if_pos ⟨ihc (ht.child (by simp [children_joint hnode shape])), ihd (ht.child (by simp [children_joint hnode shape]))⟩]
      at whole

theorem plain_ne_param {d : Shape} (h : d.isPlain) : d ≠ .param p := by
  rintro rfl
  cases h

/-! ### What is replaced in a type of known shape -/

theorem of_param (h : W.Replaced p r t t') (ht : W.shape? t = some (.param p)) : t' = r := by
  cases h with
  | same lacks => exact absurd (shape_of_shape? ht) (lacks _ .refl)
  | param => rfl
  | around₁ hmk shape => exact absurd (Option.some.inj (shape.symm.trans ht)) (plain_ne_param hmk.plain)
  | around₂ hmk shape => exact absurd (Option.some.inj (shape.symm.trans ht)) (plain_ne_param hmk.plain)
  | joint hnode shape => exact absurd (Option.some.inj (shape.symm.trans ht)) (plain_ne_param hnode.plain)

theorem of_around₁ (h : W.Replaced p r t t') (hmk : Shape.Around₁ mk) (ht : W.shape? t = some (mk c)) :
    ∃ c', W.Replaced p r c c' ∧ W.shape? t' = some (mk c') := by
  cases h with
  | same lacks => exact ⟨c, .same (lacks.child (by simp [children_around₁ hmk ht])), ht⟩
  | param shape => exact absurd (Option.some.inj (ht.symm.trans shape)) (plain_ne_param hmk.plain)
  | around₁ hmk' shape child shape' =>
    obtain ⟨rfl, rfl⟩ := hmk.inj hmk' (Option.some.inj (ht.symm.trans shape))
    exact ⟨_, child, shape'⟩
  | around₂ hmk' shape => exact absurd (Option.some.inj (ht.symm.trans shape)) (hmk.ne_around₂ hmk')
  | joint hnode shape => exact absurd (Option.some.inj (ht.symm.trans shape)) (hmk.ne_joint hnode)

theorem of_around₂ (h : W.Replaced p r t t') (hmk : Shape.Around₂ node) (ht : W.shape? t = some (node c d)) :
    ∃ c' d', W.Replaced p r c c' ∧ W.Replaced p r d d' ∧ W.shape? t' = some (node c' d') := by
  cases h with
  | same lacks =>
    have hchild {u : Ty} (hu : u ∈ [c, d]) : W.Replaced p r u u :=
      .same (lacks.child (by rwa [children_around₂ hmk ht]))
    exact ⟨c, d, hchild (by simp), hchild (by simp), ht⟩
  | param shape => exact absurd (Option.some.inj (ht.symm.trans shape)) (plain_ne_param hmk.plain)
  | around₁ hmk' shape => exact absurd (Option.some.inj (shape.symm.trans ht)) (hmk'.ne_around₂ hmk)
  | around₂ hmk' shape left right shape' =>
    obtain ⟨rfl, rfl, rfl⟩ := hmk.inj hmk' (Option.some.inj (ht.symm.trans shape))
    exact ⟨_, _, left, right, shape'⟩
  | joint hnode shape => exact absurd (Option.some.inj (ht.symm.trans shape)) (hmk.ne_joint hnode)

theorem of_joint (h : W.Replaced p r t t') (hnode : Shape.Joint node unit zero) (ht : W.shape? t = some (node c d)) :
    ∃ c' d', W.Replaced p r c c' ∧ W.Replaced p r d d' ∧
      if c' = c ∧ d' = d then t' = t else W.Combines node unit zero c' d' t' := by
  cases h with
  | same lacks =>
    have hchild {u : Ty} (hu : u ∈ [c, d]) : W.Replaced p r u u :=
      .same (lacks.child (by rwa [children_joint hnode ht]))
    exact ⟨c, d, hchild (by simp), hchild (by simp), by rw [if_pos ⟨rfl, rfl⟩]⟩
  | param shape => exact absurd (Option.some.inj (ht.symm.trans shape)) (plain_ne_param hnode.plain)
  | around₁ hmk shape => exact absurd (Option.some.inj (shape.symm.trans ht)) (hmk.ne_joint hnode)
  | around₂ hmk shape => exact absurd (Option.some.inj (shape.symm.trans ht)) (hmk.ne_joint hnode)
  | joint hnode' shape left right whole =>
    obtain ⟨⟨rfl, rfl, rfl⟩, rfl, rfl⟩ := hnode.inj hnode' (Option.some.inj (ht.symm.trans shape))
    exact ⟨_, _, left, right, whole⟩

/-- **There is one way to replace.** -/
theorem unique (h : W.Replaced p r t t') : ∀ {u : Ty}, W.Replaced p r t u → t' = u := by
  induction h with
  | same lacks => exact fun h => (h.of_lacks lacks).symm
  | param shape => exact fun h => (h.of_param shape).symm
  | around₁ hmk shape _ shape' ih =>
    intro u h
    obtain ⟨c'', hc, hu⟩ := h.of_around₁ hmk shape
    exact TypeTable.shape?_injective shape' (ih hc ▸ hu)
  | around₂ hmk shape _ _ shape' ihc ihd =>
    intro u h
    obtain ⟨c'', d'', hc, hd, hu⟩ := h.of_around₂ hmk shape
    exact TypeTable.shape?_injective shape' (ihc hc ▸ ihd hd ▸ hu)
  | joint hnode shape _ _ whole ihc ihd =>
    intro u h
    obtain ⟨c'', d'', hc, hd, hu⟩ := h.of_joint hnode shape
    rw [← ihc hc, ← ihd hd] at hu
    split_ifs at whole hu
    · exact whole.trans hu.symm
    · exact whole.unique hu

/-- What holds of all parts of a type and of the replacement, and of all that rebuilding makes, holds of all parts of the
result. -/
theorem throughout {P : Ty → Prop} (hP : ∀ u d, W.shape? u = some d → d.isPlain → P u) (hr : ∀ u, W.Within r u → P u)
    (h : W.Replaced p r t t') (ht : ∀ u, W.Within t u → P u) : ∀ u, W.Within t' u → P u := by
  have hbuilt {t : Ty} {d : Shape} {l : List Ty} (hd : W.shape? t = some d) (hplain : d.isPlain)
      (hchildren : W.children t = l) (hl : ∀ c ∈ l, ∀ u, W.Within c u → P u) : ∀ u, W.Within t u → P u := by
    intro u hu
    rcases Relation.ReflTransGen.cases_head hu with rfl | ⟨c, hc, hu⟩
    · exact hP _ d hd hplain
    · exact hl c (hchildren ▸ hc) u hu
  have hchild {t c : Ty} {l : List Ty} (hchildren : W.children t = l) (hc : c ∈ l) (ht : ∀ u, W.Within t u → P u) :
      ∀ u, W.Within c u → P u := fun u hu => ht u (.head (hchildren ▸ hc) hu)
  induction h with
  | same => exact ht
  | param => exact hr
  | around₁ hmk shape _ shape' ih =>
    have hc := ih (hchild (children_around₁ hmk shape) (by simp) ht)
    exact hbuilt shape' hmk.plain (children_around₁ hmk shape') (by simpa using hc)
  | around₂ hmk shape _ _ shape' ihc ihd =>
    have hc := ihc (hchild (children_around₂ hmk shape) (by simp) ht)
    have hd := ihd (hchild (children_around₂ hmk shape) (by simp) ht)
    exact hbuilt shape' hmk.plain (children_around₂ hmk shape') (by simpa using ⟨hc, hd⟩)
  | @joint t t' c c' d d' _ _ _ hnode shape _ _ whole ihc ihd =>
    have hc := ihc (hchild (children_joint hnode shape) (by simp) ht)
    have hd := ihd (hchild (children_joint hnode shape) (by simp) ht)
    split_ifs at whole with hsame
    · exact whole ▸ ht
    · rw [Combines] at whole
      split_ifs at whole with _ _ _ hzero
      · exact whole ▸ hc
      · exact whole ▸ hd
      · exact whole ▸ hc
      · rcases hzero with hzero | hzero
        · exact whole ▸ hzero ▸ hc
        · exact whole ▸ hzero ▸ hd
      · exact hbuilt whole hnode.plain (children_joint hnode whole) (by simpa using ⟨hc, hd⟩)

/-- A parameter that neither the type nor the replacement mentions is not brought in. -/
theorem lacks (h : W.Replaced p r t t') (ht : W.Lacks q t) (hr : W.Lacks q r) : W.Lacks q t' :=
  h.throughout (fun _ _ hd hplain => shape_of_shape? hd ▸ plain_ne_param hplain) hr ht

end Replaced

/-! ## Two replacements -/

/-- What is replaced in an intersection or union is replaced in its operands, unless one of them takes all. -/
theorem Combines.through (hnode : Shape.Joint node unit zero) (hunit : W.Lacks p unit) (hzero : W.Lacks p zero)
    (h : W.Combines node unit zero c d t) (ht : W.Replaced p r t t') :
    (∃ c' d', W.Replaced p r c c' ∧ W.Replaced p r d d' ∧ W.Combines node unit zero c' d' t') ∨
      (c = zero ∨ d = zero) ∧ t' = zero := by
  have hwhole := h
  rw [Combines] at h
  split_ifs at h with hcd hc hd hz
  · subst hcd h
    exact .inl ⟨t', t', ht, ht, combines_self t'⟩
  · subst hc h
    exact .inl ⟨c, t', .same hunit, ht, combines_unit_left t'⟩
  · subst hd h
    exact .inl ⟨t', d, ht, .same hunit, combines_unit_right t'⟩
  · subst h
    exact .inr ⟨hz, ht.of_lacks hzero⟩
  · obtain ⟨c', d', hc', hd', whole⟩ := ht.of_joint hnode h
    refine .inl ⟨c', d', hc', hd', ?_⟩
    split_ifs at whole with hsame
    · obtain ⟨rfl, rfl⟩ := hsame
      exact whole ▸ hwhole
    · exact whole

/-- What two replacements make of an intersection or union of `c` and `d`, of which the first makes `c₁` and `d₁`. -/
theorem Replaced.twice {t₁ t₁₂ c₁ d₁ : Ty} (hnode : Shape.Joint node unit zero) (hunit : W.Lacks p unit)
    (hzero : W.Lacks p zero) (ht : W.shape? t = some (node c d))
    (whole : if c₁ = c ∧ d₁ = d then t₁ = t else W.Combines node unit zero c₁ d₁ t₁) (h : W.Replaced p r t₁ t₁₂) :
    (∃ c₁₂ d₁₂, W.Replaced p r c₁ c₁₂ ∧ W.Replaced p r d₁ d₁₂ ∧
      if (c₁ = c ∧ c₁₂ = c) ∧ d₁ = d ∧ d₁₂ = d then t₁₂ = t else W.Combines node unit zero c₁₂ d₁₂ t₁₂) ∨
    ¬ (c₁ = c ∧ d₁ = d) ∧ (c₁ = zero ∨ d₁ = zero) ∧ t₁₂ = zero := by
  split_ifs at whole with hsame
  · obtain ⟨rfl, rfl⟩ := hsame
    subst whole
    obtain ⟨c₁₂, d₁₂, hc, hd, whole⟩ := h.of_joint hnode ht
    exact .inl ⟨c₁₂, d₁₂, hc, hd, by simpa using whole⟩
  · rcases whole.through hnode hunit hzero h with ⟨c₁₂, d₁₂, hc, hd, whole⟩ | hzero
    · refine .inl ⟨c₁₂, d₁₂, hc, hd, ?_⟩
      rwa [if_neg fun h => hsame ⟨h.1.1, h.2.1⟩]
    · exact .inr ⟨hsame, hzero⟩

/-- What two replacements leave alone, the second one alone leaves alone. -/
theorem Replaced.unmoved {c₁ c₁₂ c₂ : Ty} (h₁₂ : W.Replaced p r c₁ c₁₂) (h₂ : W.Replaced p r c c₂)
    (h : c₁ = c ∧ c₁₂ = c) : c₂ = c := by
  obtain ⟨rfl, rfl⟩ := h
  exact h₂.unique h₁₂

/-- Neither parameter is mentioned. -/
def LacksBoth (W : World) (x y : Param) (t : Ty) : Prop := W.Lacks x t ∧ W.Lacks y t

/-- **Two replacements can be exchanged**, if they mention neither of the two parameters. -/
theorem Replaced.comm {t₁ t₁₂ t₂ t₂₁ : Ty} (hxy : x ≠ y) (ha : W.LacksBoth x y a) (hb : W.LacksBoth x y b)
    (hany : W.LacksBoth x y Builtin.any.type) (hnothing : W.LacksBoth x y Builtin.nothing.type) (h₁ : W.Replaced x a t t₁)
    (h₁₂ : W.Replaced y b t₁ t₁₂) (h₂ : W.Replaced y b t t₂) (h₂₁ : W.Replaced x a t₂ t₂₁) : t₁₂ = t₂₁ := by
  induction h₁ generalizing t₁₂ t₂ t₂₁ with
  | same lacks =>
    obtain rfl := h₁₂.unique h₂
    exact (h₂₁.of_lacks (h₂.lacks lacks hb.1)).symm
  | @param t shape =>
    have hlacks : W.Lacks y t := by
      refine .of_children ?_ fun u hu => ?_
      · rw [shape_of_shape? shape]
        rintro ⟨⟩
        exact hxy rfl
      · rw [children, shape_of_shape? shape] at hu
        cases hu
    obtain rfl := h₂.of_lacks hlacks
    rw [h₁₂.of_lacks ha.2, h₂₁.of_param shape]
  | around₁ hmk shape _ shape₁ ih =>
    obtain ⟨c₁₂, hc₁₂, shape₁₂⟩ := h₁₂.of_around₁ hmk shape₁
    obtain ⟨c₂, hc₂, shape₂⟩ := h₂.of_around₁ hmk shape
    obtain ⟨c₂₁, hc₂₁, shape₂₁⟩ := h₂₁.of_around₁ hmk shape₂
    exact TypeTable.shape?_injective shape₁₂ (ih hc₁₂ hc₂ hc₂₁ ▸ shape₂₁)
  | around₂ hmk shape _ _ shape₁ ihc ihd =>
    obtain ⟨c₁₂, d₁₂, hc₁₂, hd₁₂, shape₁₂⟩ := h₁₂.of_around₂ hmk shape₁
    obtain ⟨c₂, d₂, hc₂, hd₂, shape₂⟩ := h₂.of_around₂ hmk shape
    obtain ⟨c₂₁, d₂₁, hc₂₁, hd₂₁, shape₂₁⟩ := h₂₁.of_around₂ hmk shape₂
    exact TypeTable.shape?_injective shape₁₂ (ihc hc₁₂ hc₂ hc₂₁ ▸ ihd hd₁₂ hd₂ hd₂₁ ▸ shape₂₁)
  | @joint t t₁ c c₁ d d₁ unit zero node hnode shape hc₁ hd₁ whole ihc ihd =>
    have hends : W.LacksBoth x y unit ∧ W.LacksBoth x y zero := by
      cases hnode
      · exact ⟨hany, hnothing⟩
      · exact ⟨hnothing, hany⟩
    obtain ⟨hunit, hzero⟩ := hends
    obtain ⟨c₂, d₂, hc₂, hd₂, whole₂⟩ := h₂.of_joint hnode shape
    have hzero₁ {c : Ty} (h : c = zero) : W.Replaced y b c zero := by
      rw [h]
      exact .same hzero.2
    have hzero₂ {c : Ty} (h : c = zero) : W.Replaced x a c zero := by
      rw [h]
      exact .same hzero.1
    have hfirst := h₁₂.twice hnode hunit.2 hzero.2 shape whole
    have hsecond := h₂₁.twice hnode hunit.1 hzero.1 shape whole₂
    rcases hfirst with ⟨c₁₂, d₁₂, hc₁₂, hd₁₂, whole₁₂⟩ | ⟨hmoved₁, hz₁, ht₁₂⟩ <;>
      rcases hsecond with ⟨c₂₁, d₂₁, hc₂₁, hd₂₁, whole₂₁⟩ | ⟨hmoved₂, hz₂, ht₂₁⟩
    · -- Both operands come through both orders.
      have hiff : ((c₁ = c ∧ c₁₂ = c) ∧ d₁ = d ∧ d₁₂ = d) ↔ ((c₂ = c ∧ c₂₁ = c) ∧ d₂ = d ∧ d₂₁ = d) := by
        rw [← ihc hc₁₂ hc₂ hc₂₁, ← ihd hd₁₂ hd₂ hd₂₁]
        refine ⟨fun h => ⟨⟨hc₁₂.unmoved hc₂ h.1, h.1.2⟩, hd₁₂.unmoved hd₂ h.2, h.2.2⟩, fun h => ?_⟩
        exact ⟨⟨hc₂₁.unmoved hc₁ ⟨h.1.1, (ihc hc₁₂ hc₂ hc₂₁).symm.trans h.1.2⟩, h.1.2⟩,
          hd₂₁.unmoved hd₁ ⟨h.2.1, (ihd hd₁₂ hd₂ hd₂₁).symm.trans h.2.2⟩, h.2.2⟩
      by_cases hcond : (c₁ = c ∧ c₁₂ = c) ∧ d₁ = d ∧ d₁₂ = d
      · rw [if_pos hcond] at whole₁₂
        rw [if_pos (hiff.1 hcond)] at whole₂₁
        exact whole₁₂.trans whole₂₁.symm
      · rw [if_neg hcond] at whole₁₂
        rw [if_neg (mt hiff.2 hcond), ← ihc hc₁₂ hc₂ hc₂₁, ← ihd hd₁₂ hd₂ hd₂₁] at whole₂₁
        exact whole₁₂.unique whole₂₁
    · -- In the second order an operand takes all in between; so it does at the end of the first.
      rw [if_neg fun h => hmoved₂ ⟨hc₁₂.unmoved hc₂ h.1, hd₁₂.unmoved hd₂ h.2⟩] at whole₁₂
      rw [ht₂₁]
      exact whole₁₂.of_zero hnode (hz₂.imp (fun h => ihc hc₁₂ hc₂ (hzero₂ h)) fun h => ihd hd₁₂ hd₂ (hzero₂ h))
    · rw [if_neg fun h => hmoved₁ ⟨hc₂₁.unmoved hc₁ h.1, hd₂₁.unmoved hd₁ h.2⟩] at whole₂₁
      rw [ht₁₂]
      exact (whole₂₁.of_zero hnode (hz₁.imp (fun h => (ihc (hzero₁ h) hc₂ hc₂₁).symm)
        fun h => (ihd (hzero₁ h) hd₂ hd₂₁).symm)).symm
    · exact ht₁₂.trans ht₂₁.symm

/-! ## Runs -/

section Runs

variable {f : Ty → WorldM Ty}

theorem Replaced.of_rebuild₁ (hmk : Shape.Around₁ mk) (ht : w.shape? t = some (mk c)) (hgrows : Grows True (f c))
    (hf : ∀ c' v, f c w = .ok (c', v) → v ≤ W → W.Replaced p r c c') (hw' : w' ≤ W)
    (hrun : Ty.rebuild₁ f t c (fun c => WorldM.intern (mk c)) w = .ok (t', w')) : W.Replaced p r t t' := by
  obtain ⟨c', v, hc, hv, shape'⟩ := rebuild₁_ok ht hgrows hrun
  have hle : w ≤ v := hgrows.le_of_ok hc
  exact .around₁ hmk ((hle.trans (hv.trans hw')).shape ht) (hf c' v hc (hv.trans hw')) (hw'.shape shape')

section Two

variable {make : Ty → Ty → WorldM Ty} (hgrows : ∀ a, Grows True (f a)) (hmakes : ∀ a b, Grows True (make a b))
  (hf : ∀ a ∈ [c, d], ∀ b v v', w ≤ v → f a v = .ok (b, v') → v' ≤ W → W.Replaced p r a b) (hw' : w' ≤ W)

include hgrows hmakes hf hw'

/-- Replacing in the two children, of which the type is made anew if they change. -/
theorem replaced_children (hrun : Ty.rebuild₂ f t c d make w = .ok (t', w')) :
    ∃ c' d' v, W.Replaced p r c c' ∧ W.Replaced p r d d' ∧ w ≤ w' ∧
      if c' = c ∧ d' = d then t' = t else make c' d' v = .ok (t', w') := by
  obtain ⟨c', w₁, d', w₂, hc, hd, hle₁, hle₂, hle₃, hmade⟩ := rebuild₂_ok hgrows hmakes hrun
  exact ⟨c', d', w₂, hf c (by simp) c' w w₁ le_rfl hc (hle₂.trans (hle₃.trans hw')),
    hf d (by simp) d' w₁ w₂ hle₁ hd (hle₃.trans hw'), hle₁.trans (hle₂.trans hle₃), hmade⟩

theorem Replaced.of_rebuild₂ (hmk : Shape.Around₂ node) (hmake : ∀ a b, make a b = WorldM.intern (node a b))
    (ht : w.shape? t = some (node c d)) (hrun : Ty.rebuild₂ f t c d make w = .ok (t', w')) : W.Replaced p r t t' := by
  obtain ⟨c', d', v, hc, hd, hle, hmade⟩ := replaced_children hgrows hmakes hf hw' hrun
  have shape := (hle.trans hw').shape ht
  refine .around₂ hmk shape hc hd ?_
  split_ifs at hmade with hsame
  · rw [hmade, hsame.1, hsame.2]
    exact shape
  · rw [hmake] at hmade
    exact hw'.shape (intern_ok hmade).2

theorem Replaced.of_rebuild_joint (hnode : Shape.Joint node unit zero)
    (hmake : ∀ {a b v u v'}, v' ≤ W → make a b v = .ok (u, v') → W.Combines node unit zero a b u)
    (ht : w.shape? t = some (node c d)) (hrun : Ty.rebuild₂ f t c d make w = .ok (t', w')) : W.Replaced p r t t' := by
  obtain ⟨c', d', v, hc, hd, hle, hmade⟩ := replaced_children hgrows hmakes hf hw' hrun
  refine .joint hnode ((hle.trans hw').shape ht) hc hd ?_
  split_ifs at hmade ⊢
  · exact hmade
  · exact hmake hw' hmade

end Two

theorem Replaced.of_mapChildren {rename : BinderId → BinderId → Ty → WorldM Ty} {e : Shape} (ht : w.shape? t = some e)
    (hplain : e.isBinderType = false) (hne : e ≠ .param p) (hgrows : ∀ a, Grows True (f a))
    (hf : ∀ a ∈ w.children t, ∀ b v v', w ≤ v → f a v = .ok (b, v') → v' ≤ W → W.Replaced p r a b) (hw' : w' ≤ W)
    (hrun : Ty.mapChildren f rename t w = .ok (t', w')) : W.Replaced p r t t' := by
  rw [children, shape_of_shape? ht] at hf
  rw [Ty.mapChildren, get_bind_run, shape_of_shape? ht] at hrun
  cases e with
  | named pre s =>
    exact .of_rebuild₁ (.named s) ht (hgrows pre) (fun b v => hf pre (by simp) b w v le_rfl) hw' hrun
  | path pre s =>
    exact .of_rebuild₁ (.path s) ht (hgrows pre) (fun b v => hf pre (by simp) b w v le_rfl) hw' hrun
  | classInfo pre cls =>
    exact .of_rebuild₁ (.classInfo cls) ht (hgrows pre) (fun b v => hf pre (by simp) b w v le_rfl) hw' hrun
  | byName result =>
    exact .of_rebuild₁ .byName ht (hgrows result) (fun b v => hf result (by simp) b w v le_rfl) hw' hrun
  | refined parent name info =>
    exact .of_rebuild₂ hgrows (fun _ _ => grows_intern _) hf hw' (.refined name) (fun _ _ => rfl) ht hrun
  | bounds lo hi => exact .of_rebuild₂ hgrows grows_bounds hf hw' .bounds (fun _ _ => rfl) ht hrun
  | inter a b => exact .of_rebuild_joint hgrows grows_inter hf hw' .inter combines_of_inter ht hrun
  | union a b => exact .of_rebuild_joint hgrows grows_union hf hw' .union combines_of_union ht hrun
  | method | universal => cases hplain
  | _ =>
    cases hrun
    have shape := shape_of_shape? (hw'.shape ht)
    refine .same (.of_children (shape.symm ▸ hne) ?_)
    rw [children, shape]
    exact fun _ hu => absurd hu List.not_mem_nil

/-- Nothing is replaced inside the types of binders. -/
def Rigid (W : World) (p : Param) (t : Ty) : Prop :=
  ∀ u, W.Within t u → (W.shape u).isBinderType → W.Lacks p u

theorem Rigid.child (h : W.Rigid p t) (hu : u ∈ W.children t) : W.Rigid p u := fun x hx => h x (.head hu hx)

theorem Clear.rigid (h : W.Clear true (·.isBinderType) t) : W.Rigid p t := fun _ hu hbinder => absurd hbinder (h.not_within hu)

theorem Replaced.rigid (h : W.Replaced p r t t') (ht : W.Rigid q t) (hr : W.Lacks q r) : W.Rigid q t' := by
  refine h.throughout (fun u e he hplain hbinder => ?_) (fun u hu _ x hx => hr x (hu.trans hx)) ht
  rw [shape_of_shape? he] at hbinder
  simp [Shape.isPlain, hbinder] at hplain

/-- **Replacing a parameter makes what it should**, in all worlds to come. -/
theorem replaced_of_run (n : Nat) : ∀ {w w' : World} {t t' : Ty}, w.Settled t → w' ≤ W → W.Rigid p t →
    Ty.substParam p r n t w = .ok (t', w') → W.Replaced p r t t' := by
  induction n with
  | zero =>
    intro w w' t t' _ _ _ hrun
    cases hrun
  | succ n ih =>
    intro w w' t t' ht hw' hrigid hrun
    have hW : w ≤ W := ((grows_substParam p r (n + 1) t).le_of_ok hrun).trans hw'
    obtain ⟨e, he, -⟩ := ht.known
    have he' : W.shape? t = some e := hW.shape he
    have hchild : ∀ a ∈ w.children t, ∀ b v v', w ≤ v → Ty.substParam p r n a v = .ok (b, v') → v' ≤ W →
        W.Replaced p r a b := by
      intro a ha b v v' hv hrun hv'
      exact ih ((ht.child (by rwa [inside_true])).later hv) hv' (hrigid.child (by rwa [ht.known.children hW])) hrun
    by_cases hbinder : e.isBinderType
    · have hlacks : W.Lacks p t := hrigid t .refl (by rwa [shape_of_shape? he'])
      obtain rfl : t' = t := congrArg Prod.fst (substParam_same (n + 1) (hlacks.earlier ht hW) hrun)
      exact .same hlacks
    · rw [Ty.substParam, get_bind_run, shape_of_shape? he] at hrun
      split at hrun
      · next q =>
        change (if q = p then pure r else pure t : WorldM Ty) w = _ at hrun
        split_ifs at hrun with heq
        · cases hrun
          exact .param (heq ▸ he')
        · cases hrun
          refine .same (.of_children ?_ ?_)
          · rw [shape_of_shape? he']
            rintro ⟨⟩
            exact heq rfl
          · rw [children, shape_of_shape? he']
            exact fun _ hu => absurd hu List.not_mem_nil
      · next hne =>
        exact .of_mapChildren he (Bool.eq_false_iff.2 hbinder) (hne p) (grows_substParam p r n) hchild hw' hrun

end Runs

theorem Replaced.of_ran {v : World} (ht : w.Settled t) (hv : v ≤ W) (hrigid : W.Rigid p t)
    (h : Ran w v (Ty.substParam p r n t) t') : W.Replaced p r t t' := by
  obtain ⟨w₁, w₂, hw₁, hw₂, hrun⟩ := h
  exact replaced_of_run n (ht.later hw₁) (hw₂.trans hv) hrigid hrun

theorem settled_of_ran {v : World} (ht : w.Settled t) (hr : w.Settled r) (h : Ran w v (Ty.substParam p r n t) t') :
    v.Settled t' := by
  obtain ⟨w₁, w₂, hw₁, hw₂, hrun⟩ := h
  exact (clear_substParam n (watches_nothing w₁) (hr.later hw₁) ((ht.imp fun _ hd => hd.1).later hw₁) hrun).later hw₂

/-- A built-in class mentions no parameter. -/
theorem lacks_builtin (hstd : W.Standard) (hpre : W.shape? .noPrefix = some (.fixed .noPrefix)) (b : Builtin) :
    W.Lacks p b.type := by
  refine .of_children ?_ fun u hu => .of_children ?_ ?_
  · rw [shape_of_shape? (hstd.shape b)]
    rintro ⟨⟩
  all_goals
    rw [children, shape_of_shape? (hstd.shape b)] at hu
    obtain rfl := List.mem_singleton.1 hu
  · rw [shape_of_shape? hpre]
    rintro ⟨⟩
  · rw [children, shape_of_shape? hpre]
    exact fun _ hu => absurd hu List.not_mem_nil

theorem Lacks.later (h : w.Lacks p t) (ht : w.Settled t) (hw : w ≤ W) : W.Lacks p t := ((Clear.of_lacks ht h).later hw).lacks

theorem LacksBoth.later (h : w.LacksBoth x y t) (ht : w.Settled t) (hw : w ≤ W) : W.LacksBoth x y t :=
  ⟨h.1.later ht hw, h.2.later ht hw⟩

end World

/-! ## Stores -/

namespace ConstraintStore

variable {w v u W : World} {S S' S₁ S₁₂ S₂ S₂₁ : ConstraintStore} {p q x y : Param} {r a b t t' : Ty} {fuel : Nat}

/-- Valid stores that track the same binders and hold the same bounds have the same slots. -/
theorem slots_ext (h : S.Valid W) (h' : S'.Valid W) (htracks : ∀ b, S.tracks b ↔ S'.tracks b)
    (hbounds : ∀ q, S.bounds? q = S'.bounds? q) (b : BinderId) : S.slots? b = S'.slots? b := by
  have htracks : (S.slots? b).isSome ↔ (S'.slots? b).isSome := htracks b
  cases hslots : S.slots? b with
  | none =>
    rw [hslots] at htracks
    cases hslots' : S'.slots? b with
    | none => rfl
    | some slots' =>
      rw [hslots'] at htracks
      cases htracks.2 rfl
  | some slots =>
    rw [hslots] at htracks
    obtain ⟨slots', hslots'⟩ := Option.isSome_iff_exists.1 (htracks.1 rfl)
    rw [hslots', Option.some.injEq]
    have hlength : slots.length = slots'.length := by
      obtain ⟨d, hd, -, hlength⟩ := (h.slots? hslots).binder
      obtain ⟨d', hd', -, hlength'⟩ := (h'.slots? hslots').binder
      cases hd.symm.trans hd'
      exact hlength.trans hlength'.symm
    refine List.ext_getElem hlength fun i hi hi' => ?_
    have hsame := hbounds ⟨b, i⟩
    have hget : slots[i]? = some slots[i] := List.getElem?_eq_getElem hi
    have hget' : slots'[i]? = some slots'[i] := List.getElem?_eq_getElem hi'
    simp only [bounds?, hslots, hslots', Option.bind_some, hget, hget', Option.filter_some] at hsame
    split_ifs at hsame with hopen hopen' hopen'
    · exact Option.some.inj hsame
    · rw [Bool.not_eq_true, Ty.present_eq_false_iff] at hopen hopen'
      exact hopen.trans hopen'.symm

/-- A choice that was made somewhere later. -/
theorem chosen_of_ran (hstd : w.Standard) (h : S.Valid w) (hran : Ran w v (S.subst fuel p r) S') :
    S'.Valid v ∧ (∀ q, q ∈ S'.domain ↔ q ∈ S.domain ∧ q ≠ p) ∧
      (∀ b, S'.tracks b ↔ S.tracks b ∧ (b = p.binder → p ∈ S.domain → ∃ q ∈ S'.domain, q.binder = b)) ∧
      ∀ q, q ≠ p → S.bounds? q = none ∧ S'.bounds? q = none ∨
        ∃ t t', S.bounds? q = some t ∧ S'.bounds? q = some t' ∧ Ran w v (Ty.substParam p r fuel t) t' := by
  obtain ⟨w₁, w₂, hw₁, hw₂, hrun⟩ := hran
  have hvalid := h.grow hw₁
  have hstd₁ := hstd.grow hw₁
  refine ⟨(hvalid.subst hstd₁ hrun).grow hw₂, fun q => mem_domain_subst hvalid hstd₁ hrun,
    tracks_subst hvalid hstd₁ hrun, fun q hq => (subst_bounds hvalid hstd₁ hrun hq).imp_right ?_⟩
  rintro ⟨t, t', ht, ht', hran⟩
  exact ⟨t, t', ht, ht', hran.mono hw₁ hw₂⟩

theorem le_of_ran (hran : Ran w v (S.subst fuel p r) S') : w ≤ v := by
  obtain ⟨w₁, w₂, hw₁, hw₂, hrun⟩ := hran
  exact hw₁.trans (((CompareM.grows_subst S r).le_of_ok hrun).trans hw₂)

section Order

variable (hstd : w.Standard) (h : S.Valid w)

include hstd h

/-- Two choices, one after the other. -/
theorem bounds_twice (hS : ∀ q t, S.bounds? q = some t → w.Clear true (·.isBinderType) t) (ha : w.Settled a)
    (hya : w.Lacks y a) (h₁ : Ran w v (S.subst fuel x a) S₁) (h₁₂ : Ran v W (S₁.subst fuel y b) S₁₂)
    (hqx : q ≠ x) (hqy : q ≠ y) :
    S.bounds? q = none ∧ S₁₂.bounds? q = none ∨ ∃ t t₁ t₁₂, S.bounds? q = some t ∧ S₁₂.bounds? q = some t₁₂ ∧
      W.Replaced x a t t₁ ∧ W.Replaced y b t₁ t₁₂ := by
  have hv := le_of_ran h₁
  have hW := le_of_ran h₁₂
  obtain ⟨hvalid₁, -, -, hbounds₁⟩ := chosen_of_ran hstd h h₁
  obtain ⟨-, -, -, hbounds₁₂⟩ := chosen_of_ran (hstd.grow hv) hvalid₁ h₁₂
  rcases hbounds₁ q hqx with ⟨hnone, hnone₁⟩ | ⟨t, t₁, ht, ht₁, hran₁⟩
  · rcases hbounds₁₂ q hqy with ⟨-, hnone₁₂⟩ | ⟨_, _, hsome, -⟩
    · exact .inl ⟨hnone, hnone₁₂⟩
    · cases hnone₁.symm.trans hsome
  · rcases hbounds₁₂ q hqy with ⟨hnone, -⟩ | ⟨_, t₁₂, hsome, ht₁₂, hran₁₂⟩
    · cases hnone.symm.trans ht₁
    · cases hsome.symm.trans ht₁
      have hclear := hS q t ht
      have hfirst : W.Replaced x a t t₁ :=
        .of_ran hclear.settled hW (hclear.later (hv.trans hW)).rigid hran₁
      have hrigid : W.Rigid y t₁ := hfirst.rigid (hclear.later (hv.trans hW)).rigid (hya.later ha (hv.trans hW))
      exact .inr ⟨t, t₁, t₁₂, ht, ht₁₂, hfirst,
        .of_ran (World.settled_of_ran hclear.settled ha hran₁) le_rfl hrigid hran₁₂⟩

variable (h₁ : Ran w v (S.subst fuel x a) S₁) (h₁₂ : Ran v W (S₁.subst fuel y b) S₁₂)
  (h₂ : Ran w u (S.subst fuel y b) S₂) (h₂₁ : Ran u W (S₂.subst fuel x a) S₂₁)

include h₁ h₁₂

theorem mem_domain_twice : q ∈ S₁₂.domain ↔ q ∈ S.domain ∧ q ≠ x ∧ q ≠ y := by
  obtain ⟨hvalid₁, hdomain₁, -, -⟩ := chosen_of_ran hstd h h₁
  obtain ⟨-, hdomain₁₂, -, -⟩ := chosen_of_ran (hstd.grow (le_of_ran h₁)) hvalid₁ h₁₂
  rw [hdomain₁₂, hdomain₁, and_assoc]

include h₂ h₂₁

/-- A binder that is left in one order is left in the other. -/
theorem tracks_comm {c : BinderId} (hxy : x ≠ y) (hc : S₁₂.tracks c) : S₂₁.tracks c := by
  have hdomain {q : Param} := mem_domain_twice (q := q) hstd h h₁ h₁₂
  have hdomain' {q : Param} := mem_domain_twice (q := q) hstd h h₂ h₂₁
  obtain ⟨hvalid₁, hdomain₁, htracks₁, -⟩ := chosen_of_ran hstd h h₁
  obtain ⟨-, -, htracks₁₂, -⟩ := chosen_of_ran (hstd.grow (le_of_ran h₁)) hvalid₁ h₁₂
  obtain ⟨hvalid₂, hdomain₂, htracks₂, -⟩ := chosen_of_ran hstd h h₂
  obtain ⟨-, -, htracks₂₁, -⟩ := chosen_of_ran (hstd.grow (le_of_ran h₂)) hvalid₂ h₂₁
  rw [htracks₁₂, htracks₁] at hc
  rw [htracks₂₁, htracks₂]
  obtain ⟨⟨hS, hx⟩, hy⟩ := hc
  have hy' : c = y.binder → y ∈ S.domain → ∃ q ∈ S₁₂.domain, q.binder = c := fun hc hyS =>
    hy hc ((hdomain₁ y).2 ⟨hyS, hxy.symm⟩)
  refine ⟨⟨hS, fun hc hyS => ?_⟩, fun hc hxS => ?_⟩
  · obtain ⟨q, hq, hqc⟩ := hy' hc hyS
    rw [hdomain] at hq
    exact ⟨q, (hdomain₂ q).2 ⟨hq.1, hq.2.2⟩, hqc⟩
  · obtain ⟨q, hq, hqc⟩ := hx hc ((hdomain₂ x).1 hxS).1
    rw [hdomain₁] at hq
    by_cases hqy : q = y
    · obtain ⟨q', hq', hqc'⟩ := hy' (hqy ▸ hqc.symm) (hqy ▸ hq.1)
      rw [hdomain] at hq'
      exact ⟨q', hdomain'.2 ⟨hq'.1, hq'.2.2, hq'.2.1⟩, hqc'⟩
    · exact ⟨q, hdomain'.2 ⟨hq.1, hqy, hq.2⟩, hqc⟩

/-- **The order of choices does not matter.** -/
theorem subst_comm (hpre : w.shape? .noPrefix = some (.fixed .noPrefix))
    (hS : ∀ q t, S.bounds? q = some t → w.Clear true (·.isBinderType) t) (hxy : x ≠ y) (ha : w.Settled a)
    (hb : w.Settled b) (hla : w.LacksBoth x y a) (hlb : w.LacksBoth x y b) (c : BinderId) :
    S₁₂.slots? c = S₂₁.slots? c := by
  have hv := le_of_ran h₁
  have hu := le_of_ran h₂
  have hW : w ≤ W := hv.trans (le_of_ran h₁₂)
  have hvalid₁₂ := (chosen_of_ran (hstd.grow hv) (chosen_of_ran hstd h h₁).1 h₁₂).1
  have hvalid₂₁ := (chosen_of_ran (hstd.grow hu) (chosen_of_ran hstd h h₂).1 h₂₁).1
  have hbuiltin (b : Builtin) : W.LacksBoth x y b.type :=
    ⟨World.lacks_builtin (hstd.grow hW) (hW.shape hpre) b, World.lacks_builtin (hstd.grow hW) (hW.shape hpre) b⟩
  refine slots_ext hvalid₁₂ hvalid₂₁ (fun b => ⟨fun hb => ?_, fun hb => ?_⟩) (fun q => ?_) c
  · exact tracks_comm hstd h h₁ h₁₂ h₂ h₂₁ hxy hb
  · exact tracks_comm hstd h h₂ h₂₁ h₁ h₁₂ hxy.symm hb
  · by_cases hq : q ≠ x ∧ q ≠ y
    · rcases bounds_twice hstd h hS ha hla.2 h₁ h₁₂ hq.1 hq.2 with ⟨hnone, h₁⟩ | ⟨t, t₁, t₁₂, ht, h₁₂, hx, hxy'⟩ <;>
        rcases bounds_twice hstd h hS hb hlb.1 h₂ h₂₁ hq.2 hq.1 with ⟨hnone', h₂⟩ | ⟨t', t₂, t₂₁, ht', h₂₁, hy, hyx⟩
      · exact h₁.trans h₂.symm
      · cases hnone.symm.trans ht'
      · cases hnone'.symm.trans ht
      · cases ht.symm.trans ht'
        rw [h₁₂, h₂₁, hx.comm hxy (hla.later ha hW) (hlb.later hb hW) (hbuiltin .any) (hbuiltin .nothing) hxy' hy hyx]
    · have hclosed {S' : ConstraintStore} (hvalid : S'.Valid W) (hdomain : q ∉ S'.domain) : S'.bounds? q = none := by
        rwa [hvalid.mem_domain_iff, Bool.not_eq_true, Option.isSome_eq_false_iff, Option.isNone_iff_eq_none] at hdomain
      rw [hclosed hvalid₁₂ fun hmem => hq ((mem_domain_twice hstd h h₁ h₁₂).1 hmem).2,
        hclosed hvalid₂₁ fun hmem => hq ((mem_domain_twice hstd h h₂ h₂₁).1 hmem).2.symm]

end Order

/-- Two choices come to an end, one after the other, if the bounds and the choices nest finitely. -/
theorem total_twice {n k : Nat} (hstd : w.Standard) (h : S.Valid w)
    (hS : ∀ q t, S.bounds? q = some t → w.Settled t ∧ w.Low n t) (ha : w.Settled a ∧ w.Low k a)
    (hb : w.Settled b ∧ w.Low k b) (hfuel : n + k + k ≤ fuel) :
    ∃ S₁ v S₁₂ v', S.subst fuel x a w = .ok (S₁, v) ∧ S₁.subst fuel y b v = .ok (S₁₂, v') := by
  obtain ⟨S₁, v, hrun, hS₁⟩ := total_subst_low (p := x) h hstd hS ha (show n + k ≤ fuel by omega)
  have hv : w ≤ v := (CompareM.grows_subst S a).le_of_ok hrun
  obtain ⟨S₁₂, v', hrun', -⟩ := total_subst_low (p := y) (h.subst hstd hrun) (hstd.grow hv) hS₁
    ⟨hb.1.later hv, hb.2.later hb.1 hv⟩ hfuel
  exact ⟨S₁, v, S₁₂, v', hrun, hrun'⟩

end ConstraintStore

/-! ## Comparers -/

namespace CompareM

variable {w : World} {c : Comparer} {x y : Param} {a b : Ty} {fuel : Nat}

theorem ran_subst_of_replace {w v : World} {c c' : Comparer} {S : ConstraintStore} {p : Param} {r : Ty}
    (h : Ran w v (replace fuel p r c) (S, c')) : Ran w v (c.constraint.subst fuel p r) S ∧ c'.constraint = S := by
  obtain ⟨w₁, w₂, hw₁, hw₂, hrun⟩ := h
  rw [replace_run] at hrun
  obtain ⟨S', w₃, hsubst, hrun⟩ := bind_ok hrun
  cases hrun
  exact ⟨⟨w₁, w₂, hw₁, hw₂, hsubst⟩, rfl⟩

theorem replace_of_subst {w v : World} {c : Comparer} {S : ConstraintStore} {p : Param} {r : Ty}
    (h : c.constraint.subst fuel p r w = .ok (S, v)) : replace fuel p r c w = .ok ((S, { c with constraint := S }), v) := by
  rw [replace_run, bind_run h]
  rfl

/-- **Solving order does not matter.** Two parameters are replaced by types that mention neither of them, in one order and
in the other, somewhere in worlds that all lead to one: what is left tracks the same binders, with the same slots. If all
is finite, both orders come to an end. -/
theorem replace_comm (hw : w.Built) (h : c.constraint.Valid w)
    (hplain : ∀ q t, c.constraint.bounds? q = some t → ∀ u, w.Within t u → (w.shape u).isBinderType = false)
    (hxy : x ≠ y) (ha : w.Has a) (hb : w.Has b) (hla : w.LacksBoth x y a) (hlb : w.LacksBoth x y b) (fuel : Nat) :
    (∀ {v u W S₁ c₁ S₁₂ c₁₂ S₂ c₂ S₂₁ c₂₁}, Ran w v (replace fuel x a c) (S₁, c₁) →
      Ran v W (replace fuel y b c₁) (S₁₂, c₁₂) → Ran w u (replace fuel y b c) (S₂, c₂) →
      Ran u W (replace fuel x a c₂) (S₂₁, c₂₁) → ∀ d, S₁₂.slots? d = S₂₁.slots? d) ∧
    ∀ n k, (∀ q t, c.constraint.bounds? q = some t → w.Low n t) → w.Low k a → w.Low k b → n + k + k ≤ fuel →
      ∃ S₁ c₁ v S₁₂ c₁₂ v' S₂ c₂ u S₂₁ c₂₁ u', replace fuel x a c w = .ok ((S₁, c₁), v) ∧
        replace fuel y b c₁ v = .ok ((S₁₂, c₁₂), v') ∧ replace fuel y b c v' = .ok ((S₂, c₂), u) ∧
        replace fuel x a c₂ u = .ok ((S₂₁, c₂₁), u') := by
  have hclosed := hw.closed
  have hsa := hclosed.settled ha
  have hsb := hclosed.settled hb
  refine ⟨fun h₁ h₁₂ h₂ h₂₁ => ?_, fun n k hlow hka hkb hfuel => ?_⟩
  · obtain ⟨h₁, rfl⟩ := ran_subst_of_replace h₁
    obtain ⟨h₁₂, -⟩ := ran_subst_of_replace h₁₂
    obtain ⟨h₂, rfl⟩ := ran_subst_of_replace h₂
    obtain ⟨h₂₁, -⟩ := ran_subst_of_replace h₂₁
    refine ConstraintStore.subst_comm hw.standard h h₁ h₁₂ h₂ h₂₁ hw.shape_noPrefix (fun q t ht => ?_) hxy hsa hsb hla hlb
    exact hclosed.clear (h.has ht) fun u hu => by simp [hplain q t ht u hu]
  · have hS (q : Param) (t : Ty) (ht : c.constraint.bounds? q = some t) : w.Settled t ∧ w.Low n t :=
      ⟨hclosed.settled (h.has ht), hlow q t ht⟩
    obtain ⟨S₁, v, S₁₂, v', hx, hy⟩ :=
      ConstraintStore.total_twice (x := x) (y := y) hw.standard h hS ⟨hsa, hka⟩ ⟨hsb, hkb⟩ hfuel
    have hle : w ≤ v' := ((grows_subst _ _).le_of_ok hx).trans ((grows_subst _ _).le_of_ok hy)
    obtain ⟨S₂, u, S₂₁, u', hy', hx'⟩ := ConstraintStore.total_twice (x := y) (y := x) (hw.standard.grow hle) (h.grow hle)
      (fun q t ht => ⟨(hS q t ht).1.later hle, (hS q t ht).2.later (hS q t ht).1 hle⟩)
      ⟨hsb.later hle, hkb.later hsb hle⟩ ⟨hsa.later hle, hka.later hsa hle⟩ hfuel
    exact ⟨S₁, _, v, S₁₂, _, v', S₂, _, u, S₂₁, _, u', replace_of_subst hx, replace_of_subst hy, replace_of_subst hy',
      replace_of_subst hx'⟩

theorem le_of_replace {w v : World} {c : Comparer} {s : ConstraintStore × Comparer} {p : Param} {r : Ty}
    (h : replace fuel p r c w = .ok (s, v)) : w ≤ v := by
  obtain ⟨hran, -⟩ := ran_subst_of_replace ⟨w, v, le_rfl, le_rfl, h⟩
  exact ConstraintStore.le_of_ran hran

open ConstraintStore in
/-- `X` is replaced by `Int` and `Y` by `String`, beside `Z <: X & Y`. -/
theorem replace_comm_triple : ∃ (c : Comparer) (x y : Param) (a b : Ty), tripleWorld.Built ∧ c.constraint.Valid tripleWorld ∧
    (∀ q t, c.constraint.bounds? q = some t → ∀ u, tripleWorld.Within t u → (tripleWorld.shape u).isBinderType = false) ∧
    x ≠ y ∧ tripleWorld.Has a ∧ tripleWorld.Has b ∧ tripleWorld.LacksBoth x y a ∧ tripleWorld.LacksBoth x y b ∧
    ∃ S₁ c₁ v S₁₂ c₁₂ v' S₂ c₂ u S₂₁ c₂₁ u', replace 7 x a c tripleWorld = .ok ((S₁, c₁), v) ∧
      replace 7 y b c₁ v = .ok ((S₁₂, c₁₂), v') ∧ replace 7 y b c v' = .ok ((S₂, c₂), u) ∧
      replace 7 x a c₂ u = .ok ((S₂₁, c₂₁), u') ∧ ∀ d, S₁₂.slots? d = S₂₁.slots? d := by
  let c : Comparer := { SoleParam.leastComparer with constraint := tripleStore }
  let parts : List Ty := [⟨14⟩, ⟨19⟩, ⟨18⟩, ⟨15⟩, ⟨16⟩, Builtin.nothing.type, Builtin.any.type, .noPrefix]
  have hparts : ∀ t ∈ parts, (tripleWorld.shape t).isBinderType = false ∧ ∀ u ∈ tripleWorld.children t, u ∈ parts := by
    decide
  have hplain : ∀ q t, c.constraint.bounds? q = some t → ∀ u, tripleWorld.Within t u →
      (tripleWorld.shape u).isBinderType = false := by
    intro q t ht u hu
    have hmem : u ∈ parts := by
      induction hu with
      | refl => exact List.mem_append_left _ (bounds_triple ht)
      | tail _ hu ih => exact (hparts _ ih).2 _ hu
    exact (hparts u hmem).1
  have hlow : ∀ t ∈ ([⟨14⟩, ⟨19⟩] : List Ty), tripleWorld.Low 3 t := by decide
  have hbuiltin (b : Builtin) : tripleWorld.LacksBoth ⟨⟨0⟩, 0⟩ ⟨⟨0⟩, 1⟩ b.type :=
    ⟨World.lacks_builtin tripleWorld_built.standard tripleWorld_built.shape_noPrefix b,
      World.lacks_builtin tripleWorld_built.standard tripleWorld_built.shape_noPrefix b⟩
  have hint : tripleWorld.Has Builtin.int.type := by decide
  have hstring : tripleWorld.Has Builtin.string.type := by decide
  obtain ⟨hcomm, htotal⟩ := replace_comm (c := c) (x := ⟨⟨0⟩, 0⟩) (y := ⟨⟨0⟩, 1⟩) tripleWorld_built tripleStore_valid hplain
    (by decide) hint hstring (hbuiltin .int) (hbuiltin .string) 7
  obtain ⟨S₁, c₁, v, S₁₂, c₁₂, v', S₂, c₂, u, S₂₁, c₂₁, u', h₁, h₁₂, h₂, h₂₁⟩ :=
    htotal 3 2 (fun q t hq => hlow t (bounds_triple hq)) (by decide) (by decide) (by decide)
  have hv' : tripleWorld ≤ v' := (le_of_replace h₁).trans (le_of_replace h₁₂)
  have hu' : v' ≤ u' := (le_of_replace h₂).trans (le_of_replace h₂₁)
  have hslots := hcomm ⟨_, v, le_rfl, le_rfl, h₁⟩ ⟨v, v', le_rfl, hu', h₁₂⟩ ⟨v', u, hv', le_rfl, h₂⟩
    ⟨u, u', le_rfl, le_rfl, h₂₁⟩
  exact ⟨c, _, _, _, _, tripleWorld_built, tripleStore_valid, hplain, by decide, hint, hstring, hbuiltin .int, hbuiltin .string,
    S₁, c₁, v, S₁₂, c₁₂, v', S₂, c₂, u, S₂₁, c₂₁, u', h₁, h₁₂, h₂, h₂₁, hslots⟩

end CompareM

end Conformance
