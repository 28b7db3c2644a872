import Conformance.Proofs.Supplied

/-!
# Replacing a parameter

What becomes of a type when one of its parameters is replaced, in any world that was built without forged handles
(`World.Layered`), and so in whatever state a session comes to (`Session.SuppliedRun.layered`). There every type is made
of types with smaller handles, so that rewriting comes to an end, at every allowance with the same result. The laws
(`substParam_laws`): a type that does not mention the parameter is left alone; the parameter is left in the replacement
only; of other parameters none comes in that is in neither type; and method and universal types inside are kept as they
are or stand on binders that are new.
-/

namespace Conformance

namespace World

variable {w v w' : World} {t u r : Ty} {p q : Param} {n : Nat} {b : BinderId}

/-- The shapes of types of binders that were given out in `w`, those of the parts of `t` and `r` excepted. -/
def Intruder (w : World) (t r : Ty) (d : Shape) : Prop :=
  (∃ b, .binder b ∈ d.parts ∧ (w.binder? b).isSome) ∧ ∀ x, w.Within t x ∨ w.Within r x → w.shape x ≠ d

theorem binder_part_unique {d : Shape} {c : BinderId} (hb : .binder b ∈ d.parts) (hc : .binder c ∈ d.parts) : b = c := by
  cases d <;> simp [Shape.parts] at hb hc <;> exact hb.trans hc.symm

theorem watches_intruder (w : World) (t r : Ty) : w.Watches (w.Intruder t r) where
  kind hd := by
    obtain ⟨⟨b, hb, -⟩, -⟩ := hd
    exact .inr (isBinderType_of_part hb)
  binder hd hb := by
    obtain ⟨⟨c, hc, hsome⟩, -⟩ := hd
    exact binder_part_unique hc hb ▸ hsome
  param hd hparam := by
    obtain ⟨⟨c, hc, -⟩, -⟩ := hd
    obtain ⟨i, rfl | rfl⟩ := hparam <;> simp [Shape.parts] at hc

theorem shape_of_binderOf (h : w.binderOf? t = some b) : ∃ d, w.shape? t = some d ∧ .binder b ∈ d.parts := by
  rw [binderOf?] at h
  split at h
  · next hd => cases h; exact ⟨_, hd, List.mem_singleton.2 rfl⟩
  · next hd => cases h; exact ⟨_, hd, List.mem_singleton.2 rfl⟩
  · cases h

/-- **Laws of parameter substitution.** In a world built without forged handles a parameter of a binder that was given
out is replaced in a type, at every allowance from some point on with the same result. If the type does not mention the
parameter, it is the result and nothing is added to the world. If the replacement does not mention the parameter, the
result does not. The result mentions another parameter that was given out only if the type or the replacement does. And
what is of method or universal type inside the result stands on a binder that is new, or stands inside the type or the
replacement as it is. -/
theorem substParam_laws (hw : w.Layered) (ht : w.Has t) (hr : w.Has r) (hp : (w.binder? p.binder).isSome) :
    ∃ k u w', w ≤ w' ∧ (∀ fuel, k ≤ fuel → Ty.substParam p r fuel t w = .ok (u, w')) ∧
      ∃ inType inReplacement inResult : Param → Bool,
        (∀ q fuel, k ≤ fuel → w.mentions q fuel t = .ok (inType q) ∧ w.mentions q fuel r = .ok (inReplacement q) ∧
          w'.mentions q fuel u = .ok (inResult q)) ∧
        (inType p = false → u = t ∧ w' = w) ∧
        (inReplacement p = false → inResult p = false) ∧
        (∀ q, q ≠ p → (w.binder? q.binder).isSome → inResult q = true → inType q = true ∨ inReplacement q = true) ∧
        ∀ x b, w'.Within u x → w'.binderOf? x = some b → w.binder? b = none ∨ w.Within t x ∨ w.Within r x := by
  have hclosed := hw.built.closed
  have ht' := hclosed.settled ht
  have hr' := hclosed.settled hr
  have hlow := hw.low
  let k := (t.id + 1) + (r.id + 1)
  obtain ⟨u, w', hrun, hu⟩ := total_substParam (p := p) (t.id + 1) (Nat.le_refl k) ht' (hlow t) hr' (hlow r)
  have hle : w ≤ w' := (grows_substParam p r k t).le_of_ok hrun
  choose inType htype hntype using fun q => exists_mentions ((hlow t).mono (Nat.le_add_right _ (r.id + 1))) q
  choose inReplacement hrepl hnrepl using fun q => exists_mentions ((hlow r).mono (Nat.le_add_left _ (t.id + 1))) q
  choose inResult hresult hnresult using exists_mentions hu
  -- what neither the replacement nor, `p` itself excepted, the type has in it, the result has not
  have hclear {bad : Shape → Prop} (hbad : w.Watches bad) (hin : ∀ x, w.Within r x → ¬ bad (w.shape x))
      (hit : ∀ x, w.Within t x → ¬ (bad (w.shape x) ∧ w.shape x ≠ .param p)) : w'.Clear true bad u :=
    clear_substParam k hbad (hclosed.clear hr hin) (hclosed.clear ht hit) hrun
  refine ⟨k, u, w', hle, fun fuel hfuel => WorldM.extends_substParam t hfuel w _ hrun, inType, inReplacement, inResult,
    fun q fuel hfuel => ⟨htype q fuel hfuel, hrepl q fuel hfuel, hresult q fuel hfuel⟩, fun hno => ?_, fun hno => ?_,
    fun q hq hsome hyes => ?_, fun x b hx hb => ?_⟩
  · have hsame := substParam_same k ((hntype p).1 hno) hrun
    exact ⟨congrArg Prod.fst hsame, congrArg Prod.snd hsame⟩
  · refine (hnresult p).2 (hclear (watches_param hp) ((hnrepl p).1 hno) fun x _ h => h.2 h.1).lacks
  · by_contra hneither
    rw [not_or, Bool.not_eq_true, Bool.not_eq_true] at hneither
    have hno := (hnresult q).2
      (hclear (watches_param hsome) ((hnrepl q).1 hneither.2) fun x hx h => (hntype q).1 hneither.1 x hx h.1).lacks
    rw [hno] at hyes
    cases hyes
  · by_contra hno
    obtain ⟨hsome, hnotIn⟩ := not_or.1 hno
    obtain ⟨d, hd, hpart⟩ := shape_of_binderOf hb
    have hnot := (hclear (watches_intruder w t r) (fun y hy h => h.2 y (.inr hy) rfl)
      fun y hy h => h.1.2 y (.inl hy) rfl).not_within hx
    rw [shape_of_shape? hd] at hnot
    refine hnot ⟨⟨b, hpart, Option.isSome_iff_ne_none.2 hsome⟩, fun y hy hshape => hnotIn ?_⟩
    have hy' : w'.shape? y = some d := hle.shape (shape?_of_shape hshape (by rintro rfl; simp [Shape.parts] at hpart))
    exact TypeTable.shape?_injective hy' hd ▸ hy

/-- The parameter `X`, at `15`, and the type `[Y <: X] [Z] Z with T = X`, at `21`. -/
def nestWorld : World :=
  let w := World.initial
  let w := { w with binders := w.binders.push { kind := .universal, names := ["X"] } }
  let w := { w with binders := w.binders.push { kind := .universal, names := ["Y"] } }
  let w := { w with binders := w.binders.push { kind := .universal, names := ["Z"] } }
  let w := { w with types := (w.types.intern (.param ⟨⟨0⟩, 0⟩)).2 }
  let w := { w with types := (w.types.intern (.param ⟨⟨1⟩, 0⟩)).2 }
  let w := { w with types := (w.types.intern (.param ⟨⟨2⟩, 0⟩)).2 }
  let w := { w with types := (w.types.intern (.refined ⟨17⟩ "T" ⟨15⟩)).2 }
  let w := { w with binders := w.binders.modify 2 fun d => { d with infos := [⟨14⟩], result := ⟨18⟩ } }
  let w := { w with types := (w.types.intern (.universal ⟨2⟩)).2 }
  let w := { w with types := (w.types.intern (.bounds Builtin.nothing.type ⟨15⟩)).2 }
  let w := { w with binders := w.binders.modify 1 fun d => { d with infos := [⟨20⟩], result := ⟨19⟩ } }
  { w with types := (w.types.intern (.universal ⟨1⟩)).2 }

theorem nestWorld_run : Session.SuppliedRun .initial ⟨nestWorld, [⟨0⟩]⟩ := by
  have h₁ : Session.SuppliedRun .initial _ := .single (.start .universal ["X"] rfl)
  have h₂ := h₁.tail (.start .universal ["Y"] rfl)
  have h₃ := h₂.tail (.start .universal ["Z"] rfl)
  have h₄ := h₃.tail (.call (.add (.paramType (b := ⟨0⟩) 0 rfl)) rfl)
  have h₅ := h₄.tail (.call (.add (.paramType (b := ⟨1⟩) 0 rfl)) rfl)
  have h₆ := h₅.tail (.call (.add (.paramType (b := ⟨2⟩) 0 rfl)) rfl)
  have h₇ := h₆.tail (.call (.add (.refined "T" (show World.Has _ ⟨17⟩ by decide)
    (show World.Has _ ⟨15⟩ by decide))) rfl)
  have h₈ := h₇.tail (.finish (show ∀ t ∈ [⟨14⟩], World.Has _ t by decide) (show World.Has _ ⟨18⟩ by decide) rfl rfl)
  have h₉ := h₈.tail (.call (.add (.bounds (show World.Has _ Builtin.nothing.type by decide)
    (show World.Has _ ⟨15⟩ by decide))) rfl)
  exact h₉.tail (.finish (show ∀ t ∈ [⟨20⟩], World.Has _ t by decide) (show World.Has _ ⟨19⟩ by decide) rfl rfl)

/-- `X` is replaced by `Int` under two binders: it is gone, and no other parameter has come in. -/
theorem substParam_laws_nest : nestWorld.Layered ∧ ∃ k u w', nestWorld ≤ w' ∧
    (∀ fuel, k ≤ fuel → Ty.substParam ⟨⟨0⟩, 0⟩ Builtin.int.type fuel ⟨21⟩ nestWorld = .ok (u, w')) ∧
    (∀ fuel, k ≤ fuel → nestWorld.mentions ⟨⟨0⟩, 0⟩ fuel ⟨21⟩ = .ok true ∧
      w'.mentions ⟨⟨0⟩, 0⟩ fuel u = .ok false) ∧
    ∀ x b, w'.Within u x → w'.binderOf? x = some b →
      nestWorld.binder? b = none ∨ nestWorld.Within ⟨21⟩ x ∨ nestWorld.Within Builtin.int.type x := by
  obtain ⟨k, u, w', hle, hrun, inType, inReplacement, inResult, hmentions, -, hgone, -, hnew⟩ :=
    substParam_laws nestWorld_run.layered (t := ⟨21⟩) (r := Builtin.int.type) (p := ⟨⟨0⟩, 0⟩) (by decide)
      (by decide) (by decide)
  refine ⟨nestWorld_run.layered, k, u, w', hle, hrun, fun fuel hfuel => ?_, hnew⟩
  obtain ⟨htype, hreplacement, hresult⟩ := hmentions ⟨⟨0⟩, 0⟩ fuel hfuel
  have hoccurs : nestWorld.mentions ⟨⟨0⟩, 0⟩ 6 ⟨21⟩ = .ok true := rfl
  have habsent : nestWorld.mentions ⟨⟨0⟩, 0⟩ 6 Builtin.int.type = .ok false := rfl
  have hinType : inType ⟨⟨0⟩, 0⟩ = true := by
    by_contra hno
    cases (mentions_ok 6 hoccurs).2 ((mentions_ok fuel htype).1 (Bool.not_eq_true _ ▸ hno))
  have hinReplacement : inReplacement ⟨⟨0⟩, 0⟩ = false :=
    (mentions_ok fuel hreplacement).2 ((mentions_ok 6 habsent).1 rfl)
  exact ⟨by rw [htype, hinType], by rw [hresult, hgone hinReplacement]⟩

end World

end Conformance
