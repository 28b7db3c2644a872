import Conformance.Proofs.Clauses

/-!
# Meets and joins

Intersections are met by what meets both operands, and unions by what meets one of them; an intersection offers what its
operands offer and a union what both of them do. The cascade deals with placeholders and inference variables before it
looks at either, so the laws go along the chains that lead from an inference variable to what it stands for
(`World.Unfolds`).
-/

namespace Conformance

open CompareM

namespace World

/-- Inference variables, and those that occur as operands of intersections, lead in finitely many steps to types that
are there. -/
inductive Unfolds (w : World) : Ty → Prop
  | leaf {t : Ty} {d : Shape} (present : t.present) (shape : w.shape? t = some d) (hvar : d.isVar = false)
    (hinter : ∀ a b, d ≠ .inter a b) : Unfolds w t
  | inter {t a b : Ty} (shape : w.shape? t = some (.inter a b)) (left : Unfolds w a) (right : Unfolds w b) : Unfolds w t
  | var {t : Ty} {i : VarId} (shape : w.shape? t = some (.var i)) (underlying : Unfolds w (w.varUnderlying i)) :
    Unfolds w t

/-- A type offers, as a source, what the operands of an intersection or the underlying type of a variable offer. -/
inductive Shows (w : World) : Ty → Ty → Prop
  | left {t a b : Ty} (shape : w.shape? t = some (.inter a b)) : Shows w t a
  | right {t a b : Ty} (shape : w.shape? t = some (.inter a b)) : Shows w t b
  | var {t : Ty} {i : VarId} (shape : w.shape? t = some (.var i)) : Shows w t (w.varUnderlying i)

variable {w : World} {t u : Ty}

theorem Unfolds.has (h : w.Unfolds t) : w.Has t := by
  cases h with
  | leaf _ hshape | inter hshape | var hshape => exact Option.isSome_of_eq_some hshape

theorem Unfolds.present (hw : w.Standard) (h : w.Unfolds t) : t.present := by
  cases h with
  | leaf hpresent => exact hpresent
  | inter hshape | var hshape => exact hw.present hshape nofun

theorem Unfolds.shows (h : w.Unfolds t) (hs : w.Shows t u) : w.Unfolds u := by
  cases h with
  | leaf _ hshape hvar hinter =>
    cases hs with
    | left hs | right hs =>
      cases hshape.symm.trans hs
      exact absurd rfl (hinter _ _)
    | var hs =>
      cases hshape.symm.trans hs
      cases hvar
  | inter hshape ha hb =>
    cases hs with
    | left hs =>
      cases hshape.symm.trans hs
      exact ha
    | right hs =>
      cases hshape.symm.trans hs
      exact hb
    | var hs => cases hshape.symm.trans hs
  | var hshape hi =>
    cases hs with
    | left hs | right hs => cases hshape.symm.trans hs
    | var hs =>
      cases hshape.symm.trans hs
      exact hi

theorem Unfolds.grow {v : World} (h : w.Unfolds t) (hv : w ≤ v) : v.Unfolds t := by
  induction h with
  | leaf hpresent hshape hvar hinter => exact .leaf hpresent (hv.shape hshape) hvar hinter
  | inter hshape _ _ iha ihb => exact .inter (hv.shape hshape) iha ihb
  | var hshape _ ih => exact .var (hv.shape hshape) (varUnderlying_later hv _ ▸ ih)

/-- The test for stability comes to an end where chains of variables do. -/
theorem Unfolds.isStable (h : w.Unfolds t) : ∃ k r, ∀ n, k ≤ n → w.isStable n t = .ok r := by
  suffices hstep : ∃ k r, ∀ n, k ≤ n → w.isStable (n + 1) t = .ok r by
    obtain ⟨k, r, hr⟩ := hstep
    refine ⟨k + 1, r, fun n hn => ?_⟩
    obtain ⟨n, rfl⟩ := Nat.exists_eq_add_of_le' (Nat.le_of_add_left_le hn)
    exact hr n (by omega)
  induction h with
  | @leaf t d _ hshape hvar hinter =>
    simp only [World.isStable, shape_of_shape? hshape]
    cases d with
    | inter a b => exact absurd rfl (hinter a b)
    | var => cases hvar
    | _ => exact ⟨0, _, fun _ _ => rfl⟩
  | inter hshape _ _ iha ihb =>
    obtain ⟨k, x, hx⟩ := iha
    obtain ⟨l, y, hy⟩ := ihb
    refine ⟨max k l + 1, x || y, fun n hn => ?_⟩
    obtain ⟨n, rfl⟩ := Nat.exists_eq_add_of_le' (Nat.le_of_add_left_le hn)
    rw [World.isStable, shape_of_shape? hshape]
    dsimp only
    rw [hx n (by omega), hy n (by omega)]
    cases x <;> rfl
  | @var t i hshape _ ih =>
    obtain ⟨k, r, hr⟩ := ih
    cases hi : w.varInstance? i with
    | none =>
      refine ⟨0, false, fun n _ => ?_⟩
      rw [World.isStable, shape_of_shape? hshape]
      dsimp only
      rw [hi]
      rfl
    | some inst =>
      rw [varUnderlying, hi] at hr
      refine ⟨k + 1, r, fun n hn => ?_⟩
      obtain ⟨n, rfl⟩ := Nat.exists_eq_add_of_le' (Nat.le_of_add_left_le hn)
      rw [World.isStable, shape_of_shape? hshape]
      dsimp only
      rw [hi]
      exact hr n (by omega)

end World

namespace CompareM

/-! ## The laws -/

theorem intercepts_leaf {w : World} {t : Ty} {d : Shape} (hshape : w.shape? t = some d) (hvar : d.isVar = false)
    (hhole : isHole (w.shape t) = false) : intercepts (w.shape t) = false := by
  rw [World.shape_of_shape? hshape] at hhole ⊢
  cases d with
  | fixed k => cases k <;> first | rfl | cases hhole
  | var => cases hvar
  | _ => rfl

section Laws

variable {erased : Bool} {ρ : Corr} {w : World} {t u a b m : Ty} {i : VarId} (hM : ρ.Matches w w) (hw : w.Standard)
include hM

theorem holds_of_conforms (kt : ρ.ty t t) (ku : ρ.ty u u) (hne : t ≠ u) (h : Conforms erased w t u) :
    Holds erased (Conforms erased) w t u :=
  ((conforms_iff hM kt ku).1 h).2.2.resolve_left hne

theorem conforms_of_holds (kt : ρ.ty t t) (ku : ρ.ty u u) (hpt : t.present) (hpu : u.present)
    (h : Holds erased (Conforms erased) w t u) : Conforms erased w t u :=
  (conforms_iff hM kt ku).2 ⟨hpt, hpu, .inr h⟩

theorem conforms_hole_right (kt : ρ.ty t t) (ku : ρ.ty u u) (hpt : t.present) (hpu : u.present)
    (hhole : isHole (w.shape u)) : Conforms erased w t u :=
  conforms_of_holds hM kt ku hpt hpu (holds_hole_right carried_conforms hM kt ku hhole)

include hw

/-- A variable that is the target is met by what meets the type it stands for, if that is not the variable again. -/
theorem conforms_var_right_of_ne (hu : w.shape? u = some (.var i)) (kt : ρ.ty t t) (ku : ρ.ty u u) (hpt : t.present)
    (hne : t ≠ u) : Conforms erased w t u ↔ Conforms erased w t (w.varUnderlying i) := by
  have hholds : Holds erased (Conforms erased) w t u ↔ Conforms erased w t (w.varUnderlying i) :=
    holds_var_right carried_conforms hM kt ku hu
  exact ⟨fun h => hholds.1 (holds_of_conforms hM kt ku hne h), fun h =>
    conforms_of_holds hM kt ku hpt (hw.present hu nofun) (hholds.2 h)⟩

theorem conforms_of_varUnderlying (hu : w.Unfolds u) (ku : ρ.ty u u) : ∀ {t i}, w.shape? t = some (.var i) → ρ.ty t t →
    (w.varUnderlying i).present → Conforms erased w (w.varUnderlying i) u → Conforms erased w t u := by
  have hleaf : ∀ {u t i}, u.present → ρ.ty u u → isHole (w.shape u) = true ∨ intercepts (w.shape u) = false →
      w.shape? t = some (.var i) → ρ.ty t t → Conforms erased w (w.varUnderlying i) u → Conforms erased w t u := by
    intro u t i hpu ku hcases ht kt h
    have hpt : t.present := hw.present ht nofun
    rcases hcases with hhole | hnot
    · exact conforms_hole_right hM kt ku hpt hpu hhole
    · exact conforms_of_holds hM kt ku hpt hpu ((holds_var_left carried_conforms hM kt ku ht hnot).2 h)
  induction hu with
  | @leaf u d hpu hshape hvar hinter =>
    intro t i ht kt _ h
    refine hleaf hpu ku ?_ ht kt h
    cases hhole : isHole (w.shape u) with
    | true => exact .inl rfl
    | false => exact .inr (intercepts_leaf hshape hvar hhole)
  | inter hshape ha hb =>
    intro t i ht kt _ h
    exact hleaf (hw.present hshape nofun) ku (.inr (by rw [World.shape_of_shape? hshape]; rfl)) ht kt h
  | @var u j hshape hj ih =>
    intro t i ht kt hpi h
    have kj := hM.held ku hshape
    have hself : ∀ {t}, w.shape? t = some (.var j) → ρ.ty t t → Conforms erased w t (w.varUnderlying j) := fun ht kt =>
      ih kj ht kt (hj.present hw) (.refl (hj.present hw))
    by_cases htu : t = u
    · rw [htu]
      exact .refl (hw.present hshape nofun)
    refine (conforms_var_right_of_ne hM hw hshape kt ku (hw.present ht nofun) htu).2 (ih kj ht kt hpi ?_)
    by_cases hiu : w.varUnderlying i = u
    · rw [hiu]
      exact hself hshape ku
    · exact (conforms_var_right_of_ne hM hw hshape (hM.held kt ht) ku hpi hiu).1 h

theorem conforms_var_right (hu : w.shape? u = some (.var i)) (hi : w.Unfolds (w.varUnderlying i)) (kt : ρ.ty t t)
    (ku : ρ.ty u u) (hpt : t.present) : Conforms erased w t u ↔ Conforms erased w t (w.varUnderlying i) := by
  by_cases htu : t = u
  · rw [htu]
    exact iff_of_true (.refl (hw.present hu nofun)) (conforms_of_varUnderlying hM hw hi (hM.held ku hu) hu ku
      (hi.present hw) (.refl (hi.present hw)))
  · exact conforms_var_right_of_ne hM hw hu kt ku hpt htu

omit hM hw in
/-- A variable that conforms does so through the type it stands for. -/
theorem underlying_conforms (h : Conforms erased w t u) (hM : ρ.Matches w w) (hw : w.Standard) (kt : ρ.ty t t)
    (ku : ρ.ty u u) (ht : w.shape? t = some (.var i)) (hpi : (w.varUnderlying i).present) :
    Conforms erased w (w.varUnderlying i) u := by
  refine h.induct (P := fun w t u => ∀ ρ : Corr, ρ.Matches w w → ρ.ty t t → ρ.ty u u → w.Standard → ∀ i,
    w.shape? t = some (.var i) → (w.varUnderlying i).present → Conforms erased w (w.varUnderlying i) u) hM kt ku
    (fun w t hpt ρ hM kt _ hw i ht hpi => ?_) (fun {ρ w t u S} hS hsub hM kt ku hpt hpu hholds _ _ _ _ hw i ht hpi => ?_)
    ρ hM kt ku hw i ht hpi
  · by_cases hne : w.varUnderlying i = t
    · rw [hne]
      exact .refl hpt
    · exact (conforms_var_right_of_ne hM hw ht (hM.held kt ht) kt hpi hne).2 (.refl hpi)
  · obtain ⟨d, -, hd, -, -⟩ := hM.ty ku
    have hshape := World.shape_of_shape? hd
    have ki := hM.held kt ht
    by_cases hhole : isHole (w.shape u)
    · exact conforms_hole_right hM ki ku hpi hpu hhole
    cases hvar : d.isVar with
    | false =>
      have hnot := intercepts_leaf hd hvar (Bool.eq_false_iff.2 hhole)
      exact (hsub w _ u ((holds_var_left hS hM kt ku ht hnot).1 hholds)).1
    | true =>
      cases d with
      | var j =>
        by_cases hne : w.varUnderlying i = u
        · rw [hne]
          exact .refl hpu
        · have hj := (hsub w t _ ((holds_var_right hS hM kt ku hd).1 hholds)).2 ρ hM kt (hM.held ku hd) hw i ht hpi
          exact (conforms_var_right_of_ne hM hw hd ki ku hpi hne).2 hj
      | _ => cases hvar

theorem conforms_var_left (ht : w.shape? t = some (.var i)) (hpi : (w.varUnderlying i).present) (hu : w.Unfolds u)
    (kt : ρ.ty t t) (ku : ρ.ty u u) : Conforms erased w t u ↔ Conforms erased w (w.varUnderlying i) u :=
  ⟨fun h => underlying_conforms h hM hw kt ku ht hpi, conforms_of_varUnderlying hM hw hu ku ht kt hpi⟩

/-- A placeholder conforms to everything. -/
theorem conforms_hole_left (kt : ρ.ty t t) (hpt : t.present) (hhole : isHole (w.shape t)) (hu : w.Unfolds u)
    (ku : ρ.ty u u) : Conforms erased w t u := by
  have hleaf : ∀ {u}, u.present → ρ.ty u u → intercepts (w.shape u) = false → Conforms erased w t u :=
    fun hpu ku hnot => conforms_of_holds hM kt ku hpt hpu (holds_hole_left carried_conforms hM kt ku hhole hnot)
  induction hu with
  | @leaf u d hpu hshape hvar hinter =>
    cases hhole' : isHole (w.shape u) with
    | true => exact conforms_hole_right hM kt ku hpt hpu hhole'
    | false => exact hleaf hpu ku (intercepts_leaf hshape hvar hhole')
  | inter hshape ha hb => exact hleaf (hw.present hshape nofun) ku (by rw [World.shape_of_shape? hshape]; rfl)
  | var hshape hi ih => exact (conforms_var_right hM hw hshape hi kt ku hpt).2 (ih (hM.held ku hshape))

/-- **Targets are met along the variables of the source**: by what the chain of variables ends at, with what `P` says. -/
theorem conforms_of_meets {P : Ty → Prop} (ht : w.Unfolds t) (kt : ρ.ty t t) (ku : ρ.ty u u) (hpu : u.present)
    (hnot : intercepts (w.shape u) = false)
    (hmeets : ∀ x, ρ.ty x x → w.Unfolds x → intercepts (w.shape x) = false → P x → Holds erased (Conforms erased) w x u)
    (hvar : ∀ x i, ρ.ty x x → w.shape? x = some (.var i) → (w.varUnderlying i).present → P x → P (w.varUnderlying i))
    (hP : P t) : Conforms erased w t u := by
  refine conforms_of_holds hM kt ku (ht.present hw) hpu ?_
  induction ht with
  | @leaf x d hpx hshape hx hinter =>
    cases hhole : isHole (w.shape x) with
    | true => exact holds_hole_left carried_conforms hM kt ku hhole hnot
    | false => exact hmeets x kt (.leaf hpx hshape hx hinter) (intercepts_leaf hshape hx hhole) hP
  | @inter x a b hshape ha hb =>
    exact hmeets x kt (.inter hshape ha hb) (by rw [World.shape_of_shape? hshape]; rfl) hP
  | @var x i hshape hi ih =>
    have ki := hM.held kt hshape
    refine (holds_var_left carried_conforms hM kt ku hshape hnot).2 (conforms_of_holds hM ki ku (hi.present hw) hpu ?_)
    exact ih ki (hvar x i kt hshape (hi.present hw) hP)

theorem conforms_inter (hm : w.shape? m = some (.inter a b)) (ht : w.Unfolds t) (kt : ρ.ty t t) (km : ρ.ty m m)
    (ha : Conforms erased w t a) (hb : Conforms erased w t b) : Conforms erased w t m := by
  cases hM.parts km hm with | inter ka kb =>
  have hd := World.shape_of_shape? hm
  refine conforms_of_meets hM hw (P := fun x => Conforms erased w x a ∧ Conforms erased w x b) ht kt km
    (hw.present hm nofun) (by rw [hd]; rfl) (fun x kx _ hnot hx => ?_) (fun x i kx hi hpi hx => ?_) ⟨ha, hb⟩
  · exact (holds_of_tells carried_conforms hM kx km (by rw [hd]; rfl) hnot (by rw [hd]; exact Bool.and_false _)
      fun n => tells_third_inter carried_conforms hM kx km hm).2 hx
  · exact ⟨underlying_conforms hx.1 hM hw kx ka hi hpi, underlying_conforms hx.2 hM hw kx kb hi hpi⟩

/-- A source that is no name conforms to what its own clause leads to, unless that is an intersection or a variable. -/
theorem conforms_of_below (ht : w.Unfolds t) (kt : ρ.ty t t) (ku : ρ.ty u u) (hpu : u.present)
    (hnot : intercepts (w.shape u) = false) (hinter : ∀ a b, w.shape? u ≠ some (.inter a b))
    (hnames : ((w.shape t).isNamed && (w.shape u).isNamed) = false) (h : Below erased (Conforms erased) w t u) :
    Conforms erased w t u :=
  conforms_of_holds hM kt ku (ht.present hw) hpu
    (holds_of_below carried_conforms hM kt ku hw hnot hinter hnames (fun _ => ht.isStable) h)

/-- What a type shows it conforms to. -/
theorem conforms_of_shows {x y : Ty} (hx : w.Unfolds x) (hy : w.Unfolds y) (kx : ρ.ty x x) (ky : ρ.ty y y)
    (h : Relation.ReflTransGen w.Shows x y) : Conforms erased w x y := by
  induction hy generalizing x with
  | @leaf y d hpy hshape hvar hinter =>
    have hy : w.Unfolds y := .leaf hpy hshape hvar hinter
    induction h using Relation.ReflTransGen.head_induction_on with
    | refl => exact .refl hpy
    | @head x z hstep _ ih =>
      cases hhole : isHole (w.shape y) with
      | true => exact conforms_hole_right hM kx ky (hx.present hw) hpy hhole
      | false =>
        have hfourth : ∀ {p q}, w.shape? x = some (.inter p q) → Conforms erased w p y ∨ Conforms erased w q y →
            Conforms erased w x y := by
          intro p q hpq h
          refine conforms_of_below hM hw hx kx ky hpy (intercepts_leaf hshape hvar hhole) ?_ ?_ ?_
          · rintro a b hab
            exact hinter a b (Option.some.inj (hshape.symm.trans hab))
          · rw [World.shape_of_shape? hpq]
            rfl
          · exact (below_inter carried_conforms hM kx ky hpq).2 h
        have hz := ih (hx.shows hstep)
        cases hstep with
        | left hpq =>
          cases hM.parts kx hpq with | inter kp _ =>
          exact hfourth hpq (.inl (hz kp))
        | right hpq =>
          cases hM.parts kx hpq with | inter _ kq =>
          exact hfourth hpq (.inr (hz kq))
        | var hi =>
          exact (conforms_var_left hM hw hi ((hx.shows (.var hi)).present hw) hy kx ky).2 (hz (hM.held kx hi))
  | inter hshape ha hb iha ihb =>
    cases hM.parts ky hshape with | inter ka kb =>
    exact conforms_inter hM hw hshape hx kx ky (iha hx kx ka (h.tail (.left hshape)))
      (ihb hx kx kb (h.tail (.right hshape)))
  | var hshape hi ih =>
    exact (conforms_var_right hM hw hshape hi kx ky (hx.present hw)).2
      (ih hx kx (hM.held ky hshape) (h.tail (.var hshape)))

omit hM hw in
/-- What conforms to an intersection conforms to its operands. -/
theorem operands_conform (h : Conforms erased w t m) (hM : ρ.Matches w w) (hw : w.Standard) (kt : ρ.ty t t)
    (km : ρ.ty m m) (hm : w.shape? m = some (.inter a b)) (ha : w.Unfolds a) (hb : w.Unfolds b) :
    Conforms erased w t a ∧ Conforms erased w t b := by
  refine h.induct (P := fun w t m => ∀ ρ : Corr, ρ.Matches w w → ρ.ty t t → ρ.ty m m → w.Standard → ∀ a b,
    w.shape? m = some (.inter a b) → w.Unfolds a → w.Unfolds b → Conforms erased w t a ∧ Conforms erased w t b) hM kt km
    (fun w m _ ρ hM km _ hw a b hm ha hb => ?_)
    (fun {ρ w t m S} hS hsub hM kt km hpt hpm hholds _ _ _ _ hw a b hm ha hb => ?_) ρ hM kt km hw a b hm ha hb
  · cases hM.parts km hm with | inter ka kb =>
    have hum : w.Unfolds m := .inter hm ha hb
    exact ⟨conforms_of_shows hM hw hum ha km ka (.single (.left hm)),
      conforms_of_shows hM hw hum hb km kb (.single (.right hm))⟩
  · cases hM.parts km hm with | inter ka kb =>
    obtain ⟨d, -, hd, -, -⟩ := hM.ty kt
    have hshape := World.shape_of_shape? hm
    have hnot : intercepts (w.shape m) = false := by rw [hshape]; rfl
    by_cases hhole : isHole (w.shape t)
    · exact ⟨conforms_hole_left hM hw kt hpt hhole ha ka, conforms_hole_left hM hw kt hpt hhole hb kb⟩
    cases hvar : d.isVar with
    | false =>
      have htells := (holds_of_tells hS hM kt km hnot (intercepts_leaf hd hvar (Bool.eq_false_iff.2 hhole))
        (by rw [hshape]; exact Bool.and_false _) fun n => tells_third_inter hS hM kt km hm).1 hholds
      exact ⟨(hsub w t a htells.1).1, (hsub w t b htells.2).1⟩
    | true =>
      cases d with
      | var i =>
        obtain ⟨hconf, hP⟩ := hsub w _ m ((holds_var_left hS hM kt km hd hnot).1 hholds)
        obtain ⟨hia, hib⟩ := hP ρ hM (hM.held kt hd) km hw a b hm ha hb
        exact ⟨conforms_of_varUnderlying hM hw ha ka hd kt hia.present.1 hia,
          conforms_of_varUnderlying hM hw hb kb hd kt hib.present.1 hib⟩
      | _ => cases hvar

/-- **A type conforms to an intersection if it conforms to both operands.** -/
theorem conforms_inter_iff (hm : w.shape? m = some (.inter a b)) (ht : w.Unfolds t) (ha : w.Unfolds a)
    (hb : w.Unfolds b) (kt : ρ.ty t t) (km : ρ.ty m m) :
    Conforms erased w t m ↔ Conforms erased w t a ∧ Conforms erased w t b :=
  ⟨fun h => operands_conform h hM hw kt km hm ha hb, fun ⟨h₁, h₂⟩ => conforms_inter hM hw hm ht kt km h₁ h₂⟩

/-- **A type conforms to a union if it conforms to an operand.** -/
theorem conforms_union_right (hm : w.shape? m = some (.union a b)) (ht : w.Unfolds t) (kt : ρ.ty t t) (km : ρ.ty m m)
    (h : Conforms erased w t a ∨ Conforms erased w t b) : Conforms erased w t m := by
  cases hM.parts km hm with | union ka kb =>
  have hd := World.shape_of_shape? hm
  refine conforms_of_meets hM hw (P := fun x => Conforms erased w x a ∨ Conforms erased w x b) ht kt km
    (hw.present hm nofun) (by rw [hd]; rfl) (fun x kx _ hnot hx => ?_) (fun x i kx hi hpi hx => ?_) h
  · exact (holds_of_tells carried_conforms hM kx km (by rw [hd]; rfl) hnot (by rw [hd]; exact Bool.and_false _)
      fun n => tells_third_union carried_conforms hM kx km hm).2 (hx.imp_right .inl)
  · exact hx.imp (fun h => underlying_conforms h hM hw kx ka hi hpi) fun h => underlying_conforms h hM hw kx kb hi hpi

/-- **A union conforms to what both operands conform to.** -/
theorem conforms_union_left (hm : w.shape? m = some (.union a b)) (ha : w.Unfolds a) (hb : w.Unfolds b)
    (hu : w.Unfolds u) (km : ρ.ty m m) (ku : ρ.ty u u) (h₁ : Conforms erased w a u) (h₂ : Conforms erased w b u) :
    Conforms erased w m u := by
  have hpm : m.present := hw.present hm nofun
  have hum : w.Unfolds m := .leaf hpm hm rfl nofun
  cases hM.parts km hm with | union ka kb =>
  induction hu with
  | @leaf u d hpu hshape hvar hinter =>
    cases hhole : isHole (w.shape u) with
    | true => exact conforms_hole_right hM km ku hpm hpu hhole
    | false =>
      refine conforms_of_below hM hw hum km ku hpu (intercepts_leaf hshape hvar hhole) ?_ ?_ ?_
      · rintro x y hxy
        exact hinter x y (Option.some.inj (hshape.symm.trans hxy))
      · rw [World.shape_of_shape? hm]
        rfl
      · exact (below_union carried_conforms hM km ku hm).2 ⟨h₁, h₂⟩
  | inter hshape hx hy ihx ihy =>
    cases hM.parts ku hshape with | inter kx ky =>
    rw [conforms_inter_iff hM hw hshape ha hx hy ka ku] at h₁
    rw [conforms_inter_iff hM hw hshape hb hx hy kb ku] at h₂
    exact conforms_inter hM hw hshape hum km ku (ihx kx h₁.1 h₂.1) (ihy ky h₁.2 h₂.2)
  | @var u i hshape hi ih =>
    refine (conforms_var_right hM hw hshape hi km ku hpm).2 (ih (hM.held ku hshape) ?_ ?_)
    · exact (conforms_var_right hM hw hshape hi ka ku (ha.present hw)).1 h₁
    · exact (conforms_var_right hM hw hshape hi kb ku (hb.present hw)).1 h₂

end Laws

/-- **The laws of meets and joins**, for comparisons with nothing under inference that come to an answer: a type conforms
to an intersection exactly if it conforms to both operands, a union conforms to what both operands conform to, and a
type conforms to a union if it conforms to one of its operands. -/
theorem isSubType_meet_join {erased : Bool} {w : World} {a b c : Ty} (hw : w.Built) (ha : w.Unfolds a) (hb : w.Unfolds b) (hc : w.Unfolds c) :
    (∀ meet x y z, w.shape? meet = some (.inter b c) → w.Returns erased a meet x → w.Returns erased a b y →
      w.Returns erased a c z → (x = true ↔ y = true ∧ z = true)) ∧
    (∀ join x, w.shape? join = some (.union a b) → w.Returns erased a c true → w.Returns erased b c true →
      w.Returns erased join c x → x = true) ∧
    ∀ join x, w.shape? join = some (.union b c) → w.Returns erased a b true ∨ w.Returns erased a c true →
      w.Returns erased a join x → x = true := by
  have hcl := hw.closed
  have hM := hcl.identity_matches
  have known {t : Ty} (ht : w.Has t) : (Corr.identity w).ty t t := ⟨rfl, ht⟩
  refine ⟨fun meet x y z hm hx hy hz => ?_, fun join x hj hac hbc hx => ?_, fun join x hj h hx => ?_⟩
  · have hmeet : w.Has meet := Option.isSome_of_eq_some hm
    rw [hx.iff hcl ha.has hmeet, hy.iff hcl ha.has hb.has, hz.iff hcl ha.has hc.has]
    exact conforms_inter_iff hM hw.standard hm ha hb hc (known ha.has) (known hmeet)
  · have hjoin : w.Has join := Option.isSome_of_eq_some hj
    rw [hx.iff hcl hjoin hc.has]
    exact conforms_union_left hM hw.standard hj ha hb hc (known hjoin) (known hc.has)
      ((hac.iff hcl ha.has hc.has).1 rfl) ((hbc.iff hcl hb.has hc.has).1 rfl)
  · have hjoin : w.Has join := Option.isSome_of_eq_some hj
    rw [hx.iff hcl ha.has hjoin]
    exact conforms_union_right hM hw.standard hj ha (known ha.has) (known hjoin)
      (h.imp (fun h => (h.iff hcl ha.has hb.has).1 rfl) fun h => (h.iff hcl ha.has hc.has).1 rfl)

/-- A variable settled to `Int`, its intersection with `AnyVal`, and its unions with `Int` and with `AnyVal`. -/
def settledWorld : World :=
  let w := { World.initial with vars := World.initial.vars.push { origin := Builtin.any.type } }
  let w := { w with vars := w.vars.setIfInBounds 0 { origin := Builtin.any.type, inst := some Builtin.int.type } }
  [.var ⟨0⟩, .inter ⟨15⟩ Builtin.anyVal.type, .union Builtin.int.type ⟨15⟩, .union ⟨15⟩ Builtin.anyVal.type].foldl
    (fun w d => { w with types := (w.types.intern d).2 }) w

theorem settledWorld_built : settledWorld.Built := by
  have h₁ := World.Built.var .initial Builtin.any.type (by decide)
  have h₂ := h₁.instantiate 0 { origin := Builtin.any.type } Array.mem_push_self Builtin.int.type (by decide)
  have h₃ := h₂.intern (.var ⟨0⟩) (.var trivial)
  have h₄ := h₃.intern (.inter ⟨15⟩ Builtin.anyVal.type) (.inter ⟨rfl, by decide⟩ ⟨rfl, by decide⟩)
  have h₅ := h₄.intern (.union Builtin.int.type ⟨15⟩) (.union ⟨rfl, by decide⟩ ⟨rfl, by decide⟩)
  exact h₅.intern (.union ⟨15⟩ Builtin.anyVal.type) (.union ⟨rfl, by decide⟩ ⟨rfl, by decide⟩)

/-- The laws for `Int`, a variable settled to it, and `AnyVal`. -/
theorem isSubType_meet_join_settled : settledWorld.Built ∧ settledWorld.shape? ⟨15⟩ = some (.var ⟨0⟩) ∧
    (∃ x, settledWorld.Returns false Builtin.int.type ⟨16⟩ x ∧ x = true) ∧
    (∃ x, settledWorld.Returns false ⟨17⟩ Builtin.anyVal.type x ∧ x = true) ∧
    ∃ x, settledWorld.Returns false Builtin.int.type ⟨18⟩ x ∧ x = true := by
  have hw := settledWorld_built
  have hleaf (b : Builtin) (hb : b.type.present) : settledWorld.Unfolds b.type :=
    .leaf hb (hw.standard.shape b) rfl nofun
  have hint := hleaf .int (by decide)
  have hvar : settledWorld.Unfolds ⟨15⟩ := .var (i := ⟨0⟩) (by decide) hint
  obtain ⟨hmeet, hleft, hright⟩ := @isSubType_meet_join false _ _ _ _ hw hint hvar (hleaf .anyVal (by decide))
  have hmeets : settledWorld.Returns false Builtin.int.type ⟨16⟩ true := World.returns_of_run 12 (by decide)
  have hjoins : settledWorld.Returns false ⟨17⟩ Builtin.anyVal.type true := World.returns_of_run 12 (by decide)
  have hjoined : settledWorld.Returns false Builtin.int.type ⟨18⟩ true := World.returns_of_run 12 (by decide)
  have hintVar : settledWorld.Returns false Builtin.int.type ⟨15⟩ true := World.returns_of_run 12 (by decide)
  have hintVal : settledWorld.Returns false Builtin.int.type Builtin.anyVal.type true :=
    World.returns_of_run 12 (by decide)
  have hvarVal : settledWorld.Returns false ⟨15⟩ Builtin.anyVal.type true := World.returns_of_run 12 (by decide)
  refine ⟨hw, by decide, ⟨true, hmeets, ?_⟩, ⟨true, hjoins, ?_⟩, ⟨true, hjoined, ?_⟩⟩
  · exact (hmeet _ _ _ _ (by decide) hmeets hintVar hintVal).2 ⟨rfl, rfl⟩
  · exact hleft _ _ (by decide) hintVal hvarVal hjoins
  · exact hright _ _ (by decide) (.inl hintVar) hjoined

end CompareM

end Conformance
