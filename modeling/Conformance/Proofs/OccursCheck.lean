import Conformance.Proofs.Supplied
import Conformance.Proofs.Trees

/-!
# Variables inside themselves

The test for stability follows the operands of intersections and what variables were settled to, and has no guard
(`World.Follows`). It comes to an end where no variable is reached from its own instance: the types on its way are
different ones then, so that the way is no longer than there are types (`World.OccursFree.along`,
`World.OccursFree.isStable_ends`). A world in tiers is founded in this case and in no other (`World.Tiered.founded_iff`).

Settling a variable does not check that. Two variables may be settled to one another, and the test runs on for ever
(`Session.vars_in_circle`). Since a step settles one variable or none (`Session.Step.settles`), no variable gets into its
own instance exactly as long as each is settled to a type that does not lead to it at that moment
(`Session.occurs_free_iff_checked`).
-/

namespace Conformance

namespace World

/-- Any number of such links. -/
def LeadsTo (w : World) : Ty → Ty → Prop := Relation.ReflTransGen w.Follows

/-- No variable is reached from its own instance. -/
def OccursFree (w : World) : Prop :=
  ∀ t v u, w.shape? t = some (.var v) → w.varInstance? v = some u → ¬ w.LeadsTo u t

variable {w w' : World} {opened : List BinderId} {t u x y : Ty} {v : VarId} {c : VarCell}

theorem Tiered.has_of_settled (hw : w.Tiered opened) (hu : w.varInstance? v = some u) : w.Has u := by
  obtain ⟨c, hc, hinst⟩ := Option.bind_eq_some_iff.1 hu
  exact (hw.closed.var c (Array.mem_of_getElem? hc)).2 u hinst

/-- Operands have smaller handles. -/
theorem Tiered.lt_of_follows (hw : w.Tiered opened) (h : w.Follows t u) :
    u.id < t.id ∨ ∃ v, w.shape? t = some (.var v) ∧ w.varInstance? v = some u := by
  obtain ⟨a, b, ht, rfl | rfl⟩ | hsettled := follows_iff.1 h
  · exact .inl (hw.ty ht (by simp [Shape.parts]))
  · exact .inl (hw.ty ht (by simp [Shape.parts]))
  · exact .inr hsettled

theorem Tiered.has_of_follows (hw : w.Tiered opened) (h : w.Follows t u) : w.Has u := by
  obtain hlt | ⟨v, -, hu⟩ := hw.lt_of_follows h
  · exact has_of_lt hlt h.has
  · exact hw.has_of_settled hu

/-- It is enough that some rank goes down along all links. -/
theorem OccursFree.of_rank (rank : Ty → Nat) (hrank : ∀ t u, w.Follows t u → rank u < rank t) : w.OccursFree := by
  intro t v u ht hu hway
  have hle {y : Ty} (h : w.LeadsTo u y) : rank y ≤ rank u := by
    induction h with
    | refl => exact le_rfl
    | tail _ hlink ih => exact (hrank _ _ hlink).le.trans ih
  exact Nat.not_lt_of_le (hle hway) (hrank t u (follows_of_settled ht hu))

/-! ## Ways without a circle -/

/-- A way that does not go down passes through a variable that is settled. -/
theorem Tiered.lt_or_settled (hw : w.Tiered opened) (h : Relation.TransGen w.Follows t u) :
    u.id < t.id ∨ ∃ x v inst, w.shape? x = some (.var v) ∧ w.varInstance? v = some inst ∧ w.LeadsTo t x ∧
      w.LeadsTo inst u := by
  induction h with
  | single h => exact (hw.lt_of_follows h).imp_right fun ⟨v, ht, hu⟩ => ⟨t, v, _, ht, hu, .refl, .refl⟩
  | @tail y u hway h ih =>
    obtain hlt | ⟨x, v, inst, hx, hinst, hto, hfrom⟩ := ih
    · obtain hlt' | ⟨v, hy, hu⟩ := hw.lt_of_follows h
      · exact .inl (hlt'.trans hlt)
      · exact .inr ⟨y, v, u, hy, hu, hway.to_reflTransGen, .refl⟩
    · exact .inr ⟨x, v, inst, hx, hinst, hto, hfrom.tail h⟩

/-- No way comes back to where it starts: it would pass through a variable and come back to it. -/
theorem OccursFree.irrefl (hfree : w.OccursFree) (hw : w.Tiered opened) : ¬ Relation.TransGen w.Follows t t := by
  intro hcircle
  obtain hlt | ⟨x, v, inst, hx, hinst, hto, hfrom⟩ := hw.lt_or_settled hcircle
  · exact Nat.lt_irrefl _ hlt
  · exact hfree x v inst hx hinst (hfrom.trans hto)

/-- The types on the way to a type are different from it. -/
theorem OccursFree.nodup_way (hfree : w.OccursFree) (hw : w.Tiered opened) {l : List Ty} (hnodup : l.Nodup)
    (hl : ∀ x ∈ l, Relation.TransGen w.Follows x t) : (t :: l).Nodup :=
  List.nodup_cons.2 ⟨fun hmem => hfree.irrefl hw (hl t hmem), hnodup⟩

/-- So there are fewer of them than types. -/
theorem OccursFree.length_lt_of_way (hfree : w.OccursFree) (hw : w.Tiered opened) (ht : w.Has t) {l : List Ty}
    (hnodup : l.Nodup) (hl : ∀ x ∈ l, Relation.TransGen w.Follows x t) : l.length < w.types.size := by
  have hgiven : ∀ x ∈ t :: l, w.Has x := by
    intro x hx
    obtain rfl | hx := List.mem_cons.1 hx
    · exact ht
    · obtain ⟨y, hy, -⟩ := Relation.TransGen.head'_iff.1 (hl x hx)
      exact hy.has
  exact length_le_of_has hgiven (hfree.nodup_way hw hnodup hl)

/-- **Induction along the links.** With what lies behind, a way covers all types, so that no way is longer than there are
types. -/
theorem OccursFree.along (hfree : w.OccursFree) (hw : w.Tiered opened) {C : Nat → Ty → Prop}
    (hstep : ∀ n t, w.Has t → (∀ u, w.Follows t u → C n u) → C (n + 1) t) (n : Nat) : ∀ {l : List Ty} {t : Ty},
    w.Has t → l.Nodup → (∀ x ∈ l, Relation.TransGen w.Follows x t) → w.types.size ≤ n + l.length → C n t := by
  induction n with
  | zero =>
    intro l t ht hnodup hl hsize
    have hlt := hfree.length_lt_of_way hw ht hnodup hl
    omega
  | succ n ih =>
    intro l t ht hnodup hl hsize
    refine hstep n t ht fun u hu => ?_
    refine ih (hw.has_of_follows hu) (hfree.nodup_way hw hnodup hl) (fun x hx => ?_) (by rw [List.length_cons]; omega)
    obtain rfl | hx := List.mem_cons.1 hx
    · exact .single hu
    · exact (hl x hx).tail hu

/-- **The test for stability comes to an end** on every type if no variable is reached from its own instance, within as
many levels as there are types. -/
theorem OccursFree.isStable_ends (hfree : w.OccursFree) (hw : w.Tiered opened) (t : Ty) :
    ∃ stable, ∀ n, w.types.size ≤ n → w.isStable n t = .ok stable := by
  by_cases ht : w.Has t
  · refine hfree.along hw (C := fun k t => ∃ stable, ∀ n, k ≤ n → w.isStable n t = .ok stable) ?_ _ ht List.nodup_nil
      nofun le_rfl
    exact fun n t ht hnext => isStable_step ht hnext
  · have hpos : 0 < w.types.size := (Nat.zero_le _).trans_lt (id_lt_of_has (hw.fixed (t := .noType) (by decide)))
    have habsent : w.shape t = .fixed .noType :=
      congrArg (Option.getD · _) (Option.not_isSome_iff_eq_none.1 ht)
    refine ⟨false, fun n hn => ?_⟩
    obtain ⟨n, rfl⟩ := Nat.exists_eq_succ_of_ne_zero (Nat.lt_of_lt_of_le hpos hn).ne'
    rw [isStable, habsent]
    rfl

/-! ## Founded worlds -/

/-- Types that were given out are finite trees, since they are made of earlier ones. -/
theorem Tiered.tree (hw : w.Tiered opened) : ∀ (i : Nat) {t : Ty}, w.Has t → t.id < i → w.Tree (2 * i) (.ty t)
  | 0, _, _, hi => absurd hi (Nat.not_lt_zero _)
  | i + 1, t, ht, hi => by
    obtain ⟨d, hd⟩ := Option.isSome_iff_exists.1 ht
    have hbelow {u : Ty} (hu : u.id < t.id) : w.Tree (2 * i) (.ty u) := hw.tree i (has_of_lt hu ht) (by omega)
    refine .ty hd fun n hn => ?_
    cases n with
    | ty u => exact (hbelow (hw.ty hd hn)).succ
    | binder b =>
      obtain ⟨-, e, he, hlt⟩ := hw.binder hd hn
      exact .binder he (fun u hu => hbelow (hlt u (by simp [hu]))) (hbelow (hlt _ (by simp)))
    | sym s => exact .sym s
    | param p => exact .param p
    | var v => exact .var v

theorem Tiered.finite (hw : w.Tiered opened) (ht : w.Has t) : w.Finite (.ty t) :=
  ⟨_, hw.tree (t.id + 1) ht (Nat.lt_succ_self _)⟩

theorem not_circle_of_acc (hacc : Acc (flip w.Follows) t) : ¬ Relation.TransGen w.Follows t t := by
  induction hacc with
  | intro t _ ih =>
    intro hcircle
    obtain ⟨u, hu, hback⟩ := Relation.TransGen.head'_iff.1 hcircle
    exact ih u hu (Relation.TransGen.tail' hback hu)

theorem Founded.occursFree (hw : w.Founded) : w.OccursFree := fun _ _ _ ht hu hway =>
  not_circle_of_acc (hw.settled hu).2 (.tail' hway (follows_of_settled ht hu))

theorem OccursFree.founded (hfree : w.OccursFree) (hw : w.Tiered opened) : w.Founded where
  tree := hw.finite
  binder {b} hb := by
    obtain ⟨d, hd⟩ := Option.isSome_iff_exists.1 hb
    have hpart : ∀ u ∈ d.infos ++ [d.result], w.Tree (2 * w.types.shapes.size) (.ty u) := fun u hu =>
      hw.tree _ (hw.filled hd u hu) (id_lt_of_has (hw.filled hd u hu))
    exact ⟨_, .binder hd (fun u hu => hpart u (by simp [hu])) (hpart _ (by simp))⟩
  decl {s d} hs n hn := by
    obtain ⟨hinfo, hparents⟩ := hw.closed.decl d (mem_of_get? hs)
    cases n with
    | ty u =>
      obtain rfl | hu : u = d.info ∨ u ∈ d.parents := by simpa [Declaration.parts] using hn
      · exact hw.finite hinfo
      · exact hw.finite (hparents u hu)
    | sym s => exact ⟨0, .sym s⟩
    | param p => exact ⟨0, .param p⟩
    | binder b => simp [Declaration.parts] at hn
    | var v => exact ⟨0, .var v⟩
  vars c hc := by
    obtain ⟨horigin, hinst⟩ := hw.closed.var c hc
    refine ⟨horigin, fun t ht => ⟨hinst t ht, ?_⟩⟩
    refine hfree.along hw (C := fun _ t => Acc (flip w.Follows) t) ?_ _ (hinst t ht) List.nodup_nil nofun le_rfl
    exact fun _ t _ hnext => .intro t hnext
  fixed _ := hw.fixed

/-- **A world in tiers is founded if and only if no variable is reached from its own instance.** -/
theorem Tiered.founded_iff (hw : w.Tiered opened) : w.Founded ↔ w.OccursFree :=
  ⟨Founded.occursFree, fun hfree => hfree.founded hw⟩

/-! ## What settling does -/

namespace Retains

theorem instance_kept (h : w.Retains opened w') (hu : w.varInstance? v = some u) : w'.varInstance? v = some u := by
  obtain ⟨c, hc, hinst⟩ := Option.bind_eq_some_iff.1 hu
  obtain ⟨c', hc', -, hkept⟩ := h.var hc
  exact Option.bind_eq_some_iff.2 ⟨c', hc', hkept u hinst⟩

theorem leadsTo (h : w.Retains opened w') (hway : w.LeadsTo t u) : w'.LeadsTo t u := by
  refine Relation.ReflTransGen.mono (fun x y hlink => ?_) t u hway
  obtain ⟨a, b, hx, hy⟩ | ⟨v, hx, hy⟩ := follows_iff.1 hlink
  · exact follows_iff.2 (.inl ⟨a, b, h.shape hx, hy⟩)
  · exact follows_of_settled (h.shape hx) (h.instance_kept hy)

/-- What is settled is never undone, so a variable that is inside its own instance stays there. -/
theorem occursFree (h : w.Retains opened w') (hfree : w'.OccursFree) : w.OccursFree :=
  fun t v u ht hu hway => hfree t v u (h.shape ht) (h.instance_kept hu) (h.leadsTo hway)

/-- While no variable is settled, types that were there lead where they led. -/
theorem leadsTo_back (h : w.Retains opened w') (hw : w.Tiered opened)
    (hinst : ∀ v, w'.varInstance? v = w.varInstance? v) (ht : w.Has t) (hway : w'.LeadsTo t u) :
    w.LeadsTo t u ∧ w.Has u := by
  induction hway with
  | refl => exact ⟨.refl, ht⟩
  | @tail x y _ hxy ih =>
    obtain ⟨hway, hx⟩ := ih
    have hlink : w.Follows x y := Follows.back hxy hx h.shape hinst
    exact ⟨hway.tail hlink, hw.has_of_follows hlink⟩

end Retains

/-- Types that are new are made of what was there, and no variable was settled to them. -/
theorem OccursFree.extend (hfree : w.OccursFree) (h : w.Retains opened w') (hw : w.Tiered opened)
    (hinst : ∀ v, w'.varInstance? v = w.varInstance? v) : w'.OccursFree := by
  intro t v u ht hu hway
  rw [hinst] at hu
  obtain ⟨hback, hhas⟩ := h.leadsTo_back hw hinst (hw.has_of_settled hu) hway
  obtain ⟨d, hd⟩ := Option.isSome_iff_exists.1 hhas
  exact hfree t v u (hd.trans ((h.shape hd).symm.trans ht)) hu hback

section Settling

variable {var inst : Ty} (hvar : w.shape? var = some (.var v)) (hv : w.vars[v.id]? = some c)

include hv

theorem varInstance?_settle (i : VarId) :
    World.varInstance? { w with vars := w.vars.setIfInBounds v.id { c with inst := some inst } } i =
      if i = v then some inst else w.varInstance? i := by
  have hlt : v.id < w.vars.size := (Array.getElem?_eq_some_iff.1 hv).1
  obtain ⟨i⟩ := i
  obtain ⟨j⟩ := v
  rw [varInstance?, Array.getElem?_setIfInBounds]
  by_cases hij : j = i
  · subst hij
    rw [if_pos rfl, if_pos rfl, if_pos hlt]
    rfl
  · rw [if_neg hij, if_neg fun h => hij (VarId.mk.inj h).symm]
    rfl

include hvar

/-- Settling a variable adds one link, from the variable to its instance. A way that uses it comes to the variable, and
has gone on from the instance after the last time. -/
theorem leadsTo_settle
    (hway : World.LeadsTo { w with vars := w.vars.setIfInBounds v.id { c with inst := some inst } } x y) :
    w.LeadsTo x y ∨ w.LeadsTo x var ∧ w.LeadsTo inst y := by
  induction hway with
  | refl => exact .inl .refl
  | @tail y z _ hyz ih =>
    have hlink : w.Follows y z ∨ y = var ∧ z = inst := by
      obtain ⟨a, b, hy, hz⟩ | ⟨i, hy, hz⟩ := follows_iff.1 hyz
      · exact .inl (follows_iff.2 (.inl ⟨a, b, hy, hz⟩))
      · rw [varInstance?_settle hv] at hz
        split at hz
        · next heq => exact .inr ⟨TypeTable.shape?_injective hy (heq ▸ hvar), (Option.some.inj hz).symm⟩
        · exact .inl (follows_of_settled hy hz)
    obtain hlink | ⟨rfl, rfl⟩ := hlink
    · exact ih.imp (·.tail hlink) (.imp_right (·.tail hlink))
    · exact .inr ⟨ih.elim id (·.1), .refl⟩

/-- **The occurs check.** If the instance does not lead to the variable, settling it leaves all variables outside their
own instances. -/
theorem OccursFree.settle (hfree : w.OccursFree) (hcheck : ¬ w.LeadsTo inst var) :
    OccursFree { w with vars := w.vars.setIfInBounds v.id { c with inst := some inst } } := by
  intro t i u ht hu hway
  have hcases := leadsTo_settle hvar hv hway
  rw [varInstance?_settle hv] at hu
  split at hu
  · next heq =>
    obtain rfl := Option.some.inj hu
    obtain rfl : t = var := TypeTable.shape?_injective ht (heq ▸ hvar)
    exact hcheck (hcases.elim id (·.2))
  · obtain hold | ⟨hto, hfrom⟩ := hcases
    · exact hfree t i u ht hu hold
    · -- the new link closes a circle through the older one of `t`
      exact hcheck ((hfrom.tail (follows_of_settled ht hu)).trans hto)

end Settling

end World

namespace Session

variable {s s' : Session}

/-- A step leaves all instances alone, or settles one variable that was not settled. -/
theorem Step.settles (h : Step s s') :
    (∀ v, s'.world.varInstance? v = s.world.varInstance? v) ∨
      ∃ var v c inst, s.world.shape? var = some (.var v) ∧ s.world.vars[v.id]? = some c ∧ c.inst = none ∧
        s'.world = { s.world with vars := s.world.vars.setIfInBounds v.id { c with inst := some inst } } := by
  have hsame {w w' : World} (hvars : w'.vars = w.vars) (v : VarId) : w'.varInstance? v = w.varInstance? v := by
    rw [World.varInstance?, World.varInstance?, hvars]
  cases h with
  | @call _ _ _ w w' _ hm hrun =>
    cases hm with
    | add hm => exact .inl (hsame (hm.le hrun).vars)
    | var origin =>
      obtain ⟨-, rfl⟩ | ⟨p, t, -, -, ht⟩ := var_cases hrun
      · exact .inl fun _ => rfl
      · cases ht
        refine .inl fun v => ?_
        show ((w.vars.push { origin })[v.id]?).bind (·.inst) = _
        rw [Array.getElem?_push]
        split
        · next hv => rw [World.varInstance?, hv, Array.getElem?_eq_none le_rfl]; rfl
        · rfl
    | instantiate var inst =>
      obtain ⟨-, rfl⟩ | ⟨v, c, hvar, hv, hc, -, rfl⟩ := instantiate_cases hrun
      · exact .inl fun _ => rfl
      · exact .inr ⟨var, v, c, inst, hvar, hv, hc, rfl⟩
    | request r =>
      have hkeeps : Declares r.types fun v => v.vars = w.vars := {
        baseType := fun cls _ hvars hrun => ((Addition.baseType _ cls).le hrun).vars.trans hvars
        register := fun hvars _ _ _ _ => hvars
        setParents := fun _ _ _ hvars => hvars }
      exact .inl (hsame (upholds_request r hkeeps w _ w' rfl hrun))
  | start kind names hrun =>
    cases hrun
    exact .inl fun _ => rfl
  | @finish _ _ b d =>
    rename_i hrun
    obtain ⟨-, rfl⟩ | ⟨-, -, t, ht, -⟩ := finish_cases (checks_check d.kind) hrun
    · exact .inl fun _ => rfl
    · exact .inl (hsame ((grows_binderType b : Grows True _).le_of_ok ht).vars)
  | giveUp => exact .inl fun _ => rfl

/-- A variable that is settled in between is settled to a type that does not lead to it. -/
def OccursChecked (s s' : Session) : Prop :=
  ∀ var v inst, s.world.shape? var = some (.var v) → s.world.varInstance? v = none →
    s'.world.varInstance? v = some inst → ¬ s.world.LeadsTo inst var

/-- Steps with handles that were given out before, each of which passes the occurs check. -/
def CheckedRun : Session → Session → Prop := Relation.ReflTransGen fun s s' => SuppliedStep s s' ∧ OccursChecked s s'

theorem CheckedRun.supplied (h : CheckedRun s s') : SuppliedRun s s' :=
  Relation.ReflTransGen.mono (fun _ _ => And.left) _ _ h

theorem SuppliedStep.occursFree (h : SuppliedStep s s') (hcheck : OccursChecked s s') (hs : s.world.Tiered s.opened)
    (hfree : s.world.OccursFree) : s'.world.OccursFree := by
  obtain hinst | ⟨var, v, c, inst, hvar, hv, hc, hs'⟩ := h.step.settles
  · exact hfree.extend h.step.continues.retains hs hinst
  · have hopen : s.world.varInstance? v = none := by rw [World.varInstance?, hv]; exact hc
    have hset : s'.world.varInstance? v = some inst := by rw [hs', World.varInstance?_settle hv, if_pos rfl]
    rw [hs']
    exact hfree.settle hvar hv (hcheck var v inst hvar hopen hset)

theorem CheckedRun.occursFree (h : CheckedRun .initial s) : s.world.OccursFree := by
  induction h with
  | refl => exact fun t v u _ hu => by cases hu
  | tail hrun hstep ih => exact hstep.1.occursFree hstep.2 (CheckedRun.supplied hrun).tiered ih

/-- Where no variable is inside its own instance in the end, none was on the way, so each step has passed the check. -/
theorem SuppliedRun.checked (h : SuppliedRun .initial s) (hfree : s.world.OccursFree) : CheckedRun .initial s := by
  induction h with
  | refl => exact .refl
  | @tail s s' _ hstep ih =>
    have hretains := hstep.step.continues.retains
    refine (ih (hretains.occursFree hfree)).tail ⟨hstep, fun var v inst hvar _ hinst hway => ?_⟩
    exact hfree var v inst (hretains.shape hvar) hinst (hretains.leadsTo hway)

/-- So it is such runs that lead to founded worlds. -/
theorem SuppliedRun.founded_iff (h : SuppliedRun .initial s) : s.world.Founded ↔ CheckedRun .initial s :=
  h.tiered.founded_iff.trans ⟨h.checked, CheckedRun.occursFree⟩

/-- **No variable is inside itself if and only if each was settled to a type that did not lead to it then**, whatever
calls were made with handles from earlier calls. The test for stability comes to an end on every type in that case,
within as many levels as there are types. -/
theorem occurs_free_iff_checked (h : SuppliedRun .initial s) :
    (s.world.OccursFree ↔ CheckedRun .initial s) ∧
      (CheckedRun .initial s → ∀ t, ∃ stable, ∀ n, s.world.types.size ≤ n → s.world.isStable n t = .ok stable) :=
  ⟨⟨h.checked, CheckedRun.occursFree⟩, fun hrun => hrun.occursFree.isStable_ends h.tiered⟩

/-- A type parameter, at `15`, and two variables for it, at `16` and `17`. -/
def twoVarsWorld : World :=
  let w := { World.initial with binders := #[{ kind := .universal, names := ["X"] }] }
  let w := { w with types := (w.types.intern (.param ⟨⟨0⟩, 0⟩)).2 }
  let w := { w with vars := #[{ origin := ⟨15⟩ }], types := (w.types.intern (.var ⟨0⟩)).2 }
  { w with vars := w.vars.push { origin := ⟨15⟩ }, types := (w.types.intern (.var ⟨1⟩)).2 }

theorem supplied_twoVars : SuppliedRun .initial ⟨twoVarsWorld, [⟨0⟩]⟩ := by
  let w₁ : World := { World.initial with binders := #[{ kind := .universal, names := ["X"] }] }
  let w₂ : World := { w₁ with types := (w₁.types.intern (.param ⟨⟨0⟩, 0⟩)).2 }
  let w₃ : World := { w₂ with vars := #[{ origin := ⟨15⟩ }], types := (w₂.types.intern (.var ⟨0⟩)).2 }
  have hstart : SuppliedStep .initial ⟨w₁, [⟨0⟩]⟩ := .start .universal ["X"] rfl
  have hparam : SuppliedStep ⟨w₁, [⟨0⟩]⟩ ⟨w₂, [⟨0⟩]⟩ := .call (.add (.paramType (b := ⟨0⟩) 0 rfl)) rfl
  have horigin : w₂.Has ⟨15⟩ ∧ w₃.Has ⟨15⟩ := by decide
  have hfirst : SuppliedStep ⟨w₂, [⟨0⟩]⟩ ⟨w₃, [⟨0⟩]⟩ := .call (.var horigin.1) rfl
  have hsecond : SuppliedStep ⟨w₃, [⟨0⟩]⟩ ⟨twoVarsWorld, [⟨0⟩]⟩ := .call (.var horigin.2) rfl
  exact .head hstart (.head hparam (.head hfirst (.single hsecond)))

/-- The first variable settled to an intersection with the second, at `18`, and the second to a literal, at `19`. -/
def orderedVarsWorld : World :=
  let w := { twoVarsWorld with types := (twoVarsWorld.types.intern (.inter ⟨17⟩ Builtin.int.type)).2 }
  let w := { w with vars := #[{ origin := ⟨15⟩, inst := some ⟨18⟩ }, { origin := ⟨15⟩ }] }
  let w := { w with types := (w.types.intern (.literal (.int 1))).2 }
  { w with vars := #[{ origin := ⟨15⟩, inst := some ⟨18⟩ }, { origin := ⟨15⟩, inst := some ⟨19⟩ }] }

/-- Variables may be settled to types with others in them that are settled later: the first is stable because the second
is. -/
theorem occurs_free_iff_checked_ordered : ∃ s, SuppliedRun .initial s ∧
    (s.world.links ⟨16⟩ = [⟨18⟩] ∧ s.world.links ⟨18⟩ = [⟨17⟩, Builtin.int.type] ∧ s.world.links ⟨17⟩ = [⟨19⟩]) ∧
    s.world.isStable 20 ⟨16⟩ = .ok true ∧ s.world.OccursFree ∧ CheckedRun .initial s ∧
      ∀ t, ∃ stable, ∀ n, s.world.types.size ≤ n → s.world.isStable n t = .ok stable := by
  let w₁ : World := { twoVarsWorld with types := (twoVarsWorld.types.intern (.inter ⟨17⟩ Builtin.int.type)).2 }
  let w₂ : World := { w₁ with vars := #[{ origin := ⟨15⟩, inst := some ⟨18⟩ }, { origin := ⟨15⟩ }] }
  let w₃ : World := { w₂ with types := (w₂.types.intern (.literal (.int 1))).2 }
  have hgiven : twoVarsWorld.Has ⟨17⟩ ∧ twoVarsWorld.Has Builtin.int.type ∧ w₁.Has ⟨16⟩ ∧ w₁.Has ⟨18⟩ ∧ w₃.Has ⟨17⟩ ∧
      w₃.Has ⟨19⟩ := by decide
  obtain ⟨ha, hb, hvar₁, hinst₁, hvar₂, hinst₂⟩ := hgiven
  have hinter : SuppliedStep ⟨twoVarsWorld, [⟨0⟩]⟩ ⟨w₁, [⟨0⟩]⟩ := .call (.add (.inter ha hb)) rfl
  have hfirst : SuppliedStep ⟨w₁, [⟨0⟩]⟩ ⟨w₂, [⟨0⟩]⟩ := .call (.instantiate hvar₁ hinst₁) rfl
  have hliteral : SuppliedStep ⟨w₂, [⟨0⟩]⟩ ⟨w₃, [⟨0⟩]⟩ := .call (.add (.literal (.int 1))) rfl
  have hsecond : SuppliedStep ⟨w₃, [⟨0⟩]⟩ ⟨orderedVarsWorld, [⟨0⟩]⟩ := .call (.instantiate hvar₂ hinst₂) rfl
  have hrun : SuppliedRun .initial ⟨orderedVarsWorld, [⟨0⟩]⟩ :=
    supplied_twoVars.trans (.head hinter (.head hfirst (.head hliteral (.single hsecond))))
  let rank (t : Ty) : Nat := if t = ⟨16⟩ then 3 else if t = ⟨18⟩ then 2 else if t = ⟨17⟩ then 1 else 0
  have hranks : ∀ i < orderedVarsWorld.types.shapes.size, ∀ u ∈ orderedVarsWorld.links ⟨i⟩, rank u < rank ⟨i⟩ := by
    decide
  have hfree : orderedVarsWorld.OccursFree := .of_rank rank fun t u h => hranks t.id (World.id_lt_of_has h.has) u h
  obtain ⟨hiff, hends⟩ := occurs_free_iff_checked hrun
  exact ⟨_, hrun, by decide, by decide, hfree, hiff.1 hfree, hends (hiff.1 hfree)⟩

/-- Two variables are settled to one another without being refused, and testing them for stability has no end. -/
theorem vars_in_circle : ∃ s, SuppliedRun .initial s ∧
    s.world.shape? ⟨16⟩ = some (.var ⟨0⟩) ∧ s.world.varInstance? ⟨0⟩ = some ⟨17⟩ ∧
      s.world.shape? ⟨17⟩ = some (.var ⟨1⟩) ∧ s.world.varInstance? ⟨1⟩ = some ⟨16⟩ ∧
      ¬ s.world.OccursFree ∧ ∀ n, s.world.isStable n ⟨16⟩ = .error .outOfFuel := by
  let w₁ : World := { twoVarsWorld with vars := #[{ origin := ⟨15⟩, inst := some ⟨17⟩ }, { origin := ⟨15⟩ }] }
  let w₂ : World :=
    { w₁ with vars := #[{ origin := ⟨15⟩, inst := some ⟨17⟩ }, { origin := ⟨15⟩, inst := some ⟨16⟩ }] }
  have hgiven : (twoVarsWorld.Has ⟨16⟩ ∧ twoVarsWorld.Has ⟨17⟩) ∧ w₁.Has ⟨16⟩ ∧ w₁.Has ⟨17⟩ := by decide
  have hfirst : SuppliedStep ⟨twoVarsWorld, [⟨0⟩]⟩ ⟨w₁, [⟨0⟩]⟩ := .call (.instantiate hgiven.1.1 hgiven.1.2) rfl
  have hsecond : SuppliedStep ⟨w₁, [⟨0⟩]⟩ ⟨w₂, [⟨0⟩]⟩ := .call (.instantiate hgiven.2.2 hgiven.2.1) rfl
  have hx : w₂.shape? ⟨16⟩ = some (.var ⟨0⟩) := by decide
  have hy : w₂.shape? ⟨17⟩ = some (.var ⟨1⟩) := by decide
  have hxinst : w₂.varInstance? ⟨0⟩ = some ⟨17⟩ := rfl
  have hyinst : w₂.varInstance? ⟨1⟩ = some ⟨16⟩ := rfl
  refine ⟨⟨w₂, [⟨0⟩]⟩, supplied_twoVars.trans (.head hfirst (.single hsecond)), hx, hxinst, hy, hyinst, fun hfree => ?_,
    fun n => ?_⟩
  · exact hfree ⟨16⟩ ⟨0⟩ ⟨17⟩ hx hxinst (.single (World.follows_of_settled hy hyinst))
  · have hboth : w₂.isStable n ⟨16⟩ = .error .outOfFuel ∧ w₂.isStable n ⟨17⟩ = .error .outOfFuel := by
      induction n with
      | zero => exact ⟨rfl, rfl⟩
      | succ n ih =>
        constructor
        · rw [World.isStable, World.shape_of_shape? hx]
          exact ih.2
        · rw [World.isStable, World.shape_of_shape? hy]
          exact ih.1
    exact hboth.1

end Session

end Conformance
