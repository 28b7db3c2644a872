import Conformance.Proofs.Aliases
import Conformance.Proofs.DeclaredParents
import Conformance.Proofs.Derivability
import Conformance.Proofs.MemberMatching

/-!
# Traits under bounds

A trait of type constructors can be refined with bounds for its parameters. The rule for traits reads the bounds as the
arguments of the trait, so it says whether a constructor fits the bounded trait. The cascade asks the rule for bare
traits only. A bounded trait is to it a refinement like any other: it is met by what conforms to the bare trait and has
a member of the refined name that fits, and the parameters of a constructor bear names of their own.
-/

namespace Conformance

open Relation CompareM

namespace World

variable {erased : Bool} {w v : World} {t u x : Ty} {cls : Symbol} {rs : List (String × Ty)}

/-- A step from a type to the constructor that it is made of: to what is refined, or to the upper end of a name that is
no class. -/
inductive Unwraps (w : World) : Ty → Ty → Prop
  | parent {t parent info : Ty} {name : String} (ht : w.shape? t = some (.refined parent name info)) : Unwraps w t parent
  | upper {t q : Ty} {s : Symbol} (ht : w.shape? t = some (.named q s)) (hs : ¬ w.decls.isClass s) :
    Unwraps w t (w.upperOf s)

/-- A type that unwraps to a class other than `cls`, which is neither the bottom class nor the null class. -/
def IsConstructor (w : World) (cls : Symbol) (t : Ty) : Prop :=
  ∃ s q c, ReflTransGen w.Unwraps t s ∧ w.shape? s = some (.named q c) ∧ w.decls.isClass c ∧ c ≠ cls ∧
    c ≠ Builtin.nothing.symbol ∧ c ≠ Builtin.null.symbol

/-- The members of `t` that the refinements name fit them. -/
def MembersFit (erased : Bool) (w : World) (t : Ty) (rs : List (String × Ty)) : Prop :=
  ∀ r ∈ rs, r.1 ≠ Builtin.anyName → w.MemberFits (Conforms erased) t r.1 r.2

/-- In `w`, or when more was taken in, the question whether the constructor `a` fits the trait `b` comes to this answer,
asked at rest. -/
def ReturnsFit (w : World) (erased : Bool) (a b : Ty) (answer : Bool) : Prop :=
  ∃ fuel c c' v v', w ≤ v ∧ c.AtRest ∧ c.options.erasedTypes = erased ∧
    isSubTypeConstructor fuel a b c v = .ok ((answer, c'), v')

theorem returnsFit_of_run {answer : Bool} (fuel : Nat) {a b : Ty}
    (hrun : (isSubTypeConstructor fuel a b (.vacant erased) w).toOption.map (·.1.1) = some answer) :
    w.ReturnsFit erased a b answer :=
  replies_of_run (F := fun n sub => conformsAsConstructor n sub a b) fuel hrun

/-- A constructor that fits does so when nested comparisons are looked up in conformance. -/
theorem ReturnsFit.affirmed {a b : Ty} (h : w.ReturnsFit erased a b true) (hw : w.Closed) (ha : w.Has a)
    (hb : w.Has b) : ∃ n, Affirmed erased w (conformsAsConstructor n (asking (Conforms erased)) a b) := by
  obtain ⟨n, c, w', hasked⟩ := Replies.asked (F := fun n sub => conformsAsConstructor n sub a b) h hw
    (fun n _ hR _ _ hsub => hR.conformsAsConstructor (.refl n) hsub a b) fun n hsub =>
      sim_conformsAsConstructor (.inr (Nat.le_refl n)) hsub ⟨rfl, ha⟩ ⟨rfl, hb⟩
  exact ⟨n, _, c, w', vacant_place _, hasked⟩

/-- What fits when it is looked up later fits now. -/
theorem Closed.memberFits_now {name : String} (hw : w.Closed) (ht : w.Has t) (hx : w.Has x) (hv : w ≤ v)
    (h : v.MemberFits (Conforms erased) t name x) : w.MemberFits (Conforms erased) t name x := by
  obtain ⟨i, v', hi, hfits⟩ := h
  have hpair : (Corr.identity w).ty t t := ⟨rfl, ht⟩
  obtain ⟨a, w', a', v', τ, hm, hm', -, hid, hτ, hpair⟩ :=
    hw.repeats (grows_member t name) (sim_member hpair name) hv
  cases hi.symm.trans hm'
  exact ⟨a, w', hm, hfits.transport hτ.symm hpair (hid.ty ⟨rfl, hx⟩)⟩

/-- The class that a trait under refinements unwraps to is the trait. -/
theorem Refines.unwraps {s q : Ty} {c : Symbol} (hcls : w.decls.isClass cls) (h : w.Refines cls rs u)
    (hlead : ReflTransGen w.Unwraps u s) (hs : w.shape? s = some (.named q c)) : c = cls := by
  induction h with
  | bare hu =>
    rcases hlead.cases_head with rfl | ⟨_, hstep, -⟩
    · cases hu.symm.trans hs
      rfl
    · cases hstep with
      | parent ht => cases hu.symm.trans ht
      | upper ht hplain =>
        cases hu.symm.trans ht
        exact absurd hcls hplain
  | refined hu _ ih =>
    rcases hlead.cases_head with rfl | ⟨_, hstep, hlead⟩
    · cases hu.symm.trans hs
    · cases hstep with
      | parent ht =>
        cases hu.symm.trans ht
        exact ih hlead
      | upper ht => cases hu.symm.trans ht

end World

namespace CompareM

section Traits

variable {erased : Bool} {ρ : Corr} {w w₀ : World} {t u x : Ty} {cls : Symbol} {rs : List (String × Ty)} {n : Nat}

/-- What fits a trait has a type constructor at its head. -/
theorem unfolds_of_constructor (hw₀ : w₀.Built) (hdecls : w.decls = w₀.decls) (hw : w.Standard) (ht : w.Has t)
    (htrait : Builtin.isTrait (targetSymbol w x))
    (h : Affirmed erased w (conformsAsConstructor n (asking (Conforms erased)) t x)) :
    w.Unfolds t ∧ intercepts (w.shape t) = false := by
  obtain ⟨d, hd⟩ := Option.isSome_iff_exists.1 ht
  have hhead : d.isHeadless = false := Bool.eq_false_iff.2 fun hhead =>
    not_conformsAsConstructor_headless hw₀ hdecls hd hhead htrait h
  rw [World.shape_of_shape? hd]
  cases d with
  | named | refined | classInfo => exact ⟨.leaf (hw.present hd nofun) hd rfl nofun, rfl⟩
  | _ => cases hhead

/-- A constructor that fits the bare trait, and whose members fit the bounds, conforms to the trait under them. -/
theorem conforms_of_fits (hw : w.Built) (htrait : Builtin.isTrait cls) (hx : w.shape? x = some (.named .noPrefix cls))
    (hu : w.Refines cls rs u) (ht : w.Has t)
    (hfits : Affirmed erased w (conformsAsConstructor n (asking (Conforms erased)) t x))
    (hmembers : World.MembersFit erased w t rs) : Conforms erased w t u := by
  obtain ⟨ρ, hM, known⟩ : ∃ ρ : Corr, ρ.Matches w w ∧ ∀ y, w.Has y → ρ.ty y y :=
    ⟨_, hw.closed.identity_matches, fun _ hy => ⟨rfl, hy⟩⟩
  have kt := known t ht
  have htarget : Builtin.isTrait (targetSymbol w x) := by
    rw [targetSymbol, World.shape_of_shape? hx]
    exact htrait
  obtain ⟨hunfolds, hnot⟩ := unfolds_of_constructor hw rfl hw.standard ht htarget hfits
  have hhas {d : Shape} {y : Ty} (hy : w.shape? y = some d) : ρ.ty y y := known y (Option.isSome_of_eq_some hy)
  induction hu with
  | bare hu =>
    obtain rfl := TypeTable.shape?_injective hx hu
    exact conforms_of_constructor hw rfl hM hw.standard kt (hhas hx) hunfolds htarget
      (World.not_apart_of_static hx (hw.isStatic_trait htrait)) hfits
  | @refined _ _ info name _ hu _ ih =>
    refine conforms_refined (P := (· = t)) hM hw.standard hu hunfolds kt (hhas hu)
      (fun y _ _ _ hy _ => ?_) (fun y i _ hi hy => ?_) rfl (ih fun r hr => hmembers r (List.mem_cons_of_mem _ hr))
    · subst hy
      exact or_iff_not_imp_left.2 (hmembers (name, info) List.mem_cons_self)
    · subst hy
      rw [World.shape_of_shape? hi] at hnot
      cases hnot

/-- **What conforms to a trait under bounds has the members that they name**, or leads to a type that does. The
induction is on the derivation: a refinement as the target asks the source for its member or hands on to what the
source refines, and a name as the source hands on to its upper end. -/
theorem members_of_conforms (hw₀ : w₀.Built) (hcls : w₀.decls.isClass cls) (hle : w₀ ≤ w) (hM : ρ.Matches w w)
    (kt : ρ.ty t t) (ku : ρ.ty u u) (ht : w₀.IsConstructor cls t) (hu : w₀.Refines cls rs u)
    (h : Conforms erased w t u) : ∀ r ∈ rs, r.1 ≠ Builtin.anyName →
      ∃ s, ReflTransGen w₀.Unwraps t s ∧ w₀.MemberFits (Conforms erased) s r.1 r.2 := by
  refine h.induct (P := fun w t u => ∀ ρ : Corr, w₀ ≤ w → ρ.Matches w w → ρ.ty t t → ρ.ty u u → w₀.IsConstructor cls t →
    ∀ rs, w₀.Refines cls rs u → ∀ r ∈ rs, r.1 ≠ Builtin.anyName →
      ∃ s, ReflTransGen w₀.Unwraps t s ∧ w₀.MemberFits (Conforms erased) s r.1 r.2) hM kt ku
    (fun w t _ ρ _ _ _ _ ht rs hu => ?_)
    (fun {_ w t u S} hS hsub _ _ _ _ _ hholds ρ hle hM kt ku ht rs hu => ?_) ρ hle hM kt ku ht rs hu
  · obtain ⟨s, q, c, hlead, hs, -, hne, -⟩ := ht
    exact absurd (hu.unwraps hcls hlead hs) hne
  have hinfo := hu.has_info hw₀.closed
  cases hu with
  | bare => exact fun _ hr => nomatch hr
  | @refined _ parent info name rs hu hrest =>
  have hu' := hle.shape hu
  cases hM.parts ku hu' with | refined kparent _ kinfo =>
  -- the source is asked, or hands on to what it unwraps to
  have hasked {d : Shape} (hd : w₀.shape? t = some d) (hplain : intercepts d = false)
      (hbelow : Below erased S w t u → ∃ y v, w ≤ v ∧ (∃ σ : Corr, σ.Matches v v ∧ σ.ty y y ∧ σ.ty u u) ∧
        w₀.Unwraps t y ∧ w₀.IsConstructor cls y ∧ S v y u) :
      ∀ r ∈ (name, info) :: rs, r.1 ≠ Builtin.anyName →
        ∃ s, ReflTransGen w₀.Unwraps t s ∧ w₀.MemberFits (Conforms erased) s r.1 r.2 := by
    intro r hr hname
    have hshape := World.shape_of_shape? (hle.shape hd)
    have hshape' := World.shape_of_shape? hu'
    rcases (holds_of_tells hS hM kt ku (by rw [hshape']; rfl) (by rw [hshape, hplain])
      (by rw [hshape']; exact Bool.and_false _) fun n => tells_third_refined hS hM kt ku hu').1 hholds with
      ⟨hparent, hmember⟩ | hbelow'
    · rcases List.mem_cons.1 hr with rfl | hr
      · obtain ⟨i, v, hi, hfits⟩ := hmember.resolve_left hname
        exact ⟨t, .refl, hw₀.closed.memberFits_now (Option.isSome_of_eq_some hd) (hinfo _ List.mem_cons_self) hle
          ⟨i, v, hi, (hsub v i info hfits).1⟩⟩
      · exact (hsub w t parent hparent).2 ρ hle hM kt kparent ht rs hrest r hr hname
    · obtain ⟨y, v, hv, ⟨σ, hMσ, ky, ku⟩, hstep, hy, hfits⟩ := hbelow hbelow'
      obtain ⟨s, hlead, hs⟩ := (hsub v y u hfits).2 σ (hle.trans hv) hMσ ky ku hy _ (.refined hu hrest) r hr hname
      exact ⟨s, .head hstep hlead, hs⟩
  obtain ⟨s, q, c, hlead, hs, hclass, hne, hnothing, hnull⟩ := ht
  rcases hlead.cases_head with rfl | ⟨y, hstep, hlead⟩
  · refine hasked hs rfl fun hbelow => ?_
    obtain ⟨y, v, hupper, -⟩ := (grows_upperBound t : Grows False _).total w
    rcases (below_named hS hM kt ku (hle.shape hs) hupper).1 hbelow with h | ⟨h, -⟩ | ⟨h, -⟩
    · exact absurd h hnothing
    · exact absurd h hnull
    · exact absurd (hle.decls ▸ hclass) h
  have hy : w₀.IsConstructor cls y := ⟨s, q, c, hlead, hs, hclass, hne, hnothing, hnull⟩
  cases hstep with
  | parent ht' =>
    cases hM.parts kt (hle.shape ht') with | refined ky _ _ =>
    refine hasked ht' rfl fun hbelow => ⟨_, w, le_rfl, ⟨ρ, hM, ky, ku⟩, .parent ht', hy, ?_⟩
    exact (below_refined hS hM kt ku (hle.shape ht')).1 hbelow
  | @upper _ a ht' hplain =>
    refine hasked ht' rfl fun hbelow => ?_
    obtain ⟨v, hv, hupper, -⟩ := World.upperBound_run (hw₀.standard.grow hle)
      (World.shape_of_shape? (hle.shape ht')) (hle.decls ▸ hplain)
    rcases (below_named hS hM kt ku (hle.shape ht') hupper).1 hbelow with rfl | ⟨rfl, -⟩ | ⟨-, hfits⟩
    · exact absurd (hw₀.standard.isClass .nothing) hplain
    · exact absurd (hw₀.standard.isClass .null) hplain
    · obtain ⟨σ, hσ, hMσ, ky⟩ := hM.made (sim_upperBound kt) hupper
      have hlater := hw₀.closed.upperOf_later hle a
      exact ⟨_, v, hv, ⟨σ, hMσ, hlater ▸ ky, hσ.ty ku⟩, .upper ht' hplain, hy, hlater ▸ hfits⟩

end Traits

/-- **Constructors conform to the traits that they fit**, and to a trait under bounds if their members of the refined
names fit the bounds: no comparison that comes to an answer comes to another one, and those that keep to finitely many
pairs come to it. Nothing but such members, of the constructor or of what it unwraps to, makes a constructor of another
class conform to a trait under bounds, whatever the rule for traits says of the two. -/
theorem isSubType_bounded_trait {erased : Bool} {w : World} {cls : Symbol} {t u x : Ty} {rs : List (String × Ty)}
    (hw : w.Built) (htrait : Builtin.isTrait cls) (hx : w.shape? x = some (.named .noPrefix cls))
    (hu : w.Refines cls rs u) (ht : w.Has t) :
    (w.ReturnsFit erased t x true → World.MembersFit erased w t rs →
      (∀ answer, w.Returns erased t u answer → answer = true) ∧
        (w.Founded → Confined erased w t u → w.Returns erased t u true)) ∧
    (w.IsConstructor cls t → w.Returns erased t u true → ∀ r ∈ rs, r.1 ≠ Builtin.anyName →
      ∃ s, ReflTransGen w.Unwraps t s ∧ w.MemberFits (Conforms erased) s r.1 r.2) := by
  have hcl := hw.closed
  refine ⟨fun hfits hmembers => ?_, fun hconstructor hreturns => ?_⟩
  · obtain ⟨n, hn⟩ := hfits.affirmed hcl ht (Option.isSome_of_eq_some hx)
    have hconf : Conforms erased w t u := conforms_of_fits hw htrait hx hu ht hn hmembers
    have hall (answer : Bool) (hr : w.Returns erased t u answer) : answer = true := (hr.iff hcl ht hu.has).2 hconf
    refine ⟨hall, fun hfounded hconfined => ?_⟩
    obtain ⟨answer, hr⟩ := hconfined.returns hfounded ht hu.has
    exact hall answer hr ▸ hr
  · have hconf : Conforms erased w t u := (hreturns.iff hcl ht hu.has).1 rfl
    exact members_of_conforms hw (hw.isClass_trait htrait) le_rfl hcl.identity_matches ⟨rfl, ht⟩ ⟨rfl, hu.has⟩
      hconstructor hu hconf

/-- References to the classes `Animal`, `Box` and `Crate` that are declared below, and to `Lambda$P` bare and with the upper
bound `Animal`, as the types 15 to 20. -/
def boxTypes : World :=
  let animal := World.initial.types.intern (.named .noPrefix ⟨44⟩)
  let box := animal.2.intern (.named .noPrefix ⟨45⟩)
  let crate := box.2.intern (.named .noPrefix ⟨47⟩)
  let bounds := crate.2.intern (.bounds Builtin.nothing.type ⟨15⟩)
  let trait := bounds.2.intern (.named .noPrefix ⟨13⟩)
  { World.initial with types := (trait.2.intern (.refined ⟨19⟩ "$hk0" ⟨18⟩)).2 }

/-- A class of the given name, whose parameter bears the other name and has the upper bound `Animal`. -/
def declareBox (name param : String) (w : World) : World :=
  let (s, decls) := w.decls.register
    { kind := .cls, name, owner := .absent, flags := { static := true }, parents := [Builtin.object.type] }
  { w with decls := (decls.register
    { kind := .typeParam, name := param, owner := s, variance := .covariant, info := ⟨18⟩ }).2 }

/-- `class Animal`, `class Box[+A <: Animal]`, and a class `Crate` like it whose parameter bears the name of the trait's. -/
def boxWorld : World :=
  let w := { boxTypes with decls := (boxTypes.decls.register
    { kind := .cls, name := "Animal", owner := .absent, flags := { static := true },
      parents := [Builtin.object.type] }).2 }
  declareBox "Crate" "$hk0" (declareBox "Box" "A" w)

theorem built_declareBox {w : World} (hw : w.Built) (hinfo : w.Has ⟨18⟩) (name param : String) :
    (declareBox name param w).Built := by
  have hparent : ∀ t ∈ [Builtin.object.type], w.Has t := fun t ht =>
    List.mem_singleton.1 ht ▸ Option.isSome_of_eq_some (hw.standard.shape .object)
  have hclass := World.Built.register hw { kind := .cls, name, owner := .absent, flags := { static := true },
                                           parents := [Builtin.object.type] }
    (Option.isSome_of_eq_some hw.standard.absent) hparent
  exact .register hclass _ hinfo fun _ ht => nomatch ht

theorem boxWorld_built : boxWorld.Built := by
  have hanimal : World.Built { World.initial with types := (World.initial.types.intern (.named .noPrefix ⟨44⟩)).2 } :=
    .intern .initial _ (World.mentions_named (by decide) _)
  have hbox := World.Built.intern hanimal (.named .noPrefix ⟨45⟩) (World.mentions_named (by decide) _)
  have hcrate := World.Built.intern hbox (.named .noPrefix ⟨47⟩) (World.mentions_named (by decide) _)
  have hbounds := World.Built.intern hcrate (.bounds Builtin.nothing.type ⟨15⟩)
    (World.mentions_bounds (by decide) (by decide))
  have htrait := World.Built.intern hbounds (.named .noPrefix ⟨13⟩) (World.mentions_named (by decide) _)
  have htypes : boxTypes.Built :=
    .intern htrait (.refined ⟨19⟩ "$hk0" ⟨18⟩) (World.mentions_refined (by decide) _ (by decide))
  have hclass := World.Built.register htypes { kind := .cls, name := "Animal", owner := .absent,
                                               flags := { static := true }, parents := [Builtin.object.type] }
    (by decide) (by decide)
  exact built_declareBox (built_declareBox hclass (by decide) _ _) (by decide) _ _

theorem boxWorld_trait : Builtin.isTrait ⟨13⟩ ∧ boxWorld.shape? ⟨19⟩ = some (.named .noPrefix ⟨13⟩) ∧
    boxWorld.Refines ⟨13⟩ [("$hk0", ⟨18⟩)] ⟨20⟩ := by
  have hx : boxWorld.shape? ⟨19⟩ = some (.named .noPrefix ⟨13⟩) := by decide
  exact ⟨by decide, hx, .refined (by decide) (.bare hx)⟩

/-- What the comparison of `Crate` with the bounded trait compares. -/
def cratePairs : Finset (Ty × Ty) := {(⟨17⟩, ⟨20⟩), (⟨17⟩, ⟨19⟩), (⟨18⟩, ⟨14⟩), (⟨15⟩, Builtin.any.type)}

set_option maxRecDepth 1000 in
theorem crate_run (n : Nat) : ((isSubTypeOn cratePairs (n + 5) ⟨17⟩ ⟨20⟩ (.vacant false) boxWorld).map
    fun _ => ()) = .ok () := by
  cbv

theorem keepsTo_crate : KeepsTo cratePairs ⟨17⟩ ⟨20⟩ (.vacant false) boxWorld :=
  keepsTo_of_run crate_run (by decide +kernel)

/-- `Crate` conforms to the bounded trait, as its parameter bears the name of the bounded one. -/
theorem isSubType_bounded_trait_crate : boxWorld.Built ∧ Builtin.isTrait ⟨13⟩ ∧
    boxWorld.shape? ⟨19⟩ = some (.named .noPrefix ⟨13⟩) ∧ boxWorld.Refines ⟨13⟩ [("$hk0", ⟨18⟩)] ⟨20⟩ ∧
    boxWorld.Has ⟨17⟩ ∧ boxWorld.ReturnsFit false ⟨17⟩ ⟨19⟩ true ∧
    World.MembersFit false boxWorld ⟨17⟩ [("$hk0", ⟨18⟩)] ∧ boxWorld.Founded ∧ Confined false boxWorld ⟨17⟩ ⟨20⟩ ∧
    boxWorld.Returns false ⟨17⟩ ⟨20⟩ true ∧ boxWorld.IsConstructor ⟨13⟩ ⟨17⟩ ∧
    ∃ s, ReflTransGen boxWorld.Unwraps ⟨17⟩ s ∧ boxWorld.MemberFits (Conforms false) s "$hk0" ⟨18⟩ := by
  have hw := boxWorld_built
  obtain ⟨htrait, hx, hu⟩ := boxWorld_trait
  have ht : boxWorld.Has ⟨17⟩ := by decide
  have hfits : boxWorld.ReturnsFit false ⟨17⟩ ⟨19⟩ true := World.returnsFit_of_run 12 (by decide)
  have hmembers : World.MembersFit false boxWorld ⟨17⟩ [("$hk0", ⟨18⟩)] := by
    intro r hr _
    obtain rfl := List.mem_singleton.1 hr
    have hmember : ((Ty.member ⟨17⟩ "$hk0" boxWorld).toOption.map (·.1)) = some ⟨18⟩ := by decide
    obtain ⟨⟨i, v⟩, hm, rfl⟩ := exists_of_map hmember
    exact ⟨⟨18⟩, v, hm, .refl (by decide)⟩
  have hfounded : boxWorld.Founded := World.founded_of_orderly (by decide +kernel)
  have hconfined : Confined false boxWorld ⟨17⟩ ⟨20⟩ :=
    ⟨.vacant false, cratePairs, Comparer.atRest_vacant _, rfl, by decide, keepsTo_crate⟩
  have hconstructor : boxWorld.IsConstructor ⟨13⟩ ⟨17⟩ :=
    ⟨⟨17⟩, .noPrefix, ⟨47⟩, .refl, by decide, by decide, by decide, by decide, by decide⟩
  obtain ⟨hconforms, hneeds⟩ := @isSubType_bounded_trait false _ _ _ _ _ _ hw htrait hx hu ht
  have hreturns := (hconforms hfits hmembers).2 hfounded hconfined
  exact ⟨hw, htrait, hx, hu, ht, hfits, hmembers, hfounded, hconfined, hreturns, hconstructor,
    hneeds hconstructor hreturns ("$hk0", ⟨18⟩) (List.mem_singleton_self _) (by decide)⟩

/-- `Box` fits the bounded trait and conforms to the bare one, and it does not conform to the bounded one: no member of
it is called `$hk0`. -/
theorem isSubType_bounded_trait_box : boxWorld.Built ∧ Builtin.isTrait ⟨13⟩ ∧
    boxWorld.shape? ⟨16⟩ = some (.named .noPrefix ⟨45⟩) ∧ boxWorld.Refines ⟨13⟩ [("$hk0", ⟨18⟩)] ⟨20⟩ ∧
    boxWorld.ReturnsFit false ⟨16⟩ ⟨20⟩ true ∧ boxWorld.Returns false ⟨16⟩ ⟨19⟩ true ∧
    boxWorld.Returns false ⟨16⟩ ⟨20⟩ false := by
  obtain ⟨htrait, -, hu⟩ := boxWorld_trait
  exact ⟨boxWorld_built, htrait, by decide +kernel, hu, World.returnsFit_of_run 12 (by decide +kernel),
    World.returns_of_run 12 (by decide +kernel), World.returns_of_run 12 (by decide +kernel)⟩

end CompareM

end Conformance
