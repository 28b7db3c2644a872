import Conformance.Proofs.Tiers

/-!
# Calls with handles from earlier calls

A call is supplied if the types, binders and parameters that it is given were given out before; symbols may be any
(`SuppliedCall`, with what is known of the answer). What it answers was given out then, so that it can be handed on, and
the world stays in tiers (`SuppliedCall.tiered`). Builders take several calls, and a binder that is open meanwhile may be
used like any other, copied, put under inference, or substituted in, as long as there is no type of it
(`Session.SuppliedStep`).

So in whatever state calls end, every type is made of types with smaller handles, and the walks that recurse on the
structure of types without a guard come to an end (`Session.types_well_founded`).
-/

namespace Conformance

open CompareM

/-- All slots of the store were given out. -/
def World.Supplies (w : World) (S : ConstraintStore) : Prop := ∀ e ∈ S.slots.entries, ∀ t ∈ e.2, w.Has t

namespace CompareM

/-- A question about what was given out. -/
inductive SuppliedQuestion (w : World) (fuel : Nat) : CompareM Bool → Prop
  | subType {t₁ t₂ : Ty} (h₁ : w.Has t₁) (h₂ : w.Has t₂) : SuppliedQuestion w fuel (isSubType fuel t₁ t₂)
  | sameType {t₁ t₂ : Ty} (h₁ : w.Has t₁) (h₂ : w.Has t₂) : SuppliedQuestion w fuel (isSameType fuel t₁ t₂)
  | constructor {t₁ t₂ : Ty} (h₁ : w.Has t₁) (h₂ : w.Has t₂) : SuppliedQuestion w fuel (isSubTypeConstructor fuel t₁ t₂)
  | matchesType {t₁ t₂ : Ty} (simple : Bool) (h₁ : w.Has t₁) (h₂ : w.Has t₂) :
    SuppliedQuestion w fuel (matchesType fuel t₁ t₂ simple)
  | matchingParams {formals₁ formals₂ : List Ty} (foreign₁ foreign₂ : Bool) (h₁ : ∀ t ∈ formals₁, w.Has t)
    (h₂ : ∀ t ∈ formals₂, w.Has t) : SuppliedQuestion w fuel (matchingParams fuel formals₁ formals₂ foreign₁ foreign₂)
  | addConstraint {p : Param} {bound : Ty} (hp : (w.binder? p.binder).isSome) (hbound : w.Has bound) :
    SuppliedQuestion w fuel (addConstraint fuel p bound)

/-- A call of a comparer with what was given out, and what is known of the answer. -/
inductive SuppliedOperation (w : World) : {α : Type} → CompareM α → (World → α → Prop) → Prop
  | ask {fuel : Nat} {m : CompareM Bool} (hm : SuppliedQuestion w fuel m) : SuppliedOperation w m fun _ _ => True
  | track (fuel : Nat) {poly : Ty} (hpoly : w.Has poly) :
    SuppliedOperation w (track fuel poly) fun w r => ∀ t, r = .ok t → w.Has t
  | approximate (fuel : Nat) {p : Param} (fromBelow : Bool) (hp : (w.binder? p.binder).isSome) :
    SuppliedOperation w (approximate fuel p fromBelow) World.Has
  | replace (fuel : Nat) {p : Param} {inst : Ty} (hp : (w.binder? p.binder).isSome) (hinst : w.Has inst) :
    SuppliedOperation w (replace fuel p inst) World.Supplies

end CompareM

/-- A call that only adds to a world with what was given out, and what is known of the answer. -/
inductive SuppliedAddition (w : World) : {α : Type} → WorldM α → (World → α → Prop) → Prop
  -- building
  | named {pre : Ty} (s : Symbol) (hpre : w.Has pre) : SuppliedAddition w (Ty.named pre s) World.Has
  | path {pre : Ty} (s : Symbol) (hpre : w.Has pre) : SuppliedAddition w (Ty.path pre s) World.Has
  | self (cls : Symbol) : SuppliedAddition w (Ty.self cls) World.Has
  | literal (value : Literal) : SuppliedAddition w (Ty.literal value) World.Has
  | skolem {t : Ty} (ht : w.Has t) : SuppliedAddition w t.skolem World.Has
  | refined {parent info : Ty} (name : String) (hparent : w.Has parent) (hinfo : w.Has info) :
    SuppliedAddition w (Ty.refined parent name info) World.Has
  | inter {a b : Ty} (ha : w.Has a) (hb : w.Has b) : SuppliedAddition w (Ty.inter a b) World.Has
  | union {a b : Ty} (ha : w.Has a) (hb : w.Has b) : SuppliedAddition w (Ty.union a b) World.Has
  | byName {result : Ty} (hresult : w.Has result) : SuppliedAddition w (Ty.byName result) World.Has
  | bounds {lo hi : Ty} (hlo : w.Has lo) (hhi : w.Has hi) : SuppliedAddition w (Ty.bounds lo hi) World.Has
  | boundsInter {a b : Ty} (ha : w.Has a) (hb : w.Has b) : SuppliedAddition w (Ty.boundsInter a b) World.Has
  | classInfo {pre : Ty} (cls : Symbol) (hpre : w.Has pre) : SuppliedAddition w (Ty.classInfo pre cls) World.Has
  | asBounds {info : Ty} (hinfo : w.Has info) : SuppliedAddition w info.asBounds World.Has
  | paramTypes {b : BinderId} (hb : (w.binder? b).isSome) : SuppliedAddition w b.paramTypes fun w ts => ∀ t ∈ ts, w.Has t
  | paramType {b : BinderId} (i : Nat) (hb : (w.binder? b).isSome) :
    SuppliedAddition w (b.paramType i) fun w r => ∀ t, r = .ok t → w.Has t
  | simpleMethod {formals : List Ty} {result : Ty} (flags : MethodFlags) (hformals : ∀ t ∈ formals, w.Has t)
    (hresult : w.Has result) : SuppliedAddition w (simpleMethod formals result flags) World.Has
  | copy (fuel : Nat) {b : BinderId} (hb : (w.binder? b).isSome) :
    SuppliedAddition w (b.copy fuel) fun w c => (w.binder? c).isSome
  -- looking up
  | reading {α : Type} (f : World → Except Halt α) : SuppliedAddition w (WorldM.reading f) fun _ _ => True
  | infoOf {t : Ty} (ht : w.Has t) : SuppliedAddition w t.infoOf World.Has
  | upperBound {t : Ty} (ht : w.Has t) : SuppliedAddition w t.upperBound World.Has
  | underlying {t : Ty} (ht : w.Has t) : SuppliedAddition w t.underlying World.Has
  | member {t : Ty} (name : String) (ht : w.Has t) : SuppliedAddition w (t.member name) World.Has
  | baseType {t : Ty} (cls : Symbol) (ht : w.Has t) : SuppliedAddition w (t.baseType cls) World.Has
  | derivesFrom (cls base : Symbol) : SuppliedAddition w (cls.derivesFrom base) fun _ _ => True
  | isNotNull {t : Ty} (ht : w.Has t) : SuppliedAddition w t.isNotNull fun _ _ => True
  | isReferenceClass (s : Symbol) : SuppliedAddition w s.isReferenceClass fun _ _ => True
  | erasedName {t : Ty} (ht : w.Has t) : SuppliedAddition w t.erasedName fun _ _ => True
  | signature (fuel : Nat) {t : Ty} (ht : w.Has t) : SuppliedAddition w (t.signature fuel) fun _ _ => True
  -- rewriting
  | substBinder (fuel : Nat) {old new : BinderId} {t : Ty} (hold : (w.binder? old).isSome) (hnew : (w.binder? new).isSome)
    (ht : w.Has t) : SuppliedAddition w (Ty.substBinder fuel old new t) World.Has
  | substParam (fuel : Nat) {p : Param} {r t : Ty} (hp : (w.binder? p.binder).isSome) (hr : w.Has r) (ht : w.Has t) :
    SuppliedAddition w (Ty.substParam p r fuel t) World.Has
  | dropRefinements (fuel : Nat) {p : Param} {t : Ty} (hp : (w.binder? p.binder).isSome) (ht : w.Has t) :
    SuppliedAddition w (Ty.dropRefinements p fuel t) World.Has
  -- comparing
  | newStore : SuppliedAddition w ConstraintStore.new World.Supplies
  | withSlots {S : ConstraintStore} {b : BinderId} {slots : List Ty} (hS : w.Supplies S) (hb : (w.binder? b).isSome)
    (hslots : ∀ t ∈ slots, w.Has t) : SuppliedAddition w (S.withSlots b slots) World.Supplies
  | addBinder {S : ConstraintStore} {b : BinderId} (hS : w.Supplies S) (hb : (w.binder? b).isSome) :
    SuppliedAddition w (S.add b) World.Supplies
  | without {S : ConstraintStore} {p : Param} (hS : w.Supplies S) (hp : (w.binder? p.binder).isSome) :
    SuppliedAddition w (S.without p) World.Supplies
  | subst (fuel : Nat) {S : ConstraintStore} {p : Param} {r : Ty} (hS : w.Supplies S) (hp : (w.binder? p.binder).isSome)
    (hr : w.Has r) : SuppliedAddition w (S.subst fuel p r) World.Supplies
  | newComparer (options : Options) : SuppliedAddition w (Comparer.new options) fun w c => w.Supplies c.constraint
  | operation {α : Type} {m : CompareM α} {Q : World → α → Prop} (hm : SuppliedOperation w m Q) {c : Comparer}
    (hc : w.Supplies c.constraint) : SuppliedAddition w (m c) fun w r => Q w r.1 ∧ w.Supplies r.2.constraint

/-- A call with what was given out, and what is known of the answer. -/
inductive SuppliedCall (w : World) : {α : Type} → WorldM α → (World → α → Prop) → Prop
  | add {α : Type} {m : WorldM α} {Q : World → α → Prop} (hm : SuppliedAddition w m Q) : SuppliedCall w m Q
  | var {origin : Ty} (ho : w.Has origin) : SuppliedCall w (Ty.var origin) fun w r => ∀ t, r = .ok t → w.Has t
  | instantiate {var inst : Ty} (hv : w.Has var) (hi : w.Has inst) :
    SuppliedCall w (Ty.instantiate var inst) fun _ _ => True
  | request {r : Request} (hr : ∀ t ∈ r.types, w.Has t) : SuppliedCall w r.run fun _ _ => True

section

variable {w : World} {α : Type} {Q : World → α → Prop}

theorem CompareM.SuppliedQuestion.question {fuel : Nat} {m : CompareM Bool} (hm : SuppliedQuestion w fuel m) :
    Question fuel m := by
  cases hm <;> constructor

theorem CompareM.SuppliedOperation.operation {m : CompareM α} (hm : SuppliedOperation w m Q) : Operation m := by
  cases hm with
  | ask hm => exact .ask hm.question
  | _ => constructor

theorem SuppliedAddition.addition {m : WorldM α} (hm : SuppliedAddition w m Q) : Addition m := by
  cases hm with
  | operation hm => exact .operation hm.operation _
  | _ => with_reducible constructor

theorem SuppliedCall.call {m : WorldM α} (hm : SuppliedCall w m Q) : Call m := by
  cases hm with
  | add hm => exact .add hm.addition
  | var => exact .var _
  | instantiate => exact .instantiate _ _
  | request => exact .request _

end

/-! ## Supplied calls keep tiers -/

section Keeping

variable {opened : List BinderId} {w w' : World} {α : Type} {Q : World → α → Prop}

theorem CompareM.SuppliedQuestion.asks {fuel : Nat} {m : CompareM Bool} (hm : SuppliedQuestion w fuel m) :
    (World.tiers opened).Asks w m := by
  have hD := World.Tiered.rebuilds opened
  have hsub := @Domain.asks_isSubType (World.tiers opened) hD fuel
  cases hm with
  | subType h₁ h₂ => exact hsub h₁ h₂
  | sameType h₁ h₂ => exact Domain.asks_same hsub h₁ h₂
  | constructor h₁ h₂ => exact Domain.asks_conformsAsConstructor hsub h₁ h₂
  | matchesType simple h₁ h₂ => exact Domain.asks_matchesWith hsub hD simple fuel h₁ h₂
  | matchingParams foreign₁ foreign₂ h₁ h₂ => exact Domain.asks_sameParams hsub h₁ h₂ foreign₁ foreign₂
  | addConstraint hp hbound => exact Domain.asks_narrow hsub _ hbound

theorem CompareM.SuppliedOperation.compares {m : CompareM α} (hm : SuppliedOperation w m Q) :
    (World.tiers opened).Compares w Q m := by
  have hD := World.Tiered.rebuilds opened
  cases hm with
  | ask hm => exact hm.asks
  | track fuel hpoly => exact Domain.compares_track hD hpoly
  | approximate fuel fromBelow hp => exact Domain.compares_approximate hD _ fromBelow
  | replace fuel hp hinst => exact Domain.compares_replace hD _ hinst

namespace World.Tiered

theorem makes_paramTypes {b : BinderId} (hb : (w.binder? b).isSome) :
    (tiers opened).Makes w (fun w ts => ∀ t ∈ ts, w.Has t) b.paramTypes :=
  .get_bind fun _ hle _ => .mapM (fun _ _ => Domain.makes_paramType (isSome_binder?_grow hb hle)) fun hle h => Has.grow h hle

theorem makes_paramType {b : BinderId} (i : Nat) (hb : (w.binder? b).isSome) :
    (tiers opened).Makes w (fun w r => ∀ t, r = .ok t → w.Has t) (b.paramType i) := by
  intro v r v' hle hv hrun
  change (if v.arity b ≤ i then _ else _ : BuildM Ty) v = _ at hrun
  split at hrun
  · cases hrun
    exact ⟨le_rfl, hv, fun _ h => nomatch h⟩
  · obtain ⟨t, ht, rfl⟩ := lift_ok hrun
    obtain ⟨hle', hv', hhas⟩ := Domain.makes_paramType (D := tiers opened) (p := ⟨b, i⟩) (isSome_binder?_grow hb hle)
      v t v' le_rfl hv ht
    exact ⟨hle', hv', fun _ h => Except.ok.inj h ▸ hhas⟩

end World.Tiered

/-- What is added stands on what was given out, and what is answered was given out. -/
theorem SuppliedAddition.makes {m : WorldM α} (hm : SuppliedAddition w m Q) : (World.tiers opened).Makes w Q m := by
  have hD := World.Tiered.rebuilds opened
  cases hm with
  | named s hpre | path s hpre | classInfo s hpre =>
    exact World.Tiered.makes_intern (fun _ _ => trivial) (by simpa [Shape.parts, World.GivenOut] using hpre)
  | self cls => exact World.Tiered.makes_intern (fun _ _ => trivial) (by simp [Shape.parts, World.GivenOut])
  | literal value =>
    exact .of_holds fun v _ hv => World.Tiered.makes_intern (fun _ _ => trivial) fun n hn =>
      List.mem_singleton.1 hn ▸ hD.builtin value.cls hv
  | skolem ht => exact Domain.makes_skolem (D := World.tiers opened) ht
  | refined name hparent hinfo =>
    exact World.Tiered.makes_intern (fun _ _ => trivial)
      (by simpa [Shape.parts, World.GivenOut] using And.intro hparent hinfo)
  | inter ha hb => exact Domain.makes_inter (D := World.tiers opened) ha hb
  | union ha hb => exact Domain.makes_union (D := World.tiers opened) ha hb
  | byName hresult =>
    exact World.Tiered.makes_intern (fun _ _ => trivial) (by simpa [Shape.parts, World.GivenOut] using hresult)
  | bounds hlo hhi => exact Domain.makes_bounds (D := World.tiers opened) hlo hhi
  | boundsInter ha hb => exact Domain.makes_boundsInter (D := World.tiers opened) ha hb
  | asBounds hinfo => exact Domain.makes_asBounds (D := World.tiers opened) hinfo
  | paramTypes hb => exact World.Tiered.makes_paramTypes hb
  | paramType i hb => exact World.Tiered.makes_paramType i hb
  | simpleMethod flags hformals hresult => exact World.Tiered.makes_simpleMethod flags hformals hresult
  | copy fuel hb =>
    exact fun v c v' hle hv hrun => (World.Tiered.makes_copy fuel hb v c v' hle hv hrun).imp_right (.imp_right And.left)
  | reading f => exact .reading fun _ _ _ _ _ => trivial
  | infoOf ht => exact Domain.makes_infoOf (D := World.tiers opened) ht
  | upperBound ht => exact Domain.makes_upperBound (D := World.tiers opened) ht
  | underlying ht => exact Domain.makes_underlying (D := World.tiers opened) ht
  | member name ht => exact Domain.makes_member (D := World.tiers opened) ht name
  | baseType cls ht => exact Domain.makes_baseType (D := World.tiers opened) ht cls
  | derivesFrom cls base => exact Domain.makes_derivesFrom (D := World.tiers opened) trivial base
  | isNotNull ht => exact Domain.makes_isNotNull (D := World.tiers opened) ht
  | isReferenceClass s => exact Domain.makes_isReferenceClass (D := World.tiers opened) trivial
  | erasedName ht => exact Domain.makes_erasedName (D := World.tiers opened) ht
  | signature fuel ht => exact Domain.makes_signature (D := World.tiers opened) fuel ht
  | substBinder fuel _ hnew ht => exact World.Tiered.makes_substBinder fuel hnew ht
  | substParam fuel _ hr ht => exact World.Tiered.makes_substParam fuel hr ht
  | dropRefinements fuel _ ht => exact World.Tiered.makes_dropRefinements fuel ht
  | newStore => exact Domain.makes_newStore (D := World.tiers opened)
  | withSlots hS _ hslots => exact Domain.makes_withSlots (D := World.tiers opened) hS hslots
  | addBinder hS _ =>
    exact Domain.makes_add (D := World.tiers opened) hS fun v d _ hv hd t ht =>
      World.Tiered.filled hv hd t (List.mem_append_left _ ht)
  | without hS _ => exact Domain.makes_without (D := World.tiers opened) hS _
  | subst fuel hS _ hr => exact Domain.makes_subst hD hS _ hr
  | newComparer options =>
    exact .bind (Domain.makes_newStore (D := World.tiers opened)) fun _ _ _ _ hS => .pure fun _ hle => hS.grow hle
  | operation hm hc =>
    exact fun v r v' hle hv hrun => hm.compares _ v r v' hle hv (Domain.Stocks.grow hc hle) hrun

/-- Declaring keeps a world in tiers in which the types that are given were given out. -/
theorem World.Tiered.declares (opened : List BinderId) (given : List Ty) :
    Declares given fun w => w.Tiered opened ∧ ∀ t ∈ given, w.Has t where
  baseType {w w' t a} cls ht hw hrun := by
    have hhas : w.Has t := ht.elim (fun heq => heq ▸ hw.1.fixed (by decide)) (hw.2 t)
    obtain ⟨hle, hw', -⟩ := Domain.makes_baseType (D := tiers opened) hhas cls w a w' le_rfl hw.1 hrun
    exact ⟨hw', fun u hu => (hw.2 u hu).grow hle⟩
  register {w d} hw hinfo hparents _ _ := by
    refine ⟨hw.1.register (hinfo.elim (fun heq => heq ▸ hw.1.fixed (by decide)) (hw.2 _)) fun t ht => ?_, hw.2⟩
    rw [hparents] at ht
    cases ht
  setParents s _ hps hw :=
    ⟨hw.1.setParents s fun t ht => (hps t ht).elim (fun heq => heq ▸ hw.1.fixed (by decide)) (hw.2 t), hw.2⟩

/-- **A supplied call keeps the world in tiers**, and answers with what was given out. -/
theorem SuppliedCall.tiered {m : WorldM α} {a : α} (hm : SuppliedCall w m Q) (hw : w.Tiered opened)
    (hrun : m w = .ok (a, w')) : w'.Tiered opened ∧ Q w' a := by
  cases hm with
  | add hm =>
    have hmakes : (World.tiers opened).Makes w Q m := hm.makes
    obtain ⟨-, hw', hanswer⟩ := hmakes w a w' le_rfl hw hrun
    exact ⟨hw', hanswer⟩
  | @var origin ho =>
    obtain ⟨⟨e, rfl⟩, rfl⟩ | ⟨p, t, -, rfl, ht⟩ := var_cases hrun
    · exact ⟨hw, fun _ h => nomatch h⟩
    · have hmakes : (World.tiers opened).MakesTy { w with vars := w.vars.push { origin } }
          (WorldM.intern (.var ⟨w.vars.size⟩)) :=
        World.Tiered.makes_intern (fun _ _ => trivial) (by simp [Shape.parts, World.GivenOut])
      obtain ⟨-, hw', hhas⟩ := hmakes _ t w' le_rfl (hw.pushVar ho) ht
      exact ⟨hw', fun _ h => Except.ok.inj h ▸ hhas⟩
  | instantiate _ hi =>
    obtain ⟨-, rfl⟩ | ⟨v, c, -, hv, -, -, rfl⟩ := instantiate_cases hrun
    · exact ⟨hw, trivial⟩
    · exact ⟨hw.settle (Array.mem_of_getElem? hv) v.id hi, trivial⟩
  | @request r hr =>
    exact ⟨(upholds_request r (World.Tiered.declares opened r.types) w a w' ⟨hw, hr⟩ hrun).1, trivial⟩

end Keeping

/-! ## Sessions -/

/-- A builder that is refused leaves the world as it is, and one that is not gives its type out. -/
theorem World.Tiered.finish {w w' : World} {b : BinderId} {opened : List BinderId} (hw : w.Tiered (b :: opened))
    {names : List String} {check : Ty → BuildM Unit} (hcheck : ∀ t, Checks (check t)) {infos : List Ty} {result : Ty}
    (hinfos : ∀ t ∈ infos, w.Has t) (hresult : w.Has result) {answer : Except BuildError Ty}
    (hrun : b.finish names check infos result w = .ok (answer, w')) :
    w'.Tiered opened ∧ ∀ t, answer = .ok t → w'.Has t := by
  obtain ⟨⟨e, rfl⟩, rfl⟩ | ⟨-, -, t, ht, rfl⟩ := finish_cases hcheck hrun
  · exact ⟨hw.giveUp, fun _ h => nomatch h⟩
  · obtain ⟨-, hw', hhas⟩ := Domain.makes_binderType (D := World.tiers opened) (hw.givenOut_fill infos result) _ t w'
      le_rfl (hw.fill hinfos hresult) ht
    exact ⟨hw', fun _ h => Except.ok.inj h ▸ hhas⟩

namespace Session

/-- The steps of a session whose calls and builders are given what was given out before. -/
inductive SuppliedStep : Session → Session → Prop
  | call {α : Type} {m : WorldM α} {Q : World → α → Prop} {a : α} {w w' : World} {opened : List BinderId}
    (hm : SuppliedCall w m Q) (hrun : m w = .ok (a, w')) : SuppliedStep ⟨w, opened⟩ ⟨w', opened⟩
  | start (kind : BinderKind) (names : List String) {b : BinderId} {w w' : World} {opened : List BinderId}
    (hrun : WorldM.freshBinder kind names w = .ok (b, w')) : SuppliedStep ⟨w, opened⟩ ⟨w', b :: opened⟩
  | finish {infos : List Ty} {result : Ty} {b : BinderId} {d : Binder} {answer : Except BuildError Ty} {w w' : World}
    {opened : List BinderId} (hinfos : ∀ t ∈ infos, w.Has t) (hresult : w.Has result) (hd : w.binder? b = some d)
    (hrun : b.finish d.names d.kind.check infos result w = .ok (answer, w')) :
    SuppliedStep ⟨w, b :: opened⟩ ⟨w', opened⟩
  | giveUp {b : BinderId} {w : World} {opened : List BinderId} : SuppliedStep ⟨w, b :: opened⟩ ⟨w, opened⟩

/-- Any number of such steps. -/
def SuppliedRun : Session → Session → Prop := Relation.ReflTransGen SuppliedStep

variable {s s' : Session}

theorem SuppliedStep.step (h : SuppliedStep s s') : Step s s' := by
  cases h with
  | call hm hrun => exact .call hm.call hrun
  | start kind names hrun => exact .start kind names hrun
  | finish _ _ hd hrun => exact .finish _ _ hd hrun
  | giveUp => exact .giveUp

theorem SuppliedRun.run (h : SuppliedRun s s') : Run s s' :=
  Relation.ReflTransGen.mono (fun _ _ => SuppliedStep.step) _ _ h

theorem SuppliedStep.tiered (h : SuppliedStep s s') (hs : s.world.Tiered s.opened) : s'.world.Tiered s'.opened := by
  cases h with
  | call hm hrun => exact (hm.tiered hs hrun).1
  | start kind names hrun =>
    cases hrun
    exact hs.push kind names
  | @finish _ _ _ d _ _ _ _ hinfos hresult hd hrun => exact (hs.finish (checks_check d.kind) hinfos hresult hrun).1
  | giveUp => exact hs.giveUp

theorem SuppliedRun.tiered (h : SuppliedRun .initial s) : s.world.Tiered s.opened := by
  induction h with
  | refl => exact World.tiered_initial
  | tail _ hstep ih => exact hstep.tiered ih

/-- **Whatever state a session comes to is built layer by layer**, without forged handles. -/
theorem SuppliedRun.layered (h : SuppliedRun .initial s) : s.world.Layered := h.tiered.layered

/-- **Whatever state a session comes to is regular**: the operands of intersections and unions do not collapse, and what
is of a binder is of its kind. -/
theorem SuppliedRun.regular (h : SuppliedRun .initial s) : s.world.Regular := h.tiered.regular

/-- **Types are well-founded.** Whatever calls are made with handles from earlier calls, what is directly inside a type
has a smaller handle than the type itself, infos and result of a universal or method type and what a skolem stands for
included. So looking for a parameter, renaming the parameters of a binder, replacing a parameter and dropping
refinements come to an end in every type, from some allowance on with one and the same result. -/
theorem types_well_founded (h : SuppliedRun .initial s) :
    (∀ t u, u ∈ s.world.children t → u.id < t.id) ∧
      (∀ t k u, s.world.shape? t = some (.skolem k u) → u.id < t.id) ∧
      ∀ t, s.world.Has t →
        (∀ p, ∃ k m, ∀ n, k ≤ n → s.world.mentions p n t = .ok m) ∧
        (∀ old new, (s.world.binder? new).isSome → ∃ k r, ∀ n, k ≤ n → Ty.substBinder n old new t s.world = .ok r) ∧
        (∀ p u, s.world.Has u → ∃ k r, ∀ n, k ≤ n → Ty.substParam p u n t s.world = .ok r) ∧
        ∀ p, ∃ k r, ∀ n, k ≤ n → Ty.dropRefinements p n t s.world = .ok r :=
  ⟨fun _ _ => h.tiered.child_lt, fun _ _ _ ht => h.tiered.ty ht List.mem_cons_self, fun _ => h.tiered.structural_walks_end⟩

/-- The world of a method type whose result is its own parameter. -/
def identityWorld : World :=
  let w := { World.initial with binders := #[{ kind := .method {}, names := ["x"] }] }
  let w := { w with types := (w.types.intern (.valueParam ⟨⟨0⟩, 0⟩)).2 }
  let w := w.fill ⟨0⟩ [Builtin.int.type] ⟨15⟩
  { w with types := (w.types.intern (.method ⟨0⟩)).2 }

/-- A value parameter is handed out before the method type that it is the result of. -/
theorem types_well_founded_identity : ∃ s, SuppliedRun .initial s ∧
    s.world.shape? ⟨16⟩ = some (.method ⟨0⟩) ∧ s.world.children ⟨16⟩ = [Builtin.int.type, ⟨15⟩] ∧
    (∀ t u, u ∈ s.world.children t → u.id < t.id) ∧
      (∀ t k u, s.world.shape? t = some (.skolem k u) → u.id < t.id) ∧
      ∀ t, s.world.Has t →
        (∀ p, ∃ k m, ∀ n, k ≤ n → s.world.mentions p n t = .ok m) ∧
        (∀ old new, (s.world.binder? new).isSome → ∃ k r, ∀ n, k ≤ n → Ty.substBinder n old new t s.world = .ok r) ∧
        (∀ p u, s.world.Has u → ∃ k r, ∀ n, k ≤ n → Ty.substParam p u n t s.world = .ok r) ∧
        ∀ p, ∃ k r, ∀ n, k ≤ n → Ty.dropRefinements p n t s.world = .ok r := by
  let d : Binder := { kind := .method {}, names := ["x"] }
  let w₁ : World := { World.initial with binders := #[d] }
  let w₂ : World := { w₁ with types := (w₁.types.intern (.valueParam ⟨⟨0⟩, 0⟩)).2 }
  have hstart : SuppliedStep .initial ⟨w₁, [⟨0⟩]⟩ := .start (.method {}) ["x"] rfl
  have hparam : SuppliedStep ⟨w₁, [⟨0⟩]⟩ ⟨w₂, [⟨0⟩]⟩ := .call (.add (.paramType (b := ⟨0⟩) 0 rfl)) rfl
  have hinfos : ∀ t ∈ [Builtin.int.type], w₂.Has t := by decide
  have hresult : w₂.Has ⟨15⟩ := by decide
  have hbinder : w₂.binder? ⟨0⟩ = some d := rfl
  have hfinish : SuppliedStep ⟨w₂, [⟨0⟩]⟩ ⟨identityWorld, []⟩ :=
    .finish hinfos hresult hbinder rfl
  have hrun : SuppliedRun .initial ⟨identityWorld, []⟩ := .head hstart (.head hparam (.single hfinish))
  exact ⟨_, hrun, by decide, by decide, types_well_founded hrun⟩

end Session

end Conformance
