import Conformance.Proofs.Allowances
import Conformance.Proofs.FreeTraits
import Conformance.Proofs.Sinking

/-!
# Long chains

Abstract types, aliases and values can be declared one on top of the other, in a chain that is longer than walks may go.
The search for a base type gives up on such a chain, and the comparison with a class goes down link by link, sooner or
later under watch. Whatever conforms to the class at the bottom of the chain is found below it (`isSubType_chain`).

For each of its links the comparison tries other ways first, which may succeed or fail, and have to come to an end
(`ends_chain`). For a target that is no trait of type constructors they do. For a trait the bounds of the parameters are
compared as well, which comes to an end as long as the parameters of the traits are free, and need not if one was declared
with bounds (`isSubType_chain_unanswered`).
-/

namespace Conformance

open CompareM

namespace World

variable {w v : World} {below t u : Ty} {s cls : Symbol} {ss : List Symbol} {n : Nat}

/-- `t` refers to the abstract type, the alias or the value `s`, which is bounded from above by `below`, stands for it
or has it as its type. -/
inductive Link (w : World) (below : Ty) (s : Symbol) : Ty → Prop
  | bounded {t lo : Ty} (shape : w.shape? t = some (.named .noPrefix s)) (kind : w.decls.kind? s = some .abstractType)
    (ends : w.shape? (w.decls.info s) = some (.bounds lo below)) : Link w below s t
  | synonym {t : Ty} (shape : w.shape? t = some (.named .noPrefix s)) (kind : w.decls.kind? s = some .synonym)
    (stands : w.decls.info s = below) : Link w below s t
  | value {t : Ty} (shape : w.shape? t = some (.path .noPrefix s)) (kind : w.decls.kind? s = some .value)
    (type : w.decls.info s = below) : Link w below s t

/-- A chain of links from `k` up to `t`; `ss` are their symbols, the topmost first. -/
inductive Chain (w : World) (k : Ty) : List Symbol → Ty → Prop
  | nil : Chain w k [] k
  | cons {below t : Ty} {s : Symbol} {ss : List Symbol} (rest : Chain w k ss below) (link : w.Link below s t) :
    Chain w k (s :: ss) t

/-- `t` is a name of `s`. -/
def NameOf (w : World) (s : Symbol) (t : Ty) : Prop := ∃ d k, w.shape? t = some d ∧ nameParts? d = some (.noPrefix, s, k)

theorem NameOf.grow (h : w.NameOf s t) (hv : w ≤ v) : v.NameOf s t := by
  obtain ⟨d, k, hd, hparts⟩ := h
  exact ⟨d, k, hv.shape hd, hparts⟩

theorem NameOf.has (h : w.NameOf s t) : w.Has t := by
  obtain ⟨d, k, hd, -⟩ := h
  exact Option.isSome_of_eq_some hd

theorem NameOf.present (hw : w.Standard) (h : w.NameOf s t) : t.present := by
  obtain ⟨d, k, hd, hparts⟩ := h
  refine hw.present hd ?_
  rintro rfl
  cases hparts

theorem NameOf.isStable (h : w.NameOf s t) (n : Nat) : ∃ b, w.isStable (n + 1) t = .ok b := by
  obtain ⟨d, k, hd, hparts⟩ := h
  rw [World.isStable, shape_of_shape? hd]
  cases d <;> cases hparts
  · exact ⟨false, rfl⟩
  · exact ⟨_, rfl⟩

theorem nameOf_class (h : w.shape? t = some (.named .noPrefix s)) : w.NameOf s t := ⟨_, true, h, rfl⟩

namespace Link

theorem nameOf (h : w.Link below s t) : w.NameOf s t := by
  cases h with
  | bounded shape | synonym shape => exact nameOf_class shape
  | value shape => exact ⟨_, false, shape, rfl⟩

theorem not_isClass (h : w.Link below s t) : ¬ w.decls.isClass s := by
  rw [Declarations.isClass, decide_eq_true_iff]
  cases h with
  | bounded _ kind | synonym _ kind | value _ kind =>
    rw [kind]
    rintro ⟨⟩

theorem grow (h : w.Link below s t) (hv : w ≤ v) : v.Link below s t := by
  cases h with
  | bounded shape kind ends => exact .bounded (hv.shape shape) (hv.decls ▸ kind) (hv.decls ▸ hv.shape ends)
  | synonym shape kind stands => exact .synonym (hv.shape shape) (hv.decls ▸ kind) (hv.decls ▸ stands)
  | value shape kind type => exact .value (hv.shape shape) (hv.decls ▸ kind) (hv.decls ▸ type)

/-- What a link that names a type leads to is its upper end. -/
theorem upperOf (h : w.Link below s t) (ht : w.shape? t = some (.named .noPrefix s)) : w.upperOf s = below := by
  cases h with
  | bounded _ kind ends =>
    rw [World.upperOf, kind]
    dsimp only
    rw [boundsParts?_eq_some_iff.2 ends]
    rfl
  | synonym _ kind stands =>
    rw [World.upperOf, kind]
    exact stands
  | value shape => cases ht.symm.trans shape

theorem ne_class (h : w.Link below s t) (hcls : w.decls.isClass cls) : s ≠ cls := by
  rintro rfl
  exact h.not_isClass hcls

end Link

end World

namespace CompareM

/-! ## Links -/

section Links

variable {p : Place} {σ : ConstraintStore} {w v : World} {k t u below : Ty} {s c cls : Symbol} {ss : List Symbol} {n : Nat}
  {sub : Ty → Ty → CompareM Bool} {P : Prop}

/-- The rules for the source go on to what a link leads to. -/
theorem decidesIf_fourth_link (hw : w.Standard) (hlink : w.Link below s t)
    (hbelow : ∀ v, w ≤ v → DecidesIf p σ v (sub below u) P) : DecidesIf p σ w (fourth sub t u) P := by
  have hname (hshape : w.shape? t = some (.named .noPrefix s)) : DecidesIf p σ w (fourth sub t u) P := by
    refine .world_bind ?_
    rw [World.shape_of_shape? hshape]
    dsimp only
    rw [if_neg (hlink.ne_class (hw.isClass .nothing)), if_neg hlink.not_isClass]
    refine DecidesIf.orElse_last ?_ fun v hv => ?_
    · exact .ite (fun _ => ends_lift (grows_nullConforms u)) fun _ => ends_pure _
    · have hshape' := World.shape_of_shape? (hv.shape hshape)
      obtain ⟨v', hle, hrun, -⟩ := World.upperBound_run (hw.grow hv) hshape' (hv.decls ▸ hlink.not_isClass)
      rw [(hlink.grow hv).upperOf (hv.shape hshape)] at hrun
      refine Yields.bind (yields_run hrun hle) fun x σ' v₁ _ hstands => ?_
      obtain ⟨rfl, rfl, rfl⟩ := hstands
      exact hbelow _ (hv.trans hle)
  cases hlink with
  | bounded shape | synonym shape => exact hname shape
  | value shape kind type =>
    have hrun : t.underlying w = .ok (below, w) := by
      rw [Ty.underlying, get_bind_run, World.shape_of_shape? shape]
      exact congrArg (fun x => Except.ok (x, w)) type
    refine .world_bind ?_
    rw [World.shape_of_shape? shape]
    show DecidesIf p σ w (do sub (← t.underlying) u) P
    refine Yields.bind (yields_run hrun le_rfl) fun x σ' v _ hstands => ?_
    obtain ⟨rfl, rfl, rfl⟩ := hstands
    exact hbelow _ le_rfl

/-- The rules for the source say of a class at once whether they apply. -/
theorem ends_fourth_class {q : Ty} (ht : w.shape? t = some (.named q c)) (hc : w.decls.isClass c) :
    Ends p σ w (fourth sub t u) := by
  refine .world_bind ?_
  rw [World.shape_of_shape? ht]
  refine .ite (fun _ => ends_pure _) fun _ => Ends.orElse ?_ fun v hv => .ite (fun _ => ends_pure _) fun h => absurd hc h
  exact .ite (fun _ => ends_lift (grows_nullConforms u)) fun _ => ends_pure _

/-- **A name is compared with a static class as the rules for the source say**, once the other ways have failed. -/
theorem decidesIf_first_name (ht : w.NameOf s t) (hu : w.shape? u = some (.named .noPrefix cls))
    (hcls : w.decls.isClass cls) (hstatic : w.decls.isStatic cls) (hpre : Ends p σ w (sub .noPrefix .noPrefix))
    (hbase : ∀ base v, w ≤ v → v.Rooted cls (Limits.walkDepth.toNat + 1) base → Ends p σ v (sub base u))
    (htrait : Builtin.isTrait cls → ∀ v, w ≤ v → Ends p σ v (conformsAsConstructor (n + 1) sub t u))
    (hfourth : ∀ v, w ≤ v → DecidesIf p σ v (fourth sub t u) P) : DecidesIf p σ w (first (n + 1) sub t u) P := by
  obtain ⟨d, k, hd, hparts⟩ := ht
  refine decidesIf_first_parts hd hparts hu hcls hstatic hpre
    (fun v hv => ends_baseType fun base v' hv' => hbase base v' (hv.trans hv')) fun v hv => ?_
  refine decidesIf_thirdNamed (hv.shape hu) (hv.decls ▸ hcls) (fun v₁ hv₁ => ?_)
    (fun h v₁ hv₁ => htrait h v₁ (hv.trans hv₁)) fun v₁ hv₁ => hfourth v₁ (hv.trans hv₁)
  exact World.NameOf.isStable ⟨d, k, (hv.trans hv₁).shape hd, hparts⟩ n

/-! ## Chains -/

section Chains

variable {m : Nat} (hu : w.shape? u = some (.named .noPrefix cls)) (hcls : w.decls.isClass cls)
  (hstatic : w.decls.isStatic cls)
include hu hcls hstatic

/-- A name is compared with a static class to an end if the rules for the source come to one in the place below. -/
theorem ends_name (hv : w ≤ v) (ht : v.NameOf s t)
    (hp : Within (Ready σ w u cls m) (Limits.walkDepth.toNat + 3) p) (hn : Limits.walkDepth.toNat + 3 ≤ n)
    (hm : m ≤ n + 1 + p.level) (hfourth : ∀ p' v', v ≤ v' → Opens p (t, u) p' → Ends p' σ v' (fourth (isSubType n) t u)) :
    Ends p σ v (isSubType (n + 1) t u) := by
  obtain ⟨n, rfl⟩ := Nat.exists_eq_add_of_le' (show 1 ≤ n by omega)
  refine ends_isSubType hp.here.level hp.here.bounds fun p' hopens => ?_
  have hp' := hp.opens hopens
  have hlevel := hopens.level_eq
  refine (decidesIf_first_name (P := False) ht (hv.shape hu) (hv.decls ▸ hcls) (hv.decls ▸ hstatic) ?_
    (fun base v' hv' hroot => ?_) (fun htrait v' hv' => ?_) fun v' hv' => ?_).ends
  · exact (decides_self rfl).ends
  · exact ends_rooted hu hcls hstatic (hv.trans hv') hroot hp' (by omega) (by omega)
  · exact hp'.here.fits htrait v' t _ (hv.trans hv') (by omega)
  · exact (hfourth p' v' hv' hopens).decidesIf id

/-- **A chain is compared down to the class at its bottom**, and the comparison comes to an end, wherever it is asked
with room for its links. -/
theorem ends_chain (hw : w.Standard) (hk : w.shape? k = some (.named .noPrefix c)) (hc : w.decls.isClass c)
    (hchain : w.Chain k ss t) : ∀ {p : Place} {v : World} {n : Nat}, w ≤ v →
      Within (Ready σ w u cls m) (ss.length + (Limits.walkDepth.toNat + 3)) p →
        ss.length + (Limits.walkDepth.toNat + 4) ≤ n → m ≤ n + p.level → Ends p σ v (isSubType n t u) := by
  induction hchain with
  | nil =>
    intro p v n hv hp hn hm
    rw [List.length_nil, Nat.zero_add] at hp hn
    obtain ⟨n, rfl⟩ := Nat.exists_eq_add_of_le' (show 1 ≤ n by omega)
    refine ends_name hu hcls hstatic hv ((World.nameOf_class hk).grow hv) hp (by omega) hm fun p' v' hv' _ => ?_
    exact ends_fourth_class ((hv.trans hv').shape hk) ((hv.trans hv').decls ▸ hc)
  | @cons below t s ss _ hlink ih =>
    intro p v n hv hp hn hm
    rw [List.length_cons] at hp hn
    obtain ⟨n, rfl⟩ := Nat.exists_eq_add_of_le' (show 1 ≤ n by omega)
    refine ends_name hu hcls hstatic hv (hlink.nameOf.grow hv) (hp.mono (by omega)) (by omega) hm fun p' v' hv' hopens => ?_
    have hle := hv.trans hv'
    have hlevel := hopens.level_eq
    refine (decidesIf_fourth_link (P := False) (hw.grow hle) (hlink.grow hle) fun v₁ hv₁ => ?_).ends
    have hp' : Within (Ready σ w u cls m) (ss.length + (Limits.walkDepth.toNat + 3) + 1) p := hp.mono (by omega)
    exact (ih (hle.trans hv₁) (hp'.opens hopens) (by omega) (by omega)).decidesIf id

end Chains

/-- What the class at the bottom of a chain conforms to, the whole chain conforms to. -/
theorem conforms_chain {erased : Bool} (hw : w.Built) (hu : w.shape? u = some (.named .noPrefix cls))
    (hcls : w.decls.isClass cls) (hstatic : w.decls.isStatic cls) (hbelow : Conforms erased w k u) (hk : w.Has k)
    (hchain : w.Chain k ss t) : w.Has t ∧ Conforms erased w t u := by
  have hup := hbelow.present.2
  induction hchain with
  | nil => exact ⟨hk, hbelow⟩
  | @cons below t s ss _ hlink ih =>
    obtain ⟨hhas, hconf⟩ := ih
    refine ⟨hlink.nameOf.has, .step (Conforms erased) (hlink.nameOf.present hw.standard) hup (fun _ _ _ => id) ?_⟩
    have hdecides : DecidesIf (Comparer.vacant erased).place ⟨{}, 0⟩ w
        (first (Limits.walkDepth.toNat + 1) (asking (Conforms erased)) t u) True := by
      refine decidesIf_first_name hlink.nameOf hu hcls hstatic ends_asking (fun _ _ _ _ => ends_asking) (fun _ v _ => ?_)
        fun v hv => ?_
      · obtain ⟨params, hparams⟩ := v.openTypeParams_finishes t
        obtain ⟨args, hargs⟩ := v.typeArgs_finishes u
        exact ends_conformsAsConstructor_asking (hparams _ (Nat.le_refl _)) (hargs _ (Nat.le_refl _))
      · refine decidesIf_fourth_link (hw.standard.grow hv) (hlink.grow hv) fun v' hv' => ?_
        have hlater := (hw.closed.conforms_grow (hv.trans hv') hhas (Option.isSome_of_eq_some hu)).2 hconf
        exact (decides_asking hlater).decidesIf
    obtain ⟨_, c, v, hrun, -, -, rfl, -⟩ := hdecides.decides trivial (.vacant erased) ⟨rfl, rfl⟩
    exact ⟨_, c, v, hrun⟩

/-- **Long chains are not refused.** Let the class `c` conform to the static class `cls`, both named at top level, and
let a chain of abstract types, aliases and values, of any length and in any order, lead from the class up to `t`. Then
a comparison of `t` with `cls` that starts at rest with nothing under inference, whatever its threshold, never answers
false, and is back at depth zero when it answers. It does answer, with every allowance that is large enough, as long as
the counters can count that far: if `cls` is no trait of type constructors, to the bottom of the chain, whatever the
threshold; for a trait, if the traits are as they were declared at the start, also through the bounds that are compared
with their parameters. -/
theorem isSubType_chain {comparer : Comparer} (hw : w.Built) (hk : w.shape? k = some (.named .noPrefix c))
    (hc : w.decls.isClass c) (hu : w.shape? u = some (.named .noPrefix cls)) (hcls : w.decls.isClass cls)
    (hstatic : w.decls.isStatic cls) (hbelow : w.Returns comparer.options.erasedTypes k u true)
    (hchain : w.Chain k ss t) (hrest : comparer.AtRest) :
    (∀ fuel answer after v, isSubType fuel t u comparer w = .ok ((answer, after), v) →
      answer = true ∧ after.depth.depth = 0) ∧
    (Builtin.isTrait cls = false → ss.length + (Limits.walkDepth.toNat + 4) ≤ Limits.unlimited.toNat →
      ∃ n after v, (∀ fuel, n ≤ fuel → isSubType fuel t u comparer w = .ok ((true, after), v)) ∧ after.depth.depth = 0) ∧
    (Builtin.isTrait cls → w.KeepsTraits → w.decls.Parametric →
      comparer.depth.threshold.toNat + 8 * w.types.size + ss.length + 2 * (Limits.walkDepth.toNat + 5) ≤
        Limits.unlimited.toNat →
      ∃ n after v, (∀ fuel, n ≤ fuel → isSubType fuel t u comparer w = .ok ((true, after), v)) ∧ after.depth.depth = 0) := by
  have hhas := Option.isSome_of_eq_some hk
  have hhas' := Option.isSome_of_eq_some hu
  obtain ⟨ht, hconf⟩ := conforms_chain hw hu hcls hstatic ((hbelow.iff hw.closed hhas hhas').1 rfl) hhas hchain
  have hall (fuel : Nat) (answer : Bool) (after : Comparer) (v : World)
      (hrun : isSubType fuel t u comparer w = .ok ((answer, after), v)) : answer = true ∧ after.depth.depth = 0 := by
    refine ⟨(decides hw.closed ht hhas' hrest hrun).2 hconf, ?_⟩
    have hroom : comparer.depth.depth + Limits.unlimited.toNat ≤ Limits.unlimited.toNat := by rw [hrest.level, Nat.zero_add]
    have hplace := ((isSubType_transactional _ fuel t u comparer w hroom).1
      (opensAtMost_of_run hrest.level hrun)).place _ _ _ hrun
    exact (congrArg Place.level hplace).trans hrest.level
  -- an answer is true, and it is the one within every larger allowance
  have hends (n : Nat) (h : Ends comparer.place comparer.constraint w (isSubType n t u)) :
      ∃ n after v, (∀ fuel, n ≤ fuel → isSubType fuel t u comparer w = .ok ((true, after), v)) ∧ after.depth.depth = 0 := by
    obtain ⟨answer, after, v, hrun, -⟩ := h comparer ⟨rfl, rfl⟩
    obtain ⟨rfl, hdepth⟩ := hall n answer after v hrun
    exact ⟨n, after, v, fun fuel hfuel => isSubType_extends t u hfuel _ _ _ hrun, hdepth⟩
  have hlevel : comparer.place.level = 0 := hrest.level
  refine ⟨hall, fun htrait hroom => ?_, fun htrait hkept hparam hroom => ?_⟩
  · refine hends (ss.length + (Limits.walkDepth.toNat + 4)) ?_
    refine ends_chain (m := 0) hu hcls hstatic hw.standard hk hc hchain le_rfl ?_ (Nat.le_refl _) (Nat.zero_le _)
    exact ready_plain htrait hrest.bounds (by omega)
  · have hcard := w.card_extremes_le
    have hreach : comparer.place.reach w.extremes ≤ comparer.depth.threshold.toNat + 8 * w.types.size := by
      have hfewer := Finset.card_le_card (Finset.sdiff_subset (s := w.extremes) (t := comparer.place.pending.toFinset))
      rw [Place.reach, hlevel, Nat.zero_max]
      show comparer.depth.threshold.toNat + _ ≤ _
      omega
    refine hends (comparer.depth.threshold.toNat + 8 * w.types.size + ss.length + 2 * (Limits.walkDepth.toNat + 5)) ?_
    refine ends_chain hu hcls hstatic hw.standard hk hc hchain le_rfl ?_ (by omega) (Nat.le_add_right _ _)
    exact ready_free hw hkept hparam hrest.store htrait hu hcls hrest.bounds (by omega) hroom

/-- `class Box[A]`, at `15`, `type F = Box`, at `16`, `type G <: F`, at `18`, and `x : G`, at `19`; `Lambda$I` at `20`. -/
def stackedWorld : World :=
  let w := [.named .noPrefix ⟨44⟩, .named .noPrefix ⟨46⟩, .bounds Builtin.nothing.type ⟨16⟩, .named .noPrefix ⟨47⟩,
    .path .noPrefix ⟨48⟩, .named .noPrefix ⟨11⟩].foldl
      (fun (w : World) d => { w with types := (w.types.intern d).2 }) World.initial
  [{ kind := .cls, name := "Box", owner := .absent, flags := { static := true }, parents := [Builtin.object.type] },
    { kind := .typeParam, name := "A", owner := ⟨44⟩, info := ⟨14⟩ },
    { kind := .synonym, name := "F", owner := .absent, flags := { static := true }, info := ⟨15⟩ },
    { kind := .abstractType, name := "G", owner := .absent, flags := { static := true }, info := ⟨17⟩ },
    { kind := .value, name := "x", owner := .absent, flags := { static := true }, info := ⟨18⟩ }].foldl
      (fun (w : World) d => { w with decls := (w.decls.register d).2 }) w

theorem stackedWorld_built : stackedWorld.Built := by
  have h₁ := World.Built.initial.intern (.named .noPrefix ⟨44⟩) (World.mentions_named (by decide) _)
  have h₂ := h₁.intern (.named .noPrefix ⟨46⟩) (World.mentions_named (by decide) _)
  have h₃ := h₂.intern (.bounds Builtin.nothing.type ⟨16⟩) (World.mentions_bounds (by decide) (by decide))
  have h₄ := h₃.intern (.named .noPrefix ⟨47⟩) (World.mentions_named (by decide) _)
  have h₅ := h₄.intern (.path .noPrefix ⟨48⟩) (World.mentions_path (by decide) _)
  have h₆ := h₅.intern (.named .noPrefix ⟨11⟩) (World.mentions_named (by decide) _)
  have h₇ := h₆.register { kind := .cls, name := "Box", owner := .absent, flags := { static := true },
                           parents := [Builtin.object.type] } (by decide) (by decide)
  have h₈ := h₇.register { kind := .typeParam, name := "A", owner := ⟨44⟩, info := ⟨14⟩ } (by decide)
    (by decide)
  have h₉ := h₈.register { kind := .synonym, name := "F", owner := .absent, flags := { static := true }, info := ⟨15⟩ }
    (by decide) (by decide)
  have h₁₀ := h₉.register { kind := .abstractType, name := "G", owner := .absent, flags := { static := true },
                            info := ⟨17⟩ } (by decide) (by decide)
  exact h₁₀.register { kind := .value, name := "x", owner := .absent, flags := { static := true }, info := ⟨18⟩ }
    (by decide) (by decide)

theorem stackedWorld_chain : stackedWorld.Chain ⟨15⟩ [⟨48⟩, ⟨47⟩, ⟨46⟩] ⟨19⟩ :=
  .cons (.cons (.cons .nil (.synonym (t := ⟨16⟩) rfl rfl rfl)) (.bounded (t := ⟨18⟩) rfl rfl rfl)) (.value rfl rfl rfl)

theorem stackedWorld_keepsTraits : stackedWorld.KeepsTraits where
  parents := by decide
  typeParams := by decide
  members := Declarations.member?_of_empty (by decide)
  free cls p htrait hp := by
    have hall : ∀ t ∈ Builtin.traits, ∀ p ∈ stackedWorld.decls.typeParams t.2,
        stackedWorld.shape? (stackedWorld.decls.info p) = some (.bounds Builtin.nothing.type Builtin.any.type) := by
      decide
    obtain ⟨t, ht, heq⟩ := List.any_eq_true.1 htrait
    obtain rfl := of_decide_eq_true heq
    exact hall t ht p hp

theorem stackedWorld_parametric : stackedWorld.decls.Parametric :=
  Declarations.parametric_of_declared (by decide)

/-- A value of an abstract type below an alias of a class conforms to `Object` and to `Lambda$I`, as the class does; from
the second link on the comparison is watched. -/
theorem isSubType_chain_stacked : stackedWorld.Built ∧ stackedWorld.shape? ⟨15⟩ = some (.named .noPrefix ⟨44⟩) ∧
    stackedWorld.decls.isClass ⟨44⟩ ∧ stackedWorld.Chain ⟨15⟩ [⟨48⟩, ⟨47⟩, ⟨46⟩] ⟨19⟩ ∧ circularComparer.AtRest ∧
    (stackedWorld.shape? Builtin.object.type = some (.named .noPrefix Builtin.object.symbol) ∧
      stackedWorld.decls.isClass Builtin.object.symbol ∧ stackedWorld.decls.isStatic Builtin.object.symbol ∧
      stackedWorld.Returns false ⟨15⟩ Builtin.object.type true ∧ Builtin.isTrait Builtin.object.symbol = false ∧
      71 ≤ Limits.unlimited.toNat ∧ ∃ n after v, (∀ fuel, n ≤ fuel →
        isSubType fuel ⟨19⟩ Builtin.object.type circularComparer stackedWorld = .ok ((true, after), v)) ∧
          after.depth.depth = 0) ∧
    (stackedWorld.shape? ⟨20⟩ = some (.named .noPrefix ⟨11⟩) ∧ stackedWorld.decls.isClass ⟨11⟩ ∧
      stackedWorld.decls.isStatic ⟨11⟩ ∧ stackedWorld.Returns false ⟨15⟩ ⟨20⟩ true ∧ Builtin.isTrait ⟨11⟩ ∧
      stackedWorld.KeepsTraits ∧ stackedWorld.decls.Parametric ∧
      circularComparer.depth.threshold.toNat + 8 * stackedWorld.types.size + 3 + 2 * (Limits.walkDepth.toNat + 5) ≤
        Limits.unlimited.toNat ∧ ∃ n after v, (∀ fuel, n ≤ fuel →
        isSubType fuel ⟨19⟩ ⟨20⟩ circularComparer stackedWorld = .ok ((true, after), v)) ∧ after.depth.depth = 0) := by
  have hw := stackedWorld_built
  have hk : stackedWorld.shape? ⟨15⟩ = some (.named .noPrefix ⟨44⟩) := rfl
  have hc : stackedWorld.decls.isClass ⟨44⟩ := by decide
  have hrest : circularComparer.AtRest := ⟨rfl, rfl, rfl, rfl, rfl⟩
  have hroom : 71 ≤ Limits.unlimited.toNat := by decide
  have hobject := hw.standard.shape .object
  have hobjectCls := hw.standard.isClass .object
  have hobjectStatic := hw.standard.isStatic .object
  have hreturns : stackedWorld.Returns false ⟨15⟩ Builtin.object.type true :=
    World.returns_of_run 12 (by decide)
  have hplain : Builtin.isTrait Builtin.object.symbol = false := by decide
  obtain ⟨-, hends, -⟩ := isSubType_chain hw hk hc hobject hobjectCls hobjectStatic hreturns stackedWorld_chain hrest
  have htrait : stackedWorld.shape? ⟨20⟩ = some (.named .noPrefix ⟨11⟩) := rfl
  have htraitCls : stackedWorld.decls.isClass ⟨11⟩ := by decide
  have htraitStatic : stackedWorld.decls.isStatic ⟨11⟩ := by decide
  have hisTrait : Builtin.isTrait ⟨11⟩ := by decide
  have hreturns' : stackedWorld.Returns false ⟨15⟩ ⟨20⟩ true := World.returns_of_run 12 (by decide)
  have hroom' : circularComparer.depth.threshold.toNat + 8 * stackedWorld.types.size + 3 +
      2 * (Limits.walkDepth.toNat + 5) ≤ Limits.unlimited.toNat := by
    decide
  obtain ⟨-, -, hends'⟩ := isSubType_chain hw hk hc htrait htraitCls htraitStatic hreturns' stackedWorld_chain hrest
  exact ⟨hw, hk, hc, stackedWorld_chain, hrest,
    ⟨hobject, hobjectCls, hobjectStatic, hreturns, hplain, hroom, hends hplain hroom⟩,
    ⟨htrait, htraitCls, htraitStatic, hreturns', hisTrait, stackedWorld_keepsTraits, stackedWorld_parametric, hroom',
      hends' hisTrait stackedWorld_keepsTraits stackedWorld_parametric hroom'⟩⟩

end Links

/-! ## A trait that was given a parameter -/

section Spirals

open World

/-- An abstract type `A >: [X >: [Z >: A]X]Any`, at `15`, and `Lambda$I`, at `24`, which was given a parameter
`Q >: [Z >: A]Any`. -/
def spiralBase : World :=
  let w := [["X"], ["Z"], ["Z"]].foldl (fun (w : World) names =>
    { w with binders := w.binders.push { kind := .universal, names } }) World.initial
  let w := [.named .noPrefix ⟨44⟩, .bounds ⟨15⟩ Builtin.any.type, .param ⟨⟨0⟩, 0⟩, .universal ⟨1⟩,
    .bounds ⟨18⟩ Builtin.any.type, .universal ⟨0⟩, .bounds ⟨20⟩ Builtin.any.type, .universal ⟨2⟩,
    .bounds ⟨22⟩ Builtin.any.type, .named .noPrefix ⟨11⟩].foldl
      (fun (w : World) d => { w with types := (w.types.intern d).2 }) w
  let w := [(0, ⟨19⟩, Builtin.any.type), (1, ⟨16⟩, ⟨17⟩), (2, ⟨16⟩, Builtin.any.type)].foldl
    (fun (w : World) (b, info, result) =>
      { w with binders := w.binders.modify b fun d => { d with infos := [info], result } }) w
  [{ kind := .abstractType, name := "A", owner := .absent, info := ⟨21⟩ },
    { kind := .typeParam, name := "Q", owner := ⟨11⟩, info := ⟨23⟩ }].foldl
      (fun (w : World) d => { w with decls := (w.decls.register d).2 }) w

/-- Classes below the trait, each below the one before, at `25` and above. -/
def spiralClasses : Nat → World
  | 0 => spiralBase
  | i + 1 =>
    let w := spiralClasses i
    let w := { w with decls := (w.decls.register { kind := .cls, name := "C", owner := .absent, flags := { static := true },
                                                   parents := [⟨24 + i⟩] }).2 }
    { w with types := (w.types.intern (.named .noPrefix ⟨46 + i⟩)).2 }

/-- Two parameters of the last class, `P` and `R >: A`, and an alias of it. -/
def withAlias (w : World) : World :=
  let w := [{ kind := .typeParam, name := "P", owner := ⟨108⟩, info := ⟨14⟩ },
    { kind := .typeParam, name := "R", owner := ⟨108⟩, info := ⟨16⟩ },
    { kind := .synonym, name := "T", owner := .absent, flags := { static := true }, info := ⟨87⟩ }].foldl
      (fun (w : World) d => { w with decls := (w.decls.register d).2 }) w
  { w with types := (w.types.intern (.named .noPrefix ⟨111⟩)).2 }

/-- The trait is the last but one on the way from the last class, at `87`, that a search takes; from the alias, at `88`, it
is out of reach. -/
def spiralWorld : World := withAlias (spiralClasses 63)

theorem spiralBase_built : spiralBase.Built := by
  have h₁ := ((World.Built.initial.binder .universal ["X"]).binder .universal ["Z"]).binder .universal ["Z"]
  have h₂ := h₁.intern (.named .noPrefix ⟨44⟩) (World.mentions_named (by decide) _)
  have h₃ := h₂.intern (.bounds ⟨15⟩ Builtin.any.type) (World.mentions_bounds (by decide) (by decide))
  have h₄ := h₃.intern (.param ⟨⟨0⟩, 0⟩) (World.mentions_param (by decide) _)
  have h₅ := h₄.intern (.universal ⟨1⟩) (World.mentions_universal (by decide))
  have h₆ := h₅.intern (.bounds ⟨18⟩ Builtin.any.type) (World.mentions_bounds (by decide) (by decide))
  have h₇ := h₆.intern (.universal ⟨0⟩) (World.mentions_universal (by decide))
  have h₈ := h₇.intern (.bounds ⟨20⟩ Builtin.any.type) (World.mentions_bounds (by decide) (by decide))
  have h₉ := h₈.intern (.universal ⟨2⟩) (World.mentions_universal (by decide))
  have h₁₀ := h₉.intern (.bounds ⟨22⟩ Builtin.any.type) (World.mentions_bounds (by decide) (by decide))
  have h₁₁ := h₁₀.intern (.named .noPrefix ⟨11⟩) (World.mentions_named (by decide) _)
  have h₁₂ := h₁₁.fill ⟨0⟩ [⟨19⟩] Builtin.any.type (by decide) (by decide)
  have h₁₃ := h₁₂.fill ⟨1⟩ [⟨16⟩] ⟨17⟩ (by decide) (by decide)
  have h₁₄ := h₁₃.fill ⟨2⟩ [⟨16⟩] Builtin.any.type (by decide) (by decide)
  have h₁₅ := h₁₄.register { kind := .abstractType, name := "A", owner := .absent, info := ⟨21⟩ } (by decide)
    (by decide)
  exact h₁₅.register { kind := .typeParam, name := "Q", owner := ⟨11⟩, info := ⟨23⟩ } (by decide)
    (by decide)

/-- What the comparison of the alias with the trait reads: no base type, and two parameters, as members of an opaque
instance of the alias. -/
def spiralReads : WorldM (List Ty × List Symbol × List Ty) := do
  let base ← Ty.baseType ⟨88⟩ ⟨11⟩
  let _ ← Ty.infoOf ⟨24⟩
  let params ← WorldM.reading (·.openTypeParams 65 ⟨88⟩)
  let args ← WorldM.reading (·.typeArgs 65 ⟨24⟩)
  let instance₁ ← Ty.skolem ⟨88⟩
  let first ← Ty.member instance₁ "P"
  let second ← Ty.member instance₁ "R"
  return ([base, first, second], params, args)

/-- What the types and the binders of the spiral stand for. -/
def Spirals (w : World) : Prop :=
  (w.shape? ⟨15⟩ = some (.named .noPrefix ⟨44⟩) ∧ w.shape? ⟨16⟩ = some (.bounds ⟨15⟩ Builtin.any.type) ∧
    w.shape? ⟨17⟩ = some (.param ⟨⟨0⟩, 0⟩) ∧ w.shape? ⟨18⟩ = some (.universal ⟨1⟩) ∧
    w.shape? ⟨19⟩ = some (.bounds ⟨18⟩ Builtin.any.type) ∧ w.shape? ⟨20⟩ = some (.universal ⟨0⟩) ∧
    w.shape? ⟨21⟩ = some (.bounds ⟨20⟩ Builtin.any.type) ∧ w.shape? ⟨22⟩ = some (.universal ⟨2⟩) ∧
    w.shape? ⟨23⟩ = some (.bounds ⟨22⟩ Builtin.any.type)) ∧
  (w.binder? ⟨0⟩ = some { kind := .universal, names := ["X"], infos := [⟨19⟩], result := Builtin.any.type } ∧
    w.binder? ⟨1⟩ = some { kind := .universal, names := ["Z"], infos := [⟨16⟩], result := ⟨17⟩ } ∧
    w.binder? ⟨2⟩ = some { kind := .universal, names := ["Z"], infos := [⟨16⟩], result := Builtin.any.type }) ∧
  w.decls.kind? ⟨44⟩ = some .abstractType ∧ w.decls.info ⟨44⟩ = ⟨21⟩ ∧
  ∀ t ∈ [(⟨16⟩ : Ty), ⟨15⟩, Builtin.any.type, .noPrefix], (w.shape? t).isSome ∧ (w.shape t).isAtom = false ∧
    ∀ u ∈ w.children t, u ∈ [(⟨16⟩ : Ty), ⟨15⟩, Builtin.any.type, .noPrefix]

/-- What the trait, the class and its alias stand for. -/
def Compares (w : World) : Prop :=
  (w.shape? ⟨14⟩ = some (.bounds Builtin.nothing.type Builtin.any.type) ∧ w.shape? ⟨24⟩ = some (.named .noPrefix ⟨11⟩) ∧
    w.shape? ⟨87⟩ = some (.named .noPrefix ⟨108⟩) ∧ w.shape? ⟨88⟩ = some (.named .noPrefix ⟨111⟩)) ∧
  w.decls.isClass ⟨11⟩ ∧ w.decls.isStatic ⟨11⟩ ∧ w.decls.isClass ⟨108⟩ ∧ w.decls.kind? ⟨111⟩ = some .synonym ∧
  w.decls.info ⟨111⟩ = ⟨87⟩ ∧ w.decls.name ⟨111⟩ ≠ w.decls.name ⟨11⟩ ∧ w.decls.name ⟨109⟩ = "P" ∧ w.decls.name ⟨110⟩ = "R"

instance : DecidablePred Spirals := fun _ => inferInstanceAs (Decidable (_ ∧ _))

instance : DecidablePred Compares := fun _ => inferInstanceAs (Decidable (_ ∧ _))

/-- The answers to these readings, with the world that they leave. -/
def spiralRun : { r : (List Ty × List Symbol × List Ty) × World // (spiralReads spiralWorld).toOption = some r ∧
    decide (r.1 = ([.noType, ⟨14⟩, ⟨16⟩], [⟨109⟩, ⟨110⟩], [⟨14⟩, ⟨23⟩]) ∧ Spirals spiralWorld ∧ Compares spiralWorld ∧
      (isSubType 12 ⟨87⟩ ⟨24⟩ (.vacant false) spiralWorld).toOption.map (·.1.1) = some true ∧
      ((∀ i < 63, (spiralClasses i).Has ⟨24 + i⟩) ∧ (spiralClasses 63).Has ⟨14⟩ ∧ (spiralClasses 63).Has ⟨16⟩ ∧
        (spiralClasses 63).Has ⟨87⟩)) = true } :=
  passing (by decide +kernel)

theorem spiralWorld_spirals : Spirals spiralWorld := (of_decide_eq_true spiralRun.2.2).2.1

theorem spiralWorld_compares : Compares spiralWorld := (of_decide_eq_true spiralRun.2.2).2.2.1

theorem spiralClasses_built : ∀ n ≤ 63, (spiralClasses n).Built := by
  obtain ⟨-, -, -, -, hhas, -⟩ := of_decide_eq_true spiralRun.2.2
  intro n hn
  induction n with
  | zero => exact spiralBase_built
  | succ n ih =>
    have hbuilt := ih (by omega)
    have hparents : ∀ t ∈ [(⟨24 + n⟩ : Ty)], (spiralClasses n).Has t := by
      intro t ht
      rw [List.mem_singleton.1 ht]
      exact hhas n (by omega)
    have hnext := hbuilt.register { kind := .cls, name := "C", owner := .absent, flags := { static := true },
                                    parents := [⟨24 + n⟩] } (Option.isSome_of_eq_some hbuilt.standard.absent) hparents
    exact hnext.intern (.named .noPrefix ⟨46 + n⟩)
      (World.mentions_named (Option.isSome_of_eq_some hnext.shape_noPrefix) _)

theorem World.Built.withAlias {w : World} (hw : w.Built) (hfree : w.Has ⟨14⟩) (hspan : w.Has ⟨16⟩) (hcls : w.Has ⟨87⟩) :
    (withAlias w).Built := by
  have h₁ := hw.register { kind := .typeParam, name := "P", owner := ⟨108⟩, info := ⟨14⟩ } hfree nofun
  have h₂ := h₁.register { kind := .typeParam, name := "R", owner := ⟨108⟩, info := ⟨16⟩ } hspan nofun
  have h₃ := h₂.register { kind := .synonym, name := "T", owner := .absent, flags := { static := true }, info := ⟨87⟩ }
    hcls nofun
  exact h₃.intern (.named .noPrefix ⟨111⟩) (World.mentions_named (Option.isSome_of_eq_some h₃.shape_noPrefix) _)

theorem spiralWorld_built : spiralWorld.Built := by
  obtain ⟨-, -, -, -, -, hfree, hspan, hcls⟩ := of_decide_eq_true spiralRun.2.2
  exact World.Built.withAlias (spiralClasses_built 63 (Nat.le_refl _)) hfree hspan hcls

/-- The bounds `>: A` mention no parameters. -/
theorem spiralWorld_clear {b : BinderId} {t : Ty} (ht : t ∈ [(⟨16⟩ : Ty), ⟨15⟩, Builtin.any.type, .noPrefix]) :
    spiralWorld.Clear true (·.IsParamOf b) t := by
  obtain ⟨-, -, -, -, hparts⟩ := spiralWorld_spirals
  refine .of_kept (X := (· ∈ [(⟨16⟩ : Ty), ⟨15⟩, Builtin.any.type, .noPrefix])) (fun t ht => ?_) ht
  obtain ⟨hhas, hatom, hchildren⟩ := hparts t ht
  refine ⟨⟨spiralWorld_built.closed.known hhas, ?_⟩, fun u hu => hchildren u (by rwa [World.inside_true] at hu)⟩
  rintro ⟨i, hparam | hparam⟩ <;> rw [hparam] at hatom <;> cases hatom

/-- `A` has the lower end `[X >: [Z >: A]X]Any`. -/
def spiral : spiralWorld.Spiral where
  ref := ⟨15⟩
  pre := .noPrefix
  symbol := ⟨44⟩
  lower := ⟨20⟩
  upper := Builtin.any.type
  span := ⟨16⟩
  inner := ⟨18⟩
  bound := ⟨19⟩
  param := ⟨17⟩
  outerBinder := ⟨0⟩
  innerBinder := ⟨1⟩
  outer := { kind := .universal, names := ["X"], infos := [⟨19⟩], result := Builtin.any.type }
  innerName := "Z"
  result := .named .noPrefix Builtin.any.symbol
  ref_shape := spiralWorld_spirals.1.1
  kind := spiralWorld_spirals.2.2.1
  info := by
    obtain ⟨⟨-, -, -, -, -, -, hends, -⟩, -, -, hinfo, -⟩ := spiralWorld_spirals
    exact (congrArg spiralWorld.shape? hinfo).trans hends
  lower_shape := have ⟨⟨_, _, _, _, _, h, _⟩, _⟩ := spiralWorld_spirals; h
  outer_binder := spiralWorld_spirals.2.1.1
  outer_arity := rfl
  outer_infos := rfl
  outer_result := spiralWorld_built.standard.shape .any
  result_plain := rfl
  bound_shape := have ⟨⟨_, _, _, _, h, _⟩, _⟩ := spiralWorld_spirals; h
  inner_shape := have ⟨⟨_, _, _, h, _⟩, _⟩ := spiralWorld_spirals; h
  inner_binder := spiralWorld_spirals.2.1.2.1
  param_shape := have ⟨⟨_, _, h, _⟩, _⟩ := spiralWorld_spirals; h
  span_shape := spiralWorld_spirals.1.2.1
  span_clear _ _ := spiralWorld_clear List.mem_cons_self
  any_clear := spiralWorld_clear (by simp)

/-- The alias is compared with the trait by their parameters, and the second ones are compared without end. -/
theorem first_spiral {n : Nat} {c : Comparer} (hc : Stands (·.slots.entries = []) (Comparer.vacant false).place.sunk c)
    (r : (Bool × Comparer) × World) : first n (isSubType n) ⟨88⟩ ⟨24⟩ c spiralWorld ≠ .ok r := by
  have hw := spiralWorld_built.standard
  obtain ⟨⟨-, -, -, -, -, -, -, hshape, hgiven⟩, ⟨-, -, hbinder⟩, -⟩ := spiralWorld_spirals
  obtain ⟨⟨hfree, hu, -, ht⟩, hcls, -, -, -, -, hname, hP, hR⟩ := spiralWorld_compares
  have hturn : spiral.Turn spiralWorld ⟨2⟩ ⟨22⟩ := ⟨hshape, by decide, "Z", _, _, hbinder, hw.shape .any, rfl⟩
  have hsteady : (Comparer.vacant false).place.sunk.Steady := ⟨rfl, rfl, by decide, .inl ⟨rfl, by decide⟩⟩
  obtain ⟨s, hsome, hcheck⟩ := spiralRun
  obtain ⟨hs, -⟩ := of_decide_eq_true hcheck
  obtain ⟨s', hrun, rfl⟩ := exists_of_map (f := id) (Option.map_id_apply.trans hsome)
  obtain ⟨base, v₁, hbase, hrun₁⟩ := bind_ok hrun
  obtain ⟨info, v₂, hinfo, hrun₂⟩ := bind_ok hrun₁
  obtain ⟨params, v, hread, hrun₃⟩ := bind_ok hrun₂
  obtain ⟨hparams, rfl⟩ := reading_ok hread
  obtain ⟨args, v', hread', hrun₄⟩ := bind_ok hrun₃
  obtain ⟨hargs, rfl⟩ := reading_ok hread'
  obtain ⟨sk, v₃, hskolem, hrun₅⟩ := bind_ok hrun₄
  obtain ⟨first, v₄, hfirst, hrun₆⟩ := bind_ok hrun₅
  obtain ⟨second, v₅, hsecond, hrun₇⟩ := bind_ok hrun₆
  obtain rfl : (([base, first, second], params, args), v₅) = s' := Except.ok.inj hrun₇
  obtain ⟨⟨rfl, rfl, rfl⟩, rfl, rfl⟩ : (base = .noType ∧ first = ⟨14⟩ ∧ second = ⟨16⟩) ∧ params = [⟨109⟩, ⟨110⟩] ∧
      args = [⟨14⟩, ⟨23⟩] := by simpa only [id, Prod.mk.injEq, List.cons.injEq, and_true] using hs
  have hle : spiralWorld ≤ v' := ((grows_baseType _ _).le_of_ok hbase).trans ((grows_infoOf _).le_of_ok hinfo)
  refine first_unanswered ht hu (by decide) hname hcls (by decide) hbase hinfo (fun r => ?_) r
  refine conformsAsConstructor_unanswered (h := spiral) hw hle hsteady rfl (by decide) hc hparams hargs ?_ ?_
    (hle.shape hfree) (hle.shape hgiven) (hturn.grow hle) hskolem hfirst hsecond n r
  · rw [hle.decls]
    exact hP
  · rw [hle.decls]
    exact hR

/-- The parameters of the trait have to be free. Here the class has the trait among its ancestors, so far down that the
trait is not found from the alias, and conforms to it; the comparison of the alias by the parameters of the trait, of
which one was declared with bounds, never comes to an end. -/
theorem isSubType_chain_unanswered : spiralWorld.Built ∧ spiralWorld.shape? ⟨87⟩ = some (.named .noPrefix ⟨108⟩) ∧
    spiralWorld.decls.isClass ⟨108⟩ ∧ spiralWorld.shape? ⟨24⟩ = some (.named .noPrefix ⟨11⟩) ∧
    spiralWorld.decls.isClass ⟨11⟩ ∧ spiralWorld.decls.isStatic ⟨11⟩ ∧ spiralWorld.Returns false ⟨87⟩ ⟨24⟩ true ∧
    spiralWorld.Chain ⟨87⟩ [⟨111⟩] ⟨88⟩ ∧ (Comparer.vacant false).AtRest ∧
    ∀ fuel r, isSubType fuel ⟨88⟩ ⟨24⟩ (.vacant false) spiralWorld ≠ .ok r := by
  obtain ⟨⟨-, hu, hk, ht⟩, hcls, hstatic, hc, hkind, hinfo, -⟩ := spiralWorld_compares
  obtain ⟨-, -, -, hbelow, -⟩ := of_decide_eq_true spiralRun.2.2
  refine ⟨spiralWorld_built, hk, hc, hu, hcls, hstatic, World.returns_of_run 12 hbelow,
    .cons .nil (.synonym ht hkind hinfo), Comparer.atRest_vacant _, fun fuel r hrun => ?_⟩
  obtain _ | n := fuel
  · cases hrun
  exact isSubType_unanswered rfl rfl (by decide) rfl ⟨rfl, rfl⟩ (fun _ hc => first_spiral hc) r hrun

end Spirals

end CompareM

end Conformance
