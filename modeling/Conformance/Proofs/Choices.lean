import Conformance.Proofs.StoreSubstitution

/-!
# Choosing a parameter at an end of its bounds

The end is taken without the refinements whose infos mention the parameter, and is put in the place of the parameter
everywhere. If the parameter stands in the end in infos of refinements only, then it is gone: from the choice, from the
domain, and from all bounds that are left (`Inference.approximate_eliminates`). If it stands elsewhere, as an operand of
an intersection, it stays in the choice (`Inference.approximate_mentions_operand`), and only the domain has lost it.
-/

namespace Conformance

open CompareM

namespace World

variable {w : World} {p : Param} {t : Ty}

/-- Wherever `p` stands in `t`, it stands in the info of a refinement. -/
def OnlyInInfos (w : World) (p : Param) (t : Ty) : Prop :=
  ∀ u, Relation.ReflTransGen (fun t u => u ∈ w.inside false t) t u → w.shape u ≠ .param p

theorem Clear.of_onlyInInfos (ht : w.Settled t) (h : w.OnlyInInfos p t) : w.Clear false (· = .param p) t :=
  fun u hu => ⟨(ht.outside u hu).1, h u hu⟩

end World

/-- What is left of `S` when `p` has been chosen at the end `e` of its bounds. -/
structure Eliminated (w w' : World) (p : Param) (e inst : Ty) (S S' : ConstraintStore) : Prop where
  valid : S'.Valid w'
  domain (q : Param) : q ∈ S'.domain ↔ q ∈ S.domain ∧ q ≠ p
  /-- An end that does not mention the parameter is the choice. -/
  same : w.Lacks p e → inst = e
  mentions (n : Nat) (m : Bool) : w'.mentions p n inst = .ok m → (m = false ↔ w'.Lacks p inst)
  lacks : w.OnlyInInfos p e → w'.Lacks p inst
  others : w'.Lacks p inst → ∀ q t, S'.bounds? q = some t → w'.Lacks p t

namespace CompareM

variable {w w' : World} {c c' : Comparer} {p : Param} {fuel n : Nat} {t lo hi inst : Ty} {fromBelow : Bool}

section Choosing

variable (h : c.constraint.Valid w) (ht : c.constraint.bounds? p = some t)
  (hends : w.boundsParts? t = some (lo, hi)) (hsettled : ∀ q t, c.constraint.bounds? q = some t → w.Settled t)

include hends in
theorem end_mem_children : (if fromBelow then lo else hi) ∈ w.children t := by
  rw [World.children, World.shape_of_shape? (World.boundsParts?_eq_some_iff.1 hends)]
  cases fromBelow <;> simp

include ht hends in
/-- An end is taken, and replaces the parameter. -/
theorem approximate_ends : approximate fuel p fromBelow c w = (do
    let inst ← Ty.dropRefinements p fuel (if fromBelow then lo else hi)
    let store ← c.constraint.subst fuel p inst
    return (inst, { c with constraint := store }) : WorldM (Ty × Comparer)) w := by
  rw [approximate_run, ht, Option.bind_some, hends]

include ht hends hsettled

theorem settled_end : w.Settled (if fromBelow then lo else hi) := by
  refine (hsettled p t ht).child ?_
  rw [World.inside_true]
  exact end_mem_children hends

include h

/-- A parameter that is chosen goes, with all that its refinements say of it. -/
theorem eliminated_of_run (hstd : w.Standard) (hrun : approximate fuel p fromBelow c w = .ok ((inst, c'), w')) :
    Eliminated w w' p (if fromBelow then lo else hi) inst c.constraint c'.constraint := by
  have hend : w.Settled (if fromBelow then lo else hi) := settled_end ht hends hsettled
  have hp : (w.binder? p.binder).isSome := by
    obtain ⟨slots, hslots, -⟩ := slot_of_bounds ht
    obtain ⟨d, hd, -⟩ := (h.slots? hslots).binder
    exact Option.isSome_of_eq_some hd
  rw [approximate_ends ht hends] at hrun
  generalize (if fromBelow then lo else hi) = e at hrun hend ⊢
  obtain ⟨inst, w₁, hinst, hrun⟩ := bind_ok hrun
  obtain ⟨S', w₂, hsubst, hrun⟩ := bind_ok hrun
  cases hrun
  have hle₁ : w ≤ w₁ := (grows_dropRefinements p fuel e).le_of_ok hinst
  have hle₂ : w₁ ≤ w' := (grows_subst c.constraint inst).le_of_ok hsubst
  have hvalid : c.constraint.Valid w₁ := h.grow hle₁
  have hstd₁ : w₁.Standard := hstd.grow hle₁
  have hsettled₁ : ∀ q t, c.constraint.bounds? q = some t → w₁.Settled t := fun q t ht => (hsettled q t ht).later hle₁
  have hp₁ : (w₁.binder? p.binder).isSome := by
    obtain ⟨d, hd⟩ := Option.isSome_iff_exists.1 hp
    exact Option.isSome_of_eq_some (hle₁.binder hd)
  have hothers : w.Clear true (fun d => d = .param p ∧ d ≠ .param p) e := hend.imp fun _ hd => hd.2 hd.1
  have hinst₁ : w₁.Settled inst :=
    World.clear_dropRefinements fuel (World.watches_nothing w) (hend.imp fun _ hd => hd.1) hend.outside hinst
  refine ⟨hvalid.subst hstd₁ hsubst, fun q => ConstraintStore.mem_domain_subst hvalid hstd₁ hsubst, fun hlacks => ?_,
    fun n m => World.mentions_ok n, fun honly => ?_, fun hlacks q t hq => ?_⟩
  · exact congrArg Prod.fst (World.dropRefinements_same fuel hlacks hinst)
  · exact ((World.clear_dropRefinements fuel (World.watches_param hp) hothers (.of_onlyInInfos hend honly) hinst).later
      hle₂).lacks
  · exact ConstraintStore.subst_lacks hvalid hstd₁ hp₁ hsettled₁ (.of_lacks hinst₁ (hlacks.earlier hinst₁ hle₂)) hsubst hq

/-- A choice comes to an end in finite bounds. -/
theorem total_approximate (hstd : w.Standard) (hlow : ∀ q t, c.constraint.bounds? q = some t → w.Low n t) (hfuel : n + n ≤ fuel) :
    ∃ inst c' w', approximate fuel p fromBelow c w = .ok ((inst, c'), w') ∧ w'.Low n inst := by
  have hend : w.Settled (if fromBelow then lo else hi) := settled_end ht hends hsettled
  have hlowend : w.Low n (if fromBelow then lo else hi) := by
    cases n with
    | zero => exact (hlow p t ht).elim
    | succ n => exact (hlow p t ht _ (end_mem_children hends)).succ
  rw [approximate_ends ht hends]
  generalize (if fromBelow then lo else hi) = e at hend hlowend
  obtain ⟨inst, w₁, hinst, hlowinst⟩ := World.total_dropRefinements (p := p) n (show n ≤ fuel by omega) hend hlowend
  have hle₁ : w ≤ w₁ := (grows_dropRefinements p fuel e).le_of_ok hinst
  have hinst₁ : w₁.Settled inst :=
    World.clear_dropRefinements fuel (World.watches_nothing w) (hend.imp fun _ hd => hd.1) hend.outside hinst
  obtain ⟨S', w', hsubst, -⟩ := ConstraintStore.total_subst_low (p := p) (h.grow hle₁) (hstd.grow hle₁)
    (fun q t ht => ⟨(hsettled q t ht).later hle₁, (hlow q t ht).later (hsettled q t ht) hle₁⟩) ⟨hinst₁, hlowinst⟩ hfuel
  have hle₂ : w₁ ≤ w' := (grows_subst c.constraint inst).le_of_ok hsubst
  exact ⟨inst, _, w', (bind_run hinst).trans (bind_run hsubst), hlowinst.later hinst₁ hle₂⟩

end Choosing

end CompareM

/-! ## Runs -/

namespace World

variable {w : World} {b : BinderId} {d : Binder} {names : List String} {infos : List Ty}

/-- The check of infos passes bounds. -/
theorem check_bounds (h : ∀ t ∈ infos, (w.boundsParts? t).isSome) :
    infos.forM Ty.expectBounds w = .ok (.ok ⟨⟩, w) := by
  induction infos with
  | nil => rfl
  | cons t l ih =>
    obtain ⟨ends, hends⟩ := Option.isSome_iff_exists.1 (h t List.mem_cons_self)
    have ht : t.expectBounds w = .ok (.ok ⟨⟩, w) := by
      show (if (w.boundsParts? t).isNone then throw (.notBounds t) else pure ⟨⟩ : BuildM Unit) w = _
      rw [hends]
      rfl
    show Except.bind (t.expectBounds w) _ = _
    rw [ht]
    exact ih fun u hu => h u (List.mem_cons_of_mem t hu)

/-- A universal binder is finished with as many bounds as it has names. -/
theorem finish_universal (hb : w.binder? b = some d) (hkind : d.kind = .universal) (hlength : infos.length = names.length)
    (hinfos : ∀ t ∈ infos, (w.boundsParts? t).isSome) (result : Ty) :
    b.finish names Ty.expectBounds infos result w =
      .ok (.ok (w.types.intern (.universal b)).1,
        { w.fill b infos result with types := (w.types.intern (.universal b)).2 }) := by
  show (if infos.length ≠ names.length then _ else _ : BuildM Ty) w = _
  rw [if_neg (not_not.2 hlength)]
  show Except.bind (infos.forM Ty.expectBounds w) _ = _
  rw [check_bounds hinfos]
  have hkind' : (w.fill b infos result).binderKind? b = some .universal := by
    rw [binderKind?, binder?_fill hb, if_pos rfl]
    exact congrArg some hkind
  show Except.bind (b.type (w.fill b infos result)) _ = _
  rw [binderType_run hkind']
  rfl

end World

namespace Inference

variable {s : Session} {c : Comparer} {i : Inference} {p : Param}

/-- **A parameter that is chosen is gone** from the domain of a store that was reached call by call, and all others are
still there. If it stands in the end that is chosen in infos of refinements only, then neither the choice nor any bound
that is left mentions it; and so it is whenever the choice does not mention it. Finite bounds have a choice. -/
theorem approximate_eliminates (hs : Session.Run .initial s) (hc : c.constraint.isEmpty) (h : Run ⟨s, c⟩ i)
    (hp : p ∈ i.comparer.constraint.domain)
    (hsettled : ∀ q t, i.comparer.constraint.bounds? q = some t → i.session.world.Settled t) (fromBelow : Bool)
    (fuel : Nat) :
    ∃ t lo hi, i.comparer.constraint.bounds? p = some t ∧ i.session.world.boundsParts? t = some (lo, hi) ∧
      (∀ inst c' w', approximate fuel p fromBelow i.comparer i.session.world = .ok ((inst, c'), w') →
        Eliminated i.session.world w' p (if fromBelow then lo else hi) inst i.comparer.constraint c'.constraint) ∧
      ∀ n, (∀ q t, i.comparer.constraint.bounds? q = some t → i.session.world.Low n t) → n + n ≤ fuel →
        ∃ inst c' w', approximate fuel p fromBelow i.comparer i.session.world = .ok ((inst, c'), w') ∧ w'.Low n inst := by
  have hi : i.Sound := h.sound
    ⟨hs.wellBound World.wellBound_initial, World.standard_initial.retained hs.continues.retains, .empty hc⟩
  obtain ⟨t, ht⟩ := Option.isSome_iff_exists.1 (hi.valid.mem_domain_iff.1 hp)
  obtain ⟨⟨lo, hi'⟩, hends⟩ := Option.isSome_iff_exists.1 (hi.valid.bounds? ht)
  exact ⟨t, lo, hi', ht, hends, fun inst c' w' hrun => eliminated_of_run hi.valid ht hends hsettled hi.standard hrun,
    fun n hlow hfuel => total_approximate hi.valid ht hends hsettled hi.standard hlow hfuel⟩

/-! ### Bounds that mention their own parameters -/

/-- The type `[X <: Int & X, Y <: Object{T <: Y}] X` at `22`; the bounds of `X` are at `18`, those of `Y` at `21`. -/
def ownBoundsWorld : World :=
  let w := { World.initial with binders := World.initial.binders.push { kind := .universal, names := ["X", "Y"] } }
  let w := [.param ⟨⟨0⟩, 0⟩, .param ⟨⟨0⟩, 1⟩, .inter Builtin.int.type ⟨15⟩, .bounds Builtin.nothing.type ⟨17⟩,
    .bounds Builtin.nothing.type ⟨16⟩, .refined Builtin.object.type "T" ⟨19⟩, .bounds Builtin.nothing.type ⟨20⟩].foldl
    (fun w d => { w with types := (w.types.intern d).2 }) w
  let w := { w with binders := w.binders.modify 0 fun d => { d with infos := [⟨18⟩, ⟨21⟩], result := ⟨15⟩ } }
  { w with types := (w.types.intern (.universal ⟨0⟩)).2 }

theorem ownBoundsWorld_built : ownBoundsWorld.Built := by
  have h₁ := World.Built.binder .initial .universal ["X", "Y"]
  have h₂ := h₁.intern (.param ⟨⟨0⟩, 0⟩) (World.mentions_param (by decide) _)
  have h₃ := h₂.intern (.param ⟨⟨0⟩, 1⟩) (World.mentions_param (by decide) _)
  have h₄ := h₃.intern (.inter Builtin.int.type ⟨15⟩) (.inter ⟨rfl, by decide⟩ ⟨rfl, by decide⟩)
  have h₅ := h₄.intern (.bounds Builtin.nothing.type ⟨17⟩) (World.mentions_bounds (by decide) (by decide))
  have h₆ := h₅.intern (.bounds Builtin.nothing.type ⟨16⟩) (World.mentions_bounds (by decide) (by decide))
  have h₇ := h₆.intern (.refined Builtin.object.type "T" ⟨19⟩)
    (World.mentions_refined (by decide) _ (by decide))
  have h₈ := h₇.intern (.bounds Builtin.nothing.type ⟨20⟩) (World.mentions_bounds (by decide) (by decide))
  have h₉ := h₈.fill ⟨0⟩ [⟨18⟩, ⟨21⟩] ⟨15⟩ (by decide) (by decide)
  exact h₉.intern (.universal ⟨0⟩) (World.mentions_universal (by decide))

/-- The type is built: its binder is opened, the parameters and their bounds are made, and the binder is finished. -/
theorem run_ownBoundsWorld : Session.Run .initial ⟨ownBoundsWorld, []⟩ := by
  let intern (w : World) (d : Shape) : World := { w with types := (w.types.intern d).2 }
  let w₁ : World :=
    { World.initial with binders := World.initial.binders.push { kind := .universal, names := ["X", "Y"] } }
  let w₂ := intern (intern w₁ (.param ⟨⟨0⟩, 0⟩)) (.param ⟨⟨0⟩, 1⟩)
  let w₃ := intern w₂ (.inter Builtin.int.type ⟨15⟩)
  let w₄ := intern w₃ (.bounds Builtin.nothing.type ⟨17⟩)
  let w₅ := intern w₄ (.bounds Builtin.nothing.type ⟨16⟩)
  let w₆ := intern w₅ (.refined Builtin.object.type "T" ⟨19⟩)
  let w₇ := intern w₆ (.bounds Builtin.nothing.type ⟨20⟩)
  have hintern (w : World) (d : Shape) : WorldM.intern d w = .ok ((w.types.intern d).1, intern w d) := rfl
  have hdistinct : Ty.inter Builtin.int.type ⟨15⟩ w₂ = WorldM.intern (.inter Builtin.int.type ⟨15⟩) w₂ :=
    CompareM.inter_run (by decide) (by decide) (by decide)
  have hstart : Session.Step .initial ⟨w₁, [⟨0⟩]⟩ := .start .universal ["X", "Y"] rfl
  have hparams : Session.Step ⟨w₁, [⟨0⟩]⟩ ⟨w₂, [⟨0⟩]⟩ := .call (.add (.paramTypes ⟨0⟩)) rfl
  have hinter : Session.Step ⟨w₂, [⟨0⟩]⟩ ⟨w₃, [⟨0⟩]⟩ := .call (.add (.inter Builtin.int.type ⟨15⟩)) hdistinct
  have hupper : Session.Step ⟨w₃, [⟨0⟩]⟩ ⟨w₄, [⟨0⟩]⟩ := .call (.add (.bounds Builtin.nothing.type ⟨17⟩)) (hintern w₃ _)
  have hown : Session.Step ⟨w₄, [⟨0⟩]⟩ ⟨w₅, [⟨0⟩]⟩ := .call (.add (.bounds Builtin.nothing.type ⟨16⟩)) (hintern w₄ _)
  have hrefined : Session.Step ⟨w₅, [⟨0⟩]⟩ ⟨w₆, [⟨0⟩]⟩ :=
    .call (.add (.refined Builtin.object.type "T" ⟨19⟩)) (hintern w₅ _)
  have hupper' : Session.Step ⟨w₆, [⟨0⟩]⟩ ⟨w₇, [⟨0⟩]⟩ := .call (.add (.bounds Builtin.nothing.type ⟨20⟩)) (hintern w₆ _)
  have hbinder : w₇.binder? ⟨0⟩ = some { kind := .universal, names := ["X", "Y"] } := rfl
  have hfinish : Session.Step ⟨w₇, [⟨0⟩]⟩ ⟨ownBoundsWorld, []⟩ := .finish [⟨18⟩, ⟨21⟩] ⟨15⟩ hbinder
    (World.finish_universal hbinder rfl rfl (by decide) _)
  exact .head hstart (.head hparams (.head hinter (.head hupper (.head hown (.head hrefined (.head hupper'
    (.single hfinish)))))))

/-- A comparer with nothing under inference. -/
def idle : Comparer := { SoleParam.leastComparer with constraint := ⟨{}, 0⟩ }

/-- Both parameters are under inference. -/
def ownBounds : Inference :=
  ⟨⟨{ ownBoundsWorld with snapshots := 1 }, []⟩, { idle with constraint := ⟨⟨[(⟨0⟩, [⟨18⟩, ⟨21⟩])]⟩, 0⟩ }⟩

theorem run_ownBounds : Run ⟨⟨ownBoundsWorld, []⟩, idle⟩ ownBounds := .single (.call (.track 6 ⟨22⟩) rfl)

theorem mem_of_bounds_own {q : Param} {t : Ty} (h : ownBounds.comparer.constraint.bounds? q = some t) :
    t ∈ ([⟨18⟩, ⟨21⟩] : List Ty) := by
  obtain ⟨slots, hslots, hi, -⟩ := slot_of_bounds h
  obtain ⟨-, rfl⟩ : q.binder = ⟨0⟩ ∧ slots = [⟨18⟩, ⟨21⟩] := by
    simpa [ownBounds] using InsertionMap.mem_of_find? hslots
  exact List.mem_of_getElem? hi

theorem settled_own {q : Param} {t : Ty} (h : ownBounds.comparer.constraint.bounds? q = some t) :
    ownBounds.session.world.Settled t := by
  have hclosed : ownBounds.session.world.Closed := ownBoundsWorld_built.snapshot.closed
  have hhas : ∀ t ∈ ([⟨18⟩, ⟨21⟩] : List Ty), ownBounds.session.world.Has t := by decide
  exact hclosed.settled (hhas t (mem_of_bounds_own h))

/-- `X`, whose upper bound is `Int & X`, is chosen from above: the choice is `Int & X`, and mentions `X`. -/
theorem approximate_mentions_operand : ∃ s c i p inst c' w', Session.Run .initial s ∧ c.constraint.isEmpty ∧
    Run ⟨s, c⟩ i ∧ p ∈ i.comparer.constraint.domain ∧
    (∀ q t, i.comparer.constraint.bounds? q = some t → i.session.world.Settled t) ∧
    approximate 6 p false i.comparer i.session.world = .ok ((inst, c'), w') ∧ p ∉ c'.constraint.domain ∧
    w'.mentions p 6 inst = .ok true := by
  obtain ⟨⟨⟨inst, c'⟩, w'⟩, hrun, hchecked⟩ := exists_of_map (x := approximate 6 ⟨⟨0⟩, 0⟩ false ownBounds.comparer
    ownBounds.session.world) (b := true) (f := fun r => decide (⟨⟨0⟩, 0⟩ ∉ r.1.2.constraint.domain ∧
      (r.2.mentions ⟨⟨0⟩, 0⟩ 6 r.1.1).toOption = some true)) (by decide)
  obtain ⟨hdomain, hmentions⟩ := of_decide_eq_true hchecked
  obtain ⟨m, hm, rfl⟩ : ∃ m, w'.mentions ⟨⟨0⟩, 0⟩ 6 inst = .ok m ∧ m = true :=
    exists_of_map (f := id) (by rw [Option.map_id]; exact hmentions)
  exact ⟨_, idle, ownBounds, ⟨⟨0⟩, 0⟩, inst, c', w', run_ownBoundsWorld, rfl, run_ownBounds, by decide,
    fun _ _ => settled_own, hrun, hdomain, hm⟩

/-- `Y`, whose upper bound is `Object{T <: Y}`, is chosen from above: the choice is `Object`. -/
theorem approximate_eliminates_own : ∃ s c i p, Session.Run .initial s ∧ c.constraint.isEmpty ∧ Run ⟨s, c⟩ i ∧
    p ∈ i.comparer.constraint.domain ∧
    (∀ q t, i.comparer.constraint.bounds? q = some t → i.session.world.Settled t) ∧
    ∃ e inst c' w', approximate 10 p false i.comparer i.session.world = .ok ((inst, c'), w') ∧
      Eliminated i.session.world w' p e inst i.comparer.constraint c'.constraint ∧ i.session.world.OnlyInInfos p e ∧
      ¬ i.session.world.Lacks p e ∧ w'.Lacks p inst := by
  let p : Param := ⟨⟨0⟩, 1⟩
  have hp : p ∈ ownBounds.comparer.constraint.domain := by decide
  have hlow : ∀ t ∈ ([⟨18⟩, ⟨21⟩] : List Ty), ownBounds.session.world.Low 5 t := by decide
  obtain ⟨t, lo, hi, ht, hends, hspec, htotal⟩ := approximate_eliminates run_ownBoundsWorld rfl run_ownBounds hp
    (fun _ _ => settled_own) false 10
  obtain rfl : ⟨21⟩ = t := Option.some.inj ht
  obtain ⟨rfl, rfl⟩ : Builtin.nothing.type = lo ∧ ⟨20⟩ = hi := by
    have hown : ownBounds.session.world.boundsParts? ⟨21⟩ = some (Builtin.nothing.type, ⟨20⟩) := by decide
    exact Prod.mk.inj (Option.some.inj (hown.symm.trans hends))
  obtain ⟨inst, c', w', hrun, -⟩ := htotal 5 (fun q t hq => hlow t (mem_of_bounds_own hq)) (by decide)
  have heliminated := hspec inst c' w' hrun
  have honly : ownBounds.session.world.OnlyInInfos p ⟨20⟩ := by
    let outside : List Ty := [⟨20⟩, Builtin.object.type, .noPrefix]
    have houtside : ∀ t ∈ outside, ownBounds.session.world.shape t ≠ .param p ∧
        ∀ u ∈ ownBounds.session.world.inside false t, u ∈ outside := by decide
    intro u hu
    have hmem : u ∈ outside := by
      induction hu with
      | refl => exact List.mem_cons_self
      | tail _ hu ih => exact (houtside _ ih).2 _ hu
    exact (houtside u hmem).1
  have hinfo : ⟨19⟩ ∈ ownBounds.session.world.children ⟨20⟩ := by decide
  have hown : ⟨16⟩ ∈ ownBounds.session.world.children ⟨19⟩ := by decide
  have hlacks : ¬ ownBounds.session.world.Lacks p ⟨20⟩ := fun h =>
    h ⟨16⟩ (.head hinfo (.single hown)) (by decide)
  exact ⟨_, idle, ownBounds, p, run_ownBoundsWorld, rfl, run_ownBounds, hp, fun _ _ => settled_own, ⟨20⟩, inst, c', w', hrun,
    heliminated, honly, hlacks, heliminated.lacks honly⟩

end Inference

end Conformance
