import Conformance.Proofs.BoundedWalks
import Conformance.Proofs.Derivability
import Conformance.Proofs.Sessions
import Conformance.Proofs.Trees

/-!
# Arguments of type constructors

The loop that looks for a refinement has no guard. It is described without an allowance of levels (`World.Seeks`), and
there are types where it never ends: two aliases of one another. It is entered only where the search for the symbol of
the type constructor, which has a guard, has come to a symbol; there it looks at no more types than that guard let in
(`typeArgs_end`).

The look-up of a member is a guarded recursion of its own. Started at a type with a symbol it goes the same way as the
loop, entering what the search for the symbol entered, and stops at the same refinement or at the declaration of the
type parameter in the class (`typeArgs_eq_member`).
-/

namespace Conformance

namespace World

/-! ## The loop without an allowance -/

/-- What the search for a refinement of `name` makes of `t`: the type it goes on to, or its answer. -/
def towardsRefinement (w : World) (name : String) (t : Ty) : Ty ⊕ Option Ty :=
  match w.shape t with
  | .refined parent refinedName info => if refinedName = name then .inr (some info) else .inl parent
  | .named _ s =>
    if w.decls.isSynonym s then if w.decls.info s = t then .inr none else .inl (w.decls.info s) else .inr none
  | _ => .inr none

/-- The loop that looks for a refinement of `name` goes from `t` to the answer `r`, and looks at `n` types. -/
inductive Seeks (w : World) (name : String) : Nat → Ty → Option Ty → Prop
  | stops {t r} (ht : w.towardsRefinement name t = .inr r) : Seeks w name 1 t r
  | follows {n t next r} (ht : w.towardsRefinement name t = .inl next) (hrest : Seeks w name n next r) :
      Seeks w name (n + 1) t r

variable {w : World} {name : String} {t u : Ty} {n m : Nat} {r r' : Option Ty} {s : Symbol}

theorem Seeks.unique (h : w.Seeks name n t r) (h' : w.Seeks name m t r') : n = m ∧ r = r' := by
  induction h generalizing m with
  | stops ht =>
    cases h' with
    | stops ht' => cases ht.symm.trans ht'; exact ⟨rfl, rfl⟩
    | follows ht' => cases ht.symm.trans ht'
  | follows ht _ ih =>
    cases h' with
    | stops ht' => cases ht.symm.trans ht'
    | follows ht' hrest =>
      cases ht.symm.trans ht'
      obtain ⟨rfl, rfl⟩ := ih hrest
      exact ⟨rfl, rfl⟩

theorem refinement?_succ : w.refinement? name (n + 1) t =
    match w.towardsRefinement name t with
    | .inl next => w.refinement? name n next
    | .inr r => .ok r := by
  conv_lhs => unfold refinement?
  unfold towardsRefinement
  cases w.shape t with
  | refined parent refinedName info => by_cases hname : refinedName = name <;> simp [hname, pure, Except.pure]
  | named q s =>
    by_cases hs : w.decls.isSynonym s <;> by_cases hitself : w.decls.info s = t <;> simp [hs, hitself, pure, Except.pure]
  | _ => rfl

/-- The function with an allowance of levels answers what the loop does, if the loop looks at no more types. -/
theorem refinement?_eq_ok_iff : w.refinement? name m t = .ok r ↔ ∃ n, n ≤ m ∧ w.Seeks name n t r := by
  induction m generalizing t with
  | zero =>
    refine ⟨nofun, fun ⟨n, hn, hseeks⟩ => ?_⟩
    cases hseeks <;> omega
  | succ m ih =>
    rw [refinement?_succ]
    cases ht : w.towardsRefinement name t with
    | inl next =>
      refine ih.trans ⟨fun ⟨n, hn, hseeks⟩ => ⟨n + 1, by omega, .follows ht hseeks⟩, fun ⟨n, hn, hseeks⟩ => ?_⟩
      cases hseeks with
      | stops ht' => cases ht.symm.trans ht'
      | follows ht' hrest =>
        cases ht.symm.trans ht'
        exact ⟨_, by omega, hrest⟩
    | inr r' =>
      refine ⟨fun h => ?_, fun ⟨n, hn, hseeks⟩ => ?_⟩
      · cases h
        exact ⟨1, by omega, .stops ht⟩
      · cases hseeks with
        | stops ht' => cases ht.symm.trans ht'; rfl
        | follows ht' => cases ht.symm.trans ht'

/-- Where the loop comes back to a type it never ends. -/
theorem not_seeks_of_ring (hring : Relation.TransGen (fun a b => w.towardsRefinement name a = .inl b) t t) :
    ¬ w.Seeks name n t r := by
  -- an end behind `t` would be as far from `t` as from `t` once around
  have hbehind : ∀ {u}, Relation.TransGen (fun a b => w.towardsRefinement name a = .inl b) t u →
      ∀ {n r}, w.Seeks name n t r → ∃ m, m < n ∧ w.Seeks name m u r := by
    intro u hu
    induction hu with
    | single hstep =>
      intro n r h
      cases h with
      | stops ht => cases hstep.symm.trans ht
      | follows ht hrest => cases hstep.symm.trans ht; exact ⟨_, Nat.lt_succ_self _, hrest⟩
    | tail _ hstep ih =>
      intro n r h
      obtain ⟨m, hm, hseeks⟩ := ih h
      cases hseeks with
      | stops ht => cases hstep.symm.trans ht
      | follows ht hrest => cases hstep.symm.trans ht; exact ⟨_, by omega, hrest⟩
  intro h
  obtain ⟨m, hm, hseeks⟩ := hbehind hring h
  obtain ⟨rfl, -⟩ := h.unique hseeks
  exact Nat.lt_irrefl _ hm

/-! ## The two loops -/

/-- The search for a refinement goes on to what the search for the symbol does, unless it has found one or is back at
the alias it comes from. -/
theorem towardsRefinement_of_follows (name : String) (h : w.towardsSymbol t = .inl u) :
    w.towardsRefinement name t = .inl u ∨ (∃ parent info, w.shape t = .refined parent name info ∧
      w.towardsRefinement name t = .inr (some info)) ∨ u = t ∧ w.towardsRefinement name t = .inr none := by
  unfold towardsSymbol at h
  unfold towardsRefinement
  grind

/-- Where the search for the symbol stops at one, the search for a refinement ends. -/
theorem towardsRefinement_of_stops (h : w.towardsSymbol t = .inr (some s)) : w.towardsRefinement name t = .inr none := by
  unfold towardsSymbol at h
  unfold towardsRefinement
  grind

theorem exists_seeks_of_follows {next : Ty} (h : w.towardsSymbol t = .inl next) (hrest : ∃ n r, n ≤ m ∧ w.Seeks name n next r) :
    ∃ n r, n ≤ m + 1 ∧ w.Seeks name n t r := by
  obtain ⟨n, r, hn, hseeks⟩ := hrest
  obtain ht | ⟨-, info, -, ht⟩ | ⟨-, ht⟩ := towardsRefinement_of_follows name h
  · exact ⟨n + 1, r, by omega, .follows ht hseeks⟩
  · exact ⟨1, some info, by omega, .stops ht⟩
  · exact ⟨1, none, by omega, .stops ht⟩

/-- A type that is let in is one more open type, one level down. -/
theorem stands_of_enter {g g' : Guard Ty} (h : g.enter t = (.entered, g')) :
    g'.Stands g.bounds (t :: g.openKeys) (g.depth + 1) := by
  obtain ⟨g'', he, hg''⟩ | ⟨e, g'', he, hne, -⟩ := Guard.enter_cases ⟨rfl, rfl, rfl⟩ t
  · cases h.symm.trans he
    exact hg''
  · cases h.symm.trans he
    cases hne

theorem count_of_enter {g g' : Guard Ty} (h : g.enter t = (.entered, g')) : g'.count = g.count + 1 :=
  congrArg List.length (stands_of_enter h).openKeys

/-- Where the search for the symbol comes to one, the search for a refinement ends, after no more types than were let
in on the way. -/
theorem Locates.seeks {g g' : Guard Ty} {found : Option Symbol} (h : w.Locates g t found g') (hs : found = some s)
    (name : String) : ∃ k, g'.count = g.count + k ∧ ∃ n r, n ≤ k ∧ w.Seeks name n t r := by
  induction h with
  | refused => cases hs
  | stops he ht =>
    subst hs
    exact ⟨1, count_of_enter he, 1, none, Nat.le_refl 1, .stops (towardsRefinement_of_stops ht)⟩
  | follows he ht _ ih =>
    obtain ⟨k, hk, hrest⟩ := ih hs
    exact ⟨k + 1, by rw [hk, count_of_enter he]; omega, exists_seeks_of_follows ht hrest⟩

/-- The search for the symbol is let in to no more types than the limit on depth allows. -/
theorem Locates.count_le {g g' : Guard Ty} {found : Option Symbol} (h : w.Locates g t found g') (hg : g.count = g.depth)
    (hle : g.depth ≤ g.bounds.depth.toNat) : g'.count ≤ g.bounds.depth.toNat := by
  have hentered : ∀ {g g' : Guard Ty} {t : Ty}, g.enter t = (.entered, g') → g.count = g.depth →
      g'.count = g'.depth ∧ g'.depth ≤ g.bounds.depth.toNat := by
    intro g g' t he hg
    have hcount := count_of_enter he
    have hdepth := (stands_of_enter he).depth
    have hlimit := Guard.depth_lt_of_enter he
    omega
  induction h with
  | @refused g g' t e he hne =>
    obtain ⟨g'', he', -⟩ | ⟨e', g'', he', -, hg'⟩ := Guard.enter_cases (g := g) ⟨rfl, rfl, rfl⟩ t
    · cases he.symm.trans he'
      cases hne
    · cases he.symm.trans he'
      have hcount : g'.count = g.count := congrArg List.length hg'.openKeys
      omega
  | stops he =>
    obtain ⟨hcount, hlimit⟩ := hentered he hg
    omega
  | follows he _ _ ih =>
    obtain ⟨hcount, hlimit⟩ := hentered he hg
    have hbounds := (stands_of_enter he).bounds
    exact hbounds ▸ ih hcount (hbounds ▸ hlimit)

/-- The search for the symbol of `t`, and the types that it is let in to. -/
theorem exists_locates (w : World) (t : Ty) :
    ∃ g, w.Locates { bounds := .walk } t (w.typeSymbol? t) g ∧ g.count ≤ Limits.walkDepth.toNat := by
  obtain ⟨g, hlocates⟩ := locates_typeSymbolFrom (w := w) (g := { bounds := .walk }) (t := t)
    (.inr ⟨rfl, Nat.succ_pos Limits.walkDepth.toNat, Nat.lt_succ_of_le (Nat.le_add_left ..)⟩)
  exact ⟨g, hlocates, hlocates.count_le rfl (Nat.zero_le _)⟩

/-- Where `t` has a symbol, the refinements of all names are found within the limit on depth. -/
theorem exists_refinements (hs : w.typeSymbol? t = some s) : ∃ info : String → Option Ty,
    (∀ name, ∃ n, w.Seeks name n t (info name)) ∧
      ∀ fuel, Limits.walkDepth.toNat ≤ fuel → ∀ name, w.refinement? name fuel t = .ok (info name) := by
  obtain ⟨g, hlocates, hcount⟩ := w.exists_locates t
  have hends : ∀ name, ∃ r n, n ≤ Limits.walkDepth.toNat ∧ w.Seeks name n t r := by
    intro name
    obtain ⟨k, hk, n, r, hn, hseeks⟩ := hlocates.seeks hs name
    exact ⟨r, n, by omega, hseeks⟩
  choose info n hn hseeks using hends
  exact ⟨info, fun name => ⟨n name, hseeks name⟩, fun fuel hfuel name =>
    refinement?_eq_ok_iff.2 ⟨n name, Nat.le_trans (hn name) hfuel, hseeks name⟩⟩

/-- On a ring of aliases and refinements of other names there is no symbol to be found. -/
theorem typeSymbol?_of_ring (hring : Relation.TransGen (fun a b => w.towardsRefinement name a = .inl b) t t) :
    w.typeSymbol? t = none := by
  by_contra hsome
  obtain ⟨s, hs⟩ := Option.ne_none_iff_exists'.1 hsome
  obtain ⟨g, hlocates, -⟩ := w.exists_locates t
  obtain ⟨_, -, n, r, -, hseeks⟩ := hlocates.seeks hs _
  exact not_seeks_of_ring hring hseeks

/-- **The arguments of a type come to an end in every world.** The open parameters and the arguments of `t` are the same
at every allowance from the limit on depth on, whatever the declarations say. The loop that looks for a refinement is
entered only where the search for the symbol has come to one, and then ends for every name, after no more types than
that search was let in to. -/
theorem typeArgs_end (w : World) (t : Ty) :
    (∃ params args, ∀ fuel, Limits.walkDepth.toNat ≤ fuel →
      w.openTypeParams fuel t = .ok params ∧ w.typeArgs fuel t = .ok args) ∧
    (w.typeSymbol? t = none → ∀ fuel, w.openTypeParams fuel t = .ok [] ∧ w.typeArgs fuel t = .ok []) ∧
    ∀ s, w.typeSymbol? t = some s → ∃ g, w.Locates { bounds := .walk } t (some s) g ∧
      g.count ≤ Limits.walkDepth.toNat ∧ ∀ name, ∃ n r, n ≤ g.count ∧ w.Seeks name n t r := by
  have hnone : w.typeSymbol? t = none → ∀ fuel, w.openTypeParams fuel t = .ok [] ∧ w.typeArgs fuel t = .ok [] :=
    fun hs fuel => ⟨by rw [openTypeParams, hs]; rfl, by rw [typeArgs, hs]; rfl⟩
  refine ⟨?_, hnone, fun s hs => ?_⟩
  · cases hs : w.typeSymbol? t with
    | none => exact ⟨[], [], fun fuel _ => hnone hs fuel⟩
    | some s =>
      obtain ⟨info, -, hinfo⟩ := exists_refinements hs
      exact ⟨_, _, fun fuel hfuel =>
        ⟨openTypeParams_of_refinements hs (hinfo fuel hfuel), typeArgs_of_refinements hs (hinfo fuel hfuel)⟩⟩
  · obtain ⟨g, hlocates, hcount⟩ := w.exists_locates t
    refine ⟨g, hs ▸ hlocates, hcount, fun name => ?_⟩
    obtain ⟨k, hk, n, r, hn, hseeks⟩ := hlocates.seeks hs name
    exact ⟨n, r, by omega, hseeks⟩

/-- A class `Pair`, at `15`, with the parameters `T` and `U`; `A = Pair with T = Int`, at `17`, and
`B = A with T = String`, at `19`. -/
def pairWorld : World :=
  let w := { World.initial with decls := (World.initial.decls.register
    { kind := .cls, name := "Pair", owner := .absent, flags := { static := true } }).2 }
  let w := { w with decls := w.decls.setParents ⟨44⟩ [Builtin.object.type] }
  let w := { w with decls := (w.decls.register { kind := .typeParam, name := "T", owner := ⟨44⟩, info := ⟨14⟩ }).2 }
  let w := { w with decls := (w.decls.register { kind := .typeParam, name := "U", owner := ⟨44⟩, info := ⟨14⟩ }).2 }
  let w := { w with types := (w.types.intern (.named .noPrefix ⟨44⟩)).2 }
  let w := { w with types := (w.types.intern (.refined ⟨15⟩ "T" Builtin.int.type)).2 }
  let w := { w with decls := (w.decls.register
    { kind := .synonym, name := "A", owner := .absent, flags := { static := true }, info := ⟨16⟩ }).2 }
  let w := { w with types := (w.types.intern (.named .noPrefix ⟨47⟩)).2 }
  let w := { w with types := (w.types.intern (.refined ⟨17⟩ "T" Builtin.string.type)).2 }
  let w := { w with decls := (w.decls.register
    { kind := .synonym, name := "B", owner := .absent, flags := { static := true }, info := ⟨18⟩ }).2 }
  { w with types := (w.types.intern (.named .noPrefix ⟨48⟩)).2 }

/-- Aliases `A = B with T = Int`, at `15`, and `B = A`, at `16`. -/
def knotWorld : World :=
  let w := World.initial
  let w := { w with types := (w.types.intern (.named .noPrefix ⟨44⟩)).2 }
  let w := { w with types := (w.types.intern (.named .noPrefix ⟨45⟩)).2 }
  let w := { w with types := (w.types.intern (.refined ⟨16⟩ "T" Builtin.int.type)).2 }
  let w := { w with decls := (w.decls.register { kind := .synonym, name := "A", owner := .absent, info := ⟨17⟩ }).2 }
  { w with decls := (w.decls.register { kind := .synonym, name := "B", owner := .absent, info := ⟨15⟩ }).2 }

/-- On the ring of `A` and `B` the search for a refinement of `U` would not end, and `A` has no arguments; in the world
of pairs the searches end within the five types that lead from `B` to the class. -/
theorem typeArgs_end_knot :
    (∀ n r, ¬ knotWorld.Seeks "U" n ⟨15⟩ r) ∧
    (∀ fuel, knotWorld.openTypeParams fuel ⟨15⟩ = .ok [] ∧ knotWorld.typeArgs fuel ⟨15⟩ = .ok []) ∧
    (∃ params args, ∀ fuel, Limits.walkDepth.toNat ≤ fuel →
      pairWorld.openTypeParams fuel ⟨19⟩ = .ok params ∧ pairWorld.typeArgs fuel ⟨19⟩ = .ok args) ∧
    ∃ g, pairWorld.Locates { bounds := .walk } ⟨19⟩ (some ⟨44⟩) g ∧ g.count ≤ Limits.walkDepth.toNat ∧
      ∀ name, ∃ n r, n ≤ g.count ∧ pairWorld.Seeks name n ⟨19⟩ r := by
  have hring : Relation.TransGen (fun a b => knotWorld.towardsRefinement "U" a = .inl b) ⟨15⟩ ⟨15⟩ :=
    .tail (.tail (.single (b := ⟨17⟩) (by decide)) (c := ⟨16⟩) (by decide)) (by decide)
  obtain ⟨-, hnone, -⟩ := typeArgs_end knotWorld ⟨15⟩
  obtain ⟨hreturns, -, hsome⟩ := typeArgs_end pairWorld ⟨19⟩
  exact ⟨fun n r => not_seeks_of_ring hring, hnone (typeSymbol?_of_ring hring), hreturns, hsome ⟨44⟩ (by decide)⟩

/-! ## The look-up of a member -/

variable {v : World} {g g' : Guard Ty} {f : Ty → WalkM Ty} {cls p : Symbol}

theorem towards_later (hv : w ≤ v) (h : w.towardsSymbol t ≠ .inr none) :
    v.towardsSymbol t = w.towardsSymbol t ∧ ∀ name, v.towardsRefinement name t = w.towardsRefinement name t := by
  have hshape : w.shape t ≠ .fixed .noType := by
    intro hshape
    rw [towardsSymbol, hshape] at h
    exact h rfl
  simp only [towardsSymbol, towardsRefinement, shape_later hv hshape, hv.decls, implies_true, and_self]

theorem upperBound_synonym {q : Ty} (ht : w.shape t = .named q s) (hs : w.decls.isSynonym s) :
    ∃ v, w ≤ v ∧ t.upperBound w = .ok (w.decls.info s, v) := by
  let d : Shape := .bounds (w.decls.info s) (w.decls.info s)
  have hinfo : t.infoOf w = .ok ((w.types.intern d).1, { w with types := (w.types.intern d).2 }) := by
    rw [Ty.infoOf, get_bind_run, ht]
    simp only [of_decide_eq_true hs]
    rfl
  have hparts : World.boundsParts? { w with types := (w.types.intern d).2 } (w.types.intern d).1 =
      some (w.decls.info s, w.decls.info s) := boundsParts?_eq_some_iff.2 (TypeTable.shape?_intern w.types _)
  refine ⟨_, le_intern d w, ?_⟩
  rw [Ty.upperBound, bind_run hinfo, get_bind_run, hparts]
  rfl

/-- Where both loops go on to one type, so does the look-up. -/
theorem memberStep_follows (h : w.towardsSymbol t = .inl u) (ht : w.towardsRefinement name t = .inl u) :
    ∃ v, w ≤ v ∧ Member.step name f t g w = f u g v := by
  cases hd : w.shape t with
  | named q s =>
    have hs : w.decls.isSynonym s ∧ w.decls.info s = u := by
      rw [towardsSymbol, hd] at h
      dsimp only at h
      split at h
      · next hs => exact ⟨hs, Sum.inl.inj h⟩
      · cases h
    have hplain : ¬ w.decls.isClass s := by simp [Declarations.isClass, of_decide_eq_true hs.1]
    obtain ⟨v, hv, hupper⟩ := upperBound_synonym hd hs.1
    refine ⟨v, hv, ?_⟩
    rw [Member.step, Walk.run_world_bind, hd]
    dsimp only
    rw [if_neg hplain, run_bind (run_lift hupper g), hs.2]
  | refined parent refinedName info =>
    have hparent : parent = u := by
      rw [towardsSymbol, hd] at h
      exact Sum.inl.inj h
    have hname : refinedName ≠ name := by
      rintro rfl
      rw [towardsRefinement, hd] at ht
      simp at ht
    refine ⟨w, le_rfl, ?_⟩
    rw [Member.step, Walk.run_world_bind, hd]
    dsimp only
    rw [if_neg hname, hparent]
  | _ =>
    rw [towardsSymbol, hd] at h
    cases h

/-- A refinement of the member is the answer. -/
theorem memberStep_found {parent info : Ty} (ht : w.shape t = .refined parent name info) :
    Member.step name f t g w = .ok ((info, g), w) := by
  rw [Member.step, Walk.run_world_bind, ht]
  dsimp only
  rw [if_pos rfl]
  rfl

theorem ofClass_param (hp : w.decls.member? cls name .type = some p) (hkind : w.decls.kind? p = some .typeParam) :
    ∃ v, Member.ofClass name f cls g w = .ok ((w.decls.info p, g), v) := by
  let d : Shape := .named .noPrefix p
  let v : World := { w with types := (w.types.intern d).2 }
  have hinfo : (do (← p.ref).infoOf : WorldM Ty) w = .ok (w.decls.info p, v) := by
    have href : p.ref w = .ok ((w.types.intern d).1, v) := rfl
    have hshape : v.shape (w.types.intern d).1 = d := shape_of_shape? (TypeTable.shape?_intern w.types d)
    rw [bind_run href, Ty.infoOf, get_bind_run, hshape]
    simp only [d, v, hkind]
    rfl
  refine ⟨v, ?_⟩
  rw [Member.ofClass, Walk.run_world_bind, hp]
  exact run_lift hinfo g

/-- At the class, its declarations are looked up. -/
theorem memberStep_class (h : w.towardsSymbol t = .inr (some cls)) (hcls : w.decls.isClass cls) :
    Member.step name f t g w = Member.ofClass name f cls g w := by
  cases hd : w.shape t with
  | named q s =>
    have hs : s = cls := by
      rw [towardsSymbol, hd] at h
      dsimp only at h
      split at h
      · cases h
      · exact Option.some.inj (Sum.inr.inj h)
    rw [Member.step, Walk.run_world_bind, hd]
    dsimp only
    rw [hs, if_pos hcls]
  | classInfo q c =>
    have hc : c = cls := by
      rw [towardsSymbol, hd] at h
      exact Option.some.inj (Sum.inr.inj h)
    rw [Member.step, Walk.run_world_bind, hd, hc]
  | _ =>
    rw [towardsSymbol, hd] at h
    cases h

/-- The declaration of the parameter in the class is the answer. -/
theorem memberStep_stops (h : w.towardsSymbol t = .inr (some cls)) (hcls : w.decls.isClass cls)
    (hp : w.decls.member? cls name .type = some p) (hkind : w.decls.kind? p = some .typeParam) :
    ∃ v, Member.step name f t g w = .ok ((w.decls.info p, g), v) := by
  rw [memberStep_class h hcls]
  exact ofClass_param hp hkind

/-- A type that is open is not let in, so a search that goes on from it finds nothing. -/
theorem Locates.eq_none_of_open {found : Option Symbol} (h : w.Locates g t found g') (ht : t ∈ g.openKeys) :
    found = none := by
  have hne : ∀ g₁, g.enter t ≠ (.entered, g₁) := by
    intro g₁ he
    simp only [Guard.enter] at he
    split at he
    · next hverdict =>
      simp only [Guard.verdict, Guard.isOpen, List.contains_iff_mem.2 ht] at hverdict
      grind
    · cases he
    · next hentered _ => exact hentered (Prod.mk.inj he).1
  cases h with
  | refused => rfl
  | stops he => exact (hne _ he).elim
  | follows he => exact (hne _ he).elim

/-- A type that is let in is closed again where its body leaves open what it found open. -/
theorem inside_stands {g g₁ g₂ : Guard Ty} {answer : Ty} {body : WalkM Ty} {v v' : World}
    (he : g.enter t = (.entered, g₁)) (hbody : body g₁ v = .ok ((answer, g₂), v'))
    (hg₂ : g₂.Stands g₁.bounds g₁.openKeys g₁.depth) : ∃ g₃, g₃.Stands g.bounds g.openKeys g.depth ∧
      Walk.inside .noType t body g v = .ok ((answer, g₃), v') := by
  have hg₁ := stands_of_enter he
  rw [hg₁.bounds, hg₁.openKeys, hg₁.depth] at hg₂
  obtain ⟨g₃, hleave, hg₃⟩ := Guard.leave_last hg₂
  exact ⟨g₃, hg₃, inside_entered he hbody hleave⟩

/-- The look-up of a type parameter of the class enters what the search for the symbol entered, until it stops where
the search for a refinement does. -/
theorem Locates.member {found : Option Symbol} (h : w.Locates g t found g') (hs : found = some cls)
    (hcls : w.decls.isClass cls) (hp : w.decls.member? cls name .type = some p)
    (hkind : w.decls.kind? p = some .typeParam) : ∀ {n v}, Admitted False n g.bounds g.depth → w ≤ v →
      ∃ k r g'' v', w.Seeks name k t r ∧ g''.Stands g.bounds g.openKeys g.depth ∧
        Walk.descend .noType (Member.step name) n t g v = .ok ((r.getD (w.decls.info p), g''), v') := by
  induction h with
  | refused => cases hs
  | @stops g g₁ t r he ht =>
    subst hs
    intro n v hn hv
    obtain ⟨n, rfl⟩ := Nat.exists_eq_add_of_le' hn.positive
    have hlater := towards_later hv (t := t) (by rw [ht]; simp)
    obtain ⟨v', hstep⟩ := memberStep_stops (w := v) (g := g₁) (f := Walk.descend .noType (Member.step name) n)
      (hlater.1.trans ht) (hv.decls ▸ hcls) (hv.decls ▸ hp) (hv.decls ▸ hkind)
    rw [hv.decls] at hstep
    obtain ⟨g₂, hg₂, hrun⟩ := inside_stands he hstep ⟨rfl, rfl, rfl⟩
    exact ⟨1, none, g₂, v', .stops (towardsRefinement_of_stops ht), hg₂, hrun⟩
  | @follows g g₁ g' t next found he ht hrest ih =>
    intro n v hn hv
    obtain ⟨n, rfl⟩ := Nat.exists_eq_add_of_le' hn.positive
    have hlater := towards_later hv (t := t) (by rw [ht]; simp)
    obtain hgoes | ⟨parent, info, hshape, hfound⟩ | ⟨rfl, -⟩ := towardsRefinement_of_follows name ht
    · obtain ⟨v₁, hv₁, hstep⟩ := memberStep_follows (w := v) (g := g₁)
        (f := Walk.descend .noType (Member.step name) n) (hlater.1.trans ht) ((hlater.2 name).trans hgoes)
      obtain ⟨k, r, g₂, v₂, hseeks, hg₂, hdescend⟩ := ih hs (hn.entered he) (hv.trans hv₁)
      obtain ⟨g₃, hg₃, hrun⟩ := inside_stands he (hstep.trans hdescend) hg₂
      exact ⟨k + 1, r, g₃, v₂, .follows hgoes hseeks, hg₃, hrun⟩
    · have hshape' : v.shape t = .refined parent name info :=
        shape_of_shape? (hv.shape (shape?_of_shape hshape (by simp)))
      obtain ⟨g₂, hg₂, hrun⟩ := inside_stands he (memberStep_found hshape'
        (f := Walk.descend .noType (Member.step name) n)) ⟨rfl, rfl, rfl⟩
      exact ⟨1, some info, g₂, v, .stops hfound, hg₂, hrun⟩
    · -- an alias of itself is open when the search comes back to it
      have hopen : next ∈ g₁.openKeys := (stands_of_enter he).openKeys ▸ List.mem_cons_self
      cases (hrest.eq_none_of_open hopen).symm.trans hs

end World

/-! ## Type parameters belong to classes -/

namespace Declarations

variable {ds : Declarations} {d : Declaration} {s p : Symbol}

/-- Type parameters belong to classes and are declared as type parameters; under the name of one the class has a
member, if not always that one. -/
def Parametric (ds : Declarations) : Prop := ∀ {s p}, p ∈ ds.typeParams s →
  ds.isClass s ∧ ds.kind? p = some .typeParam ∧ (ds.member? s (ds.name p) .type).isSome

theorem mem_typeParams_register (hd : d.typeParams = []) (hp : p ∈ (ds.register d).2.typeParams s) :
    p ∈ ds.typeParams s ∨ p = ⟨ds.size + 1⟩ ∧ d.kind = .typeParam ∧ s = d.owner := by
  have hpush : ∀ {e}, get? ⟨ds.entries.push d⟩ s = some e → p ∈ e.typeParams → p ∈ ds.typeParams s := by
    intro e he hp
    rw [get?_push_eq] at he
    split at he
    · cases he
      rw [hd] at hp
      cases hp
    · rw [typeParams, he]
      exact hp
  simp only [typeParams, register, get?_update] at hp
  cases he : get? ⟨ds.entries.push d⟩ s with
  | none => simp [he] at hp
  | some e =>
    rw [he] at hp
    split at hp
    · next hs =>
      cases hkind : d.kind with
      | typeParam =>
        simp only [hkind, Declaration.enroll, Option.map_some, Option.getD_some, List.mem_append, List.mem_singleton] at hp
        exact hp.imp (hpush he) fun hp => ⟨hp, rfl, hs⟩
      | _ =>
        rw [hkind] at hp
        exact .inl (hpush he hp)
    · exact .inl (hpush he hp)

theorem kind?_register_of_some {k : DeclKind} (hs : ds.kind? s = some k) : (ds.register d).2.kind? s = some k := by
  rw [kind?_register, if_neg, hs]
  rintro rfl
  cases ds.kind?_next.symm.trans hs

theorem name_of_keepsHeadings {ds' : Declarations} {k : DeclKind} (h : ds.KeepsHeadings ds') (hs : ds.kind? s = some k) :
    ds'.name s = ds.name s := by
  obtain ⟨e, he, -⟩ := Option.map_eq_some_iff.1 hs
  obtain ⟨e', he', hheading⟩ := h he
  rw [name, name, he, he']
  exact (Prod.mk.inj (Prod.mk.inj hheading).2).1

theorem isSome_member?_register {m : String} (hs : (ds.member? s m .type).isSome) :
    ((ds.register d).2.member? s m .type).isSome := by
  obtain ⟨q, hq⟩ := Option.isSome_iff_exists.1 hs
  obtain ⟨e, he, hfind⟩ := Option.bind_eq_some_iff.1 hq
  have hne : s ≠ ⟨ds.size + 1⟩ := by
    rintro rfl
    have hnext := ds.kind?_next
    rw [kind?, he] at hnext
    cases hnext
  simp only [member?, register, get?_update, get?_push_eq, if_neg hne, he]
  split
  · cases hkind : d.kind <;> simp only [Option.map_some, Option.bind_some, Declaration.enroll, Declaration.members,
      InsertionMap.find?_insert] <;> first | (split <;> simp_all [Declaration.members]) | simp_all [Declaration.members]
  · exact Option.isSome_of_eq_some hfind

/-- What is registered as a type parameter is a member of its owner. -/
theorem member?_register (hkind : d.kind = .typeParam) (howner : ds.isClass d.owner) :
    ((ds.register d).2.member? d.owner d.name .type).isSome := by
  obtain ⟨e, he, -⟩ := Option.map_eq_some_iff.1 (of_decide_eq_true howner)
  have hne : d.owner ≠ ⟨ds.size + 1⟩ := by
    intro h
    have hnext := ds.kind?_next
    rw [kind?, ← h, he] at hnext
    cases hnext
  simp only [member?, register, get?_update, get?_push_eq, if_neg hne, if_true, he, hkind]
  simp [Declaration.enroll, Declaration.members]

theorem Parametric.register (h : ds.Parametric) (hd : d.typeParams = [])
    (howner : d.kind = .typeParam → ds.isClass d.owner) : (ds.register d).2.Parametric := by
  intro s p hp
  simp only [isClass, decide_eq_true_iff] at ⊢
  obtain hp | ⟨rfl, hkind, rfl⟩ := mem_typeParams_register hd hp
  · obtain ⟨hclass, hkind, hmember⟩ := h hp
    refine ⟨kind?_register_of_some (of_decide_eq_true hclass), kind?_register_of_some hkind, ?_⟩
    rw [name_of_keepsHeadings (keepsHeadings_register d) hkind]
    exact isSome_member?_register hmember
  · have hname : (ds.register d).2.name ⟨ds.size + 1⟩ = d.name := by
      have hmap : ((ds.register d).2.get? ⟨ds.size + 1⟩).map (·.name) = some d.name := by
        rw [map_register (·.name) (fun d k _ _ => by cases k <;> rfl), if_pos rfl]
      rw [name, hmap]
      rfl
    refine ⟨kind?_register_of_some (of_decide_eq_true (howner hkind)), by rw [kind?_register, if_pos rfl, hkind], ?_⟩
    rw [hname]
    exact member?_register hkind (howner hkind)

theorem typeParams_setParents (t : Symbol) (ps : List Ty) : (ds.setParents t ps).typeParams s = ds.typeParams s := by
  simp only [typeParams, setParents, get?_update]
  split
  · rw [Option.map_map]; rfl
  · rfl

theorem member?_setParents (t : Symbol) (ps : List Ty) (m : String) (space : MemberSpace) :
    (ds.setParents t ps).member? s m space = ds.member? s m space := by
  simp only [member?, setParents, get?_update]
  split
  · cases ds.get? s <;> cases space <;> rfl
  · rfl

theorem Parametric.setParents (h : ds.Parametric) (t : Symbol) (ps : List Ty) : (ds.setParents t ps).Parametric := by
  intro s p hp
  rw [typeParams_setParents] at hp
  obtain ⟨hclass, hkind, hmember⟩ := h hp
  rw [isClass, kind?_setParents, kind?_setParents, member?_setParents,
    name_of_keepsHeadings (keepsHeadings_setParents t ps) hkind]
  exact ⟨hclass, hkind, hmember⟩

/-- Only declared symbols have type parameters. -/
theorem parametric_of_declared (hall : ∀ n < ds.size, ∀ p ∈ ds.typeParams ⟨n + 1⟩,
    ds.isClass ⟨n + 1⟩ ∧ ds.kind? p = some .typeParam ∧ (ds.member? ⟨n + 1⟩ (ds.name p) .type).isSome) : ds.Parametric := by
  rintro ⟨_ | n⟩ p hp
  · cases hp
  · by_cases hn : n < ds.size
    · exact hall n hn p hp
    · have hnone : ds.get? ⟨n + 1⟩ = none := Array.getElem?_eq_none (Nat.le_of_not_lt hn)
      rw [typeParams, hnone] at hp
      cases hp

theorem parametric_initial : World.initial.decls.Parametric := parametric_of_declared (by decide)

end Declarations

theorem steady_parametric : Steady fun w => w.decls.Parametric where
  add hm hw hrun := by
    rw [(hm.le hrun).decls]
    exact hw
  internVar _ hw := hw
  pushVar _ hw := hw
  settle _ hw _ _ := hw
  register hw hd howner := hw.register hd howner
  setParents s ps hw := hw.setParents s ps

namespace Session

variable {s s' : Session}

theorem Step.parametric (h : Step s s') (hs : s.world.decls.Parametric) : s'.world.decls.Parametric := by
  cases h with
  | @call _ _ a w w' _ hm hrun => exact hm.upholds steady_parametric w a w' hs hrun
  | start kind names hrun =>
    cases hrun
    exact hs
  | @finish infos result b d _ w _ _ _ hrun =>
    obtain ⟨-, rfl⟩ | ⟨-, -, t, ht, -⟩ := finish_cases (checks_check d.kind) hrun
    · exact hs
    · rw [((grows_binderType b : Grows True _).le_of_ok ht).decls]
      exact hs
  | giveUp => exact hs

theorem Run.parametric (h : Run .initial s) : s.world.decls.Parametric := by
  induction h with
  | refl => exact Declarations.parametric_initial
  | tail _ hstep ih => exact hstep.parametric ih

/-- **Arguments and members agree.** Whatever calls have been made, the argument of a type for a type parameter that
the class of the type still declares under the name of the parameter is the member of that name, whatever aliases and
refinements lead from the type to its class. -/
theorem typeArgs_eq_member (h : Run .initial s) {t : Ty} {cls p : Symbol} {i : Nat}
    (hcls : s.world.typeSymbol? t = some cls) (hp : (s.world.decls.typeParams cls)[i]? = some p)
    (hdecl : s.world.decls.member? cls (s.world.decls.name p) .type = some p) :
    ∃ u w', t.member (s.world.decls.name p) s.world = .ok (u, w') ∧ ∀ fuel, Limits.walkDepth.toNat ≤ fuel →
      ∃ args, s.world.typeArgs fuel t = .ok args ∧ args[i]? = some u := by
  obtain ⟨hclass, hkind, -⟩ := h.parametric (List.mem_of_getElem? hp)
  obtain ⟨info, hseeks, hinfo⟩ := World.exists_refinements hcls
  obtain ⟨g, hlocates, -⟩ := s.world.exists_locates t
  obtain ⟨k, r, g', w', hr, -, hrun⟩ := hlocates.member hcls hclass hdecl hkind (n := Limits.walkDepth.toNat + 1)
    (.inr ⟨rfl, Nat.succ_pos _, Nat.lt_succ_of_le (Nat.le_add_left ..)⟩) le_rfl
  obtain ⟨m, hm⟩ := hseeks (s.world.decls.name p)
  obtain ⟨-, rfl⟩ := hr.unique hm
  refine ⟨_, w', run_of_descend hrun, fun fuel hfuel => ⟨_, World.typeArgs_of_refinements hcls (hinfo fuel hfuel), ?_⟩⟩
  rw [List.getElem?_map, hp]
  rfl

theorem run_pairWorld : Run .initial ⟨World.pairWorld, []⟩ := by
  let intern (w : World) (d : Shape) : World := { w with types := (w.types.intern d).2 }
  let register (w : World) (d : Declaration) : World := { w with decls := (w.decls.register d).2 }
  let w₁ := register .initial { kind := .cls, name := "Pair", owner := .absent, flags := { static := true } }
  let w₂ : World := { w₁ with decls := w₁.decls.setParents ⟨44⟩ [Builtin.object.type] }
  let w₃ := register w₂ { kind := .typeParam, name := "T", owner := ⟨44⟩, info := ⟨14⟩ }
  let w₄ := register w₃ { kind := .typeParam, name := "U", owner := ⟨44⟩, info := ⟨14⟩ }
  let w₅ := intern w₄ (.named .noPrefix ⟨44⟩)
  let w₆ := intern w₅ (.refined ⟨15⟩ "T" Builtin.int.type)
  let w₇ := register w₆ { kind := .synonym, name := "A", owner := .absent, flags := { static := true }, info := ⟨16⟩ }
  let w₈ := intern w₇ (.named .noPrefix ⟨47⟩)
  let w₉ := intern w₈ (.refined ⟨17⟩ "T" Builtin.string.type)
  let w₁₀ := register w₉ { kind := .synonym, name := "B", owner := .absent, flags := { static := true }, info := ⟨18⟩ }
  have hpair : Step .initial ⟨w₂, []⟩ := .call (.request (.cls .absent "Pair" {})) rfl
  have ht : Step ⟨w₂, []⟩ ⟨w₃, []⟩ := .call (.request (.typeParam ⟨44⟩ "T" .invariant ⟨14⟩)) rfl
  have hu : Step ⟨w₃, []⟩ ⟨w₄, []⟩ := .call (.request (.typeParam ⟨44⟩ "U" .invariant ⟨14⟩)) rfl
  have href : Step ⟨w₄, []⟩ ⟨w₅, []⟩ := .call (.add (.named .noPrefix ⟨44⟩)) rfl
  have hint : Step ⟨w₅, []⟩ ⟨w₆, []⟩ := .call (.add (.refined ⟨15⟩ "T" Builtin.int.type)) rfl
  have ha : Step ⟨w₆, []⟩ ⟨w₇, []⟩ := .call (.request (.synonym .absent "A" ⟨16⟩)) rfl
  have hrefa : Step ⟨w₇, []⟩ ⟨w₈, []⟩ := .call (.add (.named .noPrefix ⟨47⟩)) rfl
  have hstring : Step ⟨w₈, []⟩ ⟨w₉, []⟩ := .call (.add (.refined ⟨17⟩ "T" Builtin.string.type)) rfl
  have hb : Step ⟨w₉, []⟩ ⟨w₁₀, []⟩ := .call (.request (.synonym .absent "B" ⟨18⟩)) rfl
  have hrefb : Step ⟨w₁₀, []⟩ ⟨World.pairWorld, []⟩ := .call (.add (.named .noPrefix ⟨48⟩)) rfl
  exact .head hpair (.head ht (.head hu (.head href (.head hint (.head ha (.head hrefa (.head hstring (.head hb
    (.single hrefb)))))))))

/-- The parameter `T` of `B`, which is refined twice on the way to the class, and `U`, which is not refined. -/
theorem typeArgs_eq_member_pair :
    (∃ u w', Ty.member ⟨19⟩ "T" World.pairWorld = .ok (u, w') ∧ ∀ fuel, 64 ≤ fuel →
      ∃ args, World.pairWorld.typeArgs fuel ⟨19⟩ = .ok args ∧ args[0]? = some u) ∧
    (∃ u w', Ty.member ⟨19⟩ "U" World.pairWorld = .ok (u, w') ∧ ∀ fuel, 64 ≤ fuel →
      ∃ args, World.pairWorld.typeArgs fuel ⟨19⟩ = .ok args ∧ args[1]? = some u) :=
  have hcls : World.pairWorld.typeSymbol? ⟨19⟩ = some ⟨44⟩ := by decide
  ⟨typeArgs_eq_member run_pairWorld hcls (p := ⟨45⟩) (i := 0) (by decide) (by decide),
   typeArgs_eq_member run_pairWorld hcls (p := ⟨46⟩) (i := 1) (by decide) (by decide)⟩

end Session

end Conformance
