import Conformance.Proofs.Allowances
import Conformance.Proofs.FreeTraits
import Conformance.Proofs.InterSource
import Conformance.Proofs.Occurrences

/-!
# Comparisons that go down without end

How deep comparisons nest is bounded by nothing but the words that count it. Pairs are refused when as many are pending
as the largest word counts. The level counter stops at the same word, which it comes to earlier, since not all levels are
watched; levels that are opened from there on are not counted, but they are closed again like all others. So when a
comparison goes on from pair to pair and never comes to one that is pending, its answer is false, and the counter is too
low by then (`Sinks`). A comparison that starts with few levels open cannot answer like that (`Sinks.no_answer`).
-/

namespace Conformance

/-! ## Levels that are not watched -/

namespace Place

variable {p p' : Place} {pair : Ty × Ty}

theorem threshold_le (p : Place) : p.threshold.toNat ≤ Limits.unlimited.toNat :=
  Nat.le_of_lt_succ p.threshold.toNat_lt

/-- How many levels are opened before pairs are watched. -/
def unwatched (p : Place) : Nat := max p.threshold.toNat 1 - 1

/-- How many levels will be left that were not counted when they were opened, if comparisons go down from here without
end. -/
def overrun (p : Place) : Nat := min (p.unwatched + 1) (Limits.unlimited.toNat + 1 - p.pendingDepth)

/-- Every level is one that is not watched or has a pending pair, as far as levels are counted. -/
structure Steady (p : Place) : Prop where
  bounds : p.bounds = .none
  count : p.pending.length = p.pendingDepth
  limit : p.pendingDepth ≤ Limits.unlimited.toNat
  level : (p.pendingDepth = 0 ∧ p.level ≤ p.unwatched) ∨
    p.level = min (p.pendingDepth + p.unwatched) Limits.unlimited.toNat

/-- The same place one level deeper, as the counter has it. -/
def sunk (p : Place) : Place := { p with level := Limits.tally p.level }

/-- The places that a comparison of `pair` may open, from wherever it is asked. -/
inductive Sinking (p : Place) (pair : Ty × Ty) : Place → Prop
  | direct (mode : p.mode = .direct) : Sinking p pair p.sunk
  | monitored (mode : p.mode = .monitored) (limit : p.pendingDepth < Limits.unlimited.toNat)
    (free : pair ∉ p.pending) : Sinking p pair (p.sunk.entering pair)

theorem Sinking.pending_subset (h : p.Sinking pair p') {q : Ty × Ty} (hq : q ∈ p'.pending) : q = pair ∨ q ∈ p.pending := by
  cases h with
  | direct => exact .inr hq
  | monitored => exact List.mem_cons.1 hq

theorem Sinking.steady (h : p.Sinking pair p') (hp : p.Steady) : p'.Steady := by
  have hlevel := hp.level
  have hlimit := hp.limit
  have hword := p.threshold_le
  cases h with
  | direct hmode =>
    refine ⟨hp.bounds, hp.count, hp.limit, ?_⟩
    simp only [mode, sunk, unwatched, Limits.tally] at hmode hlevel ⊢
    split at hmode
    · omega
    · cases hmode
  | monitored hmode hbelow =>
    refine ⟨hp.bounds, congrArg (· + 1) hp.count, hbelow, ?_⟩
    simp only [mode, sunk, entering, unwatched, Limits.tally] at hmode hlevel ⊢
    split at hmode
    · cases hmode
    · omega

/-- One level is closed by one step down, whether it was counted or not. -/
theorem Sinking.overrun (h : p.Sinking pair p') (hp : p.Steady) {d : Nat} (hd : d + 1 + p'.overrun = p'.level) :
    d + p.overrun = p.level := by
  have hlevel := hp.level
  have hlimit := hp.limit
  have hword := p.threshold_le
  cases h with
  | direct hmode =>
    simp only [mode, sunk, Place.overrun, unwatched, Limits.tally] at hmode hlevel hd ⊢
    split at hmode
    · omega
    · cases hmode
  | monitored hmode hbelow =>
    simp only [mode, sunk, entering, Place.overrun, unwatched, Limits.tally] at hmode hlevel hd ⊢
    split at hmode
    · cases hmode
    · omega

end Place

namespace CompareM

section Sinks

variable {α : Type} {p : Place} {pair : Ty × Ty} {w v : World} {x y : CompareM Bool} {t u : Ty} {n : Nat}

/-! ## Answers that miss levels -/

/-- Started at `p` with nothing under inference, in `w` or later, the computation answers false if it answers at all, and
leaves the level counter too low. -/
def Sinks (p : Place) (w : World) (m : CompareM Bool) : Prop :=
  ∀ c v answer c' v', Stands (·.slots.entries = []) p c → w ≤ v → m c v = .ok ((answer, c'), v') →
    v ≤ v' ∧ answer = false ∧ c'.depth.depth + p.overrun = p.level

namespace Sinks

/-- Where fewer levels are open than would be missed, there is no answer. -/
theorem no_answer (h : Sinks p w x) (hp : p.level < p.overrun) {c : Comparer} {r : (Bool × Comparer) × World}
    (hc : Stands (·.slots.entries = []) p c) (hv : w ≤ v) : x c v ≠ .ok r := by
  intro hr
  obtain ⟨-, -, hlevel⟩ := h c v r.1.1 r.1.2 r.2 hc hv hr
  omega

theorem later (h : Sinks p w x) (hv : w ≤ v) : Sinks p v x :=
  fun c v' answer c' v'' hc hv' => h c v' answer c' v'' hc (hv.trans hv')

theorem andThen (hx : Sinks p w x) : Sinks p w (x <&&> y) := by
  intro c v answer c' v' hc hv hr
  obtain ⟨a, c₁, v₁, hx', hrest⟩ := run_bind_ok hr
  obtain ⟨hv₁, rfl, hlevel⟩ := hx c v a c₁ v₁ hc hv hx'
  cases hrest
  exact ⟨hv₁, rfl, hlevel⟩

/-- The next alternative does not change what the first one leaves behind. -/
theorem orElse (hx : Sinks p w x) (hy : ∀ c v, w ≤ v → y c v = .ok ((false, c), v)) : Sinks p w (x <||> y) := by
  intro c v answer c' v' hc hv hr
  obtain ⟨a, c₁, v₁, hx', hrest⟩ := run_bind_ok hr
  obtain ⟨hv₁, rfl, hlevel⟩ := hx c v a c₁ v₁ hc hv hx'
  cases (hy c₁ v₁ (hv.trans hv₁)).symm.trans hrest
  exact ⟨hv₁, rfl, hlevel⟩

theorem world_bind {f : World → CompareM Bool} (hf : ∀ v, w ≤ v → Sinks p v (f v)) : Sinks p w (world >>= f) :=
  fun c v answer c' v' hc hv hr => hf v hv c v answer c' v' hc le_rfl hr

theorem lift_bind {m : WorldM α} {f : α → CompareM Bool} (hm : Grows True m)
    (hf : ∀ a v v', w ≤ v → v ≤ v' → m v = .ok (a, v') → Sinks p v' (f a)) : Sinks p w (liftM m >>= f) := by
  intro c v answer c' v' hc hv hr
  obtain ⟨a, v₁, hm', hrest⟩ := run_lift_bind_ok hr
  have hv₁ := hm.le_of_ok hm'
  obtain ⟨hv', hanswer⟩ := hf a v v₁ hv hv₁ hm' c v₁ answer c' v' hc le_rfl hrest
  exact ⟨hv₁.trans hv', hanswer⟩

/-- A list of conditions fails with the first of them. -/
theorem allM {f : α → CompareM Bool} {a : α} {l : List α} (h : Sinks p w (f a)) : Sinks p w ((a :: l).allM f) := by
  intro c v answer c' v' hc hv hr
  obtain ⟨b, c₁, v₁, hx, hrest⟩ := run_bind_ok hr
  obtain ⟨hv₁, rfl, hlevel⟩ := h c v b c₁ v₁ hc hv hx
  cases hrest
  exact ⟨hv₁, rfl, hlevel⟩

theorem atomically (h : Sinks p w x) : Sinks p w (atomically x) := by
  intro c v answer c' v' hc hv hr
  obtain ⟨saved, c₀, v₀, hsaved, hr⟩ := run_bind_ok hr
  cases hsaved
  obtain ⟨b, c₁, v₁, hx, hr⟩ := run_bind_ok hr
  obtain ⟨hv₁, rfl, hlevel⟩ := h c v b c₁ v₁ hc hv hx
  cases hr
  exact ⟨hv₁, rfl, hlevel⟩

/-- Types that are not the same handle are compared in one direction first. -/
theorem same {sub : Ty → Ty → CompareM Bool} (htu : t ≠ u) (ht : t.present) (hu : u.present) (h : Sinks p w (sub t u)) :
    Sinks p w (same sub t u) := by
  simp only [CompareM.same, ht, hu, Bool.not_true, Bool.or_self, if_neg htu]
  exact h.andThen.atomically

end Sinks

/-! ## Frames -/

/-- Entering a level, with a counter that may have come to its end. -/
theorem stands_sunk {c : Comparer} (hc : Stands (·.slots.entries = []) p c) :
    Stands (·.slots.entries = []) p.sunk { c with depth := c.depth.enter.2 } ∧ c.depth.enter.1 = p.mode := by
  obtain ⟨rfl, hstore⟩ := hc
  have hword := c.place.threshold_le
  have hthreshold : c.depth.enter.2.threshold = c.depth.threshold := by
    simp only [DepthCounter.enter]
    split
    · rfl
    · split <;> rfl
  refine ⟨⟨?_, hstore⟩, ?_⟩
  · rw [Comparer.place_depth, DepthCounter.depth_enter, hthreshold]
    rfl
  · have hmode : Limits.tally c.depth.depth < c.depth.threshold.toNat ↔ c.depth.depth + 1 < c.depth.threshold.toNat := by
      have hword : c.depth.threshold.toNat ≤ Limits.unlimited.toNat := hword
      unfold Limits.tally
      omega
    show c.depth.enter.1 = if c.depth.depth + 1 < c.depth.threshold.toNat then .direct else .monitored
    simp only [DepthCounter.enter, hmode]
    split
    · rfl
    · split <;> rfl

theorem unpend_ok {c c' : Comparer} {v v' : World} (h : unpend pair c v = .ok (((), c'), v')) :
    c'.depth = c.depth ∧ v' = v := by
  have hrun : (liftM (Walk.orFault (c.pending.leave pair)) >>= fun pending => modify fun c : Comparer => { c with pending } :
      CompareM PUnit) c v = .ok (((), c'), v') := h
  obtain ⟨pending, v₁, hleave, hrun⟩ := run_lift_bind_ok hrun
  cases hrun
  unfold Guard.leave at hleave
  split at hleave
  · cases hleave
    exact ⟨rfl, rfl⟩
  · cases hleave

/-- A comparison that is not watched gives no answer if the cascade does not. -/
theorem isSubType_unanswered (ht : t.present) (hu : u.present) (htu : t ≠ u) (hmode : p.mode = .direct) {c : Comparer}
    (hc : Stands (·.slots.entries = []) p c)
    (h : ∀ c', Stands (·.slots.entries = []) p.sunk c' → ∀ r, first n (isSubType n) t u c' v ≠ .ok r)
    (r : (Bool × Comparer) × World) : isSubType (n + 1) t u c v ≠ .ok r := by
  rw [isSubType_framed ht hu htu]
  intro hr
  obtain ⟨saved, c₀, v₀, hsaved, hr⟩ := run_bind_ok hr
  cases hsaved
  obtain ⟨answer, c₁, v₁, hbody, -⟩ := run_bind_ok hr
  obtain ⟨hsunk, hentered⟩ := stands_sunk hc
  have henter : enterLevel c v = .ok ((c.depth.enter.1, { c with depth := c.depth.enter.2 }), v) := rfl
  rw [run_bind henter, hentered, hmode] at hbody
  obtain ⟨b, c₂, v₂, hfirst, -⟩ := run_bind_ok hbody
  exact h _ hsunk _ hfirst

/-- A pair that is not pending is compared, or refused because no more pairs can be counted. -/
theorem Sinks.withPending (hp : p.Steady) (hmode : p.mode = .monitored) (hfree : pair ∉ p.pending)
    (h : ∀ p', p.Sinking pair p' → Sinks p' w x) {c c' : Comparer} {v' : World} {answer : Bool}
    (hc : Stands (·.slots.entries = []) p.sunk c) (hv : w ≤ v) (hr : withPending pair x c v = .ok ((answer, c'), v'))
    {d : Nat} (hd : c'.depth.depth = d + 1) : v ≤ v' ∧ answer = false ∧ d + p.overrun = p.level := by
  have hcount := hp.count
  have hlimit := hp.limit
  by_cases hbelow : p.pendingDepth < Limits.unlimited.toNat
  · have hsinking : p.Sinking pair (p.sunk.entering pair) := .monitored hmode hbelow hfree
    have hadmits : p.sunk.admits pair := ⟨hbelow, hcount ▸ hbelow, hfree⟩
    obtain ⟨c₁, hc₁, hrun⟩ := withPending_entered hc hp.bounds hadmits
    rw [hrun] at hr
    obtain ⟨b, c₂, v₂, hx, hr⟩ := run_bind_ok hr
    obtain ⟨hv₂, rfl, hlevel⟩ := h _ hsinking c₁ v b c₂ v₂ hc₁ hv hx
    obtain ⟨⟨⟩, c₃, v₃, hunpend, hr⟩ := run_bind_ok hr
    cases hr
    obtain ⟨hdepth, rfl⟩ := unpend_ok hunpend
    rw [hdepth] at hd
    exact ⟨hv₂, rfl, hsinking.overrun hp (hd ▸ hlevel)⟩
  · have hrefused : ¬ p.sunk.admits pair := fun hadmits => hbelow hadmits.1
    obtain ⟨c₁, hc₁, hrun⟩ := withPending_refused hc hp.bounds hrefused
    cases (hrun x v).symm.trans hr
    have hlevel : c'.depth.depth = Limits.tally p.level := congrArg Place.level hc₁.place
    refine ⟨le_rfl, rfl, ?_⟩
    have hsteady := hp.level
    simp only [Place.overrun, Place.unwatched, Limits.tally] at hsteady hlevel ⊢
    omega

/-- **A comparison sinks as the cascade does in the place that it opens**, if its pair is not pending. -/
theorem sinks_isSubType (hp : p.Steady) (ht : t.present) (hu : u.present) (htu : t ≠ u) (hfree : (t, u) ∉ p.pending)
    (h : ∀ p', p.Sinking (t, u) p' → Sinks p' w (first n (isSubType n) t u)) : Sinks p w (isSubType (n + 1) t u) := by
  rw [isSubType_framed ht hu htu]
  refine Sinks.atomically fun c v answer c' v' hc hv hr => ?_
  obtain ⟨hsunk, hmode⟩ := stands_sunk hc
  have henter : enterLevel c v = .ok ((c.depth.enter.1, { c with depth := c.depth.enter.2 }), v) := rfl
  rw [run_bind henter, hmode] at hr
  obtain ⟨b, c₂, v₂, hbody, hr⟩ := run_bind_ok hr
  obtain ⟨⟨⟩, c₃, v₃, hleave, hr⟩ := run_bind_ok hr
  cases hr
  obtain ⟨hdepth, rfl⟩ := leaveLevel_ok hleave
  cases hpm : p.mode with
  | direct =>
    rw [hpm] at hbody
    have hsinking : p.Sinking (t, u) p.sunk := .direct hpm
    obtain ⟨hv₂, rfl, hlevel⟩ := h _ hsinking _ v answer c₂ v' hsunk hv hbody
    exact ⟨hv₂, rfl, hsinking.overrun hp (hdepth ▸ hlevel)⟩
  | monitored =>
    rw [hpm] at hbody
    exact Sinks.withPending hp hpm hfree h hsunk hv hbody hdepth

end Sinks

end CompareM

/-! ## Spirals -/

namespace World

variable {w v v' : World} {t r : Ty} {b c e : BinderId} {n : Nat}

/-- An abstract type `A` with the lower end `[X >: [Z >: A]X]..`: the bound of `X` opens into a universal type over
itself. -/
structure Spiral (w : World) where
  /-- The abstract type. -/
  ref : Ty
  pre : Ty
  symbol : Symbol
  /-- Its lower end. -/
  lower : Ty
  upper : Ty
  /-- The bounds `>: A`. -/
  span : Ty
  /-- The universal type `[Z >: A]X`. -/
  inner : Ty
  /-- The bounds of `X`. -/
  bound : Ty
  param : Ty
  outerBinder : BinderId
  innerBinder : BinderId
  outer : Binder
  innerName : String
  result : Shape
  ref_shape : w.shape? ref = some (.named pre symbol)
  kind : w.decls.kind? symbol = some .abstractType
  info : w.shape? (w.decls.info symbol) = some (.bounds lower upper)
  lower_shape : w.shape? lower = some (.universal outerBinder)
  outer_binder : w.binder? outerBinder = some outer
  outer_arity : outer.names.length = 1
  outer_infos : outer.infos = [bound]
  outer_result : w.shape? outer.result = some result
  result_plain : result.isBinderType = false
  bound_shape : w.shape? bound = some (.bounds inner Builtin.any.type)
  inner_shape : w.shape? inner = some (.universal innerBinder)
  inner_binder : w.binder? innerBinder = some { kind := .universal, names := [innerName], infos := [span], result := param }
  param_shape : w.shape? param = some (.param ⟨outerBinder, 0⟩)
  span_shape : w.shape? span = some (.bounds ref Builtin.any.type)
  span_clear : ∀ b ∈ [outerBinder, innerBinder], w.Clear true (·.IsParamOf b) span
  any_clear : w.Clear true (·.IsParamOf outerBinder) Builtin.any.type

namespace Spiral

/-- A universal type with one parameter above `A`, on the binder `e`. -/
structure Turn (h : w.Spiral) (v : World) (e : BinderId) (t : Ty) : Prop where
  shape : v.shape? t = some (.universal e)
  ne : e ∉ [h.outerBinder, h.innerBinder]
  binder : ∃ name result d, v.binder? e = some { kind := .universal, names := [name], infos := [h.span], result } ∧
    v.shape? result = some d ∧ d.isBinderType = false

theorem Turn.grow {h : w.Spiral} (ht : h.Turn v e t) (hv : v ≤ v') : h.Turn v' e t := by
  obtain ⟨name, result, d, hbinder, hresult, hplain⟩ := ht.binder
  exact ⟨hv.shape ht.shape, ht.ne, name, result, d, hv.binder hbinder, hv.shape hresult, hplain⟩

/-- A parameter of the old binder gives way to the one of the new binder, and any other stays. -/
theorem param_renamed {y : Ty} (ht : v.shape? t = some (.param ⟨b, 0⟩)) (he : v.binderKind? e = some .universal) (hne : b ≠ e)
    (hr : Ty.substBinder n b e t v = .ok (y, v')) : v'.shape? y = some (.param ⟨e, 0⟩) := by
  obtain _ | n := n
  · cases hr
  rw [substBinder_param (k := .universal) hne ht, if_pos rfl, Param.type, get_bind_run, he] at hr
  exact (intern_ok hr).2

theorem param_kept {r : Ty × World} (ht : v.shape? t = some (.param ⟨e, 0⟩)) (hne : e ≠ b)
    (hr : Ty.substBinder n b c t v = .ok r) : r = (t, v) := by
  obtain _ | n := n
  · cases hr
  by_cases hbc : b = c
  · subst hbc
    rw [Ty.substBinder, if_pos rfl] at hr
    exact (Except.ok.inj hr).symm
  · rw [substBinder_param (k := .universal) hbc ht, if_neg hne] at hr
    exact (Except.ok.inj hr).symm

/-- A pair that was met on the way down: it is told from the pairs that the next turns bring by the binders in it, which
were given out before. -/
structure Met (h : w.Spiral) (v : World) (pair : Ty × Ty) : Prop where
  first : ∃ d, v.shape? pair.1 = some d ∧ ∀ e, d = .universal e → (v.binder? e).isSome
  second : pair.1 = h.span → ∃ u e, v.shape? pair.2 = some (.bounds u Builtin.any.type) ∧ v.shape? u = some (.universal e) ∧
    (v.binder? e).isSome

theorem Met.grow {h : w.Spiral} {pair : Ty × Ty} (hm : h.Met v pair) (hv : v ≤ v') : h.Met v' pair := by
  have hlater {b : BinderId} (hb : (v.binder? b).isSome) : (v'.binder? b).isSome := by
    obtain ⟨d, hd⟩ := Option.isSome_iff_exists.1 hb
    exact Option.isSome_of_eq_some (hv.binder hd)
  obtain ⟨d, hd, hbinder⟩ := hm.first
  refine ⟨⟨d, hv.shape hd, fun e he => hlater (hbinder e he)⟩, fun hspan => ?_⟩
  obtain ⟨u, e, hbounds, hu, he⟩ := hm.second hspan
  exact ⟨u, e, hv.shape hbounds, hv.shape hu, hlater he⟩

theorem Met.ne {h : w.Spiral} {pair : Ty × Ty} (hm : h.Met v pair) (hv : v ≤ v') (ht : h.Turn v' e t)
    (he : v.binder? e = none) : pair.1 ≠ t := by
  rintro rfl
  obtain ⟨d, hd, hbinder⟩ := hm.first
  cases (hv.shape hd).symm.trans ht.shape
  have hsome := hbinder e rfl
  rw [he] at hsome
  cases hsome

theorem Turn.met {h : w.Spiral} (ht : h.Turn v e t) (hv : w ≤ v) {u : Ty} : h.Met v (t, u) := by
  obtain ⟨_, _, _, hbinder, -⟩ := ht.binder
  refine ⟨⟨_, ht.shape, fun _ he => ?_⟩, fun hspan => ?_⟩
  · cases he
    exact Option.isSome_of_eq_some hbinder
  · obtain rfl : t = h.span := hspan
    cases ht.shape.symm.trans (hv.shape h.span_shape)

/-- Renaming `X` in `[Z >: A]X` makes another turn, on a fresh binder. -/
theorem turn_inner (h : w.Spiral) (hv : w ≤ v) (he : v.binderKind? e = some .universal)
    (hne : e ∉ [h.outerBinder, h.innerBinder]) {u : Ty} (hr : Ty.substBinder n h.outerBinder e h.inner v = .ok (u, v')) :
    v ≤ v' ∧ ∃ c, v.binder? c = none ∧ h.Turn v' c u := by
  have hle : v ≤ v' := (grows_substBinder n _ _ _).le_of_ok hr
  refine ⟨hle, ?_⟩
  obtain ⟨hne₁, hne₂⟩ : e ≠ h.outerBinder ∧ e ≠ h.innerBinder := by simpa using hne
  obtain _ | n := n
  · cases hr
  have hspan {m : Nat} {v₀ : World} (hv₀ : w ≤ v₀) {b c : BinderId} (hb : b ∈ [h.outerBinder, h.innerBinder]) {s : List Ty × World}
      (hs : [h.span].mapM (Ty.substBinder m b c) v₀ = .ok s) : s = ([h.span], v₀) := by
    refine mapM_same (fun x hx r hr => ?_) hs
    obtain rfl := List.mem_singleton.1 hx
    exact substBinder_same m ((h.span_clear b hb).later hv₀) hr
  have hshape := hv.shape h.inner_shape
  rw [substBinder_layer hne₁.symm hshape rfl, mapChildren_binder (k := .universal) hshape] at hr
  obtain ⟨l, v₁, y, v₂, hl, hy, -, hv₁, hend⟩ :=
    rebuildBinder_ok (hv.binder h.inner_binder) (grows_substBinder n _ _) (grows_substBinder n) hr
  cases hspan hv List.mem_cons_self hl
  have hy' := param_renamed (hv.shape h.param_shape) he hne₁.symm hy
  rcases hend with ⟨-, hsame, -, -⟩ | ⟨c, x, l', x₁, y', x₂, hx, hfree, hc, hl', hresult, -, -, htype⟩
  · -- the parameter is a new one, so that the binder is not left alone
    obtain rfl : y = h.param := hsame
    cases (hv₁.shape (hv.shape h.param_shape)).symm.trans hy'
    exact absurd rfl hne₁
  cases hspan (hv.trans (hv₁.trans hx)) (List.mem_cons_of_mem _ List.mem_cons_self) hl'
  cases param_kept (hx.shape hy') hne₂ hresult
  have hnone := binder?_before hv₁ hfree
  have hbinder : (x.fill c [h.span] y).binder? c =
      some { kind := .universal, names := [h.innerName], infos := [h.span], result := y } :=
    (binder?_fill hc c).trans (if_pos rfl)
  rw [binderType_run (k := .universal) (by rw [binderKind?, hbinder]; rfl)] at htype
  obtain ⟨hle', hshape'⟩ := intern_ok htype
  refine ⟨c, hnone, hshape', ?_, h.innerName, y, _, hle'.binder hbinder, hle'.shape (hx.shape hy'), rfl⟩
  have hex {b : BinderId} {d : Binder} (hb : w.binder? b = some d) : c ≠ b := by
    rintro rfl
    cases (hv.binder hb).symm.trans hnone
  simp only [List.mem_cons, List.not_mem_nil, or_false, not_or]
  exact ⟨hex h.outer_binder, hex h.inner_binder⟩

/-- So does renaming it in the bounds that this is the lower end of. -/
theorem turn_bound (h : w.Spiral) (hv : w ≤ v) (he : v.binderKind? e = some .universal)
    (hne : e ∉ [h.outerBinder, h.innerBinder]) (hr : Ty.substBinder n h.outerBinder e h.bound v = .ok (r, v')) :
    v ≤ v' ∧ ∃ c u, v.binder? c = none ∧ h.Turn v' c u ∧ v'.shape? r = some (.bounds u Builtin.any.type) := by
  obtain _ | n := n
  · cases hr
  have hne₁ : e ≠ h.outerBinder := by
    rintro rfl
    exact hne List.mem_cons_self
  have hshape := hv.shape h.bound_shape
  rw [substBinder_layer hne₁.symm hshape rfl, mapChildren_around₂ .bounds hshape, Ty.rebuild₂] at hr
  obtain ⟨u, v₁, hu, hr⟩ := bind_ok hr
  obtain ⟨hv₁, c, hc, hturn⟩ := h.turn_inner hv he hne hu
  obtain ⟨hi, v₂, hhi, hr⟩ := bind_ok hr
  cases substBinder_same n (h.any_clear.later (hv.trans hv₁)) hhi
  have hchanged : u ≠ h.inner := by
    rintro rfl
    cases (hv₁.shape (hv.shape h.inner_shape)).symm.trans hturn.shape
    cases (hv.binder h.inner_binder).symm.trans hc
  rw [if_neg fun heq => hchanged heq.1] at hr
  cases hr
  have hv₂ := le_intern (.bounds u Builtin.any.type) v₁
  exact ⟨hv₁.trans hv₂, c, u, hc, hturn.grow hv₂, TypeTable.shape?_intern v₁.types _⟩

end Spiral

end World

namespace CompareM

section Spirals

variable {p : Place} {w v : World} {sub : Ty → Ty → CompareM Bool} {t u : Ty} {n : Nat} {e : BinderId}

/-- A plain target that is no name leaves the decision to the third step. -/
theorem sinks_first {d d' : Shape} (ht : v.shape? t = some d) (hd : isPlain d) (hu : v.shape? u = some d') (hd' : isPlain d')
    (hnamed : d'.isNamed = false) (h : Sinks p v (third n sub t u)) : Sinks p v (first n sub t u) := by
  refine .world_bind fun v₁ hv₁ => ?_
  have hsecond : Sinks p v₁ (second n sub t u) := by
    refine .world_bind fun v₂ hv₂ => ?_
    have h := h.later (hv₁.trans hv₂)
    rw [World.shape_of_shape? ((hv₁.trans hv₂).shape ht)]
    split
    · cases hd
    · cases hd
    · cases hd
    · cases hd
    · exact h
  rw [World.shape_of_shape? (hv₁.shape hu)]
  split
  · cases hnamed
  · cases hnamed
  · cases hd'
  · cases hd'
  · cases hd'
  · cases hd'
  · exact hsecond

/-- The erased signature of a universal type that stands around no other type of a binder lists no parameters. -/
theorem signature_universal {b : Binder} {d : Shape} {sig : Signature} {v' : World} (ht : v.shape? t = some (.universal e))
    (hb : v.binder? e = some b) (hd : v.shape? b.result = some d) (hplain : d.isBinderType = false)
    (hr : Ty.signature n t v = .ok (sig, v')) : sig.params = [] := by
  obtain _ | n := n
  · cases hr
  rw [Ty.signature, get_bind_run, World.shape_of_shape? ht] at hr
  dsimp only at hr
  rw [hb] at hr
  dsimp only at hr
  obtain _ | n := n
  · cases hr
  rw [Ty.signature, get_bind_run, World.shape_of_shape? hd] at hr
  cases d with
  | method | universal => cases hplain
  | _ =>
    obtain ⟨result, v₁, -, hr⟩ := bind_ok hr
    cases hr
    rfl

variable {h : w.Spiral}

/-- A universal type is compared with the abstract type through its lower end. -/
theorem sinks_ref (hv : w ≤ v) (ht : h.Turn v e t) (hlower : Sinks p v (sub t h.lower)) : Sinks p v (first n sub t h.ref) := by
  have hthird {v' : World} (hv' : v ≤ v') : Sinks p v' (thirdNamed n sub t h.ref) := by
    refine .lift_bind (grows_infoOf _) fun info v₁ v₂ hv₁ _ hinfo => ?_
    have hle := hv.trans (hv'.trans hv₁)
    rw [Ty.infoOf, get_bind_run, World.shape_of_shape? (hle.shape h.ref_shape)] at hinfo
    dsimp only at hinfo
    rw [hle.decls, h.kind] at hinfo
    cases hinfo
    refine .world_bind fun v₂ hv₂ => ?_
    have hv₂ := hv'.trans (hv₁.trans hv₂)
    rw [World.boundsParts?_eq_some_iff.2 ((hv.trans hv₂).shape h.info)]
    refine (hlower.later hv₂).orElse fun c v₃ hv₃ => ?_
    rw [fourth, run_world_bind, World.shape_of_shape? ((hv₂.trans hv₃).shape ht.shape)]
    rfl
  refine .world_bind fun v₁ hv₁ => ?_
  have hnamed : (v₁.shape t).isNamed = false := by
    rw [World.shape_of_shape? (hv₁.shape ht.shape)]
    rfl
  rw [World.shape_of_shape? ((hv.trans hv₁).shape h.ref_shape)]
  dsimp only
  rw [if_neg (by rw [hnamed]; exact Bool.false_ne_true)]
  refine .world_bind fun v₂ hv₂ => ?_
  rw [World.shape_of_shape? ((hv₁.trans hv₂).shape ht.shape)]
  refine .world_bind fun v₃ hv₃ => ?_
  have hv₃ := hv₁.trans (hv₂.trans hv₃)
  rw [World.shape_of_shape? ((hv.trans hv₃).shape h.ref_shape)]
  exact hthird hv₃

/-- A turn of the spiral meets the lower end on its own parameter, which makes the next turn. -/
theorem sinks_lower (hv : w ≤ v) (ht : h.Turn v e t)
    (hspan : ∀ r c u v', v ≤ v' → v.binder? c = none → h.Turn v' c u → v'.shape? r = some (.bounds u Builtin.any.type) →
      Sinks p v' (same sub h.span r)) : Sinks p v (first n sub t h.lower) := by
  obtain ⟨name, result, d, hbinder, hresult, hplain⟩ := ht.binder
  refine sinks_first ht.shape rfl (hv.shape h.lower_shape) rfl rfl (.world_bind fun v₁ hv₁ => ?_)
  rw [World.shape_of_shape? ((hv.trans hv₁).shape h.lower_shape), World.shape_of_shape? (hv₁.shape ht.shape)]
  dsimp only
  refine .world_bind fun v₂ hv₂ => ?_
  have hv₂ := hv₁.trans hv₂
  rw [hv₂.binder hbinder, (hv.trans hv₂).binder h.outer_binder]
  dsimp only
  refine .lift_bind (grows_signature n _) fun sig v₃ v₄ hv₃ hv₄ hsig => ?_
  have hle₃ := hv₂.trans hv₃
  have hparams := signature_universal (hle₃.shape ht.shape) (hle₃.binder hbinder) (hle₃.shape hresult) hplain hsig
  refine .lift_bind (grows_signature n _) fun sig' v₅ v₆ hv₅ hv₆ hsig' => ?_
  have hle₅ := hle₃.trans (hv₄.trans hv₅)
  have hparams' := signature_universal ((hv.trans hle₅).shape h.lower_shape) ((hv.trans hle₅).binder h.outer_binder)
    ((hv.trans hle₅).shape h.outer_result) h.result_plain hsig'
  have hmatches : sig.matches sig' := by rw [Signature.matches, hparams, hparams', decide_eq_true_iff]
  have harity : Binder.arity { kind := .universal, names := [name], infos := [h.span], result } = h.outer.arity :=
    h.outer_arity.symm
  rw [hmatches, harity, h.outer_infos, if_neg (by simp)]
  refine .andThen (Sinks.allM (a := (h.span, h.bound)) (l := []) (.lift_bind (grows_substBinder n _ _ _) ?_))
  intro r v₇ v₈ hv₇ hv₈ hsubst
  have hle₇ := hle₅.trans (hv₆.trans hv₇)
  have hkind : v₇.binderKind? e = some .universal := congrArg (Option.map _) (hle₇.binder hbinder)
  obtain ⟨-, c, u, hfresh, hturn, hr⟩ := h.turn_bound (hv.trans hle₇) hkind ht.ne hsubst
  refine hspan r c u v₈ (hle₇.trans hv₈) ?_ hturn hr
  cases hc : v.binder? c with
  | none => rfl
  | some b => exact (hle₇.binder hc).symm.trans hfresh

/-- The bounds of the two parameters are compared by their lower ends first. -/
theorem sinks_span (hv : w ≤ v) {r : Ty} (hr : v.shape? r = some (.bounds u Builtin.any.type))
    (hturn : Sinks p v (sub u h.ref)) : Sinks p v (first n sub h.span r) := by
  refine sinks_first (hv.shape h.span_shape) rfl hr rfl rfl (.world_bind fun v₁ hv₁ => ?_)
  rw [World.shape_of_shape? (hv₁.shape hr), World.shape_of_shape? ((hv.trans hv₁).shape h.span_shape)]
  exact (hturn.later hv₁).andThen

/-- **A spiral goes down without end**: every turn is compared with the abstract type through the next turn, and no pair
comes back. The induction is on the allowance. -/
theorem sinks_turn (hstd : w.Standard) (n : Nat) : ∀ {p : Place} {v : World} {e : BinderId} {t : Ty}, w ≤ v → p.Steady →
    h.Turn v e t → (∀ q ∈ p.pending, h.Met v q ∧ q.1 ≠ t) → Sinks p v (isSubType n t h.ref) := by
  induction n using Nat.strongRecOn with | ind n ih => ?_
  intro p v e t hv hp ht hmet
  have hpresent {x : Ty} {d : Shape} {v' : World} (hv' : v ≤ v') (hx : v'.shape? x = some d) (hd : d ≠ .fixed .noType) :
      x.present := (hstd.grow (hv.trans hv')).present hx hd
  obtain _ | n := n
  · exact fun _ _ _ _ _ _ _ hr => nomatch hr
  have hpt := hpresent le_rfl ht.shape nofun
  refine sinks_isSubType hp hpt (hpresent le_rfl (hv.shape h.ref_shape) nofun) ?_ ?_ fun p₁ hp₁ => sinks_ref hv ht ?_
  · rintro rfl
    cases ht.shape.symm.trans (hv.shape h.ref_shape)
  · exact fun hmem => (hmet _ hmem).2 rfl
  have hpending₁ (q : Ty × Ty) (hq : q ∈ p₁.pending) : q = (t, h.ref) ∨ h.Met v q ∧ q.1 ≠ t :=
    (hp₁.pending_subset hq).imp_right (hmet q)
  obtain _ | n := n
  · exact fun _ _ _ _ _ _ _ hr => nomatch hr
  refine sinks_isSubType (hp₁.steady hp) hpt (hpresent le_rfl (hv.shape h.lower_shape) nofun) ?_ ?_
    fun p₂ hp₂ => sinks_lower hv ht fun r c u v' hv' hc hu hr => ?_
  · rintro rfl
    cases ht.shape.symm.trans (hv.shape h.lower_shape)
    exact ht.ne List.mem_cons_self
  · intro hmem
    rcases hpending₁ _ hmem with heq | ⟨-, hne⟩
    · cases (h.ref_shape.symm.trans ((Prod.mk.inj heq).2 ▸ h.lower_shape))
    · exact hne rfl
  have hspan := (hv.trans hv').shape h.span_shape
  have hne : h.span ≠ r := by
    rintro rfl
    cases hr.symm.trans hspan
    cases hu.shape.symm.trans ((hv.trans hv').shape h.ref_shape)
  refine .same hne (hpresent hv' hspan nofun) (hpresent hv' hr nofun) ?_
  obtain _ | n := n
  · exact fun _ _ _ _ _ _ _ hr => nomatch hr
  have hpending₂ (q : Ty × Ty) (hq : q ∈ p₂.pending) : h.Met v q := by
    rcases hp₂.pending_subset hq with rfl | hq
    · exact ht.met hv
    · rcases hpending₁ q hq with rfl | ⟨hmet, -⟩
      · exact ht.met hv
      · exact hmet
  refine sinks_isSubType (hp₂.steady (hp₁.steady hp)) (hpresent hv' hspan nofun) (hpresent hv' hr nofun) hne ?_
    fun p₃ hp₃ => sinks_span (hv.trans hv') hr ?_
  · intro hmem
    obtain ⟨u', e', hr', hu', he'⟩ := (hpending₂ _ hmem).second rfl
    cases (hv'.shape hr').symm.trans hr
    cases (hv'.shape hu').symm.trans hu.shape
    rw [hc] at he'
    cases he'
  refine ih n (by omega) (hv.trans hv') (hp₃.steady (hp₂.steady (hp₁.steady hp))) hu fun q hq => ?_
  rcases hp₃.pending_subset hq with rfl | hq
  · refine ⟨⟨⟨_, hspan, nofun⟩, fun _ => ⟨u, c, hr, hu.shape, ?_⟩⟩, ?_⟩
    · obtain ⟨_, _, _, hbinder, -⟩ := hu.binder
      exact Option.isSome_of_eq_some hbinder
    · rintro rfl
      cases hspan.symm.trans hu.shape
  · exact ⟨(hpending₂ q hq).grow hv', (hpending₂ q hq).ne hv' hu hc⟩

/-- Bounds `>: A` are compared with bounds above a turn without end. -/
theorem sinks_bounds (hstd : w.Standard) (n : Nat) (hv : w ≤ v) (hp : p.Steady) (hpending : p.pending = [])
    (hr : v.shape? u = some (.bounds t Builtin.any.type)) (ht : h.Turn v e t) : Sinks p v (isSubType n h.span u) := by
  obtain _ | n := n
  · exact fun _ _ _ _ _ _ _ hr => nomatch hr
  have hspan := hv.shape h.span_shape
  have hstd' := hstd.grow hv
  refine sinks_isSubType hp (hstd'.present hspan nofun) (hstd'.present hr nofun) ?_ ?_ fun p' hp' => ?_
  · intro heq
    have href := hv.shape h.ref_shape
    rw [heq, hr] at hspan
    cases hspan
    cases href.symm.trans ht.shape
  · rw [hpending]
    exact List.not_mem_nil
  · refine sinks_span hv hr (sinks_turn hstd n hv (hp'.steady hp) ht fun q hq => ?_)
    obtain rfl : q = (h.span, u) := (hp'.pending_subset hq).resolve_right (hpending ▸ List.not_mem_nil)
    refine ⟨⟨⟨_, hspan, nofun⟩, fun _ => ⟨t, e, hr, ht.shape, ?_⟩⟩, ?_⟩
    · obtain ⟨_, _, _, hbinder, -⟩ := ht.binder
      exact Option.isSome_of_eq_some hbinder
    · rintro rfl
      cases hspan.symm.trans ht.shape

/-! ## Traits -/

/-- A member with bounds is compared with an argument that is bounds. -/
theorem run_fits {base info arg lo hi lo' hi' : Ty} {x : Symbol} {name : String} {c : Comparer} (hname : v.decls.name x = name)
    (hmember : Ty.member base name v = .ok (info, v')) (hinfo : v'.shape? info = some (.bounds lo hi))
    (harg : v'.shape? arg = some (.bounds lo' hi')) :
    (do let info ← Ty.member base ((← world).decls.name x)
        sub (← info.asBounds) (← arg.asBounds) : CompareM Bool) c v = sub info arg c v' := by
  rw [run_world_bind, hname, run_bind (run_lift hmember c), run_bind (run_lift (World.asBounds_run hinfo) c),
    run_bind (run_lift (World.asBounds_run harg) c)]

/-- A trait with two parameters, of which the second has bounds above a turn, never says whether a type constructor fits
whose second parameter is above `A`. -/
theorem conformsAsConstructor_unanswered (hstd : w.Standard) (hv : w ≤ v) (hp : p.Steady) (hpending : p.pending = [])
    (hlevel : p.level < p.overrun) {c : Comparer} (hc : Stands (·.slots.entries = []) p c) {m : Nat} {x y : Symbol}
    {name name' : String} {base free given lo hi : Ty} {v₁ v₂ v₃ : World} (hparams : v.openTypeParams m t = .ok [x, y])
    (hargs : v.typeArgs m u = .ok [free, given]) (hx : v.decls.name x = name) (hy : v.decls.name y = name')
    (hfree : v.shape? free = some (.bounds lo hi)) (hgiven : v.shape? given = some (.bounds r Builtin.any.type))
    (hturn : h.Turn v e r) (hskolem : t.skolem v = .ok (base, v₁)) (hfirst : Ty.member base name v₁ = .ok (free, v₂))
    (hsecond : Ty.member base name' v₂ = .ok (h.span, v₃)) (n : Nat) (s : (Bool × Comparer) × World) :
    conformsAsConstructor n (isSubType n) t u c v ≠ .ok s := by
  have hle₁ : v ≤ v₁ := (grows_skolem _).le_of_ok hskolem
  have hle₂ := hle₁.trans ((grows_member _ _).le_of_ok hfirst)
  have hle₃ := hle₂.trans ((grows_member _ _).le_of_ok hsecond)
  intro hrun
  obtain ⟨params, c₁, v₀, hread, hrun₁⟩ := run_bind_ok hrun
  obtain ⟨hopen, rfl, rfl⟩ := run_reading_ok hread
  obtain ⟨args, c₂, v₀, hread', hrun₂⟩ := run_bind_ok hrun₁
  obtain ⟨hgot, rfl, rfl⟩ := run_reading_ok hread'
  obtain rfl : params = [x, y] := Except.ok.inj <| (World.persists_openTypeParams (Nat.le_max_left n m) _ hopen).symm.trans
    (World.persists_openTypeParams (Nat.le_max_right n m) _ hparams)
  obtain rfl : args = [free, given] := Except.ok.inj <| (World.persists_typeArgs (Nat.le_max_left n m) _ hgot).symm.trans
    (World.persists_typeArgs (Nat.le_max_right n m) _ hargs)
  rw [if_neg (show ¬[x, y].length ≠ [free, given].length from Decidable.not_not.2 rfl),
    run_bind (run_lift hskolem _)] at hrun₂
  obtain ⟨fit, c₃, v₄, hfit, -⟩ := run_bind_ok hrun₂
  obtain ⟨b, c₄, v₅, hrun₃, hrest⟩ := run_bind_ok hfit
  -- the bounds of the first parameter are those of the trait's
  have hself : isSubType n free free c₂ v₂ = .ok ((b, c₄), v₅) :=
    (run_fits (hle₁.decls ▸ hx) hfirst (hle₂.shape hfree) (hle₂.shape hfree)).symm.trans hrun₃
  have hpresent : free.present := (hstd.grow hv).present hfree nofun
  obtain _ | n := n
  · cases hself
  simp only [isSubType, hpresent, Bool.not_true, Bool.or_self, Bool.false_eq_true, if_false, if_true] at hself
  cases hself
  obtain ⟨b, c₅, v₆, hrun₄, -⟩ := run_bind_ok hrest
  have hspan : isSubType (n + 1) h.span given c₂ v₃ = .ok ((b, c₅), v₆) :=
    (run_fits (hle₂.decls ▸ hy) hsecond ((hv.trans hle₃).shape h.span_shape) (hle₃.shape hgiven)).symm.trans hrun₄
  have hsinks := sinks_bounds hstd (n + 1) (hv.trans hle₃) hp hpending (hle₃.shape hgiven) (hturn.grow hle₃)
  exact hsinks.no_answer hlevel hc le_rfl hspan

/-- A trait that is not found as a base type is asked for its parameters. -/
theorem first_unanswered {s s' : Symbol} {q q' : Ty} (ht : w.shape? t = some (.named q s)) (hu : w.shape? u = some (.named q' s'))
    (hne : s ≠ s') (hname : w.decls.name s ≠ w.decls.name s') (hcls : w.decls.isClass s') (htrait : Builtin.isTrait s')
    (hbase : Ty.baseType t s' w = .ok (.noType, v)) {info : Ty} {c : Comparer} (hinfo : u.infoOf v = .ok (info, v'))
    (hno : ∀ r, conformsAsConstructor n sub t u c v' ≠ .ok r) (r : (Bool × Comparer) × World) : first n sub t u c w ≠ .ok r := by
  intro hrun
  have hv := (grows_baseType _ _).le_of_ok hbase
  have hv' := hv.trans ((grows_infoOf _).le_of_ok hinfo)
  have hcls' : v.decls.isClass s' := by rwa [hv.decls]
  have hparts : v'.boundsParts? info = none := by
    have hshape : v'.shape? info = some (.classInfo q' s') := by
      cases (infoOf_class (hv.shape hu) hcls').symm.trans hinfo
      exact TypeTable.shape?_intern v.types _
    simp only [World.boundsParts?, hshape]
  have hsymbols : s' ≠ Builtin.singleton.symbol ∧ s' ≠ Builtin.notNull.symbol := by
    constructor <;> rintro rfl <;> exact absurd htrait (by decide)
  rw [first, run_world_bind, World.shape_of_shape? hu, World.shape_of_shape? ht] at hrun
  dsimp only at hrun
  rw [if_pos (show (Shape.named q s).isNamed = true from rfl), names, run_world_bind, World.shape_of_shape? hu,
    World.shape_of_shape? ht] at hrun
  dsimp only [nameParts?] at hrun
  rw [if_neg hne, if_neg fun heq => hname heq.2, if_pos hcls] at hrun
  -- neither the names nor the base type decide
  obtain ⟨b, c₁, v₁, hfirst, hrun⟩ := run_bind_ok hrun
  cases hfirst
  obtain ⟨b, c₁, v₁, hsecond, hrun⟩ := run_bind_ok hrun
  rw [run_bind (run_lift hbase _)] at hsecond
  cases hsecond
  change thirdNamed n sub t u c v = _ at hrun
  rw [thirdNamed, run_bind (run_lift hinfo _), run_world_bind, hparts, World.shape_of_shape? (hv'.shape hu)] at hrun
  dsimp only at hrun
  rw [if_neg hsymbols.1, if_neg hsymbols.2, if_pos htrait] at hrun
  obtain ⟨b, c₁, v₁, hfirst, hrun⟩ := run_bind_ok hrun
  cases hfirst
  obtain ⟨b, c₁, v₁, hsecond, hrun⟩ := run_bind_ok hrun
  cases hsecond
  obtain ⟨b, c₁, v₁, htried, -⟩ := run_bind_ok hrun
  exact hno _ htried

end Spirals

end CompareM

end Conformance
