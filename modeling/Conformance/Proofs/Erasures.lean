import Conformance.Proofs.Bearing
import Conformance.Proofs.Renaming

/-!
# Erased names

Erasure goes along one chain, from a type to what it stands for or is made of first, until there is a class. Leaving the
guard aside, the chain comes to a name within so many steps or it does not (`World.erased?`); the guard makes no
difference but to the number of steps, because a chain that comes round does not end (`erasedName_run`). Variants have
chains that go side by side, so they have one erased name (`World.Variant.erased`) and erased parameters
(`World.Variant.paramNames`).
-/

namespace Conformance

namespace World

/-- How erasure goes on from a site: to a name, or to another site. -/
def erasing (w : World) : Site → String ⊕ Site
  | .name s =>
    if s = Builtin.any.symbol then .inl (w.decls.name Builtin.object.symbol)
    else if w.decls.isClass s then .inl (w.decls.name s)
    else .inr (w.site (w.upperOf s))
  | .ty t =>
    match w.shape t with
    | .classInfo _ cls => .inl (w.decls.name cls)
    | .refined t _ _ | .inter t _ | .byName t => .inr (w.site t)
    | .union _ _ => .inl (w.decls.name Builtin.object.symbol)
    | .method b | .universal b => ((w.binder? b).map fun d => Sum.inr (w.site d.result)).getD (.inl "")
    | .fixed _ | .bounds .. => .inl ""
    | d =>
      match w.moveFrom d with
      | .on M => .inr M
      | _ => .inl ""

/-- The name that erasure comes to in fewer than `n` steps from a site to the next. -/
def erased? (w : World) : Nat → Site → Option String
  | 0, _ => none
  | n + 1, N =>
    match w.erasing N with
    | .inl name => some name
    | .inr M => w.erased? n M

/-- The erased name of a type, as far as the guard lets the chain go. -/
def erased (w : World) (t : Ty) : String := (w.erased? Limits.walkDepth.toNat (w.site t)).getD ""

/-- The erased names of the parameters of a method under at most `n` universal types. -/
def paramNames (w : World) : Nat → Ty → List String
  | 0, _ => []
  | n + 1, t =>
    match w.shape t with
    | .method b => ((w.binder? b).map fun d => d.infos.map w.erased).getD []
    | .universal b => ((w.binder? b).map fun d => w.paramNames n d.result).getD []
    | _ => []

variable {w v v' : World} {ρ : Corr} {t u x : Ty} {N M : Site} {n : Nat} {r : String}

theorem erased?_succ (h : w.erased? n N = some r) : w.erased? (n + 1) N = some r := by
  induction n generalizing N with
  | zero => cases h
  | succ n ih =>
    rw [erased?] at h ⊢
    cases hN : w.erasing N with
    | inl name =>
      rw [hN] at h
      exact h
    | inr M =>
      rw [hN] at h
      exact ih h

/-- A name is come to in a least number of steps. -/
theorem erased?_least (h : w.erased? n N = some r) : ∃ k < n, w.erased? (k + 1) N = some r ∧ w.erased? k N = none := by
  induction n with
  | zero => cases h
  | succ n ih =>
    cases hn : w.erased? n N with
    | none => exact ⟨n, Nat.lt_succ_self n, h, hn⟩
    | some r' =>
      cases (erased?_succ hn).symm.trans h
      obtain ⟨k, hk, hr⟩ := ih hn
      exact ⟨k, by omega, hr⟩

/-! ## Walks of erasure -/

section Walks

variable {next : Ty → WalkM String} {g g' : Guard Ty}

/-- How one level of erasure ends, whatever the levels above it answer. -/
theorem step_erases (ho : ρ.opens) (hM : ρ.Matches w w) (hstd : w.Standard) (hv : w ≤ v) (ht : v.IsSite t N)
    (hN : N.Known ρ) (hr : Erasure.step next t g v = .ok ((r, g'), v')) :
    match w.erasing N with
    | .inl name => r = name
    | .inr M => M.Known ρ ∧ ∃ x v₁, v ≤ v₁ ∧ v₁.IsSite x M ∧ next x g v₁ = .ok ((r, g'), v') := by
  have hgoes {y z : Ty} (h : ρ.ty y y) (hyz : z = y) (hnext : next z g v = .ok ((r, g'), v')) :
      (w.site y).Known ρ ∧ ∃ x v₁, v ≤ v₁ ∧ v₁.IsSite x (w.site y) ∧ next x g v₁ = .ok ((r, g'), v') :=
    ⟨known_site hM h, z, v, le_rfl, hyz ▸ (isSite_of_known hM h).grow hv, hnext⟩
  rw [Erasure.step, Walk.run_world_bind] at hr
  cases N with
  | name s =>
    obtain ⟨q, hd⟩ := ht.name
    rw [shape_of_shape? hd] at hr
    dsimp only at hr
    rw [erasing]
    by_cases hs : s = Builtin.any.symbol
    · rw [if_pos hs, hv.decls] at hr
      rw [if_pos hs]
      cases hr
      rfl
    rw [if_neg hs, hv.decls] at hr
    rw [if_neg hs]
    by_cases hclass : w.decls.isClass s
    · rw [if_pos hclass] at hr ⊢
      cases hr
      rfl
    · rw [if_neg hclass] at hr ⊢
      obtain ⟨x, g₁, v₁, hlift, hnext⟩ := run_bind_ok hr
      obtain ⟨hx, rfl⟩ := run_lift_ok hlift
      exact ⟨known_site hM (known_upperOf hM hN), x, v₁, (grows_upperBound t).le_of_ok hx,
        site_of_upperBound hM hN hstd hv hd hclass hx, hnext⟩
  | ty y =>
    obtain ⟨rfl, e, he, hnot⟩ := ht.ty
    obtain ⟨d, -, hd, -⟩ := hM.ty hN
    obtain rfl := Option.some.inj ((hv.shape hd).symm.trans he)
    simp only [erasing, shape_of_shape? hd]
    rw [shape_of_shape? (hv.shape hd)] at hr
    have hrest (hd' : d.isSingleton ∨ d.isVar)
        (hr : (do next (← y.underlying) : WalkM String) g v = .ok ((r, g'), v')) : ∃ M, w.moveFrom d = .on M ∧
          M.Known ρ ∧ ∃ x v₁, v ≤ v₁ ∧ v₁.IsSite x M ∧ next x g v₁ = .ok ((r, g'), v') := by
      obtain ⟨x, g₁, v₁, hlift, hnext⟩ := run_bind_ok hr
      obtain ⟨hx, rfl⟩ := run_lift_ok hlift
      obtain ⟨M, hmove, hMk, hxM⟩ := site_of_underlying hM hN hv hd hd' hx
      exact ⟨M, hmove, hMk, x, v₁, (grows_underlying y).le_of_ok hx, hxM, hnext⟩
    cases d with
    | named q s => exact absurd rfl (hnot q s)
    | classInfo q s =>
      rw [hv.decls] at hr
      cases hr
      rfl
    | union =>
      rw [hv.decls] at hr
      cases hr
      rfl
    | fixed | bounds =>
      cases hr
      rfl
    | refined p name i =>
      cases hM.parts hN hd with | refined hp _ _ =>
      exact hgoes hp rfl hr
    | inter a b =>
      cases hM.parts hN hd with | inter ha hb =>
      exact hgoes ha rfl hr
    | byName a =>
      cases hM.parts hN hd with | byName ha =>
      exact hgoes ha rfl hr
    | param p =>
      cases hM.parts hN hd with | @param b _ hb i =>
      obtain ⟨e, -, he, -⟩ := hM.scope hb
      have hinfo : v.paramInfo ⟨b, i⟩ = w.paramInfo ⟨b, i⟩ := by rw [paramInfo, paramInfo, he, hv.binder he]
      refine hgoes (hM.paramUpper hb i) ?_ hr
      rw [paramUpper, paramUpper, hinfo, CompareM.boundsParts?_later hM (hM.paramInfo hb i) hv]
    | method b =>
      cases hM.parts hN hd with | method hb =>
      obtain ⟨e, _, he, he', hparts⟩ := hM.binder ho hb
      cases he.symm.trans he'
      simp only [he]
      dsimp only at hr
      rw [hv.binder he] at hr
      exact hgoes hparts.result rfl hr
    | universal b =>
      cases hM.parts hN hd with | universal hb =>
      obtain ⟨e, _, he, he', hparts⟩ := hM.binder ho hb
      cases he.symm.trans he'
      simp only [he]
      dsimp only at hr
      rw [hv.binder he] at hr
      exact hgoes hparts.result rfl hr
    | path | self | skolem | valueParam | literal =>
      obtain ⟨M, hmove, h⟩ := hrest (.inl rfl) hr
      dsimp only
      rw [hmove]
      exact h
    | var =>
      obtain ⟨M, hmove, h⟩ := hrest (.inr rfl) hr
      dsimp only
      rw [hmove]
      exact h

/-- A chain that does not come to a name in the steps that are left ends with no name. -/
theorem erasure_of_none (ho : ρ.opens) (hM : ρ.Matches w w) (hstd : w.Standard) (n : Nat) : ∀ {ks : List Ty} {d : Nat}
    {t : Ty} {N : Site} {g g' : Guard Ty} {v v' : World} {r : String}, Climbs.Open w ks d g v → v.IsSite t N → N.Known ρ →
      Walk.descend "" Erasure.step n t g v = .ok ((r, g'), v') → w.erased? (64 - d) N = none → r = "" := by
  induction n with
  | zero =>
    intro ks d t N g g' v v' r _ _ _ hr
    cases hr
  | succ n ih =>
    intro ks d t N g g' v v' r hopen ht hN hr hnone
    rcases inside_run hr with ⟨g₁, g₂, he, hb, -⟩ | ⟨_, -, -, rfl, -⟩
    swap
    · rfl
    have hlt : d < 64 := by
      have h := Guard.depth_lt_of_enter he
      rwa [hopen.1.depth, hopen.1.bounds] at h
    rw [show 64 - d = 64 - (d + 1) + 1 by omega, erased?] at hnone
    have hstep := step_erases ho hM hstd hopen.2 ht hN hb
    revert hnone hstep
    cases w.erasing N with
    | inl name => rintro ⟨⟩
    | inr M =>
      rintro hnone ⟨hMk, x, v₁, hle, hx, hnext⟩
      exact ih ((hopen.enter he).grow hle) hx hMk hnext hnone

/-- A chain that comes to a name is not cut short: what is open has a longer way to go, so that nothing comes twice. -/
theorem erasure_of_some (ho : ρ.opens) (hM : ρ.Matches w w) (hstd : w.Standard) (n : Nat) : ∀ {ks : List Ty} {k : Nat}
    {t : Ty} {N : Site} {g g' : Guard Ty} {v v' : World} {r name : String}, Inside ks ks.length g → w ≤ v → v.IsSite t N →
      N.Known ρ → w.erased? (k + 1) N = some name → w.erased? k N = none → k + ks.length < 64 →
      (∀ x ∈ ks, ∃ M, v.IsSite x M ∧ w.erased? (k + 1) M = none) →
      Walk.descend "" Erasure.step n t g v = .ok ((r, g'), v') → r = name := by
  induction n with
  | zero =>
    intro ks k t N g g' v v' r name _ _ _ _ _ _ _ _ hr
    cases hr
  | succ n ih =>
    intro ks k t N g g' v v' r name hg hv ht hN hsome hnone hk hopen hr
    have hfree : t ∉ ks := by
      intro hmem
      obtain ⟨M, htM, hM'⟩ := hopen t hmem
      rw [htM.unique ht, hsome] at hM'
      cases hM'
    obtain ⟨g₀, henter, hg₀⟩ := hg.enter hfree (by omega) (by omega)
    rcases inside_run hr with ⟨g₁, g₂, he, hb, -⟩ | ⟨e, he, hrefused, -⟩
    swap
    · cases he.symm.trans henter
      cases hrefused
    cases he.symm.trans henter
    have hstep := step_erases ho hM hstd hv ht hN hb
    have hsome' := hsome
    rw [erased?] at hsome'
    cases hN' : w.erasing N with
    | inl name' =>
      rw [hN'] at hstep hsome'
      exact hstep.trans (Option.some.inj hsome')
    | inr M =>
      rw [hN'] at hstep hsome'
      obtain ⟨hMk, x, v₁, hle, hx, hnext⟩ := hstep
      cases k with
      | zero => cases hsome'
      | succ k =>
        have hbefore {M : Site} (h : w.erased? (k + 1 + 1) M = none) : w.erased? (k + 1) M = none := by
          cases hM' : w.erased? (k + 1) M with
          | none => rfl
          | some name' => exact (erased?_succ hM').symm.trans h
        have hnone' := hnone
        rw [erased?, hN'] at hnone'
        refine ih hg₀ (hv.trans hle) hx hMk hsome' hnone' (by simp only [List.length_cons]; omega) ?_ hnext
        intro y hy
        rcases List.mem_cons.1 hy with rfl | hy
        · exact ⟨N, ht.grow hle, hnone⟩
        · obtain ⟨M', hM', h⟩ := hopen y hy
          exact ⟨M', hM'.grow hle, hbefore h⟩

/-- **The erased name is what the chain comes to**, wherever it is asked for. -/
theorem erasedName_run (ho : ρ.opens) (hM : ρ.Matches w w) (hstd : w.Standard) (kt : ρ.ty t t) (hv : w ≤ v) :
    ∃ v', t.erasedName v = .ok (w.erased t, v') ∧ v ≤ v' := by
  obtain ⟨r, v', hr, hle⟩ := (grows_erasedName t : Grows False t.erasedName).total v
  refine ⟨v', ?_, hle⟩
  suffices hname : r = w.erased t by rw [hr, hname]
  obtain ⟨g, hwalk⟩ := descend_of_run hr
  have ht := (isSite_of_known hM kt).grow hv
  have hN : (w.site t).Known ρ := known_site hM kt
  rw [erased]
  cases h : w.erased? Limits.walkDepth.toNat (w.site t) with
  | none => exact erasure_of_none ho hM hstd _ (d := 0) ⟨⟨rfl, rfl, rfl⟩, hv⟩ ht hN hwalk h
  | some name =>
    obtain ⟨k, hk, hsome, hnone⟩ := erased?_least h
    exact erasure_of_some ho hM hstd _ inside_start hv ht hN hsome hnone hk (by rintro _ ⟨⟩) hwalk

end Walks

/-! ## Variants -/

section Variants

variable {s : Pairing}

/-- Parameters of binders that stand for each other have chains that go side by side for `k` steps. -/
def Agrees (w : World) (s : Pairing) (k : Nat) : Prop :=
  ∀ p q i, s.rel p q → w.erased? k (w.site (w.paramInfo ⟨p, i⟩)) = w.erased? k (w.site (w.paramInfo ⟨q, i⟩)) ∧
    w.erased? k (w.site (w.paramUpper ⟨p, i⟩)) = w.erased? k (w.site (w.paramUpper ⟨q, i⟩))

/-- The ends of bounds are variants of each other. -/
theorem Variant.boundsParts (h : w.Variant n s t u) : (w.boundsParts? t = none ∧ w.boundsParts? u = none) ∨
    ∃ m lo hi lo' hi', w.boundsParts? t = some (lo, hi) ∧ w.boundsParts? u = some (lo', hi') ∧ w.Variant m s hi hi' := by
  cases n with
  | zero => exact h.elim
  | succ n =>
    cases h with
    | @leaf d shape isLeaf eq =>
      have hnone : w.boundsParts? t = none := by
        rw [boundsParts?, shape]
        cases d <;> first | rfl | cases isLeaf
      exact .inl ⟨hnone, eq ▸ hnone⟩
    | @param _ _ k _ _ _ _ shape₁ shape₂ =>
      refine .inl ⟨?_, ?_⟩ <;> rw [boundsParts?] <;> simp only [shape₁, shape₂] <;> cases k <;> rfl
    | layer shape₁ shape₂ parts =>
      cases parts with
      | bounds hlo hhi => exact .inr ⟨n, _, _, _, _, by rw [boundsParts?, shape₁], by rw [boundsParts?, shape₂], hhi⟩
      | _ => exact .inl ⟨by rw [boundsParts?, shape₁], by rw [boundsParts?, shape₂]⟩
    | @binder _ _ d e shape₁ shape₂ =>
      refine .inl ⟨?_, ?_⟩ <;> rw [boundsParts?] <;> simp only [shape₁, shape₂] <;> cases d.kind <;> cases e.kind <;> rfl

theorem paramInfo_of_binder {b : BinderId} {d : Binder} (hb : w.binder? b = some d) (i : Nat) :
    w.paramInfo ⟨b, i⟩ = d.infos[i]?.getD .noType := by
  rw [paramInfo, hb]
  rfl

/-- Inside a pair of binders the chains of parameters go side by side as far as those of variants do. -/
theorem Agrees.bind {b c : BinderId} {d e : Binder} {k : Nat} (hs : ∀ j < k, w.Agrees s j) (hb : w.binder? b = some d)
    (hc : w.binder? c = some e) (hinfos : List.Forall₂ (w.Variant n (s.bind b c)) d.infos e.infos)
    (hvariants : ∀ j < k, ∀ {n : Nat} {s : Pairing} {t u : Ty}, (∀ i < j, w.Agrees s i) → w.Variant n s t u →
      w.erased? j (w.site t) = w.erased? j (w.site u)) : ∀ j < k, w.Agrees (s.bind b c) j := by
  intro j
  induction j using Nat.strongRecOn with
  | ind j ih =>
    rintro hj p q i (⟨rfl, rfl⟩ | ⟨-, -, hpq⟩)
    swap
    · exact hs j hj p q i hpq
    have hsame {m : Nat} {t u : Ty} (h : w.Variant m (s.bind p q) t u) :
        w.erased? j (w.site t) = w.erased? j (w.site u) :=
      hvariants j hj (fun i hi => ih i hi (hi.trans hj)) h
    rw [paramUpper, paramUpper, paramInfo_of_binder hb, paramInfo_of_binder hc]
    have hlength := hinfos.length_eq
    by_cases hi : i < d.infos.length
    · have hi' : i < e.infos.length := hlength ▸ hi
      have h := (List.forall₂_iff_get.1 hinfos).2 i hi hi'
      rw [List.getElem?_eq_getElem hi, List.getElem?_eq_getElem hi']
      refine ⟨hsame h, ?_⟩
      rcases Variant.boundsParts h with ⟨ht, hu⟩ | ⟨m, lo, hi, lo', hi', ht, hu, hv⟩
      · dsimp only [Option.getD_some, List.get_eq_getElem] at ht hu ⊢
        rw [ht, hu]
      · dsimp only [Option.getD_some, List.get_eq_getElem] at ht hu ⊢
        rw [ht, hu]
        exact hsame hv
    · rw [List.getElem?_eq_none (Nat.le_of_not_lt hi), List.getElem?_eq_none (hlength ▸ Nat.le_of_not_lt hi)]
      exact ⟨rfl, rfl⟩

theorem site_of_shape {d : Shape} (h : w.shape? t = some d) : w.site t = .of t d := by
  rw [site, shape_of_shape? h]

/-- **The chains of variants go side by side.** -/
theorem Variant.erased? (k : Nat) : ∀ {n : Nat} {s : Pairing} {t u : Ty}, (∀ j < k, w.Agrees s j) → w.Variant n s t u →
    w.erased? k (w.site t) = w.erased? k (w.site u) := by
  induction k using Nat.strongRecOn with
  | ind k ih =>
    intro n s t u hs h
    cases k with
    | zero => rfl
    | succ k =>
      have hbefore : ∀ j < k, w.Agrees s j := fun j hj => hs j (by omega)
      cases n with
      | zero => exact h.elim
      | succ n =>
        cases h with
        | leaf _ _ eq => rw [eq]
        | @param p q l i rel _ _ shape₁ shape₂ =>
          have hagrees := hs k (Nat.lt_succ_self k) p q i rel
          rw [site_of_shape shape₁, site_of_shape shape₂]
          cases l with
          | universal =>
            simpa only [BinderKind.param, Site.of, World.erased?, erasing, shape_of_shape? shape₁,
              shape_of_shape? shape₂, moveFrom] using hagrees.2
          | method =>
            simpa only [BinderKind.param, Site.of, World.erased?, erasing, shape_of_shape? shape₁,
              shape_of_shape? shape₂, moveFrom] using hagrees.1
        | layer shape₁ shape₂ parts =>
          rw [site_of_shape shape₁, site_of_shape shape₂]
          cases parts with
          | named => rfl
          | path | union | bounds =>
            simp only [Site.of, World.erased?, erasing, shape_of_shape? shape₁, shape_of_shape? shape₂, moveFrom]
          | refined h | inter _ _ h | byName h =>
            simpa only [Site.of, World.erased?, erasing, shape_of_shape? shape₁, shape_of_shape? shape₂] using
              ih k (Nat.lt_succ_self k) hbefore h
        | @binder b c d e shape₁ shape₂ binder₁ binder₂ _ _ kind _ infos result =>
          have hinside := Agrees.bind hs binder₁ binder₂ infos fun j hj _ _ _ _ => ih j hj
          have hresult := ih k (Nat.lt_succ_self k) (fun j hj => hinside j (by omega)) result
          rw [site_of_shape shape₁, site_of_shape shape₂]
          cases hd : d.kind <;> cases he : e.kind <;>
            simpa only [hd, he, BinderKind.shape, Site.of, World.erased?, erasing, shape_of_shape? shape₁,
              shape_of_shape? shape₂, binder₁, binder₂, Option.map_some, Option.getD_some] using hresult

theorem Variant.erased (hs : ∀ j, w.Agrees s j) (h : w.Variant n s t u) : w.erased t = w.erased u := by
  rw [World.erased, World.erased, h.erased? _ fun j _ => hs j]

theorem map_erased_eq {l k : List Ty} (h : List.Forall₂ (fun t u => w.erased t = w.erased u) l k) :
    l.map w.erased = k.map w.erased := by
  have h : List.Forall₂ Eq (l.map w.erased) (k.map w.erased) :=
    List.forall₂_map_left_iff.2 (List.forall₂_map_right_iff.2 h)
  rwa [List.forall₂_eq_eq_eq] at h

/-- **Variants have the same erased parameters.** -/
theorem Variant.paramNames (k : Nat) : ∀ {n : Nat} {s : Pairing} {t u : Ty}, (∀ j, w.Agrees s j) → w.Variant n s t u →
    w.paramNames k t = w.paramNames k u := by
  induction k with
  | zero =>
    intro n s t u _ _
    rfl
  | succ k ih =>
    intro n s t u hs h
    cases n with
    | zero => exact h.elim
    | succ n =>
      cases h with
      | leaf _ _ eq => rw [eq]
      | @param _ _ l _ _ _ _ shape₁ shape₂ =>
        rw [World.paramNames, World.paramNames, shape_of_shape? shape₁, shape_of_shape? shape₂]
        cases l <;> rfl
      | layer shape₁ shape₂ parts =>
        rw [World.paramNames, World.paramNames, shape_of_shape? shape₁, shape_of_shape? shape₂]
        cases parts <;> rfl
      | @binder b c d e shape₁ shape₂ binder₁ binder₂ _ _ kind _ infos result =>
        have hinside (j : Nat) : w.Agrees (s.bind b c) j :=
          Agrees.bind (k := j + 1) (fun i _ => hs i) binder₁ binder₂ infos (fun i _ _ _ _ _ => Variant.erased? i) j
            (Nat.lt_succ_self j)
        have hnames := map_erased_eq (infos.imp fun _ _ h => h.erased hinside)
        rw [World.paramNames, World.paramNames, shape_of_shape? shape₁, shape_of_shape? shape₂, kind]
        cases d.kind with
        | universal =>
          have hresult := ih hinside result
          simpa only [BinderKind.shape, binder₁, binder₂, Option.map_some, Option.getD_some] using hresult
        | method => simpa only [BinderKind.shape, binder₁, binder₂, Option.map_some, Option.getD_some] using hnames

/-- The erased names of a list, in a world that grows. -/
theorem erasedNames_run (ho : ρ.opens) (hM : ρ.Matches w w) (hstd : w.Standard) (ts : List Ty) : ∀ {v : World},
    (∀ t ∈ ts, ρ.ty t t) → w ≤ v → ∃ v', ts.mapM Ty.erasedName v = .ok (ts.map w.erased, v') ∧ v ≤ v' := by
  induction ts with
  | nil => exact fun _ _ => ⟨_, rfl, le_rfl⟩
  | cons t ts ih =>
    intro v hts hv
    obtain ⟨v₁, ht, hle⟩ := erasedName_run ho hM hstd (hts t (.head _)) hv
    obtain ⟨v₂, hts, hle'⟩ := ih (fun t ht => hts t (.tail _ ht)) (hv.trans hle)
    refine ⟨v₂, ?_, hle.trans hle'⟩
    rw [List.mapM_cons, bind_run ht, bind_run hts]
    rfl

/-- The signature of a method consists of the erased names of its parameters and of its result. -/
theorem signature_method {b : BinderId} {d : Binder} (ho : ρ.opens) (hM : ρ.Matches w w) (hstd : w.Standard)
    (ht : w.shape? t = some (.method b)) (hb : w.binder? b = some d) (hinfos : ∀ u ∈ d.infos, ρ.ty u u)
    (hresult : ρ.ty d.result d.result) (hv : w ≤ v) (k : Nat) : ∃ v',
      t.signature (k + 1) v = .ok ({ params := d.infos.map w.erased, result := w.erased d.result }, v') ∧ v ≤ v' := by
  obtain ⟨v₁, hnames, hle⟩ := erasedNames_run ho hM hstd d.infos hinfos hv
  obtain ⟨v₂, hname, hle'⟩ := erasedName_run ho hM hstd hresult (hv.trans hle)
  refine ⟨v₂, ?_, hle.trans hle'⟩
  rw [Ty.signature, get_bind_run, shape_of_shape? (hv.shape ht)]
  simp only [hv.binder hb]
  rw [bind_run hnames, bind_run hname]
  rfl

/-- What a signature says of the parameters. -/
theorem signature_run (ho : ρ.opens) (hM : ρ.Matches w w) (hstd : w.Standard) (k : Nat) : ∀ {n : Nat} {s : Pairing}
    {t u : Ty} {v : World}, w.Variant n s t u → n ≤ k → ρ.ty t t → w ≤ v →
      ∃ sig v', t.signature k v = .ok (sig, v') ∧ v ≤ v' ∧ sig.params = w.paramNames k t := by
  induction k with
  | zero =>
    intro n s t u v h hn
    cases n with
    | zero => exact h.elim
    | succ n => exact absurd hn (Nat.not_succ_le_zero n)
  | succ k ih =>
    intro n s t u v h hn kt hv
    have hplain {d : Shape} (ht : w.shape? t = some d) (hd : ∀ k b, d ≠ BinderKind.shape k b) :
        ∃ sig v', t.signature (k + 1) v = .ok (sig, v') ∧ v ≤ v' ∧ sig.params = w.paramNames (k + 1) t := by
      obtain ⟨v', hname, hle⟩ := erasedName_run ho hM hstd kt hv
      refine ⟨{ params := [], result := w.erased t }, v', ?_, hle, ?_⟩
      · rw [Ty.signature, get_bind_run, shape_of_shape? (hv.shape ht)]
        cases d with
        | method b => exact absurd rfl (hd (.method {}) b)
        | universal b => exact absurd rfl (hd .universal b)
        | _ => exact (bind_run hname).trans rfl
      · rw [World.paramNames, shape_of_shape? ht]
        cases d with
        | method b => exact absurd rfl (hd (.method {}) b)
        | universal b => exact absurd rfl (hd .universal b)
        | _ => rfl
    cases n with
    | zero => exact h.elim
    | succ n =>
      cases h with
      | leaf shape isLeaf => exact hplain shape (by rintro (_ | _) b rfl <;> cases isLeaf)
      | @param _ _ l _ _ _ _ shape => exact hplain shape fun _ _ => param_ne_shape
      | layer shape _ parts => exact hplain shape (by rintro (_ | _) b rfl <;> cases parts)
      | @binder b c d e shape _ hb _ _ _ _ _ infos result =>
        obtain ⟨-, kb⟩ := known_inside ho hM kt shape hb
        rw [World.paramNames, shape_of_shape? shape]
        cases hkind : d.kind with
        | universal =>
          obtain ⟨sig, v', hsig, hle, hparams⟩ := ih result (by omega) kb.2 hv
          refine ⟨sig, v', ?_, hle, ?_⟩
          · rw [Ty.signature, get_bind_run, shape_of_shape? (hv.shape shape)]
            simpa only [hkind, BinderKind.shape, hv.binder hb] using hsig
          · simpa only [BinderKind.shape, hb, Option.map_some, Option.getD_some] using hparams
        | method f =>
          rw [hkind] at shape
          obtain ⟨v', hsig, hle⟩ := signature_method ho hM hstd shape hb kb.1 kb.2 hv k
          refine ⟨_, v', hsig, hle, ?_⟩
          simp only [BinderKind.shape, hb, Option.map_some, Option.getD_some]

end Variants

end World

end Conformance
