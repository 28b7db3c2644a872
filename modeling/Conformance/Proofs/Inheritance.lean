import Conformance.Proofs.ClassLattice
import Conformance.Proofs.Declared
import Conformance.Proofs.Lineage

/-!
# Inheritance implies conformance

Among static classes whose parents are references to classes, a class conforms to an ancestor as long as the search for
base types comes to it within its limits, and that it does is also what `derivesFrom` answers (`isSubType_ancestor`).
The limits are 64 levels and 100,000 attempts: in a chain of 65 classes the last one does not conform to the first one
(`isSubType_deep_chain`).
-/

namespace Conformance

open Relation CompareM

/-! ## References within the limits -/

namespace World

variable {w v : World} {D : Ty → Prop} {t u : Ty} {cls d : Symbol} {p : Place} {σ : ConstraintStore} {n r : Nat}

/-- A reference conforms to one that is in reach, if the base type found there does. -/
theorem Lineage.decides_inReach (hw : w.Standard) (h : w.Lineage D) (ht : D t)
    (htc : w.shape? t = some (.named .noPrefix cls)) (hud : w.shape? u = some (.named .noPrefix d))
    (hcls : w.decls.isClass d) (hstatic : w.decls.isStatic d) (hreach : w.InReach t d) (hv : w ≤ v)
    (hroom : HasRoom p (r + 1)) (hbounds : p.bounds = .none) (hfree : (t, u) ∉ p.pending)
    (hbase : ∀ c base p' v', v ≤ v' → Opens p (t, u) p' → base ≠ t → base.present → w.Based d c base v' →
      c ∈ ascents w.above 65 t → Decides p' σ v' (isSubType (n + 1) base u) true) :
    Decides p σ v (isSubType (n + 2) t u) true := by
  have htp : t.present := hw.present htc (by simp)
  have hup : u.present := hw.present hud (by simp)
  by_cases hsame : cls = d
  · subst hsame
    exact decides_static (hv.shape htc) (hv.shape hud) (hv.decls ▸ hstatic) htp hup hroom hbounds hfree
  have htu : t ≠ u := ne_of_shape htc hud (by simp [hsame])
  refine decides_isSubType htp hup htu hroom hbounds hfree fun p' hp' => ?_
  refine yields_first_names (hv.shape htc) (hv.shape hud) hsame (hv.decls ▸ hcls) ?_
  split
  · exact Yields.orElse_true ((decides_self rfl).mono fun _ _ _ _ ⟨ha, hs⟩ => ⟨ha, rfl, hs⟩)
  · refine .orElse decides_pure fun v₁ hv₁ => .orElse_true ?_
    obtain ⟨base, v₂, hr, hv₂, hfound⟩ := h.baseType_run hw ht d (hv.trans hv₁)
    obtain ⟨c, hc⟩ := inReach_iff.1 hreach
    rw [hc] at hfound
    obtain ⟨hpresent, hbased⟩ := hfound
    have hne : base ≠ t := by
      rintro rfl
      obtain ⟨u', pre, k, -, hpre, -, hdressed⟩ := hbased
      have hshape := (hv.trans (hv₁.trans hv₂)).shape htc
      cases hdressed with
      | bare =>
        cases htc.symm.trans hpre
        exact hsame rfl
      | refined _ hrefined => cases hshape.symm.trans hrefined
    have hmem : c ∈ ascents w.above 65 t := List.mem_of_mem_take (List.mem_of_find?_eq_some hc)
    refine .bind (yields_run hr hv₂) fun base' σ' v' _ ⟨hb, hs, hv'⟩ => ?_
    subst hb hs hv'
    rw [if_pos (by simp [hpresent, hne])]
    refine (hbase c base' p' v' (hv₁.trans hv₂) hp' hne hpresent hbased hmem).mono fun _ _ _ _ ⟨ha, hs⟩ => ?_
    exact ⟨ha, rfl, hs⟩

/-! ## Hierarchies of static classes -/

/-- The classes in `D` are static, their parents are references to classes in `D`, and none is its own ancestor. -/
structure Inheriting (w : World) (D : Symbol → Prop) : Prop where
  isClass : ∀ {s}, D s → w.decls.isClass s
  isStatic : ∀ {s}, D s → w.decls.isStatic s
  parents : ∀ {s t}, D s → t ∈ w.decls.parents s → ∃ pre s', w.shape? t = some (.named pre s') ∧ D s'
  acyclic : ∀ {s}, D s → ¬ TransGen w.Parent s s

/-- The type is a reference to a class in `D`. -/
def RefersInto (w : World) (D : Symbol → Prop) (t : Ty) : Prop := ∃ pre s, w.shape? t = some (.named pre s) ∧ D s

namespace Inheriting

variable {D : Symbol → Prop} {s s' : Symbol} {pre : Ty}

theorem inside (h : w.Inheriting D) (hs : D s) (hp : w.Parent s s') : D s' := by
  obtain ⟨t, ht, pre, hpre⟩ := hp
  obtain ⟨pre', s'', hpre', hs'⟩ := h.parents hs ht
  cases hpre.symm.trans hpre'
  exact hs'

/-- What lies above a reference to a class are references to its ancestors. -/
theorem derives_of_above (h : w.Inheriting D) (ht : w.shape? t = some (.named pre s)) (hs : D s)
    (htu : TransGen (fun a b => b ∈ w.above a) t u) :
    ∃ pre' s', w.shape? u = some (.named pre' s') ∧ D s' ∧ TransGen w.Parent s s' := by
  have hstep : ∀ {a b : Ty} {pre : Ty} {s : Symbol}, w.shape? a = some (.named pre s) → D s → b ∈ w.above a →
      ∃ pre' s', w.shape? b = some (.named pre' s') ∧ D s' ∧ w.Parent s s' := by
    intro a b pre s ha hs hb
    rw [above_named ha] at hb
    obtain ⟨pre', s', hb', hs'⟩ := h.parents hs hb
    exact ⟨pre', s', hb', hs', b, hb, pre', hb'⟩
  induction htu with
  | single hu =>
    obtain ⟨pre', s', hshape, hs', hparent⟩ := hstep ht hs hu
    exact ⟨pre', s', hshape, hs', .single hparent⟩
  | tail _ hu ih =>
    obtain ⟨pre', s', hshape, hs', hss'⟩ := ih
    obtain ⟨pre'', s'', hshape', hs'', hparent⟩ := hstep hshape hs' hu
    exact ⟨pre'', s'', hshape', hs'', .tail hss' hparent⟩

theorem above_of_derives (ht : w.shape? t = some (.named pre s)) (hss' : w.Derives s s') :
    ∃ u pre', ReflTransGen (fun a b => b ∈ w.above a) t u ∧ w.shape? u = some (.named pre' s') := by
  induction hss' using ReflTransGen.head_induction_on generalizing t pre with
  | refl => exact ⟨t, pre, .refl, ht⟩
  | head hparent _ ih =>
    obtain ⟨t', ht', pre', hshape⟩ := hparent
    obtain ⟨u, pre'', hu, hshape'⟩ := ih hshape
    refine ⟨u, pre'', .head ?_ hu, hshape'⟩
    rwa [above_named ht]

theorem lineage (h : w.Inheriting D) : w.Lineage (w.RefersInto D) where
  shape := by
    rintro t ⟨pre, s, ht, hs⟩
    exact .inl ⟨pre, s, ht, h.isClass hs⟩
  closed := by
    rintro t u ⟨pre, s, ht, hs⟩ hu
    obtain ⟨pre', s', hshape, hs', -⟩ := h.derives_of_above ht hs (.single hu)
    exact ⟨pre', s', hshape, hs'⟩
  acyclic := by
    rintro t ⟨pre, s, ht, hs⟩ hcycle
    obtain ⟨pre', s', hshape, -, hss'⟩ := h.derives_of_above ht hs hcycle
    cases ht.symm.trans hshape
    exact h.acyclic hs hss'

/-- The search comes to ancestors only. -/
theorem derives_of_inReach (h : w.Inheriting D) (ht : w.shape? t = some (.named pre s)) (hs : D s)
    (hreach : w.InReach t d) : w.Derives s d := by
  obtain ⟨c, hc, -, hhit⟩ := hreach
  obtain ⟨u, hu, htu⟩ := reaches_of_mem_ascents (List.mem_of_mem_take hc)
  rw [hu] at hhit
  rcases reflTransGen_iff_eq_or_transGen.1 htu with rfl | htu
  · rw [Option.any_some, refersTo_named ht, decide_eq_true_eq] at hhit
    exact hhit ▸ .refl
  · obtain ⟨pre', s', hshape, -, hss'⟩ := h.derives_of_above ht hs htu
    rw [Option.any_some, refersTo_named hshape, decide_eq_true_eq] at hhit
    exact hhit ▸ hss'.to_reflTransGen

/-- Where no search meets a limit every ancestor is in reach. -/
theorem inReach_iff_derives (h : w.Inheriting D) (ht : w.shape? t = some (.named pre s)) (hs : D s)
    (hshallow : w.Shallow t) : w.InReach t d ↔ w.Derives s d := by
  refine ⟨h.derives_of_inReach ht hs, fun hd => hshallow.inReach_iff.2 ?_⟩
  obtain ⟨u, pre', htu, hshape⟩ := above_of_derives ht hd
  exact ⟨u, htu, by rw [refersTo_named hshape]; exact decide_eq_true rfl⟩

theorem parent_grow (h : w.Inheriting D) (hs : D s) (hv : w ≤ v) (hp : v.Parent s s') : w.Parent s s' := by
  obtain ⟨t, ht, pre, hpre⟩ := hp
  rw [hv.decls] at ht
  obtain ⟨pre', s'', hpre', -⟩ := h.parents hs ht
  cases (hv.shape hpre').symm.trans hpre
  exact ⟨t, ht, pre, hpre'⟩

theorem grow (h : w.Inheriting D) (hv : w ≤ v) : v.Inheriting D where
  isClass hs := hv.decls ▸ h.isClass hs
  isStatic hs := hv.decls ▸ h.isStatic hs
  parents hs ht := by
    rw [hv.decls] at ht
    obtain ⟨pre, s', hpre, hs'⟩ := h.parents hs ht
    exact ⟨pre, s', hv.shape hpre, hs'⟩
  acyclic {s} hs hcycle := by
    have hback : ∀ {s'}, TransGen v.Parent s s' → D s' ∧ TransGen w.Parent s s' := by
      intro s' hss'
      induction hss' with
      | single hp => exact ⟨h.inside hs (h.parent_grow hs hv hp), .single (h.parent_grow hs hv hp)⟩
      | tail _ hp ih => exact ⟨h.inside ih.1 (h.parent_grow ih.1 hv hp), .tail ih.2 (h.parent_grow ih.1 hv hp)⟩
    exact h.acyclic hs (hback hcycle).2

theorem of_derives (h : w.Inheriting D) (hs : D s) (hd : w.Derives s d) : D d := by
  induction hd with
  | refl => exact hs
  | tail _ hp ih => exact h.inside ih hp

theorem derives_grow (h : w.Inheriting D) (hs : D s) (hv : w ≤ v) (hss' : v.Derives s s') : w.Derives s s' := by
  have hback : D s' ∧ w.Derives s s' := by
    induction hss' with
    | refl => exact ⟨hs, .refl⟩
    | tail _ hp ih => exact ⟨h.inside ih.1 (h.parent_grow ih.1 hv hp), .tail ih.2 (h.parent_grow ih.1 hv hp)⟩
  exact hback.2

/-- Whether the search for the base type finds one says whether the other class is in reach. -/
theorem baseType_present (hw : w.Standard) (h : w.Inheriting D) (ht : w.shape? t = some (.named pre s)) (hs : D s)
    (d : Symbol) (hv : w ≤ v) :
    ∃ base v', t.baseType d v = .ok (base, v') ∧ v ≤ v' ∧ base.present = decide (w.InReach t d) := by
  obtain ⟨base, v', hr, hv', hfound⟩ := h.lineage.baseType_run hw ⟨pre, s, ht, hs⟩ d hv
  refine ⟨base, v', hr, hv', ?_⟩
  by_cases hreach : w.InReach t d
  · obtain ⟨c, hc⟩ := inReach_iff.1 hreach
    rw [hc] at hfound
    rw [hfound.1, decide_eq_true hreach]
  · have hnone : firstHit (w.refersTo d) 64 ((ascents w.above 65 t).take 100000) = none :=
      Option.eq_none_iff_forall_not_mem.2 fun c hc => hreach (inReach_iff.2 ⟨c, hc⟩)
    rw [hnone] at hfound
    rw [hfound, decide_eq_false hreach]
    rfl

theorem inReach_self (ht : w.shape? t = some (.named pre s)) : w.InReach t s := by
  have hfirst : [t] ∈ (ascents w.above 65 t).take 100000 := by
    rw [ascents, List.take_succ_cons]
    exact List.mem_cons_self
  exact ⟨[t], hfirst, Nat.le_add_left 1 63, (refersTo_named ht).trans (decide_eq_true rfl)⟩

/-- `derivesFrom` answers, in the world with a reference to the class, whether the other class is in reach. -/
theorem derivesFrom_run (hw : w.Standard) (h : w.Inheriting D) (hs : D s) (d : Symbol) :
    ∃ t v v', s.ref w = .ok (t, v) ∧ w ≤ v ∧ v.shape? t = some (.named .noPrefix s) ∧
      s.derivesFrom d w = .ok (decide (v.InReach t d), v') := by
  obtain ⟨t, v, href⟩ : ∃ t v, s.ref w = .ok (t, v) := ⟨_, _, rfl⟩
  have hv : w ≤ v := by
    cases href
    exact le_intern _ w
  have ht : v.shape? t = some (.named .noPrefix s) := by
    cases href
    exact TypeTable.shape?_intern w.types _
  have hrun : s.derivesFrom d w = (do
      if s = d then return true
      else return (← (← s.ref).baseType d).present : WorldM Bool) w := by
    rw [Symbol.derivesFrom, get_bind_run, if_neg (by simp [h.isClass hs])]
  by_cases hsd : s = d
  · subst hsd
    rw [if_pos rfl] at hrun
    exact ⟨t, v, w, href, hv, ht, by rw [hrun, decide_eq_true (inReach_self ht)]; rfl⟩
  · obtain ⟨base, v', hr, -, hpresent⟩ := (h.grow hv).baseType_present (hw.grow hv) ht hs d le_rfl
    refine ⟨t, v, v', href, hv, ht, ?_⟩
    rw [hrun, if_neg hsd, bind_run href, bind_run hr, hpresent]
    rfl

/-- What `derivesFrom` affirms is an ancestor. -/
theorem derives_of_derivesFrom (hw : w.Standard) (h : w.Inheriting D) (hs : D s)
    (hr : s.derivesFrom d w = .ok (true, v)) : w.Derives s d := by
  obtain ⟨t, v₁, v₂, -, hv₁, ht, hr'⟩ := h.derivesFrom_run hw hs d
  have hreach : v₁.InReach t d := by
    rw [hr] at hr'
    exact of_decide_eq_true (congrArg Prod.fst (Except.ok.inj hr')).symm
  exact h.derives_grow hs hv₁ ((h.grow hv₁).derives_of_inReach ht hs hreach)

/-- A class conforms to each one in reach. -/
theorem decides_ancestor (hw : w.Standard) (h : w.Inheriting D) (ht : w.shape? t = some (.named .noPrefix s))
    (hs : D s) (hu : w.shape? u = some (.named .noPrefix d)) (hreach : w.InReach t d) (hp : p.Idle) :
    Decides p σ w (isSubType (n + 2) t u) true := by
  have hd := h.of_derives hs (h.derives_of_inReach ht hs hreach)
  refine h.lineage.decides_inReach hw ⟨_, s, ht, hs⟩ ht hu (h.isClass hd) (h.isStatic hd) hreach le_rfl
    (.of_idle hp (by decide : 2 ≤ Limits.unlimited.toNat)) hp.bounds (hp.free _)
    fun l base p' v hv hopens hne hpresent hbased hl => ?_
  obtain ⟨u', pre, k, -, hpre, hk, hdressed⟩ := hbased
  -- nothing on the way is refined, so the base type is bare
  have hbare : l.countP w.isRefined = 0 := by
    refine List.countP_eq_zero.2 fun x hx => ?_
    obtain ⟨pre, s, hshape, -⟩ := forall_mem_of_mem_ascents h.lineage.closed hl ⟨_, s, ht, hs⟩ x hx
    simp [isRefined, shape_of_shape? hshape]
  obtain rfl : k = 0 := by omega
  cases hdressed
  refine decides_static (hv.shape hpre) (hv.shape hu) (hv.decls ▸ h.isStatic hd) hpresent (hw.present hu (by simp))
    ((HasRoom.of_idle hp (by decide : 1 + 1 ≤ Limits.unlimited.toNat)).opens hopens)
    (hopens.bounds_eq.trans hp.bounds) fun hpending => ?_
  rcases hopens.pending_cases hpending with heq | hpending
  · exact hne (congrArg Prod.fst heq)
  · exact hp.free _ hpending

/-- Classes of different names of which the other one is out of reach are not compared with success, if none of the
rules for special classes applies. -/
theorem decides_outOfReach (hw : w.Standard) (h : w.Inheriting D) (ht : w.shape? t = some (.named pre s)) (hs : D s)
    {pre' : Ty} (hu : w.shape? u = some (.named pre' d)) (hcls : w.decls.isClass d)
    (hname : w.decls.name s ≠ w.decls.name d) (hreach : ¬ w.InReach t d) (hnothing : s ≠ Builtin.nothing.symbol)
    (hnull : s ≠ Builtin.null.symbol) (hmarkers : d ≠ Builtin.singleton.symbol ∧ d ≠ Builtin.notNull.symbol)
    (htrait : Builtin.isTrait d = false) (hroom : HasRoom p (r + 1)) (hbounds : p.bounds = .none)
    (hfree : (t, u) ∉ p.pending) : Decides p σ w (isSubType (n + 1) t u) false := by
  have hsd : s ≠ d := fun hsd => hname (hsd ▸ rfl)
  have htu : t ≠ u := ne_of_shape ht hu (by simp [hsd])
  refine decides_isSubType (hw.present ht (by simp)) (hw.present hu (by simp)) htu hroom hbounds hfree fun p' hp' => ?_
  refine yields_first_names ht hu hsd hcls ?_
  rw [if_neg hname]
  refine .orElse decides_pure fun v₁ hv₁ => .orElse ?_ fun v₂ hv₂ => ?_
  · obtain ⟨base, v₂, hr, hv₂, hpresent⟩ := h.baseType_present hw ht hs d hv₁
    refine .bind (yields_run hr hv₂) fun base' σ' v' _ ⟨hb, hσ, hv'⟩ => ?_
    subst hb hσ hv'
    rw [hpresent, decide_eq_false hreach, if_neg (by simp)]
    exact decides_pure
  · have hv := hv₁.trans hv₂
    refine yields_thirdNamed (hv.shape hu) (hv.decls ▸ hcls) hmarkers.1 hmarkers.2 htrait fun v₃ hv₃ => ?_
    have hv := hv.trans hv₃
    exact decides_fourth_class (hv.shape ht) (hv.decls ▸ h.isClass hs) hnothing hnull

end Inheriting

/-- What is decided wherever nothing is in progress, given enough of an allowance, is the answer. -/
theorem answers_of_decides {answer : Bool} (enough : Nat)
    (h : ∀ (n : Nat) (p : Place) (σ : ConstraintStore), p.Idle → Decides p σ w (isSubType (n + enough) t u) answer) :
    w.Answers t u answer := by
  refine ⟨enough, fun n hn c hc => ?_⟩
  obtain ⟨n, rfl⟩ := Nat.exists_eq_add_of_le' hn
  obtain ⟨_, c', w', hr, -, -, rfl, -⟩ := h n _ c.constraint hc.idle c ⟨rfl, rfl⟩
  exact ⟨c', w', hr⟩

/-- **Inheritance implies conformance** as far as the search for base types goes. Among static classes that inherit from
such classes, a class conforms to each one in reach, and `derivesFrom` answers which ones those are. If no search from
the class meets a limit, they are all its ancestors, so it conforms to whatever it inherits from and inherits from
whatever its ancestors inherit from. -/
theorem isSubType_ancestor {D : Symbol → Prop} {c : Symbol} (hw : w.Standard) (h : w.Inheriting D) (hc : D c)
    (ht : w.shape? t = some (.named .noPrefix c)) :
    (∀ d u, w.shape? u = some (.named .noPrefix d) → w.InReach t d → w.Answers t u true) ∧
      (∀ d, ∃ v, c.derivesFrom d w = .ok (decide (w.InReach t d), v)) ∧
      (w.Shallow t → (∀ d, w.InReach t d ↔ w.Derives c d) ∧ ∀ d e v v', c.derivesFrom d w = .ok (true, v) →
        d.derivesFrom e w = .ok (true, v') → ∃ v'', c.derivesFrom e w = .ok (true, v'')) := by
  have hfrom : ∀ d, ∃ v, c.derivesFrom d w = .ok (decide (w.InReach t d), v) := by
    intro d
    obtain ⟨t', v, v', href, -, -, hr⟩ := h.derivesFrom_run hw hc d
    cases (ref_run ht).symm.trans href
    exact ⟨v', hr⟩
  refine ⟨fun d u hu hreach => answers_of_decides 2 fun n p σ hp => h.decides_ancestor hw ht hc hu hreach hp, hfrom,
    fun hshallow => ?_⟩
  have hall : ∀ d, w.InReach t d ↔ w.Derives c d := fun d => h.inReach_iff_derives ht hc hshallow
  refine ⟨hall, fun d e v v' hcd hde => ?_⟩
  have hcd := h.derives_of_derivesFrom hw hc hcd
  have hde := h.derives_of_derivesFrom hw (h.of_derives hc hcd) hde
  obtain ⟨v'', hce⟩ := hfrom e
  exact ⟨v'', by rw [hce, decide_eq_true ((hall e).2 (hcd.trans hde))]⟩

/-! ### A chain of 65 classes -/

/-- The classes in the list are static, and their parents are references to classes in the list. -/
def inheritsWithin (ss : List Symbol) (w : World) : Bool :=
  ss.all fun s => w.decls.isClass s && w.decls.isStatic s && (w.decls.parents s).all fun t =>
    match w.shape? t with
    | some (.named _ s') => ss.contains s'
    | _ => false

theorem Ordered.inheriting (hw : w.Ordered) {ss : List Symbol} (h : inheritsWithin ss w) : w.Inheriting (· ∈ ss) := by
  simp only [inheritsWithin, List.all_eq_true, Bool.and_eq_true] at h
  refine ⟨fun hs => (h _ hs).1.1, fun hs => (h _ hs).1.2, fun {s t} hs ht => ?_, fun _ => hw.acyclic _⟩
  have hparent := (h s hs).2 t ht
  split at hparent
  · next pre s' hshape => exact ⟨pre, s', hshape, List.contains_iff_mem.1 hparent⟩
  · cases hparent

/-- The classes of a chain and those above it. -/
def chainClasses (n : Nat) : List Symbol :=
  Builtin.object.symbol :: Builtin.any.symbol :: (List.range (n + 1)).map link

theorem mem_chainClasses {n i : Nat} (hi : i ≤ n) : link i ∈ chainClasses n :=
  List.mem_cons_of_mem _ (List.mem_cons_of_mem _ (List.mem_map_of_mem (List.mem_range.2 (Nat.lt_succ_of_le hi))))

/-- Three classes: the last one conforms to the first one. -/
theorem isSubType_ancestor_chain : ∃ w : World, w.Standard ∧ w.Inheriting (· ∈ chainClasses 2) ∧
    w.shape? (linkRef 2) = some (.named .noPrefix (link 2)) ∧ w.InReach (linkRef 2) (link 0) ∧
    w.Answers (linkRef 2) (linkRef 0) true := by
  have hcheck : (chained (fun w r => r.Searched w) 2).any (fun w =>
      isChain 2 w && inheritsWithin (chainClasses 2) w && decide (w.InReach (linkRef 2) (link 0))) = true := by
    decide
  obtain ⟨w, hw, hcheck⟩ := exists_of_any hcheck
  simp only [Bool.and_eq_true, decide_eq_true_eq] at hcheck
  obtain ⟨⟨hchain, hwithin⟩, hreach⟩ := hcheck
  have hordered := (Declared.chained hw).ordered
  have hinherits := hordered.inheriting hwithin
  have hlast := shape_linkRef hchain (Nat.le_refl 2)
  refine ⟨w, hordered.standard, hinherits, hlast, hreach, ?_⟩
  exact (isSubType_ancestor hordered.standard hinherits (mem_chainClasses (Nat.le_refl 2)) hlast).1 (link 0) (linkRef 0)
    (shape_linkRef hchain (Nat.zero_le 2)) hreach

/-- A chain of 65 classes, declared with searches that meet no limit; the first one is out of reach of the last one. -/
def deepChain : { w : World // chained (fun w r => r.Searched w) 64 = some w ∧
    (isChain 64 w && inheritsWithin (chainClasses 64) w && decide (¬ w.InReach (linkRef 64) (link 0)) &&
      decide (w.decls.name (link 64) ≠ w.decls.name (link 0))) = true } :=
  passing (by decide +kernel)

/-- A chain of 65 classes: the last one does not conform to the first one, from which it inherits. -/
theorem isSubType_deep_chain : ∃ w : World, w.Declared (fun w r => r.Searched w) ∧ w.Inheriting (· ∈ chainClasses 64) ∧
    w.Derives (link 64) (link 0) ∧ w.shape? (linkRef 64) = some (.named .noPrefix (link 64)) ∧
    w.shape? (linkRef 0) = some (.named .noPrefix (link 0)) ∧ w.Answers (linkRef 64) (linkRef 0) false := by
  obtain ⟨w, hw, hcheck⟩ := deepChain
  simp only [Bool.and_eq_true, decide_eq_true_eq] at hcheck
  obtain ⟨⟨⟨hchain, hwithin⟩, hreach⟩, hname⟩ := hcheck
  have hdeclared := Declared.chained hw
  have hinherits := hdeclared.ordered.inheriting hwithin
  have hlast := shape_linkRef hchain (Nat.le_refl 64)
  have hfirst := shape_linkRef hchain (Nat.zero_le 64)
  refine ⟨w, hdeclared, hinherits, derives_of_isChain hchain (Nat.le_refl 64), hlast, hfirst, ?_⟩
  refine answers_of_decides 2 fun n p σ hp => ?_
  exact hinherits.decides_outOfReach hdeclared.ordered.standard hlast (mem_chainClasses (Nat.le_refl 64)) hfirst
    (hinherits.isClass (mem_chainClasses (Nat.zero_le 64))) hname hreach (by decide) (by decide) (by decide)
    (by decide) (.of_idle hp (by decide : 1 ≤ Limits.unlimited.toNat)) hp.bounds (hp.free _)

end World

end Conformance
