import Conformance.Proofs.Narrowing

/-!
# Inference on a hierarchy is exact

One parameter whose declared bounds are types of a hierarchy is put under inference and asked, one comparison after the
other, to be above or below such types (`History`). The bounds that are kept are those between which the types lie that
meet all that was accepted (`SoleParam.Keeps`): a comparison that is accepted keeps them so, one that is refused changes
nothing. So a comparison is accepted exactly if some type meets it along with all that was accepted before, and either
end of the bounds is a type that meets all of it: `ask_iff_solvable`.
-/

namespace Conformance

open CompareM

/-- What is asked of a parameter: to be above a type, or below it. -/
inductive Query where
  | above (t : Ty)
  | below (t : Ty)

namespace Query

def bound : Query → Ty
  | .above t | .below t => t

/-- The comparison with the parameter `x`. -/
def ask (n : Nat) (x : Ty) : Query → CompareM Bool
  | .above t => isSubType n t x
  | .below t => isSubType n x t

/-- Whether `l` lies on the side of `bound` that is asked for. -/
def Orders {α : Type} (r : α → α → Prop) (bound l : α) : Query → Prop
  | .above _ => r bound l
  | .below _ => r l bound

/-- The type `l` is what the query asks for. -/
def Met (w : World) (l : Ty) (q : Query) : Prop := q.Orders (fun a b => w.Answers a b true) q.bound l

/-- The term `y` is what the query asks for. -/
def MetBy (w : World) (refs : Ty → Symbol → Prop) (r : Symbol → Symbol → Prop) (y : ClassTerm) (q : Query) : Prop :=
  ∃ g, w.Denotes refs q.bound g ∧ q.Orders (ClassTerm.Le r) g y

end Query

/-- A universal type, its only parameter, and the bounds of the parameter. -/
structure SoleParam where
  binder : BinderId
  poly : Ty
  x : Ty
  bounds : Ty
  lo : Ty
  hi : Ty

namespace SoleParam

def param (S : SoleParam) : Param := ⟨S.binder, 0⟩

/-- The types stand for what they are named for; the bounds are types of the hierarchy, nested at most `k` deep, one
below the other, and references have no prefix. -/
structure In (S : SoleParam) (refs : Ty → Symbol → Prop) (k : Nat) (w : World) : Prop where
  built : w.Built
  hierarchy : w.Hierarchy refs
  ref : ∀ {t s}, refs t s → w.shape? t = some (.named .noPrefix s)
  poly : w.shape? S.poly = some (.universal S.binder)
  x : w.shape? S.x = some (.param S.param)
  infos : (w.binder? S.binder).map (·.infos) = some [S.bounds]
  bounds : w.shape? S.bounds = some (.bounds S.lo S.hi)
  lo : w.LatticeType refs k S.lo
  hi : w.LatticeType refs k S.hi
  ordered : w.Answers S.lo S.hi true

/-- The queries, and those that the declared bounds stand for. -/
def asked (S : SoleParam) (queries : List Query) : List Query := queries ++ [.above S.lo, .below S.hi]

/-- The type lies within the declared bounds and meets all queries. -/
def Solves (S : SoleParam) (w : World) (queries : List Query) (l : Ty) : Prop := ∀ q ∈ S.asked queries, q.Met w l

/-- The parameter was put under inference in a fresh comparer and asked one query after the other, each about a type of
the hierarchy nested at most `k` deep, and those listed were accepted. Meanwhile the world may grow. -/
inductive History (S : SoleParam) (refs : Ty → Symbol → Prop) (k n : Nat) (w₀ : World) :
    List Query → Comparer → World → Prop
  | start {options : Options} {c₀ c : Comparer} {w₁ w : World} (hnew : Comparer.new options w₀ = .ok (c₀, w₁))
    (htrack : track n S.poly c₀ w₁ = .ok ((.ok S.poly, c), w)) : History S refs k n w₀ [] c w
  | grow {queries : List Query} {c : Comparer} {w v : World} (h : History S refs k n w₀ queries c w) (hv : w ≤ v) :
    History S refs k n w₀ queries c v
  | accept {queries : List Query} {c c' : Comparer} {w w' : World} (h : History S refs k n w₀ queries c w) (q : Query)
    (hq : w.LatticeType refs k q.bound) (hrun : q.ask n S.x c w = .ok ((true, c'), w')) :
    History S refs k n w₀ (q :: queries) c' w'
  | refuse {queries : List Query} {c c' : Comparer} {w w' : World} (h : History S refs k n w₀ queries c w) (q : Query)
    (hq : w.LatticeType refs k q.bound) (hrun : q.ask n S.x c w = .ok ((false, c'), w')) :
    History S refs k n w₀ queries c' w'

end SoleParam

/-! ## Choosing an end of the bounds -/

section Choosing

variable {w : World} {refs : Ty → Symbol → Prop} {t : Ty} {e : ClassTerm} {n : Nat} {x : Param}

/-- What is no refinement has its children rewritten. -/
theorem dropRefinements_run {d : Shape} (ht : w.shape? t = some d)
    (hd : ∀ parent name info, d ≠ .refined parent name info) :
    Ty.dropRefinements x (n + 1) t w = Ty.mapChildren (Ty.dropRefinements x n) (Ty.substBinder n) t w := by
  rw [Ty.dropRefinements, get_bind_run, World.shape_of_shape? ht]
  split
  · exact absurd rfl (hd _ _ _)
  · rfl

theorem rebuild₁_same {f : Ty → WorldM Ty} {a : Ty} {make : Ty → WorldM Ty} (ha : f a w = .ok (a, w)) :
    Ty.rebuild₁ f t a make w = .ok (t, w) := by
  rw [Ty.rebuild₁, bind_run ha, if_pos rfl]
  rfl

theorem rebuild₂_same {f : Ty → WorldM Ty} {a b : Ty} {make : Ty → Ty → WorldM Ty} (ha : f a w = .ok (a, w))
    (hb : f b w = .ok (b, w)) : Ty.rebuild₂ f t a b make w = .ok (t, w) := by
  rw [Ty.rebuild₂, bind_run ha, bind_run hb, if_pos ⟨rfl, rfl⟩]
  rfl

/-- A type that mentions no parameter loses nothing. -/
theorem dropRefinements_term (hpre : w.shape? .noPrefix = some (.fixed .noPrefix))
    (href : ∀ {t s}, refs t s → w.shape? t = some (.named .noPrefix s)) (ht : w.Denotes refs t e) :
    ∀ {n}, e.depth + 2 ≤ n → Ty.dropRefinements x n t w = .ok (t, w) := by
  induction ht with
  | @ref t s hs =>
    intro n hn
    obtain ⟨n, rfl⟩ : ∃ m, n = m + 2 := ⟨n - 2, by omega⟩
    have hprefix : Ty.dropRefinements x (n + 1) .noPrefix w = .ok (.noPrefix, w) := by
      rw [dropRefinements_run hpre (by simp), Ty.mapChildren, get_bind_run, World.shape_of_shape? hpre]
      rfl
    rw [dropRefinements_run (href hs) (by simp), Ty.mapChildren, get_bind_run, World.shape_of_shape? (href hs)]
    exact rebuild₁_same hprefix
  | @inter t a b e f ht ha hb iha ihb =>
    intro n hn
    simp only [ClassTerm.depth] at hn
    obtain ⟨n, rfl⟩ : ∃ m, n = m + 1 := ⟨n - 1, by omega⟩
    rw [dropRefinements_run ht (by simp), Ty.mapChildren, get_bind_run, World.shape_of_shape? ht]
    exact rebuild₂_same (iha (by omega)) (ihb (by omega))
  | @union t a b e f ht ha hb iha ihb =>
    intro n hn
    simp only [ClassTerm.depth] at hn
    obtain ⟨n, rfl⟩ : ∃ m, n = m + 1 := ⟨n - 1, by omega⟩
    rw [dropRefinements_run ht (by simp), Ty.mapChildren, get_bind_run, World.shape_of_shape? ht]
    exact rebuild₂_same (iha (by omega)) (ihb (by omega))

/-- Choosing the only parameter under inference leaves nothing to replace it in. -/
theorem subst_sole {s : ConstraintStore} {b : BinderId} {bounds inst : Ty} (hs : s.slots.entries = [(b, [bounds])])
    (hbounds : bounds.present) : ∃ s' v, s.subst n ⟨b, 0⟩ inst w = .ok (s', v) ∧ w ≤ v := by
  obtain ⟨⟨entries⟩, k⟩ := s
  obtain rfl : entries = [(b, [bounds])] := hs
  have hwithout : ConstraintStore.without ⟨⟨[(b, [bounds])]⟩, k⟩ ⟨b, 0⟩ w =
      .ok (⟨⟨[]⟩, w.snapshots⟩, { w with snapshots := w.snapshots + 1 }) := by
    simp [ConstraintStore.without, ConstraintStore.slots?, InsertionMap.find?, InsertionMap.erase, hbounds,
      Option.filter, ConstraintStore.ofSlots]
    rfl
  refine ⟨⟨⟨[]⟩, w.snapshots⟩, { w with snapshots := w.snapshots + 1 }, ?_, ?_⟩
  · show Except.bind (ConstraintStore.without ⟨⟨[(b, [bounds])]⟩, k⟩ ⟨b, 0⟩ w) _ = _
    rw [hwithout]
    rfl
  · exact ⟨id, id, rfl, Nat.le_refl _, rfl⟩

end Choosing

/-! ## What is kept -/

namespace Query

variable {w₀ w v : World} {refs : Ty → Symbol → Prop} {r : Symbol → Symbol → Prop} {q : Query} {g y : ClassTerm}
  {l : Ty}

theorem metBy_iff (h : w₀.Hierarchy refs) (hw : w₀ ≤ w) (hq : w.Denotes refs q.bound g) :
    q.MetBy w refs r y ↔ q.Orders (ClassTerm.Le r) g y := by
  constructor
  · rintro ⟨g', hg', hy⟩
    rwa [hq.unique h hw hg']
  · exact fun hy => ⟨g, hq, hy⟩

theorem metBy_grow_iff (h : w₀.Hierarchy refs) (hw : w₀ ≤ w) (hq : w.Denotes refs q.bound g) (hv : w ≤ v) :
    q.MetBy v refs r y ↔ q.MetBy w refs r y := by
  rw [metBy_iff h hw hq, metBy_iff h (hw.trans hv) (hq.grow hv)]

/-- A type meets a query as its term does. -/
theorem met_iff (h : w₀.Hierarchy refs) (hbuilt : w₀.Built) (hw : w₀ ≤ w) (hq : w.Denotes refs q.bound g)
    (hl : w.Denotes refs l y) (hroom : g.depth + y.depth + 2 ≤ Limits.unlimited.toNat) :
    q.Met w l ↔ q.MetBy w refs w₀.Below y := by
  rw [metBy_iff h hw hq]
  cases q with
  | above t => exact h.accepts_iff hbuilt hw hq hl hroom
  | below t => exact h.accepts_iff hbuilt hw hl hq (by omega)

end Query

namespace SoleParam

variable {S : SoleParam} {refs : Ty → Symbol → Prop} {k d n : Nat} {w₀ w v : World} {queries : List Query}
  {s : ConstraintStore} {p : Place}

/-- Nothing but the parameter is under inference. The ends of its bounds are terms nested at most `d` deep, and the
terms between them are those that meet all queries. -/
structure Keeps (S : SoleParam) (refs : Ty → Symbol → Prop) (k d : Nat) (w₀ w : World) (queries : List Query)
    (s : ConstraintStore) (b lo hi : Ty) (e f : ClassTerm) : Prop where
  entries : s.slots.entries = [(S.binder, [b])]
  bounds : w.shape? b = some (.bounds lo hi)
  lo : w.Denotes refs lo e
  hi : w.Denotes refs hi f
  depth_lo : e.depth ≤ d
  depth_hi : f.depth ≤ d
  ordered : ClassTerm.Le w₀.Below e f
  asked : ∀ q ∈ S.asked queries, w.LatticeType refs k q.bound
  between_iff : ∀ y, ClassTerm.Le w₀.Below e y ∧ ClassTerm.Le w₀.Below y f ↔
    ∀ q ∈ S.asked queries, q.MetBy w refs w₀.Below y

theorem asked_cons (q : Query) : S.asked (q :: queries) = q :: S.asked queries := rfl

theorem forall_asked_nil {P : Query → Prop} : (∀ q ∈ S.asked [], P q) ↔ P (.above S.lo) ∧ P (.below S.hi) := by
  simp [asked]

/-- Some bounds are kept for the queries. -/
def Kept (S : SoleParam) (refs : Ty → Symbol → Prop) (k d : Nat) (w₀ w : World) (queries : List Query)
    (s : ConstraintStore) : Prop :=
  ∃ b lo hi e f, S.Keeps refs k d w₀ w queries s b lo hi e f

namespace Keeps

variable {b lo hi : Ty} {e f g : ClassTerm} {q : Query}

theorem slot (hk : S.Keeps refs k d w₀ w queries s b lo hi e f) : Slot s S.param b :=
  ⟨[b], by simp [ConstraintStore.slots?, InsertionMap.find?, hk.entries, param], rfl⟩

theorem ranges (hk : S.Keeps refs k d w₀ w queries s b lo hi e f) : w.Ranges refs s S.param e f :=
  ⟨b, lo, hi, hk.slot, hk.bounds, hk.lo, hk.hi⟩

theorem grow (hk : S.Keeps refs k d w₀ w queries s b lo hi e f) (h : w₀.Hierarchy refs) (hw : w₀ ≤ w) (hv : w ≤ v) :
    S.Keeps refs k d w₀ v queries s b lo hi e f where
  entries := hk.entries
  bounds := hv.shape hk.bounds
  lo := hk.lo.grow hv
  hi := hk.hi.grow hv
  depth_lo := hk.depth_lo
  depth_hi := hk.depth_hi
  ordered := hk.ordered
  asked q hq := (hk.asked q hq).grow hv
  between_iff y := by
    rw [hk.between_iff y]
    refine forall₂_congr fun q hq => ?_
    obtain ⟨g, hg, -⟩ := hk.asked q hq
    exact (Query.metBy_grow_iff h hw hg hv).symm

/-- Bounds that keep one more query as well. -/
theorem cons (hk : S.Keeps refs k d w₀ w queries s b lo hi e f) (h : w₀.Hierarchy refs) (hw : w₀ ≤ w) (hv : w ≤ v)
    (hq : w.Denotes refs q.bound g) (hgk : g.depth ≤ k) {s' : ConstraintStore} {b' lo' hi' : Ty} {e' f' : ClassTerm}
    {d' : Nat}
    (hentries : s'.slots.entries = [(S.binder, [b'])]) (hb : v.shape? b' = some (.bounds lo' hi'))
    (hlo : v.Denotes refs lo' e') (hhi : v.Denotes refs hi' f') (he : e'.depth ≤ d') (hf : f'.depth ≤ d')
    (hle : ClassTerm.Le w₀.Below e' f')
    (hbetween : ∀ y, ClassTerm.Le w₀.Below e' y ∧ ClassTerm.Le w₀.Below y f' ↔
      q.Orders (ClassTerm.Le w₀.Below) g y ∧ ClassTerm.Le w₀.Below e y ∧ ClassTerm.Le w₀.Below y f) :
    S.Keeps refs k d' w₀ v (q :: queries) s' b' lo' hi' e' f' where
  entries := hentries
  bounds := hb
  lo := hlo
  hi := hhi
  depth_lo := he
  depth_hi := hf
  ordered := hle
  asked q' hq' := by
    rcases List.mem_cons.1 hq' with rfl | hq'
    · exact ⟨g, hq.grow hv, hgk⟩
    · exact (hk.asked q' hq').grow hv
  between_iff y := by
    rw [hbetween y, (hk.grow h hw hv).between_iff y, asked_cons, List.forall_mem_cons,
      Query.metBy_iff h (hw.trans hv) (hq.grow hv)]

end Keeps

/-! ## Runs -/

theorem entries_of_assigned {b : BinderId} {t t' : Ty} {s' : ConstraintStore} (hs : s.slots.entries = [(b, [t])])
    (h : Assigned s ⟨b, 0⟩ t' s') : s'.slots.entries = [(b, [t'])] := by
  obtain ⟨slots, hslots, -, hcases⟩ := h
  obtain rfl : slots = [t] := by
    simpa [ConstraintStore.slots?, InsertionMap.find?, hs] using hslots.symm
  rcases hcases with ⟨hslot, rfl⟩ | hs'
  · obtain rfl : t = t' := by simpa using hslot
    exact hs
  · simp [hs', InsertionMap.insert, InsertionMap.put, hs]

namespace Keeps

variable {b lo hi : Ty} {e f g : ClassTerm} {q : Query}

/-- Some term meets one more query exactly if it is one between the ends. -/
theorem solvable_iff (hk : S.Keeps refs k d w₀ w queries s b lo hi e f) (h : w₀.Hierarchy refs) (hw : w₀ ≤ w)
    (hq : w.Denotes refs q.bound g) (y : ClassTerm) : (∀ q' ∈ S.asked (q :: queries), q'.MetBy w refs w₀.Below y) ↔
      q.Orders (ClassTerm.Le w₀.Below) g y ∧ ClassTerm.Le w₀.Below e y ∧ ClassTerm.Le w₀.Below y f := by
  rw [asked_cons, List.forall_mem_cons, Query.metBy_iff h hw hq, hk.between_iff y]

end Keeps

/-- **One query.** It is accepted exactly if some term meets it and all queries before, and then bounds are kept for all
of them. -/
theorem In.settles_ask {g : ClassTerm} {q : Query} (hS : S.In refs k w₀) (hw : w₀ ≤ w)
    (hkept : S.Kept refs k d w₀ w queries s) (hq : w.Denotes refs q.bound g) (hg : g.depth ≤ k) (hkd : k ≤ d)
    (hp : p.Idle)
    (hroom : 2 * d + 4 ≤ Limits.unlimited.toNat) (hn : 2 * d + 3 ≤ n) :
    Yields p s w (q.ask (n + 1) S.x) (Settles s (∃ y, ∀ q' ∈ S.asked (q :: queries), q'.MetBy w refs w₀.Below y)
      fun s' v => S.Kept refs k (d + 1) w₀ v (q :: queries) s') := by
  obtain ⟨b, lo, hi, e, f, hk⟩ := hkept
  have he := hk.depth_lo
  have hf := hk.depth_hi
  have hready : p.Ready refs w (2 * d + 1 + 1) := hp.ready hroom
  simp only [hk.solvable_iff hS.hierarchy hw hq]
  cases q with
  | above t =>
    have hrun := hS.hierarchy.raises hS.built hw (hw.shape hS.x) hk.ranges hk.ordered hq hready (hp.free _) (by omega)
      (by omega) hn
    refine hrun.mono fun a s' v hv hsettles => hsettles.imp ?_ fun hgf ⟨hkeep, hraise⟩ => ?_
    · exact ⟨fun hgf => ⟨f, hgf, hk.ordered, World.le_term_refl f⟩, fun ⟨y, hgy, _, hyf⟩ => World.le_term_trans hgy hyf⟩
    by_cases hge : ClassTerm.Le w₀.Below g e
    · obtain rfl := hkeep hge
      refine ⟨b, lo, hi, e, f, hk.cons hS.hierarchy hw hv hq hg hk.entries (hv.shape hk.bounds) (hk.lo.grow hv)
        (hk.hi.grow hv) (by omega) (by omega) hk.ordered fun y => ?_⟩
      exact (and_iff_right_of_imp fun hy => World.le_term_trans hge hy.1).symm
    · obtain ⟨e', hjoin, hdepth, b', lo', hi', hassigned, hb', hlo', hhi'⟩ := hraise hge
      refine ⟨b', lo', hi', e', f, hk.cons hS.hierarchy hw hv hq hg (entries_of_assigned hk.entries hassigned) hb' hlo'
        hhi' (by omega) (by omega) ((hjoin f).2 ⟨hk.ordered, hgf⟩) fun y => ?_⟩
      rw [hjoin y]
      exact ⟨fun ⟨⟨hey, hgy⟩, hyf⟩ => ⟨hgy, hey, hyf⟩, fun ⟨hgy, hey, hyf⟩ => ⟨⟨hey, hgy⟩, hyf⟩⟩
  | below t =>
    have hrun := hS.hierarchy.lowers hS.built hw (hw.shape hS.x) hk.ranges hk.ordered hq hready (hp.free _) (by omega)
      (by omega) hn
    refine hrun.mono fun a s' v hv hsettles => hsettles.imp ?_ fun heg ⟨hkeep, hlower⟩ => ?_
    · exact ⟨fun heg => ⟨e, heg, World.le_term_refl e, hk.ordered⟩, fun ⟨y, hyg, hey, _⟩ => World.le_term_trans hey hyg⟩
    by_cases hfg : ClassTerm.Le w₀.Below f g
    · obtain rfl := hkeep hfg
      refine ⟨b, lo, hi, e, f, hk.cons hS.hierarchy hw hv hq hg hk.entries (hv.shape hk.bounds) (hk.lo.grow hv)
        (hk.hi.grow hv) (by omega) (by omega) hk.ordered fun y => ?_⟩
      exact (and_iff_right_of_imp fun hy => World.le_term_trans hy.2 hfg).symm
    · obtain ⟨f', hmeet, hdepth, b', lo', hi', hassigned, hb', hlo', hhi'⟩ := hlower hfg
      refine ⟨b', lo', hi', e, f', hk.cons hS.hierarchy hw hv hq hg (entries_of_assigned hk.entries hassigned) hb' hlo'
        hhi' (by omega) (by omega) ((hmeet e).2 ⟨hk.ordered, heg⟩) fun y => ?_⟩
      rw [hmeet y]
      exact ⟨fun ⟨hey, hyf, hyg⟩ => ⟨hyg, hey, hyf⟩, fun ⟨hyg, hey, hyf⟩ => ⟨hey, hyf, hyg⟩⟩

namespace History

variable {c : Comparer}

/-- **All queries so far.** The induction is on the history. -/
theorem kept (hS : S.In refs k w₀) (h : S.History refs k n w₀ queries c w)
    (hroom : 2 * (k + queries.length) + 4 ≤ Limits.unlimited.toNat) (hn : 2 * (k + queries.length) + 4 ≤ n) :
    w₀ ≤ w ∧ c.place.Idle ∧ S.Kept refs k (k + queries.length) w₀ w queries c.constraint := by
  induction h with
  | @start options c₀ c w₁ w hnew htrack =>
    obtain ⟨d, hd, hinfos⟩ := Option.map_eq_some_iff.1 hS.infos
    obtain ⟨c₀', w₁', c', w', hnew', htrack', hw, hentries, hplace⟩ := track_fresh hS.poly hd options n
    cases hnew.symm.trans hnew'
    cases htrack.symm.trans htrack'
    obtain ⟨e, he, hek⟩ := hS.lo
    obtain ⟨f, hf, hfk⟩ := hS.hi
    have hdepth : e.depth + f.depth + 2 ≤ Limits.unlimited.toNat := by
      rw [List.length_nil] at hroom
      omega
    have hle := (hS.hierarchy.accepts_iff hS.built le_rfl he hf hdepth).1 hS.ordered
    refine ⟨hw, ?_, S.bounds, S.lo, S.hi, e, f, ?_⟩
    · cases hnew
      rw [hplace]
      exact ⟨rfl, rfl, rfl, rfl⟩
    · have hlo := he.grow hw
      have hhi := hf.grow hw
      refine ⟨hinfos ▸ hentries, hw.shape hS.bounds, hlo, hhi, hek, hfk, hle, ?_, fun y => ?_⟩
      · rw [forall_asked_nil]
        exact ⟨⟨e, hlo, hek⟩, ⟨f, hhi, hfk⟩⟩
      · rw [forall_asked_nil]
        exact (and_congr (Query.metBy_iff (q := .above S.lo) hS.hierarchy hw hlo)
          (Query.metBy_iff (q := .below S.hi) hS.hierarchy hw hhi)).symm
  | grow _ hv ih =>
    obtain ⟨hw, hidle, b, lo, hi, e, f, hk⟩ := ih hroom hn
    exact ⟨hw.trans hv, hidle, b, lo, hi, e, f, hk.grow hS.hierarchy hw hv⟩
  | @accept queries c c' w w' _ q hq hrun ih =>
    simp only [List.length_cons] at hroom hn
    obtain ⟨hw, hidle, hkept⟩ := ih (by omega) (by omega)
    obtain ⟨g, hg, hgk⟩ := hq
    obtain ⟨n, rfl⟩ : ∃ m, n = m + 1 := ⟨n - 1, by omega⟩
    have hask := hS.settles_ask (n := n) hw hkept hg hgk (Nat.le_add_right _ _) hidle (by omega) (by omega)
    obtain ⟨a, c₁, v, hrun', hplace, hv, hsettles⟩ := hask c ⟨rfl, rfl⟩
    cases hrun.symm.trans hrun'
    exact ⟨hw.trans hv, hplace ▸ hidle, hsettles.2⟩
  | @refuse queries c c' w w' _ q hq hrun ih =>
    obtain ⟨hw, hidle, hkept⟩ := ih hroom hn
    obtain ⟨g, hg, hgk⟩ := hq
    obtain ⟨n, rfl⟩ : ∃ m, n = m + 1 := ⟨n - 1, by omega⟩
    have hask := hS.settles_ask (n := n) hw hkept hg hgk (Nat.le_add_right _ _) hidle (by omega) (by omega)
    obtain ⟨a, c₁, v, hrun', hplace, hv, hsettles⟩ := hask c ⟨rfl, rfl⟩
    cases hrun.symm.trans hrun'
    obtain ⟨b, lo, hi, e, f, hk⟩ := hkept
    exact ⟨hw.trans hv, hplace ▸ hidle, b, lo, hi, e, f, hsettles.2 ▸ hk.grow hS.hierarchy hw hv⟩

end History

/-- Either end of the bounds is what is chosen there. -/
theorem Keeps.yields_approximate {b lo hi : Ty} {e f : ClassTerm} (hS : S.In refs k w₀) (hw : w₀ ≤ w)
    (hk : S.Keeps refs k d w₀ w queries s b lo hi e f) (hn : d + 2 ≤ n) (fromBelow : Bool) :
    Yields p s w (approximate n S.param fromBelow) fun l _ _ => l = if fromBelow then lo else hi := by
  have hstd := hS.built.standard.grow hw
  have hdrop : Ty.dropRefinements S.param n (if fromBelow then lo else hi) w =
      .ok (if fromBelow then lo else hi, w) := by
    have hpre := hw.shape hS.built.shape_noPrefix
    have he := hk.depth_lo
    have hf := hk.depth_hi
    cases fromBelow with
    | true => exact dropRefinements_term hpre (fun ht => hw.shape (hS.ref ht)) hk.lo (by omega)
    | false => exact dropRefinements_term hpre (fun ht => hw.shape (hS.ref ht)) hk.hi (by omega)
  have hreplace : Yields p s w (replace n S.param (if fromBelow then lo else hi)) fun _ _ _ => True := by
    obtain ⟨s', v, hsubst, hv⟩ : ∃ s' v, s.subst n S.param (if fromBelow then lo else hi) w = .ok (s', v) ∧ w ≤ v :=
      subst_sole hk.entries (hstd.present hk.bounds (by simp))
    refine .get_bind fun c _ hc => ?_
    show Yields p s w (liftM (c.constraint.subst n S.param (if fromBelow then lo else hi)) >>= fun store =>
      setConstraint store >>= fun _ => return store) _
    rw [hc]
    exact .bind (yields_run hsubst hv) fun _ _ _ _ _ => .bind yields_setConstraint fun _ _ _ _ _ => .pure trivial
  refine .bind (yields_currentBounds hstd hk.slot hk.bounds) fun r s' v _ ⟨hr, hs, hv⟩ => ?_
  subst hr hs hv
  refine .bind (yields_run hdrop le_rfl) fun l s' v _ ⟨hl, hs, hv⟩ => ?_
  subst hl hs hv
  exact .bind hreplace.discard fun _ _ _ _ _ => .pure rfl

/-- A type meets all queries as its term does. -/
theorem In.solves_iff {l : Ty} {y : ClassTerm} (hS : S.In refs k w₀) (hw : w₀ ≤ w)
    (hasked : ∀ q ∈ S.asked queries, w.LatticeType refs k q.bound) (hl : w.Denotes refs l y)
    (hroom : k + y.depth + 2 ≤ Limits.unlimited.toNat) :
    S.Solves w queries l ↔ ∀ q ∈ S.asked queries, q.MetBy w refs w₀.Below y := by
  refine forall₂_congr fun q hq => ?_
  obtain ⟨g, hg, hgk⟩ := hasked q hq
  exact Query.met_iff hS.hierarchy hS.built hw hg hl (by omega)

/-- **Inference on a hierarchy is exact.** A parameter whose declared bounds are types of the hierarchy, one below the
other, can be put under inference. Whatever it was asked since, every comparison with a type of the hierarchy comes to
an answer, which is positive exactly if some type of the hierarchy lies within the declared bounds and meets that
comparison and all that were accepted before; and the type chosen at either end of the bounds lies within the declared
ones and meets all that were accepted. -/
theorem ask_iff_solvable {K : Nat} (hS : S.In refs k w₀) (hroom : 2 * K + 4 ≤ Limits.unlimited.toNat) :
    (∀ options, ∃ c₀ w₁ c w, Comparer.new options w₀ = .ok (c₀, w₁) ∧
      track n S.poly c₀ w₁ = .ok ((.ok S.poly, c), w)) ∧
    ∀ queries c w, S.History refs k n w₀ queries c w → k + queries.length < K → 2 * K + 4 ≤ n →
      (∀ q, w.LatticeType refs k q.bound → ∃ answer c' w', q.ask n S.x c w = .ok ((answer, c'), w') ∧
        (answer = true ↔ ∃ v l, w ≤ v ∧ v.LatticeType refs K l ∧ S.Solves v (q :: queries) l)) ∧
      ∀ fromBelow, ∃ l c' w', approximate n S.param fromBelow c w = .ok ((l, c'), w') ∧
        w'.LatticeType refs K l ∧ S.Solves w' queries l := by
  refine ⟨fun options => ?_, fun queries c w hist hK hn => ?_⟩
  · obtain ⟨d, hd, -⟩ := Option.map_eq_some_iff.1 hS.infos
    obtain ⟨c₀, w₁, c, w, hnew, htrack, -⟩ := track_fresh hS.poly hd options n
    exact ⟨c₀, w₁, c, w, hnew, htrack⟩
  obtain ⟨hw, hidle, hkept⟩ := hist.kept hS (by omega) (by omega)
  constructor
  · rintro q ⟨g, hg, hgk⟩
    obtain ⟨n, rfl⟩ : ∃ m, n = m + 1 := ⟨n - 1, by omega⟩
    have hask := hS.settles_ask (n := n) hw hkept hg hgk (Nat.le_add_right _ _) hidle (by omega) (by omega)
    obtain ⟨answer, c', v, hrun, -, hv, hsettles⟩ := hask c ⟨rfl, rfl⟩
    refine ⟨answer, c', v, hrun, ?_⟩
    cases answer with
    | true =>
      obtain ⟨-, b, lo, hi, e, f, hk⟩ := hsettles
      have hdepth := hk.depth_lo
      refine iff_of_true rfl ⟨v, lo, hv, ⟨e, hk.lo, by omega⟩, ?_⟩
      refine (hS.solves_iff (hw.trans hv) hk.asked hk.lo (by omega)).2 ((hk.between_iff e).1 ?_)
      exact ⟨World.le_term_refl e, hk.ordered⟩
    | false =>
      refine iff_of_false nofun fun ⟨v, l, hv, ⟨y, hl, hy⟩, hsolves⟩ => hsettles.1 ⟨y, ?_⟩
      obtain ⟨b, lo, hi, e, f, hk⟩ := hkept
      have hasked : ∀ q' ∈ S.asked (q :: queries), w.LatticeType refs k q'.bound := by
        rw [asked_cons, List.forall_mem_cons]
        exact ⟨⟨g, hg, hgk⟩, hk.asked⟩
      have hmet := (hS.solves_iff (hw.trans hv) (fun q' hq' => (hasked q' hq').grow hv) hl (by omega)).1 hsolves
      intro q' hq'
      obtain ⟨g', hg', -⟩ := hasked q' hq'
      exact (Query.metBy_grow_iff hS.hierarchy hw hg' hv).1 (hmet q' hq')
  · intro fromBelow
    obtain ⟨b, lo, hi, e, f, hk⟩ := hkept
    obtain ⟨l, c', v, hrun, -, hv, hl⟩ := hk.yields_approximate hS hw (n := n) (by omega) fromBelow c ⟨rfl, rfl⟩
    obtain ⟨y, hy, hdepth, hbetween⟩ : ∃ y, v.Denotes refs l y ∧ y.depth ≤ k + queries.length ∧
        ClassTerm.Le w₀.Below e y ∧ ClassTerm.Le w₀.Below y f := by
      cases fromBelow with
      | true => exact ⟨e, hl ▸ hk.lo.grow hv, hk.depth_lo, World.le_term_refl e, hk.ordered⟩
      | false => exact ⟨f, hl ▸ hk.hi.grow hv, hk.depth_hi, hk.ordered, World.le_term_refl f⟩
    have hk := hk.grow hS.hierarchy hw hv
    refine ⟨l, c', v, hrun, ⟨y, hy, by omega⟩, ?_⟩
    exact (hS.solves_iff (hw.trans hv) hk.asked hy (by omega)).2 ((hk.between_iff y).1 hbetween)

/-! ### The least scene -/

/-- The type `[X] X`. -/
def leastWorld : World :=
  let w := { World.initial with binders := World.initial.binders.push { kind := .universal, names := ["X"] } }
  let w := { w with types := (w.types.intern (.param ⟨⟨0⟩, 0⟩)).2 }
  let w := { w with binders := w.binders.modify 0 fun d => { d with infos := [⟨14⟩], result := ⟨15⟩ } }
  { w with types := (w.types.intern (.universal ⟨0⟩)).2 }

def least : SoleParam where
  binder := ⟨0⟩
  poly := ⟨16⟩
  x := ⟨15⟩
  bounds := ⟨14⟩
  lo := Builtin.nothing.type
  hi := Builtin.any.type

/-- A comparer that infers the unbounded `X`. -/
def leastComparer : Comparer where
  options := {}
  constraint := ⟨⟨[(⟨0⟩, [⟨14⟩])]⟩, 0⟩
  depth := { threshold := 50 }
  pending := { bounds := .none }

theorem slots_leastComparer {b : BinderId} {slots : List Ty} (h : leastComparer.constraint.slots? b = some slots) :
    b = ⟨0⟩ ∧ slots = [⟨14⟩] := by
  obtain ⟨l₁, l₂, hl, -⟩ := List.lookup_eq_some_iff.1 h
  have hmem : (b, slots) ∈ leastComparer.constraint.slots.entries := by simp [hl]
  simpa [leastComparer] using hmem

theorem leastWorld_built : leastWorld.Built ∧ World.initial ≤ leastWorld := by
  have h₁ := World.Built.binder .initial .universal ["X"]
  have h₂ := World.Built.intern h₁ (.param ⟨⟨0⟩, 0⟩) (World.mentions_param (by decide) _)
  have h₃ := World.Built.fill h₂ ⟨0⟩ [⟨14⟩] ⟨15⟩ (by decide) (by decide)
  refine ⟨.intern h₃ (.universal ⟨0⟩) (World.mentions_universal (by decide)), ?_⟩
  have hparam := (le_freshBinder World.initial { kind := .universal, names := ["X"] }).trans
    (le_intern (.param ⟨⟨0⟩, 0⟩) _)
  exact (le_fillBinder hparam (Nat.zero_le 0) [⟨14⟩] ⟨15⟩).trans (le_intern (.universal ⟨0⟩) _)

theorem least_in : least.In World.BuiltinRef 0 leastWorld := by
  obtain ⟨hw, hle⟩ := leastWorld_built
  have h := World.hierarchy_initial.grow World.closed_initial hle
  have hnothing : leastWorld.Denotes World.BuiltinRef Builtin.nothing.type (.ref Builtin.nothing.symbol) :=
    .ref ⟨.nothing, by decide, rfl, rfl⟩
  have hany : leastWorld.Denotes World.BuiltinRef Builtin.any.type (.ref Builtin.any.symbol) :=
    .ref ⟨.any, by decide, rfl, rfl⟩
  refine ⟨hw, h, ?_, by decide, by decide, by decide, by decide,
    ⟨_, hnothing, Nat.le_refl 0⟩, ⟨_, hany, Nat.le_refl 0⟩, (h.accepts_iff hw le_rfl hnothing hany (by decide)).2 (World.nothing_le_term _)⟩
  rintro _ _ ⟨b, -, rfl, rfl⟩
  exact hw.standard.shape b

/-- The unbounded `X` is put under inference in a fresh comparer, asked to be above `Int`, then to be below `String`. -/
def leastAnswers : WorldM (Bool × Bool) := do
  let fresh ← Comparer.new {}
  let (_, c) ← track 8 least.poly fresh
  let (above, c₁) ← (Query.above Builtin.int.type).ask 8 least.x c
  let (below, _) ← (Query.below Builtin.string.type).ask 8 least.x c₁
  return (above, below)

/-- An unbounded parameter in a fresh comparer may be above `Int`, and then not below `String`: no type is. Both ends of
the bounds are above `Int` after that. -/
theorem ask_iff_solvable_least : least.In World.BuiltinRef 0 leastWorld ∧ 2 * 2 + 4 ≤ Limits.unlimited.toNat ∧
    ∃ c w c₁ w₁ c₂ w₂, least.History World.BuiltinRef 0 8 leastWorld [] c w ∧
      (Query.above Builtin.int.type).ask 8 least.x c w = .ok ((true, c₁), w₁) ∧
      (∃ v l, w ≤ v ∧ v.LatticeType World.BuiltinRef 2 l ∧ least.Solves v [.above Builtin.int.type] l) ∧
      (Query.below Builtin.string.type).ask 8 least.x c₁ w₁ = .ok ((false, c₂), w₂) ∧
      (¬ ∃ v l, w₁ ≤ v ∧ v.LatticeType World.BuiltinRef 2 l ∧
        least.Solves v [.below Builtin.string.type, .above Builtin.int.type] l) ∧
      ∀ fromBelow, ∃ l c' w', approximate 8 least.param fromBelow c₂ w₂ = .ok ((l, c'), w') ∧
        w'.LatticeType World.BuiltinRef 2 l ∧ least.Solves w' [.above Builtin.int.type] l := by
  have hroom : 2 * 2 + 4 ≤ Limits.unlimited.toNat := by decide
  obtain ⟨htrack, hasks⟩ := ask_iff_solvable (n := 8) least_in hroom
  obtain ⟨⟨answers, w₂⟩, hrun, hanswers⟩ := exists_of_map (x := leastAnswers leastWorld) (f := Prod.fst)
    (b := (true, false)) (by decide +kernel)
  obtain ⟨fresh, v₁, hnew, hrun⟩ := bind_ok hrun
  obtain ⟨⟨tracked, c⟩, w, htracked, hrun⟩ := bind_ok hrun
  obtain ⟨⟨above, c₁⟩, w₁, habove, hrun⟩ := bind_ok hrun
  obtain ⟨⟨below, c₂⟩, _, hbelow, hrun⟩ := bind_ok hrun
  cases hrun
  obtain ⟨rfl, rfl⟩ := Prod.mk.inj hanswers
  obtain ⟨_, _, _, _, hnew', htracked'⟩ := htrack {}
  cases hnew.symm.trans hnew'
  cases htracked.symm.trans htracked'
  have hstart : least.History World.BuiltinRef 0 8 leastWorld [] c w := .start hnew htracked
  have hint : w.LatticeType World.BuiltinRef 0 Builtin.int.type := ⟨_, .ref ⟨.int, by decide, rfl, rfl⟩, Nat.le_refl 0⟩
  have hstring : w₁.LatticeType World.BuiltinRef 0 Builtin.string.type :=
    ⟨_, .ref ⟨.string, by decide, rfl, rfl⟩, Nat.le_refl 0⟩
  have haccepted := hstart.accept (.above Builtin.int.type) hint habove
  have hrefused := haccepted.refuse (.below Builtin.string.type) hstring hbelow
  obtain ⟨_, _, _, hfirst, hsolvable⟩ := (hasks [] c w hstart (by decide) (by decide)).1 (.above Builtin.int.type) hint
  cases habove.symm.trans hfirst
  obtain ⟨_, _, _, hsecond, hunsolvable⟩ :=
    (hasks _ c₁ w₁ haccepted (by decide) (by decide)).1 (.below Builtin.string.type) hstring
  cases hbelow.symm.trans hsecond
  exact ⟨least_in, hroom, c, w, c₁, w₁, c₂, w₂, hstart, habove, hsolvable.1 rfl, hbelow,
    fun h => Bool.false_ne_true (hunsolvable.2 h),
    (hasks _ c₂ w₂ hrefused (by decide) (by decide)).2⟩

end SoleParam

end Conformance
