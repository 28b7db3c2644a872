import Conformance.Proofs.Ascent
import Conformance.Proofs.ClassLattice
import Conformance.Proofs.Clauses
import Conformance.Proofs.Thorough

/-!
# What lies above a type

A search for a base type goes from a type to what it stands for, to its operands and to the parents of classes. Leaving
the guard aside, it has a reason to find the class where one of finite height shows that the class lies above
(`World.Bears`). Whatever the guard lets the search find, there is such a reason (`bears_of_search`); and with a reason,
the search finds the class unless it has used up the entries that a walk may attempt (`search_of_bears`): a type that is
open is not needed again, because along a reason of least height nothing comes twice. What the search answers is rooted
in references to the class (`rooted_of_search`).
-/

namespace Conformance

namespace World

/-! ## Reasons -/

/-- What a search does not tell apart: the references to one symbol. -/
inductive Site where
  | ty (t : Ty)
  | name (s : Symbol)
deriving DecidableEq

/-- How a search goes on: up from one site, from types in order until it finds something, from two types one of which or
both have to lie below the class, or back. -/
inductive Move where
  | found
  | on (N : Site)
  | any (ts : List Ty)
  | either (a b : Ty)
  | both (a b : Ty)
  | back

/-- The site of a handle with the given shape. -/
def Site.of (t : Ty) : Shape → Site
  | .named _ s => .name s
  | _ => .ty t

def site (w : World) (t : Ty) : Site := .of t (w.shape t)

/-- The handle was given out, and has this site. -/
def IsSite (w : World) (t : Ty) (N : Site) : Prop := ∃ d, w.shape? t = some d ∧ N = .of t d

/-- The handle of the site was given out. -/
def Knows (w : World) : Site → Prop
  | .ty t => w.Has t
  | .name _ => True

/-- What the site is stands for itself. -/
def Site.Known (N : Site) (ρ : Corr) : Prop :=
  match N with
  | .ty t => ρ.ty t t
  | .name s => ρ.sym s

/-- The upper end of what a name stands for. -/
def upperOf (w : World) (s : Symbol) : Ty :=
  match w.decls.kind? s with
  | some .synonym => w.decls.info s
  | some .abstractType | some .typeParam => ((w.boundsParts? (w.decls.info s)).map (·.2)).getD (w.decls.info s)
  | _ => .noType

/-- How a search goes on from a type of the given shape that is no name. -/
def moveFrom (w : World) : Shape → Move
  | .self s | .classInfo _ s => .on (.name s)
  | .refined t _ _ | .skolem _ t => .on (w.site t)
  | .inter a b => .either a b
  | .union a b => .both a b
  | .param p => .on (w.site (w.paramUpper p))
  | .path _ s => .on (w.site (w.decls.info s))
  | .literal (.int _) => .on (w.site Builtin.int.type)
  | .literal (.bool _) => .on (w.site Builtin.boolean.type)
  | .literal (.str _) => .on (w.site Builtin.string.type)
  | .valueParam p => .on (w.site (w.paramInfo p))
  | .var i => .on (w.site (w.varUnderlying i))
  | _ => .back

/-- How a search for `cls` goes on from a site. -/
def move (w : World) (cls : Symbol) : Site → Move
  | .name s =>
    if s = cls then .found
    else if w.decls.isClass s then .any (w.decls.parents s)
    else .on (w.site (w.upperOf s))
  | .ty t => w.moveFrom (w.shape t)

/-- The sites that the search may go on to. -/
def Move.sites (w : World) : Move → List Site
  | .on M => [M]
  | .any ts => ts.map w.site
  | .either a b | .both a b => [w.site a, w.site b]
  | .found | .back => []

/-- The search for `cls` from `N` comes to `M`. -/
def ComesTo (w : World) (cls : Symbol) : Site → Site → Prop :=
  Relation.ReflTransGen fun N M => M ∈ (w.move cls N).sites w

/-- Whether the search succeeds that goes on in this way, if it succeeds at the sites `S`. -/
def Move.Wins (w : World) (S : Site → Prop) : Move → Prop
  | .found => True
  | .on M => S M
  | .any ts => ∃ t ∈ ts, S (w.site t)
  | .either a b => S (w.site a) ∨ S (w.site b)
  | .both a b => S (w.site a) ∧ S (w.site b)
  | .back => False

/-- There is a reason of at most `n` levels for `cls` to lie above the site. -/
def Bears (w : World) (cls : Symbol) : Nat → Site → Prop
  | 0, _ => False
  | n + 1, N => (w.move cls N).Wins w (w.Bears cls n)

/-- The type is made of references to `cls` by refinements, intersections and unions, at most `n` levels of them. -/
inductive Rooted (w : World) (cls : Symbol) : Nat → Ty → Prop
  | named {n : Nat} {t q : Ty} (shape : w.shape? t = some (.named q cls)) : Rooted w cls n t
  | refined {n : Nat} {t parent info : Ty} {name : String} (shape : w.shape? t = some (.refined parent name info))
    (h : Rooted w cls n parent) : Rooted w cls (n + 1) t
  | inter {n : Nat} {t a b : Ty} (shape : w.shape? t = some (.inter a b)) (ha : Rooted w cls n a)
    (hb : Rooted w cls n b) : Rooted w cls (n + 1) t
  | union {n : Nat} {t a b : Ty} (shape : w.shape? t = some (.union a b)) (ha : Rooted w cls n a)
    (hb : Rooted w cls n b) : Rooted w cls (n + 1) t

variable {w v v' : World} {cls s : Symbol} {t x : Ty} {N M : Site} {S S' : Site → Prop} {n m : Nat}

theorem IsSite.grow (h : w.IsSite t N) (hv : w ≤ v) : v.IsSite t N := by
  obtain ⟨d, hd, hN⟩ := h
  exact ⟨d, hv.shape hd, hN⟩

theorem IsSite.unique (h : w.IsSite t N) (h' : w.IsSite t M) : N = M := by
  obtain ⟨d, hd, rfl⟩ := h
  obtain ⟨d', hd', rfl⟩ := h'
  cases hd.symm.trans hd'
  rfl

theorem isSite_of_has (h : w.Has t) : w.IsSite t (w.site t) := by
  obtain ⟨d, hd⟩ := Option.isSome_iff_exists.1 h
  exact ⟨d, hd, by rw [site, shape_of_shape? hd]⟩

theorem isSite_named {q : Ty} (h : w.shape? t = some (.named q s)) : w.IsSite t (.name s) := ⟨_, h, rfl⟩

theorem IsSite.name (h : w.IsSite t (.name s)) : ∃ q, w.shape? t = some (.named q s) := by
  obtain ⟨d, hd, hN⟩ := h
  cases d <;> cases hN
  exact ⟨_, hd⟩

/-- A type that is no name is the site that it has. -/
theorem IsSite.ty (h : w.IsSite t (.ty x)) : x = t ∧ ∃ d, w.shape? t = some d ∧ ∀ q s, d ≠ .named q s := by
  obtain ⟨d, hd, hN⟩ := h
  cases d <;> cases hN <;> exact ⟨rfl, _, hd, by rintro _ _ ⟨⟩⟩

theorem knows_site (h : w.Has t) : w.Knows (w.site t) := by
  rw [site]
  cases w.shape t <;> first | exact h | trivial

theorem known_site {ρ : Corr} (hM : ρ.Matches w w) (h : ρ.ty t t) : (w.site t).Known ρ := by
  have hself := hM.shape h
  rw [site]
  generalize w.shape t = d at hself
  cases hself with
  | named _ hs => exact hs
  | _ => exact h

theorem Site.Known.knows (h : N.Known (Corr.identity w)) : w.Knows N := by
  cases N with
  | ty t => exact h.2
  | name s => trivial

theorem isSite_of_known {ρ : Corr} (hM : ρ.Matches w w) (h : ρ.ty t t) : w.IsSite t (w.site t) := by
  obtain ⟨d, -, hd, -⟩ := hM.ty h
  exact isSite_of_has (by rw [Has, hd]; rfl)

theorem Move.Wins.mono {move : Move} (hS : ∀ M, S M → S' M) (h : move.Wins w S) : move.Wins w S' := by
  cases move with
  | any ts =>
    obtain ⟨t, ht, h⟩ := h
    exact ⟨t, ht, hS _ h⟩
  | found | back => exact h
  | on M => exact hS _ h
  | either a b => exact Or.imp (hS _) (hS _) h
  | both a b => exact And.imp (hS _) (hS _) h

theorem Bears.succ (h : w.Bears cls n N) : w.Bears cls (n + 1) N := by
  induction n generalizing N with
  | zero => exact h.elim
  | succ n ih => exact Move.Wins.mono (fun _ => ih) h

theorem Bears.mono (h : w.Bears cls n N) (hnm : n ≤ m) : w.Bears cls m N := by
  induction hnm with
  | refl => exact h
  | step _ ih => exact ih.succ

/-- A reason of least height. -/
theorem Bears.least (h : w.Bears cls n N) : ∃ k < n, w.Bears cls (k + 1) N ∧ ¬ w.Bears cls k N := by
  induction n with
  | zero => exact h.elim
  | succ n ih =>
    by_cases hn : w.Bears cls n N
    · obtain ⟨k, hk, h⟩ := ih hn
      exact ⟨k, by omega, h⟩
    · exact ⟨n, by omega, h, hn⟩

theorem Rooted.succ (h : w.Rooted cls n t) : w.Rooted cls (n + 1) t := by
  induction h with
  | named shape => exact .named shape
  | refined shape _ ih => exact .refined shape ih
  | inter shape _ _ iha ihb => exact .inter shape iha ihb
  | union shape _ _ iha ihb => exact .union shape iha ihb

theorem Rooted.mono (h : w.Rooted cls n t) (hnm : n ≤ m) : w.Rooted cls m t := by
  induction hnm with
  | refl => exact h
  | step _ ih => exact ih.succ

theorem Rooted.least (h : w.Rooted cls n t) : ∃ k ≤ n, w.Rooted cls k t ∧ ∀ j < k, ¬ w.Rooted cls j t := by
  induction n with
  | zero => exact ⟨0, Nat.le_refl 0, h, fun j hj => absurd hj (Nat.not_lt_zero j)⟩
  | succ n ih =>
    by_cases hn : w.Rooted cls n t
    · obtain ⟨k, hk, h⟩ := ih hn
      exact ⟨k, by omega, h⟩
    · exact ⟨n + 1, Nat.le_refl _, h, fun j hj hj' => hn (hj'.mono (by omega))⟩

theorem Rooted.grow (h : w.Rooted cls n t) (hv : w ≤ v) : v.Rooted cls n t := by
  induction h with
  | named shape => exact .named (hv.shape shape)
  | refined shape _ ih => exact .refined (hv.shape shape) ih
  | inter shape _ _ iha ihb => exact .inter (hv.shape shape) iha ihb
  | union shape _ _ iha ihb => exact .union (hv.shape shape) iha ihb

/-- What is rooted later, and was known before, was rooted before. -/
theorem Rooted.known {ρ : Corr} (h : v.Rooted cls n t) (hM : ρ.Matches w w) (kt : ρ.ty t t) (hv : w ≤ v) :
    w.Rooted cls n t := by
  have hbefore {t : Ty} {d : Shape} (kt : ρ.ty t t) (hd : v.shape? t = some d) : w.shape? t = some d := by
    obtain ⟨e, -, he, -⟩ := hM.ty kt
    rwa [← Option.some.inj ((hv.shape he).symm.trans hd)]
  induction h with
  | named shape => exact .named (hbefore kt shape)
  | refined shape _ ih =>
    have hshape := hbefore kt shape
    cases hM.parts kt hshape with | refined kp _ _ =>
    exact .refined hshape (ih kp)
  | inter shape _ _ iha ihb =>
    have hshape := hbefore kt shape
    cases hM.parts kt hshape with | inter ka kb =>
    exact .inter hshape (iha ka) (ihb kb)
  | union shape _ _ iha ihb =>
    have hshape := hbefore kt shape
    cases hM.parts kt hshape with | union ka kb =>
    exact .union hshape (iha ka) (ihb kb)

/-- What is rooted at some height. -/
def IsRooted (w : World) (cls : Symbol) (t : Ty) : Prop := ∃ n, w.Rooted cls n t

theorem Rooted.of_inter {a b x : Ty} (ha : w.Rooted cls n a) (hb : w.Rooted cls n b) (hx : Ty.inter a b w = .ok (x, v)) :
    v.Rooted cls (n + 1) x := by
  obtain ⟨_, _, hx', hv, hcases⟩ := Ty.inter_cases a b w
  cases hx.symm.trans hx'
  rcases hcases with ⟨-, rfl⟩ | ⟨-, rfl⟩ | ⟨-, rfl⟩ | ⟨rfl | rfl, rfl⟩ | hshape
  · exact (ha.grow hv).succ
  · exact (hb.grow hv).succ
  · exact (ha.grow hv).succ
  · exact (ha.grow hv).succ
  · exact (hb.grow hv).succ
  · exact .inter hshape (ha.grow hv) (hb.grow hv)

theorem Rooted.of_union {a b x : Ty} (ha : w.Rooted cls n a) (hb : w.Rooted cls n b) (hx : Ty.union a b w = .ok (x, v)) :
    v.Rooted cls (n + 1) x := by
  obtain ⟨_, _, hx', hv, hcases⟩ := Ty.union_cases a b w
  cases hx.symm.trans hx'
  rcases hcases with ⟨-, rfl⟩ | ⟨-, rfl⟩ | ⟨-, rfl⟩ | ⟨rfl | rfl, rfl⟩ | hshape
  · exact (ha.grow hv).succ
  · exact (hb.grow hv).succ
  · exact (ha.grow hv).succ
  · exact (ha.grow hv).succ
  · exact (hb.grow hv).succ
  · exact .union hshape (ha.grow hv) (hb.grow hv)

/-! ## What a search goes on to -/

section Steps

variable {g g' : Guard Ty} {base : Ty} {next : Ty → WalkM Ty}

theorem Closed.has_info (hw : w.Closed) (s : Symbol) : w.Has (w.decls.info s) := (hw.identity_matches.info trivial).2

theorem Closed.has_parent (hw : w.Closed) (ht : t ∈ w.decls.parents s) : w.Has t := by
  have h := List.forall₂_same.1 (hw.identity_matches.parents trivial) t ht
  exact h.2

section Known

variable {ρ : Corr}

theorem known_upperOf (hM : ρ.Matches w w) (hs : ρ.sym s) : ρ.ty (w.upperOf s) (w.upperOf s) := by
  unfold upperOf
  have hinfo := hM.info hs
  have hends : ρ.ty (((w.boundsParts? (w.decls.info s)).map (·.2)).getD (w.decls.info s))
      (((w.boundsParts? (w.decls.info s)).map (·.2)).getD (w.decls.info s)) := by
    cases hb : w.boundsParts? (w.decls.info s) with
    | none => exact hinfo
    | some p => exact (CompareM.boundsParts?_known hM hinfo hb).2
  split
  · exact hinfo
  · exact hends
  · exact hends
  · exact hM.noType

theorem Closed.has_upperOf (hw : w.Closed) (s : Symbol) : w.Has (w.upperOf s) :=
  (known_upperOf hw.identity_matches trivial).2

theorem Closed.upperOf_later (hw : w.Closed) (hv : w ≤ v) (s : Symbol) : v.upperOf s = w.upperOf s := by
  have hM := hw.identity_matches
  simp only [upperOf, hv.decls, CompareM.boundsParts?_later hM (hM.info (s := s) trivial) hv]

/-- What a name stands for is looked up where it was declared. -/
theorem site_of_upperBound {q : Ty} (hM : ρ.Matches w w) (hs : ρ.sym s) (hstd : w.Standard) (hv : w ≤ v)
    (ht : v.shape? t = some (.named q s)) (hplain : ¬ w.decls.isClass s) (hx : t.upperBound v = .ok (x, v')) :
    v'.IsSite x (w.site (w.upperOf s)) := by
  suffices hupper : x = w.upperOf s by
    rw [hupper]
    exact (isSite_of_known hM (known_upperOf hM hs)).grow (hv.trans ((grows_upperBound t).le_of_ok hx))
  have habsent : v'.boundsParts? .noType = none := by
    rw [boundsParts?, (hstd.grow (hv.trans ((grows_upperBound t).le_of_ok hx))).absent]
  obtain ⟨i, v₁, hi, hx⟩ := bind_ok hx
  rw [Ty.infoOf, get_bind_run, shape_of_shape? ht, hv.decls] at hi
  rw [get_bind_run] at hx
  cases hx
  rw [Declarations.isClass, decide_eq_true_iff] at hplain
  rw [upperOf]
  dsimp only at hi
  cases hkind : w.decls.kind? s with
  | none =>
    rw [hkind] at hi
    cases hi
    rw [habsent]
    rfl
  | some k =>
    rw [hkind] at hi
    cases k with
    | cls => exact absurd hkind hplain
    | value =>
      cases hi
      rw [habsent]
      rfl
    | synonym =>
      have hbounds : v'.shape? i = some (.bounds (w.decls.info s) (w.decls.info s)) := by
        cases hi
        exact TypeTable.shape?_intern v.types _
      rw [boundsParts?, hbounds]
      rfl
    | abstractType | typeParam =>
      cases hi
      rw [CompareM.boundsParts?_later hM (hM.info hs) hv]

/-- What a single value or a variable stands for is where the search goes on. -/
theorem site_of_underlying {d : Shape} (hM : ρ.Matches w w) (kt : ρ.ty t t) (hv : w ≤ v) (ht : w.shape? t = some d)
    (hd : d.isSingleton ∨ d.isVar) (hx : t.underlying v = .ok (x, v')) :
    ∃ M, w.moveFrom d = .on M ∧ M.Known ρ ∧ v'.IsSite x M := by
  have hle := hv.trans ((grows_underlying t).le_of_ok hx)
  have hgoes {y : Ty} (h : ρ.ty y y) (hxy : x = y) : ∃ M, Move.on (w.site y) = .on M ∧ M.Known ρ ∧ v'.IsSite x M :=
    ⟨_, rfl, known_site hM h, hxy ▸ (isSite_of_known hM h).grow hle⟩
  rw [Ty.underlying, get_bind_run, shape_of_shape? (hv.shape ht)] at hx
  cases d with
  | path q s =>
    cases hM.parts kt ht with | path _ hs =>
    cases hx
    exact hgoes (hM.info hs) (by rw [hv.decls])
  | self c =>
    cases hM.parts kt ht with | self hc =>
    refine ⟨_, rfl, hc, ?_⟩
    cases hx
    exact isSite_named (TypeTable.shape?_intern v.types _)
  | literal l =>
    cases l <;> cases hx <;> exact hgoes (hM.fixed _ (by decide)) rfl
  | skolem k u =>
    cases hM.parts kt ht with | skolem _ hu =>
    cases hx
    exact hgoes hu rfl
  | valueParam p =>
    cases hM.parts kt ht with | valueParam hb i =>
    cases hx
    obtain ⟨e, -, he, -⟩ := hM.scope hb
    exact hgoes (hM.paramInfo hb i) (by rw [paramInfo, paramInfo, he, hv.binder he])
  | var i =>
    cases hx
    exact hgoes (hM.held kt ht) (varUnderlying_later hv i)
  | _ => exact hd.elim (by rintro ⟨⟩) (by rintro ⟨⟩)

end Known

/-- What a search goes on to was given out. -/
theorem has_of_move (hw : w.Closed) (hN : w.Knows N) (cls : Symbol) :
    match w.move cls N with
    | .any ts => ∀ t ∈ ts, w.Has t
    | .either a b | .both a b => w.Has a ∧ w.Has b
    | _ => True := by
  cases N with
  | name s =>
    rw [move]
    by_cases hs : s = cls
    · rw [if_pos hs]
      trivial
    rw [if_neg hs]
    by_cases hc : w.decls.isClass s
    · rw [if_pos hc]
      exact fun t => hw.has_parent
    · rw [if_neg hc]
      trivial
  | ty t =>
    obtain ⟨d, hd⟩ := Option.isSome_iff_exists.1 hN
    rw [move, shape_of_shape? hd]
    cases hw.shape hd with
    | inter ha hb => exact ⟨ha.2, hb.2⟩
    | union ha hb => exact ⟨ha.2, hb.2⟩
    | literal l => cases l <;> trivial
    | _ => trivial

theorem present_of_inter {a b m : Ty} (hstd : v.Standard) (ha : a.present) (hb : b.present)
    (hm : Ty.inter a b v = .ok (m, v')) : m.present := by
  obtain ⟨_, _, hm', hle, hcases⟩ := Ty.inter_cases a b v
  cases hm.symm.trans hm'
  rcases hcases with ⟨-, rfl⟩ | ⟨-, rfl⟩ | ⟨-, rfl⟩ | ⟨-, rfl⟩ | hshape
  · exact ha
  · exact hb
  · exact ha
  · rfl
  · exact (hstd.grow hle).present hshape (by rintro ⟨⟩)

theorem present_of_union {a b m : Ty} (hstd : v.Standard) (ha : a.present) (hb : b.present)
    (hm : Ty.union a b v = .ok (m, v')) : m.present := by
  obtain ⟨_, _, hm', hle, hcases⟩ := Ty.union_cases a b v
  cases hm.symm.trans hm'
  rcases hcases with ⟨-, rfl⟩ | ⟨-, rfl⟩ | ⟨-, rfl⟩ | ⟨-, rfl⟩ | hshape
  · exact ha
  · exact hb
  · exact ha
  · rfl
  · exact (hstd.grow hle).present hshape (by rintro ⟨⟩)

/-- How one level of a search ends, whatever the levels above it answer. -/
theorem step_moves (hw : w.Closed) (hstd : w.Standard) (hnext : ∀ t, Retains (fun _ v => w ≤ v) (next t)) (hv : w ≤ v)
    (ht : v.IsSite t N) (hN : w.Knows N) (hr : BaseType.step cls next t g v = .ok ((base, g'), v')) :
    match w.move cls N with
    | .found => base.present
    | .on M => w.Knows M ∧ ∃ x v₁ b v₂, v ≤ v₁ ∧ v₁.IsSite x M ∧ next x g v₁ = .ok ((b, g'), v₂) ∧
        (base.present ↔ b.present)
    | .any ts => Walk.firstPresent next ts g v = .ok ((base, g'), v')
    | .either a b => ∃ l g₁ v₁ r v₂, next a g v = .ok ((l, g₁), v₁) ∧ next b g₁ v₁ = .ok ((r, g'), v₂) ∧
        (base.present ↔ l.present ∨ r.present)
    | .both a b => ∃ l g₁ v₁ r v₂, next a g v = .ok ((l, g₁), v₁) ∧ next b g₁ v₁ = .ok ((r, g'), v₂) ∧
        (base.present ↔ l.present ∧ r.present)
    | .back => base = .noType := by
  have hM : (Corr.identity w).Matches w v := hw.identity_matches.grow le_rfl hv
  have hgoes {y z : Ty} (h : (Corr.identity w).ty y z) {b : Ty} {v₂ : World} (hnext : next z g v = .ok ((b, g'), v₂))
      (hb : base.present ↔ b.present) : w.Knows (w.site y) ∧ ∃ x v₁ b v₂, v ≤ v₁ ∧ v₁.IsSite x (w.site y) ∧
        next x g v₁ = .ok ((b, g'), v₂) ∧ (base.present ↔ b.present) :=
    ⟨knows_site h.2, z, v, b, v₂, le_rfl, h.1 ▸ (isSite_of_has h.2).grow hv, hnext, hb⟩
  rw [BaseType.step, Walk.run_world_bind] at hr
  cases N with
  | name s =>
    obtain ⟨q, hd⟩ := ht.name
    rw [shape_of_shape? hd] at hr
    dsimp only at hr
    simp only [move]
    by_cases hs : s = cls
    · rw [if_pos hs] at hr ⊢
      cases hr
      exact (hstd.grow hv).present hd (by rintro ⟨⟩)
    · rw [if_neg hs, hv.decls] at hr
      rw [if_neg hs]
      by_cases hclass : w.decls.isClass s
      · rw [if_pos hclass] at hr ⊢
        exact hr
      · rw [if_neg hclass] at hr ⊢
        obtain ⟨x, g₁, v₁, hlift, hnext⟩ := run_bind_ok hr
        obtain ⟨hx, rfl⟩ := run_lift_ok hlift
        exact ⟨knows_site (hw.has_upperOf s), x, v₁, base, v', (grows_upperBound t).le_of_ok hx,
          site_of_upperBound hw.identity_matches trivial hstd hv hd hclass hx, hnext, Iff.rfl⟩
  | ty y =>
    obtain ⟨rfl, e, he, hnot⟩ := ht.ty
    obtain ⟨d, hd⟩ := Option.isSome_iff_exists.1 hN
    obtain rfl := Option.some.inj ((hv.shape hd).symm.trans he)
    simp only [move, shape_of_shape? hd]
    rw [shape_of_shape? (hv.shape hd)] at hr
    have hrest (hd' : d.isSingleton ∨ d.isVar)
        (hr : (do next (← y.underlying) : WalkM Ty) g v = .ok ((base, g'), v')) : ∃ M, w.moveFrom d = .on M ∧
          w.Knows M ∧ ∃ x v₁ b v₂, v ≤ v₁ ∧ v₁.IsSite x M ∧ next x g v₁ = .ok ((b, g'), v₂) ∧
            (base.present ↔ b.present) := by
      obtain ⟨x, g₁, v₁, hlift, hnext⟩ := run_bind_ok hr
      obtain ⟨hx, rfl⟩ := run_lift_ok hlift
      obtain ⟨M, hmove, hM, hxM⟩ := site_of_underlying hw.identity_matches ⟨rfl, hN⟩ hv hd hd' hx
      exact ⟨M, hmove, hM.knows, x, v₁, base, v', (grows_underlying y).le_of_ok hx, hxM, hnext, Iff.rfl⟩
    cases d with
    | named q s => exact absurd rfl (hnot q s)
    | classInfo q s =>
      obtain ⟨x, g₁, v₁, hlift, hnext⟩ := run_bind_ok hr
      obtain ⟨hx, rfl⟩ := run_lift_ok hlift
      refine ⟨trivial, x, v₁, base, v', (grows_named q s).le_of_ok hx, ?_, hnext, Iff.rfl⟩
      cases hx
      exact isSite_named (TypeTable.shape?_intern v.types _)
    | refined parent name info =>
      cases hw.shape hd with | refined hp _ _ =>
      obtain ⟨b, g₁, v₁, hnext', hr⟩ := run_bind_ok hr
      split at hr
      · next hb =>
        obtain ⟨hx, rfl⟩ := run_lift_ok hr
        refine hgoes hp hnext' (iff_of_true ?_ (Bool.and_eq_true_iff.1 hb).1)
        have hle := (hnext _ hv hnext').trans ((grows_intern _).le_of_ok hx)
        refine (hstd.grow hle).present (d := .refined b name info) ?_ (by rintro ⟨⟩)
        cases hx
        exact TypeTable.shape?_intern v₁.types _
      · cases hr
        exact hgoes hp hnext' Iff.rfl
    | inter a b =>
      obtain ⟨l, g₁, v₁, hleft, hr⟩ := run_bind_ok hr
      obtain ⟨r, g₂, v₂, hright, hr⟩ := run_bind_ok hr
      have hle := hnext _ (hnext _ hv hleft) hright
      suffices hfound : g' = g₂ ∧ (base.present ↔ l.present ∨ r.present) from
        ⟨l, g₁, v₁, r, v₂, hleft, hfound.1 ▸ hright, hfound.2⟩
      split at hr
      · next hboth =>
        rw [Bool.and_eq_true] at hboth
        obtain ⟨hx, rfl⟩ := run_lift_ok hr
        exact ⟨rfl, iff_of_true (present_of_inter (hstd.grow hle) hboth.1 hboth.2 hx) (.inl hboth.1)⟩
      · next hboth =>
        split at hr
        · next hl =>
          cases hr
          exact ⟨rfl, iff_of_true hl (.inl hl)⟩
        · next hl =>
          cases hr
          exact ⟨rfl, (or_iff_right hl).symm⟩
    | union a b =>
      obtain ⟨l, g₁, v₁, hleft, hr⟩ := run_bind_ok hr
      obtain ⟨r, g₂, v₂, hright, hr⟩ := run_bind_ok hr
      have hle := hnext _ (hnext _ hv hleft) hright
      suffices hfound : g' = g₂ ∧ (base.present ↔ l.present ∧ r.present) from
        ⟨l, g₁, v₁, r, v₂, hleft, hfound.1 ▸ hright, hfound.2⟩
      split at hr
      · next hboth =>
        rw [Bool.and_eq_true] at hboth
        obtain ⟨hx, rfl⟩ := run_lift_ok hr
        exact ⟨rfl, iff_of_true (present_of_union (hstd.grow hle) hboth.1 hboth.2 hx) hboth⟩
      · next hboth =>
        rw [Bool.and_eq_true] at hboth
        cases hr
        exact ⟨rfl, iff_of_false (by rintro ⟨⟩) hboth⟩
    | param p =>
      cases hw.shape hd with | param hb i =>
      exact hgoes (hM.paramUpper hb i) hr Iff.rfl
    | path | self | skolem | valueParam =>
      obtain ⟨M, hmove, h⟩ := hrest (.inl rfl) hr
      cases hmove
      exact h
    | literal l =>
      obtain ⟨M, hmove, h⟩ := hrest (.inl rfl) hr
      rw [hmove]
      exact h
    | var =>
      obtain ⟨M, hmove, h⟩ := hrest (.inr rfl) hr
      cases hmove
      exact h
    | fixed | method | universal | byName | bounds =>
      cases hr
      rfl

end Steps

/-! ## Searches -/

section Searches

open Climbs

variable {ks : List Ty} {d : Nat} {base : Ty}

/-- What a list of types is searched for is found from one of them. -/
theorem exists_of_firstPresent {I : Guard Ty → World → Prop} {next : Ty → WalkM Ty} (hI : ∀ t, Retains I (next t))
    {ts : List Ty} {g g' : Guard Ty} (hg : I g v) (hr : Walk.firstPresent next ts g v = .ok ((base, g'), v'))
    (hbase : base.present) : ∃ t ∈ ts, ∃ g₁ v₁, I g₁ v₁ ∧ next t g₁ v₁ = .ok ((base, g'), v') := by
  induction ts generalizing g v with
  | nil =>
    cases hr
    cases hbase
  | cons t ts ih =>
    obtain ⟨b, g₁, v₁, hnext, hr⟩ := run_bind_ok hr
    split at hr
    · cases hr
      exact ⟨t, .head _, g, v, hg, hnext⟩
    · obtain ⟨u, hu, h⟩ := ih (hI t hg hnext) hr
      exact ⟨u, .tail _ hu, h⟩

theorem grows_search (n : Nat) (t : Ty) : Retains (fun _ v => w ≤ v) (Walk.descend .noType (BaseType.step cls) n t) := by
  intro g v base g' v' hv hr
  have hbalanced : Balanced True n (Walk.descend .noType (BaseType.step cls) n t) :=
    balanced_descend _ (fun _ _ h => balanced_baseTypeStep h cls) n t
  exact hv.trans ((hbalanced g.bounds g.openKeys g.depth (.inl trivial) g v ⟨rfl, rfl, rfl⟩).ok hr).2

/-- **What a search finds lies above**, and the reason is no higher than the levels that the guard leaves. The induction
is on the levels of the walk. -/
theorem bears_of_search (hw : w.Closed) (hstd : w.Standard) (n : Nat) (hN : w.Knows N) :
    Tells (fun g v => Open w ks d g v ∧ v.IsSite t N) (Walk.descend .noType (BaseType.step cls) n t)
      fun base _ _ => base.present → w.Bears cls (64 - d) N := by
  induction n generalizing t N ks d with
  | zero => exact .throw
  | succ n ih =>
    intro g v base g' v' ⟨hopen, ht⟩ hr hbase
    rcases inside_run hr with ⟨g₁, g₂, he, hb, -⟩ | ⟨_, -, -, rfl, -⟩
    swap
    · cases hbase
    have hlt : d < 64 := by
      have h := Guard.depth_lt_of_enter he
      rwa [hopen.1.depth, hopen.1.bounds] at h
    have hopen₁ := hopen.enter he
    rw [show 64 - d = 64 - (d + 1) + 1 by omega]
    have hgoes {x : Ty} (hx : w.Has x) {g g' : Guard Ty} {v v' : World} {b : Ty} (hopen : Open w (t :: ks) (d + 1) g v)
        (hr : Walk.descend .noType (BaseType.step cls) n x g v = .ok ((b, g'), v')) (hb : b.present) :
        w.Bears cls (64 - (d + 1)) (w.site x) :=
      ih (knows_site hx) ⟨hopen, (isSite_of_has hx).grow hopen.2⟩ hr hb
    have hmoves := step_moves hw hstd (grows_search n) hopen.2 ht hN hb
    have hparts := has_of_move hw hN cls
    show (w.move cls N).Wins w _
    revert hmoves hparts
    cases w.move cls N with
    | found => exact fun _ _ => trivial
    | on M =>
      rintro ⟨hM, x, v₁, b, v₂, hle, hx, hr, hpresent⟩ -
      exact ih hM ⟨hopen₁.grow hle, hx⟩ hr (hpresent.1 hbase)
    | any ts =>
      intro hr hts
      obtain ⟨x, hx, g₁, v₁, hopen, hr⟩ := exists_of_firstPresent (open_baseType n (d + 1) cls) hopen₁ hr hbase
      exact ⟨x, hx, hgoes (hts x hx) hopen hr hbase⟩
    | either a b =>
      rintro ⟨l, g₁, v₁, r, v₂, hleft, hright, hpresent⟩ ⟨ha, hb⟩
      refine (hpresent.1 hbase).imp (hgoes ha hopen₁ hleft) ?_
      exact hgoes hb (open_baseType n (d + 1) cls a hopen₁ hleft) hright
    | both a b =>
      rintro ⟨l, g₁, v₁, r, v₂, hleft, hright, hpresent⟩ ⟨ha, hb⟩
      refine (hpresent.1 hbase).imp (hgoes ha hopen₁ hleft) ?_
      exact hgoes hb (open_baseType n (d + 1) cls a hopen₁ hleft) hright
    | back =>
      rintro rfl -
      cases hbase

/-- As many entries as a walk may attempt are used up. -/
def Spent (g : Guard Ty) : Prop := Limits.walkEntries.toNat < g.entries

theorem entries_of_enter {g g' : Guard Ty} {e : Guard.Entry} (he : g.enter t = (e, g')) :
    g'.entries = min (g.entries + 1) 4294967295 := by
  unfold Guard.enter at he
  dsimp only at he
  split at he <;> cases he <;> rfl

theorem Spent.enter {g g' : Guard Ty} {e : Guard.Entry} (h : Spent g) (he : g.enter t = (e, g')) : Spent g' := by
  have hlimit : Limits.walkEntries.toNat = 100000 := rfl
  have hcount := entries_of_enter he
  unfold Spent at h ⊢
  omega

theorem Spent.leave {g g' : Guard Ty} (h : Spent g) (hl : g.leave t = .ok g') : Spent g' := by
  simp only [Guard.leave] at hl
  split at hl <;> cases hl
  exact h

/-- A type that is not open is let in as long as there are levels and entries left. -/
theorem spent_of_enter {g g' : Guard Ty} {e : Guard.Entry} (hg : g.Stands .walk ks d) (hd : d < 64)
    (hks : ks.length = d) (ht : t ∉ ks) (he : g.enter t = (e, g')) (hne : e.isEntered = false) : Spent g' := by
  have hlimit : Limits.walkEntries.toNat = 100000 := rfl
  have hcount := entries_of_enter he
  by_contra hspent
  unfold Spent at hspent
  have hcounted : Counted ks g.entries g := ⟨hg.bounds, hg.openKeys, hg.depth.trans hks.symm, by omega⟩
  obtain ⟨_, hentered, -⟩ := hcounted.enter ht (by omega) (by omega)
  cases he.symm.trans hentered
  cases hne

theorem spent_search (n : Nat) (t : Ty) :
    Retains (fun g _ => Spent g) (Walk.descend .noType (BaseType.step cls) n t) :=
  retains_descend (fun he h => Spent.enter h he) (fun hl h => Spent.leave h hl) _
    (fun _ h => retains_baseTypeStep (fun _ _ _ _ => id) h cls) n t

/-- **What lies above is found**, unless the entries are used up, if the reason is no higher than the levels that are
left and no type that is open has a reason so low. The induction is on the levels of the walk. -/
theorem search_of_bears {k : Nat} (hw : w.Closed) (hstd : w.Standard) (n : Nat) (hN : w.Knows N) (h : w.Bears cls k N)
    (hk : d + k ≤ 64) (hks : ks.length = d) :
    Tells (fun g v => Open w ks d g v ∧ v.IsSite t N ∧ ∀ y ∈ ks, ∃ M, v.IsSite y M ∧ ¬ w.Bears cls k M)
      (Walk.descend .noType (BaseType.step cls) n t) fun base g _ => Spent g ∨ base.present := by
  induction n generalizing t N ks d k with
  | zero => exact .throw
  | succ n ih =>
    rintro g v base g' v' ⟨hopen, ht, hfree⟩ hr
    obtain ⟨k, hlt, h, hleast⟩ := h.least
    have hnew : t ∉ ks := by
      intro hmem
      obtain ⟨M, hM, hnot⟩ := hfree t hmem
      exact hnot (hM.unique ht ▸ h.mono hlt)
    rcases inside_run hr with ⟨g₁, g₂, he, hb, hl⟩ | ⟨e, he, hne, -⟩
    swap
    · exact .inl (spent_of_enter hopen.1 (by omega) hks hnew he hne)
    suffices hfound : Spent g₂ ∨ base.present from hfound.imp_left fun h => h.leave hl
    have hopen₁ := hopen.enter he
    have hgoes {x : Ty} {M : Site} (hM : w.Knows M) (h : w.Bears cls k M) :
        Tells (fun g v' => Open w (t :: ks) (d + 1) g v' ∧ v ≤ v' ∧ v'.IsSite x M)
          (Walk.descend .noType (BaseType.step cls) n x) fun base g _ => Spent g ∨ base.present := by
      have hroom : d + 1 + k ≤ 64 := by omega
      have hlength : (t :: ks).length = d + 1 := congrArg (· + 1) hks
      refine (ih hM h hroom hlength).mono ?_ fun _ _ _ => id
      rintro g v' ⟨hopen, hle, hx⟩
      refine ⟨hopen, hx, fun y hy => ?_⟩
      rcases List.mem_cons.1 hy with rfl | hy
      · exact ⟨N, ht.grow hle, hleast⟩
      · obtain ⟨M, hM, hnot⟩ := hfree y hy
        exact ⟨M, hM.grow hle, fun h => hnot (h.mono (by omega))⟩
    have hlater (x : Ty) : Retains (fun g v' => Open w (t :: ks) (d + 1) g v' ∧ v ≤ v')
        (Walk.descend .noType (BaseType.step cls) n x) :=
      (open_baseType n (d + 1) cls x).and (grows_search n x)
    have hoperand {x : Ty} (hx : w.Has x) (h : w.Bears cls k (w.site x)) :
        Tells (fun g v' => Open w (t :: ks) (d + 1) g v' ∧ v ≤ v') (Walk.descend .noType (BaseType.step cls) n x)
          fun base g _ => Spent g ∨ base.present :=
      (hgoes (knows_site hx) h).mono (fun _ _ h => ⟨h.1, h.2, (isSite_of_has hx).grow h.1.2⟩) fun _ _ _ => id
    have hmoves := step_moves hw hstd (grows_search n) hopen.2 ht hN hb
    have hparts := has_of_move hw hN cls
    change (w.move cls N).Wins w _ at h
    revert hmoves hparts h
    cases w.move cls N with
    | found => exact fun hpresent _ _ => .inr hpresent
    | on M =>
      rintro ⟨hM, x, v₁, b, v₂, hle, hx, hr, hpresent⟩ - h
      exact (hgoes hM h ⟨hopen₁.grow hle, hle, hx⟩ hr).imp_right hpresent.2
    | any ts =>
      rintro hr hts ⟨x, hx, h⟩
      exact tells_firstPresent hlater (spent_search n) (hoperand (hts x hx) h) hx ⟨hopen₁, le_rfl⟩ hr
    | either a b =>
      rintro ⟨l, g₃, v₁, r, v₂, hleft, hright, hpresent⟩ ⟨ha, hb⟩ (h | h)
      · refine (hoperand ha h ⟨hopen₁, le_rfl⟩ hleft).imp (spent_search n b · hright) fun h => hpresent.2 (.inl h)
      · exact (hoperand hb h (hlater a ⟨hopen₁, le_rfl⟩ hleft) hright).imp_right fun h => hpresent.2 (.inr h)
    | both a b =>
      rintro ⟨l, g₃, v₁, r, v₂, hleft, hright, hpresent⟩ ⟨ha, hb⟩ ⟨h, h'⟩
      rcases hoperand ha h ⟨hopen₁, le_rfl⟩ hleft with hspent | hl
      · exact .inl (spent_search n b hspent hright)
      · refine (hoperand hb h' (hlater a ⟨hopen₁, le_rfl⟩ hleft) hright).imp_right fun h => hpresent.2 ⟨hl, h⟩
    | back => exact fun _ _ h => h.elim

/-- **What a search finds is rooted** in references to the class, at most as high as the walk has levels. The induction is
on these. -/
theorem rooted_of_search (n : Nat) (t : Ty) {g g' : Guard Ty}
    (hr : Walk.descend .noType (BaseType.step cls) n t g v = .ok ((base, g'), v')) (hbase : base.present) :
    v'.Rooted cls n base := by
  induction n generalizing t g v base g' v' with
  | zero => cases hr
  | succ n ih =>
    rcases inside_run hr with ⟨g₁, g₂, -, hb, -⟩ | ⟨_, -, -, rfl, -⟩
    swap
    · cases hbase
    have hlift {m : WorldM Ty} {g g' : Guard Ty} {v v' : World} {base : Ty}
        (hr : (liftM m >>= Walk.descend .noType (BaseType.step cls) n : WalkM Ty) g v = .ok ((base, g'), v'))
        (hbase : base.present) : v'.Rooted cls (n + 1) base := by
      obtain ⟨x, g₁, v₁, -, hr⟩ := run_bind_ok hr
      exact (ih x hr hbase).succ
    rw [BaseType.step, Walk.run_world_bind] at hb
    cases hd : v.shape? t with
    | none =>
      rw [show v.shape t = .fixed .noType from congrArg (Option.getD · _) hd] at hb
      cases hb
      cases hbase
    | some d =>
    rw [shape_of_shape? hd] at hb
    cases d with
    | named q s =>
      dsimp only at hb
      split at hb
      · next hs =>
        cases hb
        exact .named (hs ▸ hd)
      split at hb
      · obtain ⟨x, -, g₃, v₁, -, hr⟩ := exists_of_firstPresent (I := fun _ _ => True)
          (fun _ _ _ _ _ _ _ _ => trivial) trivial hb hbase
        exact (ih x hr hbase).succ
      · exact hlift hb hbase
    | classInfo => exact hlift hb hbase
    | refined parent name info =>
      obtain ⟨b, g₃, v₁, hnext, hb⟩ := run_bind_ok hb
      split at hb
      · next hdeclares =>
        have hroot := ih parent hnext (Bool.and_eq_true_iff.1 hdeclares).1
        obtain ⟨hx, rfl⟩ := run_lift_ok hb
        have hv := (grows_intern _).le_of_ok hx
        have hshape : v'.shape? base = some (.refined b name info) := by
          cases hx
          exact TypeTable.shape?_intern v₁.types _
        exact .refined hshape (hroot.grow hv)
      · cases hb
        exact (ih parent hnext hbase).succ
    | inter a b =>
      obtain ⟨l, g₃, v₁, hleft, hb⟩ := run_bind_ok hb
      obtain ⟨r, g₄, v₂, hright, hb⟩ := run_bind_ok hb
      have hv := grows_search n b le_rfl hright
      split at hb
      · next hboth =>
        rw [Bool.and_eq_true] at hboth
        obtain ⟨hx, -⟩ := run_lift_ok hb
        exact ((ih a hleft hboth.1).grow hv).of_inter (ih b hright hboth.2) hx
      split at hb
      · cases hb
        exact ((ih a hleft hbase).grow hv).succ
      · cases hb
        exact (ih b hright hbase).succ
    | union a b =>
      obtain ⟨l, g₃, v₁, hleft, hb⟩ := run_bind_ok hb
      obtain ⟨r, g₄, v₂, hright, hb⟩ := run_bind_ok hb
      have hv := grows_search n b le_rfl hright
      split at hb
      · next hboth =>
        rw [Bool.and_eq_true] at hboth
        obtain ⟨hx, -⟩ := run_lift_ok hb
        exact ((ih a hleft hboth.1).grow hv).of_union (ih b hright hboth.2) hx
      · cases hb
        cases hbase
    | param p => exact (ih _ hb hbase).succ
    | path | self | literal | skolem | valueParam | var => exact hlift hb hbase
    | fixed | method | universal | byName | bounds =>
      cases hb
      cases hbase

/-- The search for the base type at `cls` that starts at `t` uses up the entries that a walk may attempt. -/
def Overruns (w : World) (cls : Symbol) (t : Ty) : Prop :=
  ∃ base g v, Walk.descend .noType (BaseType.step cls) (Limits.walkDepth.toNat + 1) t { bounds := .walk } w =
    .ok ((base, g), v) ∧ Spent g

theorem bears_of_baseType (hw : w.Closed) (hstd : w.Standard) (ht : w.Has t) (hr : t.baseType cls w = .ok (base, v))
    (hbase : base.present) : w.Bears cls 64 (w.site t) := by
  obtain ⟨g, hr⟩ := descend_of_run hr
  exact bears_of_search hw hstd _ (knows_site ht) ⟨⟨⟨rfl, rfl, rfl⟩, le_rfl⟩, isSite_of_has ht⟩ hr hbase

/-- A search that does not overrun finds a class that lies above within the levels of a walk. -/
theorem baseType_of_bears {k : Nat} (hw : w.Closed) (hstd : w.Standard) (hv : w ≤ v) (ht : v.IsSite t N)
    (hN : w.Knows N) (h : w.Bears cls k N) (hk : k ≤ 64) (hfree : ¬ v.Overruns cls t)
    (hr : t.baseType cls v = .ok (base, v')) : base.present := by
  obtain ⟨g, hr⟩ := descend_of_run hr
  have hroom : 0 + k ≤ 64 := by omega
  have hnone (y : Ty) (hy : y ∈ ([] : List Ty)) : ∃ M, v.IsSite y M ∧ ¬ w.Bears cls k M := absurd hy List.not_mem_nil
  have hfound := search_of_bears hw hstd _ hN h hroom rfl ⟨⟨⟨rfl, rfl, rfl⟩, hv⟩, ht, hnone⟩ hr
  exact hfound.resolve_left fun hspent => hfree ⟨base, g, v', hr, hspent⟩

theorem rooted_of_baseType (hr : t.baseType cls v = .ok (base, v')) (hbase : base.present) :
    v'.Rooted cls (Limits.walkDepth.toNat + 1) base := by
  obtain ⟨g, hr⟩ := descend_of_run hr
  exact rooted_of_search _ t hr hbase

end Searches

/-! ## Searches that come back with nothing -/

section Fruitless

variable {ks : List Ty} {k k₁ k₂ e n : Nat} {w v : World} {t a b x q : Ty} {cls s : Symbol} {g : Guard Ty}
  {next : Ty → WalkM Ty} {m m' : WalkM Ty}

/-- With `ks` open the search comes back with nothing after `k` attempts, or as many as are left; while some are left it
meets no limit. -/
def Fruitless (ks : List Ty) (k : Nat) (w : World) (m : WalkM Ty) : Prop :=
  ∀ ⦃e g v⦄, w ≤ v → Counted ks e g → ∃ g', m g v = .ok ((.noType, g'), v) ∧ Counted ks (min (e + k) 100000) g' ∧
    (e + k ≤ 100000 → g'.exceeded = g.exceeded)

theorem fruitless_return : Fruitless ks 0 w (return .noType) := by
  intro e g v _ hg
  refine ⟨g, rfl, ?_, fun _ => rfl⟩
  rwa [Nat.add_zero, Nat.min_eq_left hg.le]

theorem Fruitless.lift_bind {m : WorldM Ty} (hm : ∀ v, w ≤ v → m v = .ok (x, v)) (h : Fruitless ks k w (next x)) :
    Fruitless ks k w (liftM m >>= next) := by
  intro e g v hv hg
  rw [run_bind (run_lift (hm v hv) g)]
  exact h hv hg

/-- A search, and another one when it comes back with nothing. -/
theorem Fruitless.orElse (h : Fruitless ks k₁ w m) (h' : Fruitless ks k₂ w m') :
    Fruitless ks (k₁ + k₂) w (do
      let answer ← m
      if answer.present then return answer else m') := by
  intro e g v hv hg
  obtain ⟨g₁, hm, hg₁, hsame₁⟩ := h hv hg
  obtain ⟨g₂, hm', hg₂, hsame₂⟩ := h' hv hg₁
  refine ⟨g₂, by rw [run_bind hm]; exact hm', ?_, fun hle => ?_⟩
  · rwa [show min (e + (k₁ + k₂)) 100000 = min (min (e + k₁) 100000 + k₂) 100000 by omega]
  · rw [hsame₂ (by omega), hsame₁ (by omega)]

theorem fruitless_firstPresent {c : Nat} (h : c ≠ 0 → Fruitless ks k w (next x)) :
    Fruitless ks (c * k) w (Walk.firstPresent next (List.replicate c x)) := by
  induction c with
  | zero =>
    rw [Nat.zero_mul]
    exact fruitless_return
  | succ c ih =>
    rw [List.replicate_succ, Nat.succ_mul, Nat.add_comm]
    exact (h c.succ_ne_zero).orElse (ih fun _ => h c.succ_ne_zero)

theorem exceeded_of_entered {g' : Guard Ty} (h : g.enter t = (.entered, g')) : g'.exceeded = g.exceeded := by
  unfold Guard.enter at h
  dsimp only at h
  split at h
  · cases h
    rfl
  · cases h
  · next hne _ => exact absurd (congrArg Prod.fst h) hne

/-- Below the limits a type that is open is refused, which counts as an attempt. -/
theorem enter_open (hg : Counted ks e g) (ht : t ∈ ks) (hks : ks.length < 64) (he : e < 100000) :
    g.enter t = (.cycle, { g with entries := e + 1 }) := by
  obtain ⟨hb, hk, hd, hn⟩ := hg
  have htally : Limits.tally g.entries = e + 1 := by
    have hlimit : Limits.unlimited.toNat = 4294967295 := rfl
    rw [Limits.tally_of_lt (by omega)]
    omega
  have hverdict : { g with entries := Limits.tally g.entries }.verdict t = .cycle := by
    have hentries : ¬ Guard.Bounds.walk.entries.toNat < e + 1 := by
      have hlimit : Guard.Bounds.walk.entries.toNat = 100000 := rfl
      omega
    have hdepth : ¬ Guard.Bounds.walk.depth.toNat ≤ ks.length := by
      have hlimit : Guard.Bounds.walk.depth.toNat = 64 := rfl
      omega
    simp [Guard.verdict, Guard.isOpen, hb, hk, hd, htally, hentries, hdepth, ht]
  unfold Guard.enter
  dsimp only
  rw [hverdict, htally]

/-- An attempt to enter a type that is not open. -/
theorem Fruitless.inside {body : WalkM Ty} (ht : t ∉ ks) (hks : ks.length < 64) (h : Fruitless (t :: ks) k w body) :
    Fruitless ks (k + 1) w (Walk.inside .noType t body) := by
  intro e g v hv hg
  by_cases he : e < 100000
  · obtain ⟨g₁, henter, hg₁⟩ := hg.enter ht hks he
    obtain ⟨g₂, hbody, hg₂, hsame⟩ := h hv hg₁
    obtain ⟨g₃, hleave, hg₃⟩ := hg₂.leave
    refine ⟨g₃, inside_entered henter hbody hleave, ?_, fun hle => ?_⟩
    · rwa [show min (e + (k + 1)) 100000 = min (e + 1 + k) 100000 by omega]
    · rw [Guard.exceeded_leave hleave, hsame (by omega), exceeded_of_entered henter]
  · obtain ⟨entry, g', henter, hne, hg'⟩ := hg.refuse (t := t) (.inl (by have := hg.le; omega))
    refine ⟨g', inside_refused henter hne, ?_, fun hle => ?_⟩
    · rwa [show min (e + (k + 1)) 100000 = min (e + 1) 100000 by omega]
    · omega

/-- An attempt to enter a type that is open. -/
theorem fruitless_open {body : WalkM Ty} (ht : t ∈ ks) (hks : ks.length < 64) :
    Fruitless ks 1 w (Walk.inside .noType t body) := by
  intro e g v hv hg
  by_cases he : e < 100000
  · refine ⟨_, inside_refused (enter_open hg ht hks he) rfl, ?_, fun _ => rfl⟩
    exact ⟨hg.bounds, hg.openKeys, hg.depth, rfl⟩
  · obtain ⟨entry, g', henter, hne, hg'⟩ := hg.refuse (t := t) (.inl (by have := hg.le; omega))
    exact ⟨g', inside_refused henter hne, hg', fun hle => by omega⟩

/-! ### Steps -/

/-- A search from a class that has one parent, `c` times. -/
theorem fruitless_class {c : Nat} (hnew : t ∉ ks) (hks : ks.length < 64) (ht : w.shape? t = some (.named q s))
    (hs : w.decls.isClass s) (hne : s ≠ cls) (hparents : w.decls.parents s = List.replicate c x)
    (h : c ≠ 0 → Fruitless (t :: ks) k w (Walk.descend .noType (BaseType.step cls) n x)) :
    Fruitless ks (c * k + 1) w (Walk.descend .noType (BaseType.step cls) (n + 1) t) := by
  refine Fruitless.inside hnew hks fun e g v hv hg => ?_
  rw [BaseType.step, Walk.run_world_bind, shape_of_shape? (hv.shape ht), hv.decls]
  dsimp only
  rw [if_neg hne, if_pos hs, hparents]
  exact fruitless_firstPresent h hv hg

theorem fruitless_inter (ht : w.shape? t = some (.inter a b)) (ha : Fruitless ks k₁ w (next a))
    (hb : Fruitless ks k₂ w (next b)) : Fruitless ks (k₁ + k₂) w (BaseType.step cls next t) := by
  intro e g v hv hg
  obtain ⟨g₁, hl, hg₁, hsame₁⟩ := ha hv hg
  obtain ⟨g₂, hr, hg₂, hsame₂⟩ := hb hv hg₁
  refine ⟨g₂, ?_, ?_, fun hle => ?_⟩
  · rw [BaseType.step, Walk.run_world_bind, shape_of_shape? (hv.shape ht)]
    dsimp only
    rw [run_bind hl, run_bind hr]
    rfl
  · rwa [show min (e + (k₁ + k₂)) 100000 = min (min (e + k₁) 100000 + k₂) 100000 by omega]
  · rw [hsame₂ (by omega), hsame₁ (by omega)]

theorem fruitless_var {i : VarId} (ht : w.shape? t = some (.var i)) (h : Fruitless ks k w (next (w.varUnderlying i))) :
    Fruitless ks k w (BaseType.step cls next t) := by
  have hrun (v : World) (hv : w ≤ v) : t.underlying v = .ok (w.varUnderlying i, v) := by
    rw [Ty.underlying, get_bind_run, shape_of_shape? (hv.shape ht)]
    exact congrArg (fun x => Except.ok (x, v)) (varUnderlying_later hv i)
  intro e g v hv hg
  rw [BaseType.step, Walk.run_world_bind, shape_of_shape? (hv.shape ht)]
  exact h.lift_bind hrun hv hg

theorem fruitless_upper (ht : w.shape? t = some (.named q s)) (hs : ¬ w.decls.isClass s) (hne : s ≠ cls)
    (hx : ∀ v, w ≤ v → t.upperBound v = .ok (x, v)) (h : Fruitless ks k w (next x)) :
    Fruitless ks k w (BaseType.step cls next t) := by
  intro e g v hv hg
  rw [BaseType.step, Walk.run_world_bind, shape_of_shape? (hv.shape ht), hv.decls]
  dsimp only
  rw [if_neg hne, if_neg hs]
  exact h.lift_bind hx hv hg

end Fruitless

end World

end Conformance
