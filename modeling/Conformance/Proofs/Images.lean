import Mathlib.Tactic.IntervalCases
import Conformance.Proofs.Occurrences
import Conformance.Proofs.Reachability
import Conformance.Proofs.Renaming

/-!
# Types with the parameters of other binders

Two types are compared under binders by renaming the parameters of one of them. What that makes of a type is followed
from outside: `Image` says that one type is another one with the parameters of some binders in the place of others, which
are paired off. Renaming takes images to images (`Image.renamed`), different types have different images
(`Image.left_unique`), and so comparisons do not tell types from their images (`Paired.matches`).

Each binder has a role: it is on the way down one of the two types, and its parameters are used there, or they are not,
or it is elsewhere. Renaming leaves the types alone inside which no parameter of a binder on the way down is mentioned
(`Still`). What declarations lead to is never renamed; there such parameters may be mentioned where they are bound, as the
signatures of declared members do, but not free (`Sealed`).
-/

namespace Conformance

/-- What a binder is to two types: it may be on the way down the first or the second one with parameters that are used,
be idle on the way down either, or stand elsewhere. -/
inductive Role where
  | elsewhere
  | idle
  | used (second : Bool)
deriving DecidableEq

namespace World

variable {w v v' : World} {role : BinderId → Role} {R : BinderId → BinderId → Prop} {t u : Ty} {b : BinderId}

/-! ## Types that stay as they are -/

/-- One node refers to another, and not from inside of `b`. -/
def LinksOutside (w : World) (b : BinderId) (m n : Node) : Prop := w.Links true m n ∧ m ≠ .binder b

/-- No parameter of a binder on the way down is free in what the node leads to, through declarations, variables and other
binders: wherever there is one, it is inside of its binder. -/
def Away (w : World) (role : BinderId → Role) (m : Node) : Prop :=
  ∀ b, role b ≠ .elsewhere → ∀ t, Relation.ReflTransGen (w.LinksOutside b) m (.ty t) → ¬ (w.shape t).IsParamOf b

/-- The type was given out, and mentions no parameter of a binder on the way down, unless inside of that binder. -/
structure Sealed (w : World) (role : BinderId → Role) (t : Ty) : Prop where
  has : w.Has t
  away : w.Away role (.ty t)

/-- The type was given out, and nothing inside it mentions a parameter of a binder on the way down or is the type of a
binder whose parameters are used. -/
structure Still (w : World) (role : BinderId → Role) (t : Ty) : Prop where
  has : w.Has t
  within : ∀ {u : Ty}, w.Within t u →
    w.Away role (.ty u) ∧ ∀ (k : BinderKind) b s, w.shape? u = some (k.shape b) → role b ≠ .used s

/-- The binder is on the way down, or was not given out. -/
def Off (w : World) (role : BinderId → Role) (b : BinderId) : Prop := role b ≠ .elsewhere ∨ w.binder? b = none

/-- Types and symbols that are taken as they are. -/
structure Leaves where
  ty : Ty → Prop
  sym : Symbol → Prop

def sealed (w : World) (role : BinderId → Role) : Leaves := ⟨w.Sealed role, fun s => w.Away role (.sym s)⟩

def still (w : World) (role : BinderId → Role) : Leaves := ⟨w.Still role, fun s => w.Away role (.sym s)⟩

/-- Types that were given out, whose parts are among them, and none of which is a parameter that may be replaced. -/
structure Stays (w : World) (role : BinderId → Role) (P : Ty → Prop) : Prop where
  has : ∀ {t : Ty}, P t → w.Has t
  part : ∀ {t u : Ty} {d : Shape}, P t → w.shape? t = some d → d.isPlain → u ∈ w.children t → P u
  not_param : ∀ {t : Ty} {b : BinderId}, P t → w.Off role b → ¬ (w.shape t).IsParamOf b

namespace Away

theorem along {m n : Node} (h : w.Away role m) (hn : w.Links true m n)
    (hm : ∀ b, role b ≠ .elsewhere → m ≠ .binder b) : w.Away role n :=
  fun b hb t ht => h b hb t (.head ⟨hn, hm b hb⟩ ht)

theorem step {m n : Node} (h : w.Away role m) (hn : w.Step m n) (hm : m.binder? = none) : w.Away role n :=
  h.along (.inl hn) (by rintro b - rfl; cases hm)

theorem part {n : Node} {d : Shape} (h : w.Away role (.ty t)) (ht : w.shape? t = some d) (hn : n ∈ d.parts) :
    w.Away role n := h.step (.part ht hn) rfl

/-- A type leads to its parts only. -/
theorem of_parts {d : Shape} (ht : w.shape? t = some d) (hd : ∀ b, d.IsParamOf b → role b = .elsewhere)
    (h : ∀ n ∈ d.parts, w.Away role n) : w.Away role (.ty t) := by
  intro b hb u hu
  rcases hu.cases_head with heq | ⟨m, hm, hu⟩
  · obtain rfl : t = u := by cases heq; rfl
    rw [shape_of_shape? ht]
    exact fun hp => hb (hd b hp)
  · exact h m ((links_ty ht).1 hm.1) b hb u hu

end Away

/-- What a node refers to, the parameters of a binder left out. -/
def mentioned (w : World) : Node → List Node
  | .binder b => ((w.binder? b).map fun d => (d.infos ++ [d.result]).map .ty).getD []
  | m => w.referred m

/-- The node is listed, or is a parameter of a listed binder other than `b`. -/
def ListedOutside (b : BinderId) (l : List Node) : Node → Prop
  | .param p => p.binder ≠ b ∧ .binder p.binder ∈ l
  | n => n ∈ l

instance (b : BinderId) (l : List Node) : DecidablePred (ListedOutside b l)
  | .param p => inferInstanceAs (Decidable (p.binder ≠ b ∧ .binder p.binder ∈ l))
  | .ty t => inferInstanceAs (Decidable (.ty t ∈ l))
  | .binder c => inferInstanceAs (Decidable (.binder c ∈ l))
  | .sym s => inferInstanceAs (Decidable (.sym s ∈ l))
  | .var v => inferInstanceAs (Decidable (.var v ∈ l))

theorem ListedOutside.next {l : List Node} (hl : ∀ m ∈ l, m ≠ .binder b → ∀ n ∈ w.mentioned m, ListedOutside b l n)
    {m n : Node} (hm : ListedOutside b l m) (hn : w.LinksOutside b m n) : ListedOutside b l n := by
  obtain ⟨hlink | ⟨-, p, rfl, rfl⟩, hne⟩ := hn
  · cases hlink with
    | @part t d n ht hn => exact hl _ hm (by simp) n (by simpa only [mentioned, referred, shape_of_shape? ht] using hn)
    | @info c d t hb ht => exact hl _ hm hne (.ty t) (by simp [mentioned, hb, ht])
    | @result c d hb => exact hl _ hm hne (.ty d.result) (by simp [mentioned, hb])
    | bound c i => exact ⟨fun heq => hne (congrArg Node.binder heq), hm⟩
    | @declared p d t hb ht =>
      exact hl _ hm.2 (fun heq => hm.1 (by cases heq; rfl)) (.ty t) (by simp [mentioned, hb, List.mem_of_getElem? ht])
    | @declaration s d n hs hn => exact hl _ hm (by simp) n (by simpa [mentioned, referred, hs] using hn)
    | @origin v c hv => exact hl _ hm (by simp) (.ty c.origin) (by simp [mentioned, referred, hv])
    | @settled v c t hv ht => exact hl _ hm (by simp) (.ty t) (by simp [mentioned, referred, hv, ht])
  · exact hm.2

theorem Closed.isSome_of_param (hw : w.Closed) (ht : w.Has t) (hp : (w.shape t).IsParamOf b) : (w.binder? b).isSome := by
  obtain ⟨d, hd⟩ := Option.isSome_iff_exists.1 ht
  rw [shape_of_shape? hd] at hp
  obtain ⟨i, hi⟩ := hp
  exact hw.given (n := .param ⟨b, i⟩) (hw.shape hd) (by rcases hi with rfl | rfl <;> simp [Shape.parts])

theorem Away.not_param (h : w.Away role (.ty t)) (hw : w.Closed) (ht : w.Has t) (hb : w.Off role b) :
    ¬ (w.shape t).IsParamOf b := by
  intro hp
  rcases hb with hb | hb
  · exact h b hb t .refl hp
  · have hsome := hw.isSome_of_param ht hp
    rw [hb] at hsome
    cases hsome

theorem Shape.isBinderType_of_isPlain {d : Shape} (h : d.isPlain) : d.isBinderType = false := by
  simp only [Shape.isPlain, Bool.and_eq_true, Bool.not_eq_true'] at h
  exact h.2

namespace Sealed

theorem part (h : w.Sealed role t) (hw : w.Closed) {d : Shape} (ht : w.shape? t = some d) (hu : .ty u ∈ d.parts) :
    w.Sealed role u :=
  ⟨hw.given (hw.shape ht) hu, h.away.part ht hu⟩

theorem stays (hw : w.Closed) : w.Stays role (w.Sealed role) where
  has h := h.has
  part h ht hd hu := h.part hw ht (part_of_child (shape_of_shape? ht) (Shape.isBinderType_of_isPlain hd) hu)
  not_param h hb := h.away.not_param hw h.has hb

theorem of_fixed {k : FixedKind} (ht : w.shape? t = some (.fixed k)) : w.Sealed role t :=
  ⟨Option.isSome_iff_exists.2 ⟨_, ht⟩, .of_parts ht (by rintro b ⟨i, hi | hi⟩ <;> cases hi) (by simp [Shape.parts])⟩

end Sealed

namespace Still

theorem sealed (h : w.Still role t) : w.Sealed role t := ⟨h.has, (h.within .refl).1⟩

theorem child (h : w.Still role t) (hw : w.Closed) (hu : u ∈ w.children t) : w.Still role u :=
  ⟨hw.has_child hu, fun hx => h.within (.head hu hx)⟩

theorem stays (hw : w.Closed) : w.Stays role (w.Still role) where
  has h := h.has
  part h _ _ hu := h.child hw hu
  not_param h hb := h.sealed.away.not_param hw h.has hb

/-- The binder of a type that stays as it is has parameters that are not used, and what is inside it stays as it is. -/
theorem binder (h : w.Still role t) (hw : w.Closed) {k : BinderKind} {d : Binder} (ht : w.shape? t = some (k.shape b))
    (hb : w.binder? b = some d) : (∀ s, role b ≠ .used s) ∧ (∀ i ∈ d.infos, w.Still role i) ∧ w.Still role d.result := by
  refine ⟨fun s => (h.within .refl).2 k b s ht, fun i hi => h.child hw ?_, h.child hw ?_⟩ <;> simp [children_of_binder ht hb, *]

theorem clear (h : w.Still role t) (hw : w.Closed) (hb : w.Off role b) : w.Clear true (·.IsParamOf b) t :=
  hw.clear h.has fun _ hu => (h.within hu).1.not_param hw (hw.has_within h.has hu) hb

/-- What has nothing inside that is neither plain nor fixed stays as it is if it is sealed. -/
theorem of_children {d : Shape} (h : w.Sealed role t) (ht : w.shape? t = some d) (hd : d.isBinderType = false)
    (hchildren : ∀ u ∈ w.children t, w.Still role u) : w.Still role t := by
  refine ⟨h.has, fun hu => ?_⟩
  rcases hu.cases_head with rfl | ⟨x, hx, hu⟩
  · refine ⟨h.away, fun k b s hk => ?_⟩
    rw [ht] at hk
    cases hk
    cases k <;> cases hd
  · exact (hchildren x hx).within hu

theorem of_fixed {k : FixedKind} (ht : w.shape? t = some (.fixed k)) : w.Still role t :=
  .of_children (.of_fixed ht) ht rfl (by simp [children, shape_of_shape? ht])

end Still

/-- A world that is built and where no parameter of a binder on the way down is free in what the built-in classes lead
to. -/
structure Calm (w : World) (role : BinderId → Role) : Prop where
  built : w.Built
  builtin : ∀ c : Builtin, w.Away role (.sym c.symbol)

theorem Calm.still (h : w.Calm role) (c : Builtin) : w.Still role c.type := by
  have hshape := h.built.standard.shape c
  refine .of_children ⟨Option.isSome_iff_exists.2 ⟨_, hshape⟩, ?_⟩ hshape rfl ?_
  · refine .of_parts hshape (by rintro b ⟨i, hi | hi⟩ <;> cases hi) fun n hn => ?_
    rcases List.mem_pair.1 hn with rfl | rfl
    · exact (Sealed.of_fixed h.built.shape_noPrefix).away
    · exact h.builtin c
  · intro u hu
    rw [children, shape_of_shape? hshape] at hu
    obtain rfl := List.mem_singleton.1 hu
    exact .of_fixed h.built.shape_noPrefix

/-- The handles that are fixed in advance. -/
theorem Calm.fixed (h : w.Calm role) (ht : t.id < Ty.fixedCount + Builtin.all.length) : w.Sealed role t := by
  obtain ⟨n⟩ := t
  have hfixed : n < 4 ∨ ∃ b : Builtin, (⟨n⟩ : Ty) = b.type := by
    by_cases hn : n < 4
    · exact .inl hn
    · right
      change n < 14 at ht
      interval_cases n
      exacts [⟨.any, rfl⟩, ⟨.nothing, rfl⟩, ⟨.anyVal, rfl⟩, ⟨.object, rfl⟩, ⟨.null, rfl⟩, ⟨.int, rfl⟩, ⟨.boolean, rfl⟩,
        ⟨.string, rfl⟩, ⟨.singleton, rfl⟩, ⟨.notNull, rfl⟩]
  rcases hfixed with hn | ⟨b, hb⟩
  · interval_cases n
    · exact .of_fixed h.built.standard.absent
    · exact .of_fixed h.built.shape_noPrefix
    · exact .of_fixed h.built.shape_wildcard
    · exact .of_fixed h.built.shape_error
  · exact hb ▸ (h.still b).sealed

/-! ## Images -/

/-- With the binders that `R` pairs in each other's place, the type in `v'` is the one in `v`. What `P` holds of is taken as
it is. The parameters are inside nothing but layers: the types of other binders that mention them are no images. -/
inductive Image (P : Leaves) (v v' : World) (R : BinderId → BinderId → Prop) : Ty → Ty → Prop
  | same {t : Ty} (still : P.ty t) : Image P v v' R t t
  | param {t u : Ty} {p q : BinderId} {k l : BinderKind} (i : Nat) (rel : R p q) (kind₁ : v.binderKind? p = some k)
    (kind₂ : v'.binderKind? q = some l) (alike : l.bindsValues = k.bindsValues)
    (shape₁ : v.shape? t = some (k.param ⟨p, i⟩)) (shape₂ : v'.shape? u = some (l.param ⟨q, i⟩)) : Image P v v' R t u
  | around₁ {t u c d : Ty} {mk : Ty → Shape} (hmk : Shape.Around₁ mk) (shape₁ : v.shape? t = some (mk c))
    (shape₂ : v'.shape? u = some (mk d)) (named : ∀ s, .sym s ∈ (mk c).parts → P.sym s) (child : Image P v v' R c d) :
    Image P v v' R t u
  | around₂ {t u c c' d d' : Ty} {mk : Ty → Ty → Shape} (hmk : Shape.Around₂ mk) (shape₁ : v.shape? t = some (mk c c'))
    (shape₂ : v'.shape? u = some (mk d d')) (left : Image P v v' R c d) (right : Image P v v' R c' d') :
    Image P v v' R t u
  | joint {t u c c' d d' unit zero : Ty} {node : Ty → Ty → Shape} (hnode : Shape.Joint node unit zero)
    (shape₁ : v.shape? t = some (node c c')) (shape₂ : v'.shape? u = some (node d d')) (distinct₁ : c.Distinct c')
    (distinct₂ : d.Distinct d') (left : Image P v v' R c d) (right : Image P v v' R c' d') :
    Image P v v' R t u

namespace Image

variable {P Q : Leaves} {x : World} {R' : BinderId → BinderId → Prop}

theorem imp (h : Image P v v' R t u) (hty : ∀ {t}, P.ty t → Q.ty t) (hsym : ∀ {s}, P.sym s → Q.sym s)
    (hR : ∀ p q, R p q → R' p q) : Image Q v v' R' t u := by
  induction h with
  | same still => exact .same (hty still)
  | param i rel kind₁ kind₂ alike shape₁ shape₂ => exact .param i (hR _ _ rel) kind₁ kind₂ alike shape₁ shape₂
  | around₁ hmk shape₁ shape₂ named _ ih => exact .around₁ hmk shape₁ shape₂ (fun s hs => hsym (named s hs)) ih
  | around₂ hmk shape₁ shape₂ _ _ ih ih' => exact .around₂ hmk shape₁ shape₂ ih ih'
  | joint hnode shape₁ shape₂ distinct₁ distinct₂ _ _ ih ih' => exact .joint hnode shape₁ shape₂ distinct₁ distinct₂ ih ih'

theorem swap (h : Image P v v' R t u) : Image P v' v (flip R) u t := by
  induction h with
  | same still => exact .same still
  | param i rel kind₁ kind₂ alike shape₁ shape₂ => exact .param i rel kind₂ kind₁ alike.symm shape₂ shape₁
  | around₁ hmk shape₁ shape₂ named _ ih => exact .around₁ hmk shape₂ shape₁ (fun s hs => named s (hmk.sym_mem hs)) ih
  | around₂ hmk shape₁ shape₂ _ _ ih ih' => exact .around₂ hmk shape₂ shape₁ ih ih'
  | joint hnode shape₁ shape₂ distinct₁ distinct₂ _ _ ih ih' => exact .joint hnode shape₂ shape₁ distinct₂ distinct₁ ih ih'

/-- Images stay so where the shapes and the kinds of the binders are kept. -/
theorem kept (h : Image P v v' R t u) (hshape : ∀ {t d}, v'.shape? t = some d → x.shape? t = some d)
    (hkind : ∀ {b k}, v'.binderKind? b = some k → x.binderKind? b = some k) : Image P v x R t u := by
  induction h with
  | same still => exact .same still
  | param i rel kind₁ kind₂ alike shape₁ shape₂ =>
    exact .param i rel kind₁ (hkind kind₂) alike shape₁ (hshape shape₂)
  | around₁ hmk shape₁ shape₂ named _ ih => exact .around₁ hmk shape₁ (hshape shape₂) named ih
  | around₂ hmk shape₁ shape₂ _ _ ih ih' => exact .around₂ hmk shape₁ (hshape shape₂) ih ih'
  | joint hnode shape₁ shape₂ distinct₁ distinct₂ _ _ ih ih' =>
    exact .joint hnode shape₁ (hshape shape₂) distinct₁ distinct₂ ih ih'

theorem later (h : Image P v v' R t u) (hx : v' ≤ x) : Image P v x R t u :=
  h.kept hx.shape (binderKind?_later · hx)

theorem later_left (h : Image P v v' R t u) (hx : v ≤ x) : Image P x v' R t u := (h.swap.later hx).swap

variable (hP : w.Stays role P.ty) (hv : w ≤ v) (hv' : w ≤ v') (hoff : ∀ {p q}, R p q → w.Off role q)
include hP hv hv' hoff

/-- What stays as it is is the image of itself only. -/
theorem of_still (h : Image P v v' R t u) (hu : P.ty u) : t = u := by
  have hparts {d : Shape} {a : Ty} (ha : P.ty a) (hd : v'.shape? a = some d) : w.shape? a = some d := by
    obtain ⟨e, he⟩ := Option.isSome_iff_exists.1 (hP.has ha)
    rwa [← Option.some.inj ((hv'.shape he).symm.trans hd)]
  induction h with
  | same => rfl
  | @param t u p q k l i rel kind₁ kind₂ alike shape₁ shape₂ =>
    refine absurd ?_ (hP.not_param hu (hoff rel))
    rw [shape_of_shape? (hparts hu shape₂)]
    cases l
    · exact ⟨i, .inl rfl⟩
    · exact ⟨i, .inr rfl⟩
  | @around₁ t u c d mk hmk shape₁ shape₂ _ _ ih =>
    have hshape := hparts hu shape₂
    have hd : P.ty d := hP.part hu hshape hmk.plain (by cases hmk <;> simp [children, shape_of_shape? hshape])
    exact TypeTable.shape?_injective (ih hd ▸ shape₁) (hv.shape hshape)
  | @around₂ t u c c' d d' mk hmk shape₁ shape₂ _ _ ih ih' =>
    have hshape := hparts hu shape₂
    have hd : P.ty d := hP.part hu hshape hmk.plain (by cases hmk <;> simp [children, shape_of_shape? hshape])
    have hd' : P.ty d' := hP.part hu hshape hmk.plain (by cases hmk <;> simp [children, shape_of_shape? hshape])
    exact TypeTable.shape?_injective (ih hd ▸ ih' hd' ▸ shape₁) (hv.shape hshape)
  | @joint t u c c' d d' unit zero node hnode shape₁ shape₂ _ _ _ _ ih ih' =>
    have hshape := hparts hu shape₂
    have hd : P.ty d := hP.part hu hshape hnode.plain (by cases hnode <;> simp [children, shape_of_shape? hshape])
    have hd' : P.ty d' := hP.part hu hshape hnode.plain (by cases hnode <;> simp [children, shape_of_shape? hshape])
    exact TypeTable.shape?_injective (ih hd ▸ ih' hd' ▸ shape₁) (hv.shape hshape)

/-- **Different types have different images**, if `R` pairs different binders with different ones. -/
theorem left_unique (hunique : ∀ {p p' q}, R p q → R p' q → p = p') (h : Image P v v' R t u) :
    ∀ {t' : Ty}, Image P v v' R t' u → t' = t := by
  induction h with
  | same still => exact fun h => h.of_still hP hv hv' hoff still
  | @param t u p q k l i rel kind₁ kind₂ alike shape₁ shape₂ =>
    intro t' h
    cases h with
    | same still => exact (of_still hP hv hv' hoff (.param i rel kind₁ kind₂ alike shape₁ shape₂) still).symm
    | @param _ _ p' q' k' l' j rel' kind₁' _ _ shape₁' shape₂' =>
      cases BinderKind.param_inj (Option.some.inj (shape₂.symm.trans shape₂'))
      cases hunique rel rel'
      cases kind₁.symm.trans kind₁'
      exact TypeTable.shape?_injective shape₁' shape₁
    | around₁ hmk _ shape₂' =>
      exact absurd (Option.some.inj (shape₂'.symm.trans shape₂) ▸ hmk.plain) (by cases l <;> exact Bool.false_ne_true)
    | around₂ hmk _ shape₂' =>
      exact absurd (Option.some.inj (shape₂'.symm.trans shape₂) ▸ hmk.plain) (by cases l <;> exact Bool.false_ne_true)
    | joint hnode _ shape₂' =>
      exact absurd (Option.some.inj (shape₂'.symm.trans shape₂) ▸ hnode.plain) (by cases l <;> exact Bool.false_ne_true)
  | around₁ hmk shape₁ shape₂ named child ih =>
    intro t' h
    cases h with
    | same still => exact (of_still hP hv hv' hoff (.around₁ hmk shape₁ shape₂ named child) still).symm
    | @param _ _ _ _ _ l _ _ _ _ _ _ shape₂' =>
      exact absurd (Option.some.inj (shape₂.symm.trans shape₂') ▸ hmk.plain) (by cases l <;> exact Bool.false_ne_true)
    | around₁ hmk' shape₁' shape₂' _ child' =>
      obtain ⟨rfl, rfl⟩ := hmk.inj hmk' (Option.some.inj (shape₂.symm.trans shape₂'))
      exact TypeTable.shape?_injective (ih child' ▸ shape₁') shape₁
    | around₂ hmk' _ shape₂' => exact absurd (Option.some.inj (shape₂.symm.trans shape₂')) (hmk.ne_around₂ hmk')
    | joint hnode _ shape₂' => exact absurd (Option.some.inj (shape₂.symm.trans shape₂')) (hmk.ne_joint hnode)
  | around₂ hmk shape₁ shape₂ left right ih ih' =>
    intro t' h
    cases h with
    | same still => exact (of_still hP hv hv' hoff (.around₂ hmk shape₁ shape₂ left right) still).symm
    | @param _ _ _ _ _ l _ _ _ _ _ _ shape₂' =>
      exact absurd (Option.some.inj (shape₂.symm.trans shape₂') ▸ hmk.plain) (by cases l <;> exact Bool.false_ne_true)
    | around₁ hmk' _ shape₂' => exact absurd (Option.some.inj (shape₂'.symm.trans shape₂)) (hmk'.ne_around₂ hmk)
    | around₂ hmk' shape₁' shape₂' left' right' =>
      obtain ⟨rfl, rfl, rfl⟩ := hmk.inj hmk' (Option.some.inj (shape₂.symm.trans shape₂'))
      exact TypeTable.shape?_injective (ih left' ▸ ih' right' ▸ shape₁') shape₁
    | joint hnode _ shape₂' => exact absurd (Option.some.inj (shape₂.symm.trans shape₂')) (hmk.ne_joint hnode)
  | joint hnode shape₁ shape₂ distinct₁ distinct₂ left right ih ih' =>
    intro t' h
    cases h with
    | same still =>
      exact (of_still hP hv hv' hoff (.joint hnode shape₁ shape₂ distinct₁ distinct₂ left right) still).symm
    | @param _ _ _ _ _ l _ _ _ _ _ _ shape₂' =>
      exact absurd (Option.some.inj (shape₂.symm.trans shape₂') ▸ hnode.plain) (by cases l <;> exact Bool.false_ne_true)
    | around₁ hmk' _ shape₂' => exact absurd (Option.some.inj (shape₂'.symm.trans shape₂)) (hmk'.ne_joint hnode)
    | around₂ hmk' _ shape₂' => exact absurd (Option.some.inj (shape₂'.symm.trans shape₂)) (hmk'.ne_joint hnode)
    | joint hnode' shape₁' shape₂' _ _ left' right' =>
      obtain ⟨⟨rfl, rfl, rfl⟩, rfl, rfl⟩ := hnode.inj hnode' (Option.some.inj (shape₂.symm.trans shape₂'))
      exact TypeTable.shape?_injective (ih left' ▸ ih' right' ▸ shape₁') shape₁

end Image

/-! ## Renaming -/

/-- On the right `new` in the place of `old`. -/
def redirect (R : BinderId → BinderId → Prop) (old new : BinderId) (p q : BinderId) : Prop :=
  ∃ q₀, R p q₀ ∧ q = if q₀ = old then new else q₀

/-- Different binders are paired with different ones, whose parameters stand in no type that stays as it is. -/
structure Lands (w : World) (role : BinderId → Role) (R : BinderId → BinderId → Prop) : Prop where
  unique : ∀ {p p' q}, R p q → R p' q → p = p'
  off : ∀ {p q}, R p q → w.Off role q

/-- The parameters of `new` are of the kind of those that those of `old` are put for. -/
def Suits (v v' : World) (R : BinderId → BinderId → Prop) (old new : BinderId) : Prop :=
  ∀ p k, R p old → v.binderKind? p = some k → ∃ l, v'.binderKind? new = some l ∧ l.bindsValues = k.bindsValues

theorem Suits.later {x : World} {old new : BinderId} (h : Suits v v' R old new) (hx : v' ≤ x) : Suits v x R old new := by
  intro p k hp hk
  obtain ⟨l, hl, hkl⟩ := h p k hp hk
  exact ⟨l, binderKind?_later hl hx, hkl⟩

theorem redirect_self (R : BinderId → BinderId → Prop) (b : BinderId) : redirect R b b = R := by
  funext p q
  refine propext ⟨?_, fun h => ⟨q, h, by split_ifs with heq <;> simp [heq]⟩⟩
  rintro ⟨q₀, h, rfl⟩
  split_ifs with heq
  · exact heq ▸ h
  · exact h

theorem Lands.redirect {old new : BinderId} (h : w.Lands role R) (hfree : ∀ p, ¬ R p new) (hnew : w.Off role new) :
    w.Lands role (redirect R old new) where
  unique := by
    rintro p p' _ ⟨q₀, hq₀, rfl⟩ ⟨q₁, hq₁, heq⟩
    split_ifs at heq with h₀ h₁ h₁
    · exact h.unique hq₀ (h₀ ▸ h₁ ▸ hq₁)
    · exact absurd (heq ▸ hq₁) (hfree p')
    · exact absurd (heq ▸ hq₀) (hfree p)
    · exact h.unique hq₀ (heq ▸ hq₁)
  off := by
    rintro p _ ⟨q₀, hq₀, rfl⟩
    split_ifs
    · exact hnew
    · exact h.off hq₀

theorem mapChildren_joint {f : Ty → WorldM Ty} {rename : BinderId → BinderId → Ty → WorldM Ty}
    {node : Ty → Ty → Shape} {unit zero c d : Ty} (hnode : Shape.Joint node unit zero) (ht : w.shape? t = some (node c d)) :
    ∃ make : Ty → Ty → WorldM Ty, (∀ a b, Grows True (make a b)) ∧
      (∀ {a b : Ty} v, a.Distinct b → make a b v = WorldM.intern (node a b) v) ∧
      Ty.mapChildren f rename t w = Ty.rebuild₂ f t c d make w := by
  cases hnode with
  | inter =>
    refine ⟨Ty.inter, grows_inter, fun v h => h.inter_run v, ?_⟩
    rw [Ty.mapChildren, get_bind_run, shape_of_shape? ht]
  | union =>
    refine ⟨Ty.union, grows_union, fun v h => h.union_run v, ?_⟩
    rw [Ty.mapChildren, get_bind_run, shape_of_shape? ht]

namespace Image

variable {old new : BinderId}

/-- Operands that do not collapse have images that do not. -/
theorem distinct {a a' c c' : Ty} (hw : w.Calm role) (hv : w ≤ v) (hv' : w ≤ v') (hR : w.Lands role R)
    (h : Image (w.still role) v v' R a a') (h' : Image (w.still role) v v' R c c') (hac : a.Distinct c) : a'.Distinct c' := by
  have hbuiltin {x : Ty} (b : Builtin) (hx : Image (w.still role) v v' R x b.type) : x = b.type :=
    hx.of_still (Still.stays hw.built.closed) hv hv' hR.off (hw.still b)
  obtain ⟨hne, ⟨haa, han⟩, hca, hcn⟩ := hac
  refine ⟨?_, ⟨?_, ?_⟩, ?_, ?_⟩
  · rintro rfl
    exact hne (h'.left_unique (Still.stays hw.built.closed) hv hv' hR.off hR.unique h)
  all_goals rintro rfl
  · exact haa (hbuiltin _ h)
  · exact han (hbuiltin _ h)
  · exact hca (hbuiltin _ h')
  · exact hcn (hbuiltin _ h')

/-- **Renaming takes images to images.** -/
theorem renamed (hw : w.Calm role) (hv : w ≤ v) (hold : w.Off role old) (hR : w.Lands role (redirect R old new)) (n : Nat) :
    ∀ {x x' : World} {t u r : Ty}, w ≤ x → Suits v x R old new → Image (w.still role) v x R t u →
      Ty.substBinder n old new u x = .ok (r, x') → Image (w.still role) v x' (redirect R old new) t r := by
  induction n with
  | zero => exact fun _ _ _ hrun => nomatch hrun
  | succ n ih =>
    intro x x' t u r hx hnew h hrun
    have hcl := hw.built.closed
    have hle : x ≤ x' := (grows_substBinder (n + 1) old new u).le_of_ok hrun
    by_cases hne : old = new
    · subst hne
      change (if old = old then pure u else _ : WorldM Ty) x = _ at hrun
      rw [if_pos rfl] at hrun
      cases hrun
      rwa [redirect_self]
    cases h with
    | same still =>
      cases substBinder_same (n + 1) ((still.clear hcl hold).later hx) hrun
      exact .same still
    | @param _ _ p q k l i rel kind₁ kind₂ alike shape₁ shape₂ =>
      rw [substBinder_param hne shape₂] at hrun
      split_ifs at hrun with hq
      · obtain ⟨m, hm, halike⟩ := hnew p k (hq ▸ rel) kind₁
        rw [paramType_run hm] at hrun
        exact .param i ⟨q, rel, (if_pos hq).symm⟩ kind₁ (binderKind?_later hm hle) halike shape₁ (intern_ok hrun).2
      · cases hrun
        exact .param i ⟨q, rel, (if_neg hq).symm⟩ kind₁ kind₂ alike shape₁ shape₂
    | around₁ hmk shape₁ shape₂ named child =>
      rw [substBinder_layer hne shape₂ (by cases hmk <;> rfl), mapChildren_around₁ hmk shape₂] at hrun
      obtain ⟨d', y, hd, hy, hr⟩ := rebuild₁_ok shape₂ (grows_substBinder n old new _) hrun
      exact .around₁ hmk shape₁ hr named ((ih hx hnew child hd).later hy)
    | around₂ hmk shape₁ shape₂ left right =>
      rw [substBinder_layer hne shape₂ (by cases hmk <;> rfl), mapChildren_around₂ hmk shape₂] at hrun
      obtain ⟨c', y, d', y', hc, hd, hle₁, hle₂, hle₃, hr⟩ :=
        rebuild₂_ok (grows_substBinder n old new) (fun _ _ => grows_intern _) hrun
      have hleft := ih hx hnew left hc
      have hright := ih (hx.trans hle₁) (hnew.later hle₁) (right.later hle₁) hd
      refine .around₂ hmk shape₁ ?_ (hleft.later (hle₂.trans hle₃)) (hright.later hle₃)
      split_ifs at hr with hsame
      · rw [hr, hsame.1, hsame.2]
        exact hle.shape shape₂
      · exact (intern_ok hr).2
    | joint hnode shape₁ shape₂ distinct₁ distinct₂ left right =>
      obtain ⟨make, hmakes, hmake, hmap⟩ := mapChildren_joint hnode shape₂
      rw [substBinder_layer hne shape₂ (by cases hnode <;> rfl), hmap] at hrun
      obtain ⟨c', y, d', y', hc, hd, hle₁, hle₂, hle₃, hr⟩ := rebuild₂_ok (grows_substBinder n old new) hmakes hrun
      have hleft := (ih hx hnew left hc).later hle₂
      have hright := ih (hx.trans hle₁) (hnew.later hle₁) (right.later hle₁) hd
      have hdistinct := hleft.distinct hw hv (hx.trans (hle₁.trans hle₂)) hR hright distinct₁
      refine .joint hnode shape₁ ?_ distinct₁ hdistinct (hleft.later hle₃) (hright.later hle₃)
      split_ifs at hr with hsame
      · rw [hr, hsame.1, hsame.2]
        exact hle.shape shape₂
      · rw [hmake _ hdistinct] at hr
        exact (intern_ok hr).2

/-- The types of a list are renamed one after the other. -/
theorem renamed_list (hw : w.Calm role) (hv : w ≤ v) (hold : w.Off role old) (hR : w.Lands role (redirect R old new)) {n : Nat}
    {ts us rs : List Ty} : ∀ {x x' : World}, w ≤ x → Suits v x R old new → List.Forall₂ (Image (w.still role) v x R) ts us →
      us.mapM (Ty.substBinder n old new) x = .ok (rs, x') →
      List.Forall₂ (Image (w.still role) v x' (redirect R old new)) ts rs := by
  induction ts generalizing us rs with
  | nil =>
    rintro x x' - - ⟨⟩ hrun
    cases hrun
    exact .nil
  | cons t ts ih =>
    rintro x x' hx hnew (_ | ⟨h, hs⟩) hrun
    rw [List.mapM_cons] at hrun
    obtain ⟨r, x₁, hr, hrun⟩ := bind_ok hrun
    obtain ⟨rs', x₂, hrs, hrun⟩ := bind_ok hrun
    cases hrun
    have hle₁ : x ≤ x₁ := (grows_substBinder n old new _).le_of_ok hr
    have hle₂ := (Grows.mapM (grows_substBinder n old new) _ : Grows True _).le_of_ok hrs
    exact .cons ((h.renamed hw hv hold hR n hx hnew hr).later hle₂)
      (ih (hx.trans hle₁) (hnew.later hle₁) (hs.imp fun _ _ h => h.later hle₁) hrs)

/-- An image is clear of the parameters of a binder that is not paired and that no type that stays as it is mentions. -/
theorem clear (hw : w.Closed) (hv' : w ≤ v') (hold : w.Off role old) (hno : ∀ p, ¬ R p old) (h : Image (w.still role) v v' R t u) :
    v'.Clear true (·.IsParamOf old) u := by
  have hlayer {a : Ty} {d : Shape} (ha : v'.shape? a = some d) (hplain : d.isPlain)
      (hparts : ∀ c, .ty c ∈ d.parts → v'.Clear true (·.IsParamOf old) c) : v'.Clear true (·.IsParamOf old) a := by
    have hbinder : d.isBinderType = false := by
      simp only [Shape.isPlain, Bool.and_eq_true, Bool.not_eq_true'] at hplain
      exact hplain.2
    refine .of_children ⟨d, ha, fun b hb => ?_⟩ ?_ fun c hc => ?_
    · cases d <;> simp [Shape.parts] at hb <;> cases hbinder
    · rw [shape_of_shape? ha]
      rintro ⟨i, rfl | rfl⟩ <;> cases hplain
    · rw [inside_true] at hc
      exact hparts c (part_of_child (shape_of_shape? ha) hbinder hc)
  induction h with
  | same still => exact (still.clear hw hold).later hv'
  | @param t u p q k l i rel _ _ _ _ shape₂ =>
    refine .of_children ⟨_, shape₂, fun b hb => ?_⟩ ?_ fun c hc => ?_
    · cases l <;> simp [BinderKind.param, Shape.parts] at hb
    · rw [shape_of_shape? shape₂]
      rintro ⟨j, hj | hj⟩ <;> cases l <;> cases hj <;> exact hno p rel
    · rw [inside_true, children, shape_of_shape? shape₂] at hc
      cases l <;> cases hc
  | around₁ hmk _ shape₂ _ _ ih => exact hlayer shape₂ hmk.plain (by cases hmk <;> simpa [Shape.parts] using ih)
  | around₂ hmk _ shape₂ _ _ ih ih' =>
    exact hlayer shape₂ hmk.plain (by cases hmk <;> simpa [Shape.parts] using ⟨ih, ih'⟩)
  | joint hnode _ shape₂ _ _ _ _ ih ih' =>
    exact hlayer shape₂ hnode.plain (by cases hnode <;> simpa [Shape.parts] using ⟨ih, ih'⟩)

end Image

/-! ## Types that correspond to their images -/

/-- Pairs of binders of the two sides that are used alike: each binder is in one pair at most, and the infos of two that
are paired are images of each other. -/
structure Paired (w : World) (role : BinderId → Role) (s : Bool) (R : BinderId → BinderId → Prop) : Prop where
  left : ∀ {p q}, R p q → role p = .used s
  right : ∀ {p q}, R p q → role q = .used !s
  inj : ∀ {p q p' q'}, R p q → R p' q' → (p = p' ↔ q = q')
  alike : ∀ {p q}, R p q → ∃ d e, w.binder? p = some d ∧ w.binder? q = some e ∧
    e.kind.bindsValues = d.kind.bindsValues ∧ List.Forall₂ (Image (w.sealed role) w w R) d.infos e.infos

/-- A binder elsewhere whose infos are sealed. -/
def Foreign (w : World) (role : BinderId → Role) (b : BinderId) : Prop :=
  role b = .elsewhere ∧ ∃ d, w.binder? b = some d ∧ ∀ i ∈ d.infos, w.Sealed role i

/-- The pairs of types in `v` with their images in `v'`. Binders are not opened, so that inside of them each parameter
stands for itself. -/
def images (w : World) (role : BinderId → Role) (v v' : World) (R : BinderId → BinderId → Prop) : Corr where
  base₁ := w
  base₂ := w
  ty := Image (w.sealed role) v v' R
  binder a b := a = b ∧ (w.binder? a).isSome
  params a b := R a b ∨ a = b ∧ w.Foreign role a
  skolem j k := j = k ∧ j.id < w.skolems
  sym s := w.Away role (.sym s)
  var v := w.Away role (.var v)
  opens := False

theorem Image.sealed (h : Image (w.still role) v v' R t u) : (images w role v v' R).ty t u :=
  h.imp Still.sealed id fun _ _ => id

/-- The shape of a type that is sealed stands for itself. -/
theorem Sealed.shapes (h : w.Sealed role t) (hw : w.Closed) {d : Shape} (ht : w.shape? t = some d) :
    (images w role v v' R).Shapes d d := by
  have hpart {a : Ty} (ha : .ty a ∈ d.parts) : (images w role v v' R).ty a a := .same (h.part hw ht ha)
  have hsym {s : Symbol} (hs : .sym s ∈ d.parts) : (images w role v v' R).sym s := h.away.part ht hs
  have hmentions := hw.shape ht
  have hscope {b : BinderId} {i : Nat} (hp : .param ⟨b, i⟩ ∈ d.parts) (hd : d.IsParamOf b) :
      (images w role v v' R).Scope b b := by
    refine .inr (.inr ⟨rfl, ?_⟩)
    have hd : (w.shape t).IsParamOf b := (shape_of_shape? ht).symm ▸ hd
    have hrole : role b = .elsewhere := by
      by_contra hb
      exact h.away b hb t .refl hd
    obtain ⟨e, he⟩ := Option.isSome_iff_exists.1 (hw.isSome_of_param h.has hd)
    have hbinder : w.Away role (.binder b) := (h.away.part ht hp).along (.inr ⟨rfl, _, rfl, rfl⟩) nofun
    refine ⟨hrole, e, he, fun j hj => ⟨(hw.binder he).1 j hj, hbinder.along (.inl (.info he hj)) ?_⟩⟩
    rintro c hc ⟨⟩
    exact hc hrole
  cases d with
  | fixed k => exact .fixed k
  | named p s => exact .named (hpart (by simp [Shape.parts])) (hsym (by simp [Shape.parts]))
  | path p s => exact .path (hpart (by simp [Shape.parts])) (hsym (by simp [Shape.parts]))
  | self c => exact .self (hsym (by simp [Shape.parts]))
  | literal l => exact .literal l
  | skolem k u =>
    cases hmentions with
    | skolem hk => exact .skolem ⟨rfl, hk.2⟩ (hpart (by simp [Shape.parts]))
  | var i => exact .var (h.away.part ht (by simp [Shape.parts]))
  | param p => exact .param (hscope (i := p.index) (by simp [Shape.parts]) ⟨_, .inl rfl⟩) p.index
  | valueParam p => exact .valueParam (hscope (i := p.index) (by simp [Shape.parts]) ⟨_, .inr rfl⟩) p.index
  | refined p n i => exact .refined (hpart (by simp [Shape.parts])) n (hpart (by simp [Shape.parts]))
  | inter a b => exact .inter (hpart (by simp [Shape.parts])) (hpart (by simp [Shape.parts]))
  | union a b => exact .union (hpart (by simp [Shape.parts])) (hpart (by simp [Shape.parts]))
  | method b =>
    cases hmentions with
    | method hb => exact .method ⟨rfl, hb.2⟩
  | universal b =>
    cases hmentions with
    | universal hb => exact .universal ⟨rfl, hb.2⟩
  | byName a => exact .byName (hpart (by simp [Shape.parts]))
  | bounds a b => exact .bounds (hpart (by simp [Shape.parts])) (hpart (by simp [Shape.parts]))
  | classInfo p c => exact .classInfo (hpart (by simp [Shape.parts])) (hsym (by simp [Shape.parts]))

/-- **Images correspond to what they are images of.** -/
theorem Paired.matches {s : Bool} (h : w.Paired role s R) (hw : w.Calm role) (hv : w ≤ v) (hv' : w ≤ v') :
    (images w role v v' R).Matches v v' where
  le₁ := hv
  le₂ := hv'
  ty {a b} hab := by
    cases hab with
    | same still =>
      obtain ⟨d, hd⟩ := Option.isSome_iff_exists.1 still.has
      exact ⟨d, d, hv.shape hd, hv'.shape hd, still.shapes hw.built.closed hd⟩
    | @param _ _ _ _ k l i rel _ _ alike shape₁ shape₂ =>
      have hscope : (images w role v v' R).Scope _ _ := .inr (.inl rel)
      refine ⟨_, _, shape₁, shape₂, ?_⟩
      cases k <;> cases l <;> cases alike
      · exact .param hscope i
      · exact .valueParam hscope i
    | around₁ hmk shape₁ shape₂ named child =>
      have hsym := fun {s} hs => (named s hs : (images w role v v' R).sym s)
      refine ⟨_, _, shape₁, shape₂, ?_⟩
      cases hmk with
      | named s => exact .named (ρ := images w role v v' R) child (hsym (by simp [Shape.parts]))
      | path s => exact .path (ρ := images w role v v' R) child (hsym (by simp [Shape.parts]))
      | classInfo c => exact .classInfo (ρ := images w role v v' R) child (hsym (by simp [Shape.parts]))
      | byName => exact .byName (ρ := images w role v v' R) child
    | around₂ hmk shape₁ shape₂ left right =>
      refine ⟨_, _, shape₁, shape₂, ?_⟩
      cases hmk with
      | refined n => exact .refined (ρ := images w role v v' R) left n right
      | bounds => exact .bounds (ρ := images w role v v' R) left right
    | joint hnode shape₁ shape₂ _ _ left right =>
      refine ⟨_, _, shape₁, shape₂, ?_⟩
      cases hnode with
      | inter => exact .inter (ρ := images w role v v' R) left right
      | union => exact .union (ρ := images w role v v' R) left right
  ty_inj {a b a' b'} hab hab' := by
    have hstays : w.Stays role (w.Sealed role) := Sealed.stays hw.built.closed
    have hoff {p q : BinderId} (hpq : R p q) : w.Off role q := .inl (by rw [h.right hpq]; rintro ⟨⟩)
    have hoff' {p q : BinderId} (hpq : flip R p q) : w.Off role q := .inl (by rw [h.left hpq]; rintro ⟨⟩)
    constructor
    · rintro rfl
      exact hab'.swap.left_unique hstays hv' hv hoff' (fun h₁ h₂ => (h.inj h₁ h₂).1 rfl) hab.swap
    · rintro rfl
      exact hab'.left_unique hstays hv hv' hoff (fun h₁ h₂ => (h.inj h₁ h₂).2 rfl) hab
  binder := False.elim
  binder_inj := by
    rintro a b a' b' ⟨rfl, -⟩ ⟨rfl, -⟩
    rfl
  params {a b} hab := by
    rcases hab with hab | ⟨rfl, -, d, hd, hinfos⟩
    · obtain ⟨d, e, hd, he, hkind, hinfos⟩ := h.alike hab
      exact ⟨d, e, hv.binder hd, hv'.binder he, hkind, hinfos.imp fun _ _ h => (h.later hv').later_left hv⟩
    · exact ⟨d, d, hv.binder hd, hv'.binder hd, rfl, List.forall₂_same.2 fun i hi => .same (hinfos i hi)⟩
  scope_inj := by
    have hapart {a p q : BinderId} (ha : w.Foreign role a) (hpq : R p q) : a ≠ p ∧ a ≠ q := by
      constructor
      · rintro rfl
        cases ha.1.symm.trans (h.left hpq)
      · rintro rfl
        cases ha.1.symm.trans (h.right hpq)
    rintro a b a' b' (⟨⟨⟩, -⟩ | hab | ⟨rfl, ha⟩) (⟨⟨⟩, -⟩ | hab' | ⟨rfl, ha'⟩)
    · exact h.inj hab hab'
    · exact iff_of_false (hapart ha' hab).1.symm (hapart ha' hab).2.symm
    · exact iff_of_false (hapart ha hab').1 (hapart ha hab').2
    · exact Iff.rfl
  skolem := by
    rintro a b ⟨rfl, ha⟩
    exact ⟨Nat.lt_of_lt_of_le ha hv.skolems, Nat.lt_of_lt_of_le ha hv'.skolems⟩
  skolem_inj := by
    rintro a b a' b' ⟨rfl, -⟩ ⟨rfl, -⟩
    rfl
  fixed t ht := .same (hw.fixed ht)
  builtin := hw.builtin
  vars := hv'.vars.trans hv.vars.symm
  var {i c} hi hc := by
    rw [hv.vars] at hc
    obtain ⟨horigin, hinst⟩ := hw.built.closed.var _ (Array.mem_of_getElem? hc)
    exact ⟨.same ⟨horigin, Away.step hi (.origin hc) rfl⟩, fun t ht => .same ⟨hinst t ht, Away.step hi (.settled hc ht) rfl⟩⟩
  decls := hv'.decls.trans hv.decls.symm
  decl {s d} hs hd := by
    rw [hv.decls] at hd
    obtain ⟨hinfo, hparents⟩ := hw.built.closed.decl _ (mem_of_get? hd)
    have hpart {n : Node} (hn : n ∈ d.parts) : w.Away role n := Away.step hs (.declaration hd hn) rfl
    exact {
      info := .same ⟨hinfo, hpart (by simp [Declaration.parts])⟩
      parents := fun t ht => .same ⟨hparents t ht, hpart (by simp_all [Declaration.parts])⟩
      typeParams := fun p hp => hpart (by simp_all [Declaration.parts])
      members := fun space e he => by
        have hmem : e ∈ d.typeMembers.entries ++ d.termMembers.entries := by cases space <;> simp_all [Declaration.members]
        exact hpart (List.mem_append_right _ (List.mem_map_of_mem hmem)) }
  unopened _ := ⟨Corr.identity w, trivial, (hw.built.closed.identity_matches.grow hv hv').toAgrees, id⟩

end World

end Conformance
