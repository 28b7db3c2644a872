import Mathlib.Data.List.Forall2
import Conformance.Proofs.Growth

/-!
# Worlds up to the choice of handles

Two runs of one computation that start in different worlds give out different handles for what they build. A
correspondence pairs the handles of two worlds off, one to one; `ρ.Matches w₁ w₂` says that paired handles stand for
the same things up to `ρ`, and that whatever declarations mention is paired with itself. Correspondences can be turned
round and composed (`Matches.symm`, `Matches.trans`), outlast whatever either world takes in on its own
(`Matches.grow`), and grow along with what both take in together (`Matches.exists_ty`, `Matches.exists_skolem`,
`Matches.exists_binder`). Binders that bind different things may be paired for their parameters alone
(`Matches.exists_params`).

A correspondence need not open binders. Then the types of paired binders face each other unopened, and what is inside of
them is up to another correspondence, one that opens binders (`Matches.opened`). So a parameter may stand for another one
where it is free, and for itself inside the types that bind it.
-/

namespace Conformance

/-- Whether what is bound are values. -/
def BinderKind.bindsValues : BinderKind → Bool
  | .universal => false
  | .method _ => true

/-- Whether the shape is that of a universal or method type. -/
def Shape.isBinderType : Shape → Bool
  | .method _ | .universal _ => true
  | _ => false

/-- Pairs of handles of two worlds, with the worlds in which the pairing began. Binders are paired with what they bind, if
the pairing opens them, or for their parameters alone. The symbols and the variables stand for themselves. -/
structure Corr where
  base₁ : World
  base₂ : World
  ty : Ty → Ty → Prop
  binder : BinderId → BinderId → Prop
  params : BinderId → BinderId → Prop
  skolem : SkolemId → SkolemId → Prop
  sym : Symbol → Prop
  var : VarId → Prop
  opens : Prop

namespace Corr

/-- `σ` began where `ρ` began and pairs whatever `ρ` pairs. -/
structure Extends (ρ σ : Corr) : Prop where
  base₁ : σ.base₁ = ρ.base₁
  base₂ : σ.base₂ = ρ.base₂
  ty : ∀ {a b : Ty}, ρ.ty a b → σ.ty a b
  binder : ∀ {a b : BinderId}, ρ.binder a b → σ.binder a b
  params : ∀ {a b : BinderId}, ρ.params a b → σ.params a b
  skolem : ∀ {a b : SkolemId}, ρ.skolem a b → σ.skolem a b
  sym : ∀ {s : Symbol}, ρ.sym s → σ.sym s
  var : ∀ {v : VarId}, ρ.var v → σ.var v
  opens : ρ.opens → σ.opens

instance : Preorder Corr where
  le := Extends
  le_refl _ := ⟨rfl, rfl, id, id, id, id, id, id, id⟩
  le_trans _ _ _ h₁ h₂ := ⟨h₂.base₁.trans h₁.base₁, h₂.base₂.trans h₁.base₂, h₂.ty ∘ h₁.ty, h₂.binder ∘ h₁.binder,
    h₂.params ∘ h₁.params, h₂.skolem ∘ h₁.skolem, h₂.sym ∘ h₁.sym, h₂.var ∘ h₁.var, h₂.opens ∘ h₁.opens⟩

/-- The parameters of the one binder stand for those of the other. -/
def Scope (ρ : Corr) (b c : BinderId) : Prop := ρ.opens ∧ ρ.binder b c ∨ ρ.params b c

/-- The same shape around paired handles. -/
inductive Shapes (ρ : Corr) : Shape → Shape → Prop
  | fixed (k : FixedKind) : Shapes ρ (.fixed k) (.fixed k)
  | named {p q : Ty} (h : ρ.ty p q) {s : Symbol} (hs : ρ.sym s) : Shapes ρ (.named p s) (.named q s)
  | path {p q : Ty} (h : ρ.ty p q) {s : Symbol} (hs : ρ.sym s) : Shapes ρ (.path p s) (.path q s)
  | self {c : Symbol} (hc : ρ.sym c) : Shapes ρ (.self c) (.self c)
  | literal (v : Literal) : Shapes ρ (.literal v) (.literal v)
  | skolem {j k : SkolemId} {t u : Ty} (hk : ρ.skolem j k) (h : ρ.ty t u) : Shapes ρ (.skolem j t) (.skolem k u)
  | var {v : VarId} (hv : ρ.var v) : Shapes ρ (.var v) (.var v)
  | param {b c : BinderId} (h : ρ.Scope b c) (i : Nat) : Shapes ρ (.param ⟨b, i⟩) (.param ⟨c, i⟩)
  | valueParam {b c : BinderId} (h : ρ.Scope b c) (i : Nat) : Shapes ρ (.valueParam ⟨b, i⟩) (.valueParam ⟨c, i⟩)
  | refined {p q i j : Ty} (h : ρ.ty p q) (n : String) (hi : ρ.ty i j) : Shapes ρ (.refined p n i) (.refined q n j)
  | inter {a b c d : Ty} (h : ρ.ty a c) (h' : ρ.ty b d) : Shapes ρ (.inter a b) (.inter c d)
  | union {a b c d : Ty} (h : ρ.ty a c) (h' : ρ.ty b d) : Shapes ρ (.union a b) (.union c d)
  | method {b c : BinderId} (h : ρ.binder b c) : Shapes ρ (.method b) (.method c)
  | universal {b c : BinderId} (h : ρ.binder b c) : Shapes ρ (.universal b) (.universal c)
  | byName {a b : Ty} (h : ρ.ty a b) : Shapes ρ (.byName a) (.byName b)
  | bounds {a b c d : Ty} (h : ρ.ty a c) (h' : ρ.ty b d) : Shapes ρ (.bounds a b) (.bounds c d)
  | classInfo {p q : Ty} (h : ρ.ty p q) {c : Symbol} (hc : ρ.sym c) : Shapes ρ (.classInfo p c) (.classInfo q c)

/-- The same parameter list and result around paired handles. -/
structure Binders (ρ : Corr) (d₁ d₂ : Binder) : Prop where
  kind : d₂.kind = d₁.kind
  names : d₂.names = d₁.names
  infos : List.Forall₂ ρ.ty d₁.infos d₂.infos
  result : ρ.ty d₁.result d₂.result

/-- Types on both sides or values on both sides, with paired infos. -/
structure Params (ρ : Corr) (d₁ d₂ : Binder) : Prop where
  kind : d₂.kind.bindsValues = d₁.kind.bindsValues
  infos : List.Forall₂ ρ.ty d₁.infos d₂.infos

/-- What a declaration mentions stands for itself. -/
structure Declares (ρ : Corr) (d : Declaration) : Prop where
  info : ρ.ty d.info d.info
  parents : ∀ t ∈ d.parents, ρ.ty t t
  typeParams : ∀ p ∈ d.typeParams, ρ.sym p
  members : ∀ space, ∀ e ∈ (d.members space).entries, ρ.sym e.2

/-- Paired handles stand for the same things, up to `ρ`, and the worlds extend those in which the pairing began. What is
inside of paired binders is left out if `ρ` does not open them. -/
structure Agrees (ρ : Corr) (w₁ w₂ : World) : Prop where
  le₁ : ρ.base₁ ≤ w₁
  le₂ : ρ.base₂ ≤ w₂
  ty : ∀ {a b : Ty}, ρ.ty a b → ∃ d₁ d₂, w₁.shape? a = some d₁ ∧ w₂.shape? b = some d₂ ∧ ρ.Shapes d₁ d₂
  ty_inj : ∀ {a b a' b' : Ty}, ρ.ty a b → ρ.ty a' b' → (a = a' ↔ b = b')
  binder : ρ.opens → ∀ {a b : BinderId}, ρ.binder a b →
    ∃ d₁ d₂, w₁.binder? a = some d₁ ∧ w₂.binder? b = some d₂ ∧ ρ.Binders d₁ d₂
  binder_inj : ∀ {a b a' b' : BinderId}, ρ.binder a b → ρ.binder a' b' → (a = a' ↔ b = b')
  params : ∀ {a b : BinderId}, ρ.params a b →
    ∃ d₁ d₂, w₁.binder? a = some d₁ ∧ w₂.binder? b = some d₂ ∧ ρ.Params d₁ d₂
  scope_inj : ∀ {a b a' b' : BinderId}, ρ.Scope a b → ρ.Scope a' b' → (a = a' ↔ b = b')
  skolem : ∀ {a b : SkolemId}, ρ.skolem a b → a.id < w₁.skolems ∧ b.id < w₂.skolems
  skolem_inj : ∀ {a b a' b' : SkolemId}, ρ.skolem a b → ρ.skolem a' b' → (a = a' ↔ b = b')
  /-- The fixed types and the references to built-in classes. -/
  fixed : ∀ t : Ty, t.id < Ty.fixedCount + Builtin.all.length → ρ.ty t t
  builtin : ∀ b : Builtin, ρ.sym b.symbol
  vars : w₂.vars = w₁.vars
  var : ∀ {v : VarId} {c : VarCell}, ρ.var v → w₁.vars[v.id]? = some c → ρ.ty c.origin c.origin ∧ ∀ t ∈ c.inst, ρ.ty t t
  decls : w₂.decls = w₁.decls
  decl : ∀ {s : Symbol} {d : Declaration}, ρ.sym s → w₁.decls.get? s = some d → ρ.Declares d

/-- Paired handles stand for the same things; binders that `ρ` does not open are paired by a correspondence that does. -/
structure Matches (ρ : Corr) (w₁ w₂ : World) : Prop extends ρ.Agrees w₁ w₂ where
  unopened : ¬ ρ.opens → ∃ σ : Corr, σ.opens ∧ σ.Agrees w₁ w₂ ∧ ∀ {a b : BinderId}, ρ.binder a b → σ.binder a b

/-- Paired binders that were given out since the pairing began. -/
structure Fresh (ρ : Corr) (b c : BinderId) : Prop where
  binder : ρ.binder b c
  size₁ : ρ.base₁.binders.size ≤ b.id
  size₂ : ρ.base₂.binders.size ≤ c.id

/-! ## Turning round and composing -/

def symm (ρ : Corr) : Corr :=
  ⟨ρ.base₂, ρ.base₁, fun a b => ρ.ty b a, fun a b => ρ.binder b a, fun a b => ρ.params b a, fun a b => ρ.skolem b a,
    ρ.sym, ρ.var, ρ.opens⟩

/-- `ρ`, then `σ`. -/
def trans (ρ σ : Corr) : Corr where
  base₁ := ρ.base₁
  base₂ := σ.base₂
  ty a c := ∃ b, ρ.ty a b ∧ σ.ty b c
  binder a c := ∃ b, ρ.binder a b ∧ σ.binder b c
  params a c := ∃ b, ρ.Scope a b ∧ σ.Scope b c
  skolem a c := ∃ b, ρ.skolem a b ∧ σ.skolem b c
  sym s := ρ.sym s ∧ σ.sym s
  var v := ρ.var v ∧ σ.var v
  opens := ρ.opens ∧ σ.opens

/-- The same pairs, taken to begin in other worlds. -/
def rebase (ρ : Corr) (w₁ w₂ : World) : Corr := { ρ with base₁ := w₁, base₂ := w₂ }

variable {ρ σ : Corr}

theorem Scope.mono (h : ρ ≤ σ) {b c : BinderId} (hbc : ρ.Scope b c) : σ.Scope b c :=
  Or.imp (And.imp h.opens h.binder) h.params hbc

theorem Scope.trans {a b c : BinderId} (h : ρ.Scope a b) (h' : σ.Scope b c) : (ρ.trans σ).Scope a c := .inr ⟨b, h, h'⟩

theorem Shapes.imp (hty : ∀ {a b}, ρ.ty a b → σ.ty a b) (hbinder : ∀ {a b}, ρ.binder a b → σ.binder a b)
    (hscope : ∀ {a b}, ρ.Scope a b → σ.Scope a b) (hskolem : ∀ {a b}, ρ.skolem a b → σ.skolem a b)
    (hsym : ∀ {s}, ρ.sym s → σ.sym s) (hvar : ∀ {v}, ρ.var v → σ.var v) {d₁ d₂ : Shape} (hd : ρ.Shapes d₁ d₂) :
    σ.Shapes d₁ d₂ := by
  cases hd <;> constructor <;>
    first | exact hty ‹_› | exact hbinder ‹_› | exact hscope ‹_› | exact hskolem ‹_› | exact hsym ‹_› | exact hvar ‹_›

theorem Shapes.mono (h : ρ ≤ σ) {d₁ d₂ : Shape} (hd : ρ.Shapes d₁ d₂) : σ.Shapes d₁ d₂ :=
  hd.imp h.ty h.binder (.mono h) h.skolem h.sym h.var

theorem Shapes.symm {d₁ d₂ : Shape} (h : ρ.Shapes d₁ d₂) : ρ.symm.Shapes d₂ d₁ := by
  cases h <;> constructor <;> assumption

theorem Shapes.trans {d₁ d₂ d₃ : Shape} (h : ρ.Shapes d₁ d₂) (h' : σ.Shapes d₂ d₃) : (ρ.trans σ).Shapes d₁ d₃ := by
  cases h <;> cases h' <;> constructor <;> first | exact ⟨_, ‹_›, ‹_›⟩ | exact Scope.trans ‹_› ‹_› | exact ⟨‹_›, ‹_›⟩

theorem Shapes.isNamed {d₁ d₂ : Shape} (h : ρ.Shapes d₁ d₂) : d₁.isNamed = d₂.isNamed := by
  cases h <;> rfl

theorem Fresh.mono (h : ρ ≤ σ) {b c : BinderId} (hbc : ρ.Fresh b c) : σ.Fresh b c :=
  ⟨h.binder hbc.binder, h.base₁ ▸ hbc.size₁, h.base₂ ▸ hbc.size₂⟩

theorem Binders.mono (h : ρ ≤ σ) {d₁ d₂ : Binder} (hd : ρ.Binders d₁ d₂) : σ.Binders d₁ d₂ :=
  ⟨hd.kind, hd.names, hd.infos.imp fun _ _ => h.ty, h.ty hd.result⟩

theorem Binders.params {d₁ d₂ : Binder} (hd : ρ.Binders d₁ d₂) : ρ.Params d₁ d₂ := ⟨congrArg _ hd.kind, hd.infos⟩

theorem Params.mono (h : ρ ≤ σ) {d₁ d₂ : Binder} (hd : ρ.Params d₁ d₂) : σ.Params d₁ d₂ :=
  ⟨hd.kind, hd.infos.imp fun _ _ => h.ty⟩

theorem Declares.imp (hty : ∀ {t}, ρ.ty t t → σ.ty t t) (hsym : ∀ {s}, ρ.sym s → σ.sym s) {d : Declaration}
    (hd : ρ.Declares d) : σ.Declares d :=
  ⟨hty hd.info, fun t ht => hty (hd.parents t ht), fun p hp => hsym (hd.typeParams p hp),
    fun space e he => hsym (hd.members space e he)⟩

theorem forall₂_comp {α : Type} {R S : α → α → Prop} {l₁ l₂ l₃ : List α} (h : List.Forall₂ R l₁ l₂)
    (h' : List.Forall₂ S l₂ l₃) : List.Forall₂ (fun a c => ∃ b, R a b ∧ S b c) l₁ l₃ := by
  induction h generalizing l₃ with
  | nil => cases h'; exact .nil
  | cons hab _ ih => cases h' with | cons hbc hrest => exact .cons ⟨_, hab, hbc⟩ (ih hrest)

namespace Agrees

variable {w₁ w₂ w₃ : World}

/-- What binders whose parameters are paired hold. -/
theorem scope (h : ρ.Agrees w₁ w₂) {b c : BinderId} (hbc : ρ.Scope b c) :
    ∃ d₁ d₂, w₁.binder? b = some d₁ ∧ w₂.binder? c = some d₂ ∧ ρ.Params d₁ d₂ := by
  rcases hbc with hbc | hbc
  · obtain ⟨d₁, d₂, hb, hc, hd⟩ := h.binder hbc.1 hbc.2
    exact ⟨d₁, d₂, hb, hc, hd.params⟩
  · exact h.params hbc

theorem symm (h : ρ.Agrees w₁ w₂) : ρ.symm.Agrees w₂ w₁ where
  le₁ := h.le₂
  le₂ := h.le₁
  ty hab := by
    obtain ⟨d₁, d₂, h₁, h₂, hd⟩ := h.ty hab
    exact ⟨d₂, d₁, h₂, h₁, hd.symm⟩
  ty_inj hab hab' := (h.ty_inj hab hab').symm
  binder ho {_ _} hab := by
    obtain ⟨d₁, d₂, h₁, h₂, hd⟩ := h.binder ho hab
    exact ⟨d₂, d₁, h₂, h₁, hd.kind.symm, hd.names.symm, hd.infos.flip, hd.result⟩
  binder_inj hab hab' := (h.binder_inj hab hab').symm
  params hab := by
    obtain ⟨d₁, d₂, h₁, h₂, hd⟩ := h.params hab
    exact ⟨d₂, d₁, h₂, h₁, hd.kind.symm, hd.infos.flip⟩
  scope_inj hab hab' := (h.scope_inj hab hab').symm
  skolem hab := (h.skolem hab).symm
  skolem_inj hab hab' := (h.skolem_inj hab hab').symm
  fixed := h.fixed
  builtin := h.builtin
  vars := h.vars.symm
  var hv hc := h.var hv (h.vars ▸ hc)
  decls := h.decls.symm
  decl hs hd := Declares.imp (ρ := ρ) (σ := ρ.symm) id id (h.decl hs (h.decls ▸ hd))

theorem trans (h : ρ.Agrees w₁ w₂) (h' : σ.Agrees w₂ w₃) : (ρ.trans σ).Agrees w₁ w₃ where
  le₁ := h.le₁
  le₂ := h'.le₂
  ty := by
    rintro a c ⟨b, hab, hbc⟩
    obtain ⟨d₁, d₂, h₁, h₂, hd⟩ := h.ty hab
    obtain ⟨d₂', d₃, h₂', h₃, hd'⟩ := h'.ty hbc
    obtain rfl : d₂ = d₂' := Option.some.inj (h₂.symm.trans h₂')
    exact ⟨d₁, d₃, h₁, h₃, hd.trans hd'⟩
  ty_inj := by
    rintro a c a' c' ⟨b, hab, hbc⟩ ⟨b', hab', hbc'⟩
    exact (h.ty_inj hab hab').trans (h'.ty_inj hbc hbc')
  binder := by
    rintro ho a c ⟨b, hab, hbc⟩
    obtain ⟨d₁, d₂, h₁, h₂, hd⟩ := h.binder ho.1 hab
    obtain ⟨d₂', d₃, h₂', h₃, hd'⟩ := h'.binder ho.2 hbc
    obtain rfl : d₂ = d₂' := Option.some.inj (h₂.symm.trans h₂')
    exact ⟨d₁, d₃, h₁, h₃, hd'.kind.trans hd.kind, hd'.names.trans hd.names, forall₂_comp hd.infos hd'.infos,
      _, hd.result, hd'.result⟩
  binder_inj := by
    rintro a c a' c' ⟨b, hab, hbc⟩ ⟨b', hab', hbc'⟩
    exact (h.binder_inj hab hab').trans (h'.binder_inj hbc hbc')
  params := by
    rintro a c ⟨b, hab, hbc⟩
    obtain ⟨d₁, d₂, h₁, h₂, hd⟩ := h.scope hab
    obtain ⟨d₂', d₃, h₂', h₃, hd'⟩ := h'.scope hbc
    obtain rfl : d₂ = d₂' := Option.some.inj (h₂.symm.trans h₂')
    exact ⟨d₁, d₃, h₁, h₃, hd'.kind.trans hd.kind, forall₂_comp hd.infos hd'.infos⟩
  scope_inj := by
    have hmid {a c : BinderId} (hac : (ρ.trans σ).Scope a c) : ∃ b, ρ.Scope a b ∧ σ.Scope b c := by
      rcases hac with ⟨ho, b, hab, hbc⟩ | hac
      · exact ⟨b, .inl ⟨ho.1, hab⟩, .inl ⟨ho.2, hbc⟩⟩
      · exact hac
    intro a c a' c' hac hac'
    obtain ⟨b, hab, hbc⟩ := hmid hac
    obtain ⟨b', hab', hbc'⟩ := hmid hac'
    exact (h.scope_inj hab hab').trans (h'.scope_inj hbc hbc')
  skolem := by
    rintro a c ⟨b, hab, hbc⟩
    exact ⟨(h.skolem hab).1, (h'.skolem hbc).2⟩
  skolem_inj := by
    rintro a c a' c' ⟨b, hab, hbc⟩ ⟨b', hab', hbc'⟩
    exact (h.skolem_inj hab hab').trans (h'.skolem_inj hbc hbc')
  fixed t ht := ⟨t, h.fixed t ht, h'.fixed t ht⟩
  builtin b := ⟨h.builtin b, h'.builtin b⟩
  vars := h'.vars.trans h.vars
  var {v c} hv hc := by
    have hc' : w₂.vars[v.id]? = some c := h.vars.symm ▸ hc
    obtain ⟨horigin, hinst⟩ := h.var hv.1 hc
    obtain ⟨horigin', hinst'⟩ := h'.var hv.2 hc'
    exact ⟨⟨_, horigin, horigin'⟩, fun t ht => ⟨t, hinst t ht, hinst' t ht⟩⟩
  decls := h'.decls.trans h.decls
  decl {s d} hs hd := by
    have hd' : w₂.decls.get? s = some d := h.decls.symm ▸ hd
    have k := h.decl hs.1 hd
    have k' := h'.decl hs.2 hd'
    exact ⟨⟨_, k.info, k'.info⟩, fun t ht => ⟨t, k.parents t ht, k'.parents t ht⟩,
      fun p hp => ⟨k.typeParams p hp, k'.typeParams p hp⟩,
      fun space e he => ⟨k.members space e he, k'.members space e he⟩⟩

/-- A shape has one counterpart at most. -/
theorem shapes_unique (h : ρ.Agrees w₁ w₂) {d e e' : Shape} (he : ρ.Shapes d e) (he' : ρ.Shapes d e') : e = e' := by
  have hty : ∀ {a b b'}, ρ.ty a b → ρ.ty a b' → b = b' := fun hb hb' => (h.ty_inj hb hb').1 rfl
  have hbinder : ∀ {a b b'}, ρ.binder a b → ρ.binder a b' → b = b' := fun hb hb' => (h.binder_inj hb hb').1 rfl
  have hskolem : ∀ {a b b'}, ρ.skolem a b → ρ.skolem a b' → b = b' := fun hb hb' => (h.skolem_inj hb hb').1 rfl
  match he, he' with
  | .fixed _, .fixed _ | .self _, .self _ | .literal _, .literal _ | .var _, .var _ => rfl
  | .named hp _, .named hq _ | .path hp _, .path hq _ | .classInfo hp _, .classInfo hq _ => rw [hty hp hq]
  | .skolem hk hp, .skolem hk' hq => rw [hskolem hk hk', hty hp hq]
  | .param hb _, .param hc _ | .valueParam hb _, .valueParam hc _ => rw [(h.scope_inj hb hc).1 rfl]
  | .method hb, .method hc | .universal hb, .universal hc => rw [hbinder hb hc]
  | .refined hp _ hi, .refined hq _ hj => rw [hty hp hq, hty hi hj]
  | .inter hp hi, .inter hq hj | .union hp hi, .union hq hj | .bounds hp hi, .bounds hq hj =>
    rw [hty hp hq, hty hi hj]
  | .byName hp, .byName hq => rw [hty hp hq]

theorem rebase (h : ρ.Agrees w₁ w₂) : (ρ.rebase w₁ w₂).Agrees w₁ w₂ where
  le₁ := le_rfl
  le₂ := le_rfl
  ty hab := by
    obtain ⟨d₁, d₂, h₁, h₂, hd⟩ := h.ty hab
    exact ⟨d₁, d₂, h₁, h₂, Shapes.imp (ρ := ρ) (σ := ρ.rebase w₁ w₂) id id id id id id hd⟩
  ty_inj := h.ty_inj
  binder ho {_ _} hab := by
    obtain ⟨d₁, d₂, h₁, h₂, hd⟩ := h.binder ho hab
    exact ⟨d₁, d₂, h₁, h₂, hd.kind, hd.names, hd.infos, hd.result⟩
  binder_inj := h.binder_inj
  params hab := by
    obtain ⟨d₁, d₂, h₁, h₂, hd⟩ := h.params hab
    exact ⟨d₁, d₂, h₁, h₂, hd.kind, hd.infos⟩
  scope_inj := h.scope_inj
  skolem := h.skolem
  skolem_inj := h.skolem_inj
  fixed := h.fixed
  builtin := h.builtin
  vars := h.vars
  var := h.var
  decls := h.decls
  decl hs hd := Declares.imp (ρ := ρ) (σ := ρ.rebase w₁ w₂) id id (h.decl hs hd)

theorem grow (h : ρ.Agrees w₁ w₂) {w₁' w₂' : World} (h₁ : w₁ ≤ w₁') (h₂ : w₂ ≤ w₂') : ρ.Agrees w₁' w₂' where
  le₁ := le_trans h.le₁ h₁
  le₂ := le_trans h.le₂ h₂
  ty hab := by
    obtain ⟨d₁, d₂, hd₁, hd₂, hd⟩ := h.ty hab
    exact ⟨d₁, d₂, h₁.shape hd₁, h₂.shape hd₂, hd⟩
  ty_inj := h.ty_inj
  binder ho {_ _} hab := by
    obtain ⟨d₁, d₂, hd₁, hd₂, hd⟩ := h.binder ho hab
    exact ⟨d₁, d₂, h₁.binder hd₁, h₂.binder hd₂, hd⟩
  binder_inj := h.binder_inj
  params hab := by
    obtain ⟨d₁, d₂, hd₁, hd₂, hd⟩ := h.params hab
    exact ⟨d₁, d₂, h₁.binder hd₁, h₂.binder hd₂, hd⟩
  scope_inj := h.scope_inj
  skolem hab := ⟨Nat.lt_of_lt_of_le (h.skolem hab).1 h₁.skolems, Nat.lt_of_lt_of_le (h.skolem hab).2 h₂.skolems⟩
  skolem_inj := h.skolem_inj
  fixed := h.fixed
  builtin := h.builtin
  vars := h₂.vars.trans (h.vars.trans h₁.vars.symm)
  var hv hc := h.var hv (h₁.vars ▸ hc)
  decls := h₂.decls.trans (h.decls.trans h₁.decls.symm)
  decl hs hd := h.decl hs (h₁.decls ▸ hd)

/-- Where `ρ` opens binders itself nothing is left out. -/
theorem toMatches (h : ρ.Agrees w₁ w₂) (ho : ρ.opens) : ρ.Matches w₁ w₂ := ⟨h, fun hno => absurd ho hno⟩

end Agrees

namespace Matches

variable {w₁ w₂ w₃ : World}

/-- The binders are paired by a correspondence that opens them. -/
theorem opened (h : ρ.Matches w₁ w₂) :
    ∃ σ : Corr, σ.opens ∧ σ.Agrees w₁ w₂ ∧ ∀ {a b : BinderId}, ρ.binder a b → σ.binder a b := by
  by_cases ho : ρ.opens
  · exact ⟨ρ, ho, h.toAgrees, id⟩
  · exact h.unopened ho

theorem scope (h : ρ.Matches w₁ w₂) {b c : BinderId} (hbc : ρ.Scope b c) :
    ∃ d₁ d₂, w₁.binder? b = some d₁ ∧ w₂.binder? c = some d₂ ∧ ρ.Params d₁ d₂ :=
  h.toAgrees.scope hbc

theorem symm (h : ρ.Matches w₁ w₂) : ρ.symm.Matches w₂ w₁ where
  toAgrees := h.toAgrees.symm
  unopened hno := by
    obtain ⟨σ, ho, hσ, hbinder⟩ := h.unopened hno
    exact ⟨σ.symm, ho, hσ.symm, hbinder⟩

theorem trans (h : ρ.Matches w₁ w₂) (h' : σ.Matches w₂ w₃) : (ρ.trans σ).Matches w₁ w₃ where
  toAgrees := h.toAgrees.trans h'.toAgrees
  unopened _ := by
    obtain ⟨ρ', ho, hρ', hbinder⟩ := h.opened
    obtain ⟨σ', ho', hσ', hbinder'⟩ := h'.opened
    exact ⟨ρ'.trans σ', ⟨ho, ho'⟩, hρ'.trans hσ', fun ⟨b, hab, hbc⟩ => ⟨b, hbinder hab, hbinder' hbc⟩⟩

/-- Worlds that match may be taken for the ones in which the pairing began. -/
theorem rebase (h : ρ.Matches w₁ w₂) : (ρ.rebase w₁ w₂).Matches w₁ w₂ := ⟨h.toAgrees.rebase, h.unopened⟩

/-! ## Growing -/

/-- What either world takes in on its own changes nothing about the handles paired before. -/
theorem grow (h : ρ.Matches w₁ w₂) {w₁' w₂' : World} (h₁ : w₁ ≤ w₁') (h₂ : w₂ ≤ w₂') : ρ.Matches w₁' w₂' where
  toAgrees := h.toAgrees.grow h₁ h₂
  unopened hno := by
    obtain ⟨σ, ho, hσ, hbinder⟩ := h.unopened hno
    exact ⟨σ, ho, hσ.grow h₁ h₂, hbinder⟩

/-- Handles of one shape up to `ρ` can be paired. -/
theorem exists_ty (h : ρ.Matches w₁ w₂) {a b : Ty} {d₁ d₂ : Shape} (ha : w₁.shape? a = some d₁)
    (hb : w₂.shape? b = some d₂) (hd : ρ.Shapes d₁ d₂) : ∃ σ, ρ ≤ σ ∧ σ.Matches w₁ w₂ ∧ σ.ty a b := by
  let σ : Corr := { ρ with ty := fun x y => ρ.ty x y ∨ (x = a ∧ y = b) }
  have hρ : ρ ≤ σ := ⟨rfl, rfl, Or.inl, id, id, id, id, id, id⟩
  -- a handle paired before stands for another shape than `d₁` or is paired with `b` already
  have hold : ∀ {x y}, ρ.ty x y → (x = a ↔ y = b) := by
    intro x y hxy
    obtain ⟨e₁, e₂, hx, hy, he⟩ := h.ty hxy
    constructor
    · rintro rfl
      obtain rfl : e₁ = d₁ := Option.some.inj (hx.symm.trans ha)
      obtain rfl : e₂ = d₂ := h.shapes_unique he hd
      exact TypeTable.shape?_injective hy hb
    · rintro rfl
      obtain rfl : e₂ = d₂ := Option.some.inj (hy.symm.trans hb)
      obtain rfl : e₁ = d₁ := h.symm.shapes_unique he.symm hd.symm
      exact TypeTable.shape?_injective hx ha
  refine ⟨σ, hρ, ?_, .inr ⟨rfl, rfl⟩⟩
  exact {
    le₁ := h.le₁
    le₂ := h.le₂
    ty := by
      rintro x y (hxy | ⟨rfl, rfl⟩)
      · obtain ⟨e₁, e₂, hx, hy, he⟩ := h.ty hxy
        exact ⟨e₁, e₂, hx, hy, he.mono hρ⟩
      · exact ⟨d₁, d₂, ha, hb, hd.mono hρ⟩
    ty_inj := by
      rintro x y x' y' (hxy | ⟨rfl, rfl⟩) (hxy' | ⟨rfl, rfl⟩)
      · exact h.ty_inj hxy hxy'
      · exact hold hxy
      · exact eq_comm.trans ((hold hxy').trans eq_comm)
      · simp
    binder := fun ho _ _ hxy => by
      obtain ⟨e₁, e₂, hx, hy, he⟩ := h.binder ho hxy
      exact ⟨e₁, e₂, hx, hy, he.mono hρ⟩
    binder_inj := h.binder_inj
    params := fun hxy => by
      obtain ⟨e₁, e₂, hx, hy, he⟩ := h.params hxy
      exact ⟨e₁, e₂, hx, hy, he.mono hρ⟩
    scope_inj := h.scope_inj
    skolem := h.skolem
    skolem_inj := h.skolem_inj
    fixed := fun t ht => .inl (h.fixed t ht)
    builtin := h.builtin
    vars := h.vars
    var := fun hv hc => ⟨.inl (h.var hv hc).1, fun t ht => .inl ((h.var hv hc).2 t ht)⟩
    decls := h.decls
    decl := fun hs hd => (h.decl hs hd).imp hρ.ty hρ.sym
    unopened := h.unopened }

/-- The types of binders are paired by a correspondence that opens binders, if they are paired at all. -/
theorem exists_opened (h : ρ.Matches w₁ w₂) {a b a' b' : Ty} (ha : ρ.ty a a') (hb : ρ.ty b b')
    (hbinder : (w₁.shape a).isBinderType ∧ (w₁.shape b).isBinderType) :
    ∃ σ : Corr, σ.opens ∧ σ.Matches w₁ w₂ ∧ σ.ty a a' ∧ σ.ty b b' := by
  obtain ⟨σ, ho, hσ, hinside⟩ := h.opened
  have hshapes : ∀ {d₁ d₂ : Shape}, ρ.Shapes d₁ d₂ → d₁.isBinderType → σ.Shapes d₁ d₂ := by
    intro d₁ d₂ h hd
    cases h with
    | method hb => exact .method (hinside hb)
    | universal hb => exact .universal (hinside hb)
    | _ => cases hd
  obtain ⟨d₁, d₂, ha₁, ha₂, hd⟩ := h.ty ha
  obtain ⟨e₁, e₂, hb₁, hb₂, he⟩ := h.ty hb
  rw [World.shape_of_shape? ha₁, World.shape_of_shape? hb₁] at hbinder
  obtain ⟨τ, hτ, hMτ, hpair⟩ := (hσ.toMatches ho).exists_ty ha₁ ha₂ (hshapes hd hbinder.1)
  obtain ⟨υ, hυ, hMυ, hpair'⟩ := hMτ.exists_ty hb₁ hb₂ ((hshapes he hbinder.2).mono hτ)
  exact ⟨υ, hυ.opens (hτ.opens ho), hMυ, hυ.ty hpair, hpair'⟩

/-- Skolems given out on both sides at once can be paired. -/
theorem exists_skolem (h : ρ.Matches w₁ w₂) : ∃ σ, ρ ≤ σ ∧
    σ.Matches { w₁ with skolems := w₁.skolems + 1 } { w₂ with skolems := w₂.skolems + 1 } ∧
    σ.skolem ⟨w₁.skolems⟩ ⟨w₂.skolems⟩ := by
  let σ : Corr := { ρ with skolem := fun j k => ρ.skolem j k ∨ (j = ⟨w₁.skolems⟩ ∧ k = ⟨w₂.skolems⟩) }
  have hρ : ρ ≤ σ := ⟨rfl, rfl, id, id, id, Or.inl, id, id, id⟩
  have hold : ∀ {j k}, ρ.skolem j k → j ≠ ⟨w₁.skolems⟩ ∧ k ≠ ⟨w₂.skolems⟩ := by
    intro j k hjk
    have hlt := h.skolem hjk
    exact ⟨by rintro rfl; exact Nat.lt_irrefl _ hlt.1, by rintro rfl; exact Nat.lt_irrefl _ hlt.2⟩
  refine ⟨σ, hρ, ?_, .inr ⟨rfl, rfl⟩⟩
  exact {
    le₁ := le_trans h.le₁ (le_freshSkolem w₁)
    le₂ := le_trans h.le₂ (le_freshSkolem w₂)
    ty := fun hxy => by
      obtain ⟨e₁, e₂, hx, hy, he⟩ := h.ty hxy
      exact ⟨e₁, e₂, hx, hy, he.mono hρ⟩
    ty_inj := h.ty_inj
    binder := fun ho _ _ hxy => by
      obtain ⟨e₁, e₂, hx, hy, he⟩ := h.binder ho hxy
      exact ⟨e₁, e₂, hx, hy, he.mono hρ⟩
    binder_inj := h.binder_inj
    params := fun hxy => by
      obtain ⟨e₁, e₂, hx, hy, he⟩ := h.params hxy
      exact ⟨e₁, e₂, hx, hy, he.mono hρ⟩
    scope_inj := h.scope_inj
    skolem := by
      rintro j k (hjk | ⟨rfl, rfl⟩)
      · exact ⟨Nat.lt_succ_of_lt (h.skolem hjk).1, Nat.lt_succ_of_lt (h.skolem hjk).2⟩
      · exact ⟨Nat.lt_succ_self _, Nat.lt_succ_self _⟩
    skolem_inj := by
      rintro j k j' k' (hjk | ⟨rfl, rfl⟩) (hjk' | ⟨rfl, rfl⟩)
      · exact h.skolem_inj hjk hjk'
      · exact iff_of_false (hold hjk).1 (hold hjk).2
      · exact iff_of_false (hold hjk').1.symm (hold hjk').2.symm
      · simp
    fixed := h.fixed
    builtin := h.builtin
    vars := h.vars
    var := h.var
    decls := h.decls
    decl := fun hs hd => (h.decl hs hd).imp hρ.ty hρ.sym
    unopened := (h.grow (le_freshSkolem w₁) (le_freshSkolem w₂)).unopened }

/-- Binders given out on both sides at once, with nothing filled in yet, can be paired. -/
theorem exists_binder (h : ρ.Matches w₁ w₂) (ho : ρ.opens) (kind : BinderKind) (names : List String) : ∃ σ, ρ ≤ σ ∧
    σ.Matches { w₁ with binders := w₁.binders.push { kind, names } }
      { w₂ with binders := w₂.binders.push { kind, names } } ∧
    σ.Fresh ⟨w₁.binders.size⟩ ⟨w₂.binders.size⟩ := by
  let σ : Corr :=
    { ρ with binder := fun b c => ρ.binder b c ∨ (b = ⟨w₁.binders.size⟩ ∧ c = ⟨w₂.binders.size⟩) }
  have hρ : ρ ≤ σ := ⟨rfl, rfl, id, Or.inl, id, id, id, id, id⟩
  have hnew : ∀ w : World, { w with binders := w.binders.push { kind, names } }.binder? ⟨w.binders.size⟩ =
      some { kind, names } := fun w => Array.getElem?_push_size
  have hold : ∀ {b c}, ρ.Scope b c → b ≠ ⟨w₁.binders.size⟩ ∧ c ≠ ⟨w₂.binders.size⟩ := by
    intro b c hbc
    obtain ⟨e₁, e₂, hb, hc, -⟩ := h.scope hbc
    have hlt₁ : b.id < w₁.binders.size := (Array.getElem?_eq_some_iff.1 hb).1
    have hlt₂ : c.id < w₂.binders.size := (Array.getElem?_eq_some_iff.1 hc).1
    exact ⟨by rintro rfl; exact Nat.lt_irrefl _ hlt₁, by rintro rfl; exact Nat.lt_irrefl _ hlt₂⟩
  have hinj : ∀ {b c b' c'}, σ.Scope b c → σ.Scope b' c' → (b = b' ↔ c = c') := by
    have hscope : ∀ {b c}, σ.Scope b c → ρ.Scope b c ∨ (b = ⟨w₁.binders.size⟩ ∧ c = ⟨w₂.binders.size⟩) := by
      rintro b c (⟨-, hbc | hbc⟩ | hbc)
      exacts [.inl (.inl ⟨ho, hbc⟩), .inr hbc, .inl (.inr hbc)]
    intro b c b' c' hbc hbc'
    rcases hscope hbc with hbc | ⟨rfl, rfl⟩ <;> rcases hscope hbc' with hbc' | ⟨rfl, rfl⟩
    · exact h.scope_inj hbc hbc'
    · exact iff_of_false (hold hbc).1 (hold hbc).2
    · exact iff_of_false (hold hbc').1.symm (hold hbc').2.symm
    · simp
  refine ⟨σ, hρ, ?_, .inr ⟨rfl, rfl⟩, World.binders_size_le h.le₁,
    World.binders_size_le h.le₂⟩
  exact {
    le₁ := le_trans h.le₁ (le_freshBinder w₁ _)
    le₂ := le_trans h.le₂ (le_freshBinder w₂ _)
    ty := fun hxy => by
      obtain ⟨e₁, e₂, hx, hy, he⟩ := h.ty hxy
      exact ⟨e₁, e₂, hx, hy, he.mono hρ⟩
    ty_inj := h.ty_inj
    binder := by
      rintro - b c (hbc | ⟨rfl, rfl⟩)
      · obtain ⟨e₁, e₂, hb, hc, he⟩ := h.binder ho hbc
        exact ⟨e₁, e₂, (le_freshBinder w₁ _).binder hb, (le_freshBinder w₂ _).binder hc, he.mono hρ⟩
      · exact ⟨_, _, hnew w₁, hnew w₂, rfl, rfl, .nil, h.fixed .noType (by decide)⟩
    binder_inj := fun hbc hbc' => hinj (.inl ⟨ho, hbc⟩) (.inl ⟨ho, hbc'⟩)
    params := fun hxy => by
      obtain ⟨e₁, e₂, hb, hc, he⟩ := h.params hxy
      exact ⟨e₁, e₂, (le_freshBinder w₁ _).binder hb, (le_freshBinder w₂ _).binder hc, he.mono hρ⟩
    scope_inj := hinj
    skolem := h.skolem
    skolem_inj := h.skolem_inj
    fixed := h.fixed
    builtin := h.builtin
    vars := h.vars
    var := h.var
    decls := h.decls
    decl := fun hs hd => (h.decl hs hd).imp hρ.ty hρ.sym
    unopened := fun hno => absurd ho hno }

omit ρ in
/-- Reading a binder in a world where one is changed. -/
theorem binder?_modify {w : World} (a : BinderId) {b : BinderId} {f : Binder → Binder} {d : Binder}
    (hd : w.binder? b = some d) :
    { w with binders := w.binders.modify a.id f }.binder? b = some (if a = b then f d else d) := by
  show (w.binders.modify a.id f)[b.id]? = _
  rw [Array.getElem?_modify, show w.binders[b.id]? = some d from hd]
  by_cases hab : a = b
  · simp [hab]
  · simp [hab, mt BinderId.id_inj.1 hab]

/-- Paired binders that are fresh may be filled in with paired infos and results. -/
theorem fill (h : ρ.Matches w₁ w₂) (ho : ρ.opens) {b c : BinderId} (hfresh : ρ.Fresh b c) {infos₁ infos₂ : List Ty}
    (hinfos : List.Forall₂ ρ.ty infos₁ infos₂) {result₁ result₂ : Ty} (hresult : ρ.ty result₁ result₂) :
    ρ.Matches { w₁ with binders := w₁.binders.modify b.id fun d => { d with infos := infos₁, result := result₁ } }
      { w₂ with binders := w₂.binders.modify c.id fun d => { d with infos := infos₂, result := result₂ } } where
  le₁ := le_fillBinder h.le₁ hfresh.size₁ _ _
  le₂ := le_fillBinder h.le₂ hfresh.size₂ _ _
  ty := h.ty
  ty_inj := h.ty_inj
  binder := by
    intro _ b' c' hbc'
    obtain ⟨d₁, d₂, hb, hc, hd⟩ := h.binder ho hbc'
    refine ⟨_, _, binder?_modify b hb, binder?_modify c hc, ?_⟩
    by_cases hbb : b = b'
    · rw [if_pos hbb, if_pos ((h.binder_inj hfresh.binder hbc').1 hbb)]
      exact ⟨hd.kind, hd.names, hinfos, hresult⟩
    · rw [if_neg hbb, if_neg (mt (h.binder_inj hfresh.binder hbc').2 hbb)]
      exact hd
  binder_inj := h.binder_inj
  params := by
    intro b' c' hbc'
    obtain ⟨d₁, d₂, hb, hc, hd⟩ := h.params hbc'
    have hinj : b = b' ↔ c = c' := h.scope_inj (.inl ⟨ho, hfresh.binder⟩) (.inr hbc')
    refine ⟨_, _, binder?_modify b hb, binder?_modify c hc, ?_⟩
    by_cases hbb : b = b'
    · rw [if_pos hbb, if_pos (hinj.1 hbb)]
      exact ⟨hd.kind, hinfos⟩
    · rw [if_neg hbb, if_neg (mt hinj.2 hbb)]
      exact hd
  scope_inj := h.scope_inj
  skolem := h.skolem
  skolem_inj := h.skolem_inj
  fixed := h.fixed
  builtin := h.builtin
  vars := h.vars
  var := h.var
  decls := h.decls
  decl := h.decl
  unopened hno := absurd ho hno

/-! ## Reading -/

theorem shape (h : ρ.Matches w₁ w₂) {a b : Ty} (hab : ρ.ty a b) : ρ.Shapes (w₁.shape a) (w₂.shape b) := by
  obtain ⟨d₁, d₂, ha, hb, hd⟩ := h.ty hab
  rwa [World.shape_of_shape? ha, World.shape_of_shape? hb]

theorem eq_iff (h : ρ.Matches w₁ w₂) {a b : Ty} (hab : ρ.ty a b) {t : Ty}
    (ht : t.id < Ty.fixedCount + Builtin.all.length) : a = t ↔ b = t :=
  h.ty_inj hab (h.fixed t ht)

theorem present (h : ρ.Matches w₁ w₂) {a b : Ty} (hab : ρ.ty a b) : a.present = b.present := by
  rw [Bool.eq_iff_iff, Ty.present_iff, Ty.present_iff]
  exact not_congr (h.eq_iff hab (by decide))

theorem boundsParts? (h : ρ.Matches w₁ w₂) {a b : Ty} (hab : ρ.ty a b) :
    Option.Rel (fun p q => ρ.ty p.1 q.1 ∧ ρ.ty p.2 q.2) (w₁.boundsParts? a) (w₂.boundsParts? b) := by
  obtain ⟨d₁, d₂, ha, hb, hd⟩ := h.ty hab
  simp only [World.boundsParts?, ha, hb]
  cases hd with
  | bounds hlo hhi => exact .some ⟨hlo, hhi⟩
  | _ => exact .none

theorem binderKind? (h : ρ.Matches w₁ w₂) (ho : ρ.opens) {b c : BinderId} (hbc : ρ.binder b c) :
    w₁.binderKind? b = w₂.binderKind? c := by
  obtain ⟨d₁, d₂, hb, hc, hd⟩ := h.binder ho hbc
  simp [World.binderKind?, hb, hc, hd.kind]

theorem bindsValues (h : ρ.Matches w₁ w₂) {b c : BinderId} (hbc : ρ.Scope b c) :
    ∃ k l, w₁.binderKind? b = some k ∧ w₂.binderKind? c = some l ∧ l.bindsValues = k.bindsValues := by
  obtain ⟨d₁, d₂, hb, hc, hd⟩ := h.scope hbc
  exact ⟨d₁.kind, d₂.kind, by simp [World.binderKind?, hb], by simp [World.binderKind?, hc], hd.kind⟩

theorem noType (h : ρ.Matches w₁ w₂) : ρ.ty .noType .noType := h.fixed _ (by decide)

theorem paramInfo (h : ρ.Matches w₁ w₂) {b c : BinderId} (hbc : ρ.Scope b c) (i : Nat) :
    ρ.ty (w₁.paramInfo ⟨b, i⟩) (w₂.paramInfo ⟨c, i⟩) := by
  obtain ⟨d₁, d₂, hb, hc, hd⟩ := h.scope hbc
  simp only [World.paramInfo, hb, hc, Option.bind_some]
  have hlen := hd.infos.length_eq
  by_cases hi : i < d₁.infos.length
  · rw [List.getElem?_eq_getElem hi, List.getElem?_eq_getElem (hlen ▸ hi)]
    exact hd.infos.get hi (hlen ▸ hi)
  · rw [List.getElem?_eq_none (by omega), List.getElem?_eq_none (by omega)]
    exact h.noType

theorem paramUpper (h : ρ.Matches w₁ w₂) {b c : BinderId} (hbc : ρ.Scope b c) (i : Nat) :
    ρ.ty (w₁.paramUpper ⟨b, i⟩) (w₂.paramUpper ⟨c, i⟩) := by
  have hends := h.boundsParts? (h.paramInfo hbc i)
  unfold World.paramUpper
  generalize w₁.boundsParts? _ = x, w₂.boundsParts? _ = y at hends ⊢
  cases hends with
  | some hpq => exact hpq.2
  | none => exact h.noType

theorem varUnderlying (h : ρ.Matches w₁ w₂) {v : VarId} (hv : ρ.var v) :
    ρ.ty (w₁.varUnderlying v) (w₂.varUnderlying v) := by
  simp only [World.varUnderlying, World.varInstance?, World.varOrigin, h.vars]
  cases hc : w₁.vars[v.id]? with
  | none => exact h.noType
  | some c =>
    have hcell := h.var hv hc
    cases hi : c.inst with
    | none => simpa [hi] using hcell.1
    | some t => simpa [hi] using hcell.2 t (by simp [hi])

section Declared

variable (h : ρ.Matches w₁ w₂) {s : Symbol} (hs : ρ.sym s)
include h hs

theorem info : ρ.ty (w₁.decls.info s) (w₁.decls.info s) := by
  unfold Declarations.info
  cases hd : w₁.decls.get? s with
  | none => exact h.noType
  | some d => exact (h.decl hs hd).info

theorem parents : List.Forall₂ ρ.ty (w₁.decls.parents s) (w₁.decls.parents s) := by
  unfold Declarations.parents
  cases hd : w₁.decls.get? s with
  | none => exact .nil
  | some d => exact List.forall₂_same.2 (h.decl hs hd).parents

theorem typeParams : ∀ p ∈ w₁.decls.typeParams s, ρ.sym p := by
  unfold Declarations.typeParams
  cases hd : w₁.decls.get? s with
  | none => exact fun _ hp => nomatch hp
  | some d => exact (h.decl hs hd).typeParams

theorem member {name : String} {space : MemberSpace} {m : Symbol} (hm : w₁.decls.member? s name space = some m) :
    ρ.sym m := by
  obtain ⟨d, hd, hm⟩ := Option.bind_eq_some_iff.1 hm
  exact (h.decl hs hd).members space _ (InsertionMap.mem_of_find? hm)

end Declared

end Matches

end Corr

end Conformance
