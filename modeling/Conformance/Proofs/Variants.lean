import Mathlib.Data.Nat.Find
import Conformance.Proofs.Lattice

/-!
# Types that differ in their binders only

Renaming a parameter rebuilds each universal or method type that mentions it on a fresh binder. Two types are variants
of each other when they have the same shape all the way down, with binders of one kind and the same names in each
other's place (`World.Variant`). A `Pairing` says which binders in scope stand for each other, and which ones may be
nested; those that are opened on the way are not nested again.

A type that substitution comes to an end in is a variant of itself (`World.variant_bodies`), provided that the shapes are
as the constructors make them (`World.Regular`).
-/

namespace Conformance

/-! ## One layer of a type -/

namespace BinderKind

theorem shape_inj {k l : BinderKind} {b c : BinderId} (h : k.shape b = l.shape c) : b = c := by
  cases k <;> cases l <;> cases h <;> rfl

theorem param_congr {k l : BinderKind} {p q : Param} (h : k.param p = l.param q) (r : Param) :
    k.param r = l.param r := by
  cases k <;> cases l <;> first | rfl | cases h

theorem param_inj {k l : BinderKind} {p q : Param} (h : k.param p = l.param q) : p = q := by
  cases k <;> cases l <;> cases h <;> rfl

end BinderKind

namespace Shape

/-- Whether the shape is made of no types that substitution looks into. -/
def isLeaf : Shape → Bool
  | .fixed k => k ≠ .noType
  | .self _ | .literal _ | .skolem .. | .var _ => true
  | _ => false

/-- The types that members are looked up in and that are compared in place of the whole. -/
def operands : Shape → List Ty
  | .inter a b | .union a b => [a, b]
  | .refined parent _ _ => [parent]
  | _ => []

/-- The same layer around types that `S` relates. The operands of intersections and unions do not collapse. -/
inductive Over (S : Ty → Ty → Prop) : Shape → Shape → Prop
  | named {p q : Ty} (h : S p q) (s : Symbol) : Over S (.named p s) (.named q s)
  | path {p q : Ty} (h : S p q) (s : Symbol) : Over S (.path p s) (.path q s)
  | refined {p q i j : Ty} (h : S p q) (name : String) (h' : S i j) : Over S (.refined p name i) (.refined q name j)
  | inter {a b c d : Ty} (hab : a.Distinct b) (hcd : c.Distinct d) (h : S a c) (h' : S b d) :
    Over S (.inter a b) (.inter c d)
  | union {a b c d : Ty} (hab : a.Distinct b) (hcd : c.Distinct d) (h : S a c) (h' : S b d) :
    Over S (.union a b) (.union c d)
  | byName {a c : Ty} (h : S a c) : Over S (.byName a) (.byName c)
  | bounds {a b c d : Ty} (h : S a c) (h' : S b d) : Over S (.bounds a b) (.bounds c d)

namespace Over

variable {S T : Ty → Ty → Prop} {d e f : Shape}

theorem imp (h : Over S d e) (hST : ∀ a b, S a b → T a b) : Over T d e := by
  cases h with
  | named h s => exact .named (hST _ _ h) s
  | path h s => exact .path (hST _ _ h) s
  | refined h name h' => exact .refined (hST _ _ h) name (hST _ _ h')
  | inter hab hcd h h' => exact .inter hab hcd (hST _ _ h) (hST _ _ h')
  | union hab hcd h h' => exact .union hab hcd (hST _ _ h) (hST _ _ h')
  | byName h => exact .byName (hST _ _ h)
  | bounds h h' => exact .bounds (hST _ _ h) (hST _ _ h')

theorem swap (h : Over S d e) (hST : ∀ a b, S a b → T b a) : Over T e d := by
  cases h with
  | named h s => exact .named (hST _ _ h) s
  | path h s => exact .path (hST _ _ h) s
  | refined h name h' => exact .refined (hST _ _ h) name (hST _ _ h')
  | inter hab hcd h h' => exact .inter hcd hab (hST _ _ h) (hST _ _ h')
  | union hab hcd h h' => exact .union hcd hab (hST _ _ h) (hST _ _ h')
  | byName h => exact .byName (hST _ _ h)
  | bounds h h' => exact .bounds (hST _ _ h) (hST _ _ h')

/-- Layers around types that are related to the same types are the same. -/
theorem unique (h : Over S d f) (h' : Over T e f) (hST : ∀ a b c, S a c → T b c → a = b) : d = e := by
  cases h with
  | named h s => cases h' with | named h' => rw [hST _ _ _ h h']
  | path h s => cases h' with | path h' => rw [hST _ _ _ h h']
  | refined h name i => cases h' with | refined h' _ i' => rw [hST _ _ _ h h', hST _ _ _ i i']
  | inter _ _ h i => cases h' with | inter _ _ h' i' => rw [hST _ _ _ h h', hST _ _ _ i i']
  | union _ _ h i => cases h' with | union _ _ h' i' => rw [hST _ _ _ h h', hST _ _ _ i i']
  | byName h => cases h' with | byName h' => rw [hST _ _ _ h h']
  | bounds h i => cases h' with | bounds h' i' => rw [hST _ _ _ h h', hST _ _ _ i i']

theorem self (h : Over S d e) : Over Eq e e := by
  cases h with
  | named _ s => exact .named rfl s
  | path _ s => exact .path rfl s
  | refined _ name _ => exact .refined rfl name rfl
  | inter _ hcd _ _ => exact .inter hcd hcd rfl rfl
  | union _ hcd _ _ => exact .union hcd hcd rfl rfl
  | byName _ => exact .byName rfl
  | bounds _ _ => exact .bounds rfl rfl

theorem along (h : Over S d e) (h' : Over T e f) : Over (fun b c => (∃ a, S a b) ∧ T b c) e f := by
  cases h' with
  | named t s => cases h with | named h => exact .named ⟨⟨_, h⟩, t⟩ s
  | path t s => cases h with | path h => exact .path ⟨⟨_, h⟩, t⟩ s
  | refined t name t' => cases h with | refined h _ h' => exact .refined ⟨⟨_, h⟩, t⟩ name ⟨⟨_, h'⟩, t'⟩
  | inter hab hcd t t' => cases h with | inter _ _ h h' => exact .inter hab hcd ⟨⟨_, h⟩, t⟩ ⟨⟨_, h'⟩, t'⟩
  | union hab hcd t t' => cases h with | union _ _ h h' => exact .union hab hcd ⟨⟨_, h⟩, t⟩ ⟨⟨_, h'⟩, t'⟩
  | byName t => cases h with | byName h => exact .byName ⟨⟨_, h⟩, t⟩
  | bounds t t' => cases h with | bounds h h' => exact .bounds ⟨⟨_, h⟩, t⟩ ⟨⟨_, h'⟩, t'⟩

theorem operands (h : Over S d e) : ∀ c ∈ e.operands, ∃ a ∈ d.operands, S a c := by
  intro c hc
  cases h with
  | refined h =>
    cases List.mem_singleton.1 hc
    exact ⟨_, List.mem_singleton.2 rfl, h⟩
  | inter _ _ h h' | union _ _ h h' =>
    rcases List.mem_pair.1 hc with rfl | rfl
    · exact ⟨_, List.mem_pair.2 (.inl rfl), h⟩
    · exact ⟨_, List.mem_pair.2 (.inr rfl), h'⟩
  | _ => cases hc

end Over

/-- The shape is one that the constructors make: the operands of intersections and unions do not collapse, and binders
bind what their kind says. -/
def Regular (w : World) : Shape → Prop
  | .inter a b | .union a b => a.Distinct b
  | .param p => ∃ k ∈ w.binderKind? p.binder, k.param p = .param p
  | .valueParam p => ∃ k ∈ w.binderKind? p.binder, k.param p = .valueParam p
  | .universal b => ∃ k ∈ w.binderKind? b, k.shape b = .universal b
  | .method b => ∃ k ∈ w.binderKind? b, k.shape b = .method b
  | _ => True

theorem Regular.kept {w v : World} {d : Shape} (h : d.Regular w)
    (hkind : ∀ b k, w.binderKind? b = some k → v.binderKind? b = some k) : d.Regular v := by
  cases d with
  | param | valueParam | universal | method =>
    obtain ⟨k, hk, hd⟩ := h
    exact ⟨k, hkind _ k hk, hd⟩
  | _ => exact h

end Shape

/-! ## Variants -/

/-- Which binders stand for each other while they are in scope, and which ones may be nested. -/
structure Pairing where
  inner : BinderId → Prop
  rel : BinderId → BinderId → Prop

namespace Pairing

/-- Each binder for itself. -/
def alike (inner : BinderId → Prop) : Pairing := ⟨inner, Eq⟩

/-- Inside `b` on the one side and `c` on the other. -/
def bind (s : Pairing) (b c : BinderId) : Pairing where
  inner a := s.inner a ∧ a ≠ b ∧ a ≠ c
  rel p q := (p = b ∧ q = c) ∨ (p ≠ b ∧ q ≠ c ∧ s.rel p q)

/-- With the sides changed over. -/
def symm (s : Pairing) : Pairing := ⟨s.inner, fun p q => s.rel q p⟩

/-- `s` allows no more than `s'` does, as far as binders of `w` go. -/
structure Sub (w : World) (s s' : Pairing) : Prop where
  inner : ∀ a, (w.binder? a).isSome → s.inner a → s'.inner a
  rel : ∀ p q, (w.binder? p).isSome → (w.binder? q).isSome → s.rel p q → s'.rel p q

theorem Sub.bind {w : World} {s s' : Pairing} (h : s.Sub w s') (b c : BinderId) : (s.bind b c).Sub w (s'.bind b c) where
  inner a ha hs := ⟨h.inner a ha hs.1, hs.2⟩
  rel p q hp hq hs := hs.imp id fun hs => ⟨hs.1, hs.2.1, h.rel p q hp hq hs.2.2⟩

theorem Sub.refl (w : World) (s : Pairing) : s.Sub w s := ⟨fun _ _ h => h, fun _ _ _ _ h => h⟩

theorem symm_bind {w : World} (s : Pairing) (b c : BinderId) : (s.bind b c).symm.Sub w (s.symm.bind c b) where
  inner _ _ hs := ⟨hs.1, hs.2.2, hs.2.1⟩
  rel _ _ _ _ hs := hs.imp (fun hs => ⟨hs.2, hs.1⟩) fun hs => ⟨hs.2.1, hs.1, hs.2.2⟩

end Pairing

namespace World

/-- One layer of variants; `S` says it of the types inside. -/
inductive Layer (w : World) (S : Pairing → Ty → Ty → Prop) (s : Pairing) (t u : Ty) : Prop
  | leaf {d : Shape} (shape : w.shape? t = some d) (isLeaf : d.isLeaf) (eq : u = t)
  | param {p q : BinderId} {k : BinderKind} (i : Nat) (rel : s.rel p q) (kind₁ : w.binderKind? p = some k)
    (kind₂ : w.binderKind? q = some k) (shape₁ : w.shape? t = some (k.param ⟨p, i⟩))
    (shape₂ : w.shape? u = some (k.param ⟨q, i⟩))
  | layer {d e : Shape} (shape₁ : w.shape? t = some d) (shape₂ : w.shape? u = some e) (parts : Shape.Over (S s) d e)
    (operands₁ : ∀ a ∈ d.operands, w.Unfolds a) (operands₂ : ∀ a ∈ e.operands, w.Unfolds a)
  | binder {b c : BinderId} {d e : Binder} (shape₁ : w.shape? t = some (d.kind.shape b))
    (shape₂ : w.shape? u = some (e.kind.shape c)) (binder₁ : w.binder? b = some d) (binder₂ : w.binder? c = some e)
    (inner₁ : s.inner b) (inner₂ : s.inner c) (kind : e.kind = d.kind) (names : e.names = d.names)
    (infos : List.Forall₂ (S (s.bind b c)) d.infos e.infos) (result : S (s.bind b c) d.result e.result)

/-- The types are the same, at most `n` levels deep, but for the binders. -/
def Variant (w : World) : Nat → Pairing → Ty → Ty → Prop
  | 0, _, _, _ => False
  | n + 1, s, t, u => w.Layer (w.Variant n) s t u

variable {w v : World} {s s' : Pairing} {n m : Nat} {t u : Ty} {b : BinderId}

theorem binderKind?_of_binder? {d : Binder} (h : w.binder? b = some d) : w.binderKind? b = some d.kind := by
  rw [binderKind?, h]
  rfl

theorem isSome_of_binderKind? {k : BinderKind} (h : w.binderKind? b = some k) : (w.binder? b).isSome := by
  rw [binderKind?] at h
  obtain ⟨d, hd, -⟩ := Option.map_eq_some_iff.1 h
  rw [hd]
  rfl

theorem binderKind?_later {k : BinderKind} (h : w.binderKind? b = some k) (hv : w ≤ v) : v.binderKind? b = some k := by
  rw [binderKind?] at h
  obtain ⟨d, hd, rfl⟩ := Option.map_eq_some_iff.1 h
  exact binderKind?_of_binder? (hv.binder hd)

/-- What a type that stands for itself has inside its binder stands for itself. -/
theorem known_inside {ρ : Corr} {k : BinderKind} {d : Binder} (ho : ρ.opens) (hM : ρ.Matches w w) (kt : ρ.ty t t)
    (ht : w.shape? t = some (k.shape b)) (hb : w.binder? b = some d) :
    ρ.binder b b ∧ (∀ u ∈ d.infos, ρ.ty u u) ∧ ρ.ty d.result d.result := by
  have hbb : ρ.binder b b := by
    cases k with
    | universal => cases hM.parts kt ht with | universal h => exact h
    | method => cases hM.parts kt ht with | method h => exact h
  obtain ⟨d₁, d₂, h₁, h₂, hparts⟩ := hM.binder ho hbb
  cases h₁.symm.trans hb
  cases h₂.symm.trans hb
  exact ⟨hbb, List.forall₂_same.1 hparts.infos, hparts.result⟩

theorem Layer.imp {S T : Pairing → Ty → Ty → Prop} (h : w.Layer S s t u) (hs : s.Sub w s')
    (hST : ∀ s s' a b, s.Sub w s' → S s a b → T s' a b) : w.Layer T s' t u := by
  cases h with
  | leaf shape isLeaf eq => exact .leaf shape isLeaf eq
  | param i rel kind₁ kind₂ shape₁ shape₂ =>
    have hrel := hs.rel _ _ (isSome_of_binderKind? kind₁) (isSome_of_binderKind? kind₂) rel
    exact .param i hrel kind₁ kind₂ shape₁ shape₂
  | layer shape₁ shape₂ parts operands₁ operands₂ =>
    exact .layer shape₁ shape₂ (parts.imp fun _ _ => hST _ _ _ _ hs) operands₁ operands₂
  | binder shape₁ shape₂ binder₁ binder₂ inner₁ inner₂ kind names infos result =>
    have hown {a : BinderId} {d : Binder} (ha : w.binder? a = some d) (hi : s.inner a) : s'.inner a :=
      hs.inner a (by rw [ha]; rfl) hi
    exact .binder shape₁ shape₂ binder₁ binder₂ (hown binder₁ inner₁) (hown binder₂ inner₂) kind names
      (infos.imp fun _ _ => hST _ _ _ _ (hs.bind _ _)) (hST _ _ _ _ (hs.bind _ _) result)

theorem Variant.imp (h : w.Variant n s t u) (hs : s.Sub w s') : w.Variant n s' t u := by
  induction n generalizing s s' t u with
  | zero => exact h
  | succ n ih => exact Layer.imp h hs fun _ _ _ _ hs h => ih h hs

theorem Variant.succ (h : w.Variant n s t u) : w.Variant (n + 1) s t u := by
  induction n generalizing s t u with
  | zero => exact h.elim
  | succ n ih => exact Layer.imp h (.refl w s) fun _ _ _ _ hs h => ih (h.imp hs)

theorem Variant.mono (h : w.Variant n s t u) (hnm : n ≤ m) : w.Variant m s t u := by
  induction hnm with
  | refl => exact h
  | step _ ih => exact ih.succ

theorem Variant.symm (h : w.Variant n s t u) : w.Variant n s.symm u t := by
  induction n generalizing s t u with
  | zero => exact h
  | succ n ih =>
    cases h with
    | leaf shape isLeaf eq => exact .leaf (eq ▸ shape) isLeaf eq.symm
    | param i rel kind₁ kind₂ shape₁ shape₂ => exact .param i rel kind₂ kind₁ shape₂ shape₁
    | layer shape₁ shape₂ parts operands₁ operands₂ =>
      exact .layer shape₂ shape₁ (parts.swap fun _ _ h => ih h) operands₂ operands₁
    | @binder b c _ _ shape₁ shape₂ binder₁ binder₂ inner₁ inner₂ kind names infos result =>
      have hinside {x y : Ty} (h : w.Variant n (s.bind b c) x y) : w.Variant n (s.symm.bind c b) y x :=
        (ih h).imp (s.symm_bind b c)
      exact .binder shape₂ shape₁ binder₂ binder₁ inner₂ inner₁ kind.symm names.symm
        (infos.flip.imp fun _ _ h => hinside h) (hinside result)

theorem Unfolds.kept (h : w.Unfolds t) (hshape : ∀ {t d}, w.shape? t = some d → v.shape? t = some d)
    (hvars : v.vars = w.vars) : v.Unfolds t := by
  induction h with
  | leaf hpresent hd hvar hinter => exact .leaf hpresent (hshape hd) hvar hinter
  | inter hd _ _ iha ihb => exact .inter (hshape hd) iha ihb
  | @var t i hd _ ih =>
    have hunder : v.varUnderlying i = w.varUnderlying i := by
      rw [varUnderlying, varUnderlying, varInstance?, varInstance?, varOrigin, varOrigin, hvars]
    exact .var (hshape hd) (hunder ▸ ih)

/-- Variants stay so while the binders that may be nested in them are left alone. -/
theorem Variant.kept (h : w.Variant n s t u) (hshape : ∀ {t d}, w.shape? t = some d → v.shape? t = some d)
    (hvars : v.vars = w.vars) (hkind : ∀ {b k}, w.binderKind? b = some k → v.binderKind? b = some k)
    (hbinder : ∀ {b d}, s.inner b → w.binder? b = some d → v.binder? b = some d) : v.Variant n s t u := by
  induction n generalizing s t u with
  | zero => exact h
  | succ n ih =>
    cases h with
    | leaf shape isLeaf eq => exact .leaf (hshape shape) isLeaf eq
    | param i rel kind₁ kind₂ shape₁ shape₂ =>
      exact .param i rel (hkind kind₁) (hkind kind₂) (hshape shape₁) (hshape shape₂)
    | layer shape₁ shape₂ parts operands₁ operands₂ =>
      exact .layer (hshape shape₁) (hshape shape₂) (parts.imp fun _ _ h => ih h hbinder)
        (fun a ha => (operands₁ a ha).kept hshape hvars) fun a ha => (operands₂ a ha).kept hshape hvars
    | @binder b c _ _ shape₁ shape₂ binder₁ binder₂ inner₁ inner₂ kind names infos result =>
      have hinside {x y : Ty} (h : w.Variant n (s.bind b c) x y) : v.Variant n (s.bind b c) x y :=
        ih h fun hs => hbinder hs.1
      exact .binder (hshape shape₁) (hshape shape₂) (hbinder inner₁ binder₁) (hbinder inner₂ binder₂) inner₁ inner₂ kind
        names (infos.imp fun _ _ => hinside) (hinside result)

theorem Variant.grow (h : w.Variant n s t u) (hv : w ≤ v) : v.Variant n s t u :=
  h.kept hv.shape hv.vars (binderKind?_later · hv) fun _ => hv.binder

theorem Variant.has (h : w.Variant n s t u) : w.Has t ∧ w.Has u := by
  have hhas {t : Ty} {d : Shape} (h : w.shape? t = some d) : w.Has t := by
    rw [Has, h]
    rfl
  cases n with
  | zero => exact h.elim
  | succ n =>
    cases h with
    | leaf shape _ eq => exact ⟨hhas shape, eq ▸ hhas shape⟩
    | param _ _ _ _ shape₁ shape₂ | layer shape₁ shape₂ | binder shape₁ shape₂ => exact ⟨hhas shape₁, hhas shape₂⟩

theorem Variant.present (hw : w.Standard) (h : w.Variant n s t u) : t.present := by
  cases n with
  | zero => exact h.elim
  | succ n =>
    cases h with
    | leaf shape isLeaf => exact hw.present shape (by rintro rfl; cases isLeaf)
    | @param _ _ k _ _ _ _ shape => exact hw.present shape (by cases k <;> rintro ⟨⟩)
    | layer shape _ parts => exact hw.present shape (by rintro rfl; cases parts)
    | @binder _ _ d _ shape => exact hw.present shape (by cases d.kind <;> rintro ⟨⟩)

/-- A variant of a type that unfolds does so as well. -/
theorem Variant.unfolds (hw : w.Standard) (h : w.Variant n s t u) (ht : w.Unfolds t) : w.Unfolds u := by
  have hu := h.symm.present hw
  cases n with
  | zero => exact h.elim
  | succ n =>
    cases h with
    | leaf _ _ eq => exact eq ▸ ht
    | @param _ _ k _ _ _ _ _ shape => exact .leaf hu shape (by cases k <;> rfl) (by cases k <;> rintro _ _ ⟨⟩)
    | @layer _ e _ shape parts _ operands =>
      cases parts with
      | inter => exact .inter shape (operands _ (List.mem_pair.2 (.inl rfl))) (operands _ (List.mem_pair.2 (.inr rfl)))
      | _ => exact .leaf hu shape rfl (by rintro _ _ ⟨⟩)
    | @binder _ _ _ e _ shape =>
      exact .leaf hu shape (by cases e.kind <;> rfl) (by cases e.kind <;> rintro _ _ ⟨⟩)

/-! ## Types that come to an end -/

/-- What the types are made of, binders opened, nests no more than `n` deep. -/
def Low (w : World) : Nat → Ty → Prop
  | 0, _ => False
  | n + 1, t => ∀ u ∈ w.children t, w.Low n u

/-- The infos and the result of the binder nest no more than `n` deep. -/
def LowInside (w : World) (n : Nat) (b : BinderId) : Prop :=
  ∀ d, w.binder? b = some d → (∀ u ∈ d.infos, w.Low n u) ∧ w.Low n d.result

theorem Low.succ (h : w.Low n t) : w.Low (n + 1) t := by
  induction n generalizing t with
  | zero => exact h.elim
  | succ n ih => exact fun u hu => ih (h u hu)

theorem Low.mono (h : w.Low n t) (hnm : n ≤ m) : w.Low m t := by
  induction hnm with
  | refl => exact h
  | step _ ih => exact ih.succ

theorem children_of_binder {k : BinderKind} {d : Binder} (ht : w.shape? t = some (k.shape b))
    (hb : w.binder? b = some d) : w.children t = d.infos ++ [d.result] := by
  rw [children, shape_of_shape? ht]
  cases k <;> simp only [BinderKind.shape, hb]

theorem Low.before (h : v.Low n t) (hv : w ≤ v) : w.Low n t := by
  induction n generalizing t with
  | zero => exact h
  | succ n ih => exact fun u hu => ih (h u (children_later hv hu))

end World

/-- What comes to an end along a list does so for each of its members, in the world that the ones before have left. -/
theorem ran_of_mapM {α β : Type} {f : α → WorldM β} (hf : ∀ a, Grows True (f a)) {l : List α} :
    ∀ {w : World} {r : List β × World}, l.mapM f w = .ok r → ∀ a ∈ l, ∃ v r, w ≤ v ∧ f a v = .ok r := by
  induction l with
  | nil =>
    intro w r _ a ha
    cases ha
  | cons x l ih =>
    intro w r h a ha
    rw [List.mapM_cons] at h
    obtain ⟨y, w₁, hy, h⟩ := bind_ok h
    obtain ⟨ys, w₂, hys, -⟩ := bind_ok h
    rcases List.mem_cons.1 ha with rfl | ha
    · exact ⟨w, _, le_rfl, hy⟩
    · obtain ⟨v, r, hv, hr⟩ := ih hys a ha
      exact ⟨v, r, ((hf x).le_of_ok hy).trans hv, hr⟩

namespace World

variable {w : World} {t : Ty} {old new b : BinderId} {n : Nat}

theorem low_of_rebuildBinder {f : Ty → WorldM Ty} {rename : BinderId → BinderId → Ty → WorldM Ty} {r : Ty × World}
    (hgrows : ∀ a, Grows True (f a)) (hf : ∀ w a r, f a w = .ok r → w.Low n a)
    (h : Ty.rebuildBinder f rename t b w = .ok r) : w.LowInside n b := by
  intro d hd
  rw [Ty.rebuildBinder, get_bind_run, hd] at h
  obtain ⟨infos, w₁, hinfos, h⟩ := bind_ok h
  obtain ⟨result, w₂, hresult, -⟩ := bind_ok h
  have hle : w ≤ w₁ := (Grows.mapM hgrows d.infos).le_of_ok hinfos
  refine ⟨fun u hu => ?_, (hf _ _ _ hresult).before hle⟩
  obtain ⟨v, r, hv, hr⟩ := ran_of_mapM hgrows hinfos u hu
  exact (hf _ _ _ hr).before hv

/-- Renaming comes to an end only in types that do. -/
theorem low_of_substBinder (hne : old ≠ new) : ∀ (n : Nat) (w : World) (t : Ty) (r : Ty × World),
    Ty.substBinder n old new t w = .ok r → w.Low n t := by
  intro n
  induction n with
  | zero =>
    intro w t r h
    cases h
  | succ n ih =>
    intro w t r h
    have hlater {w w₁ : World} {a b x : Ty} {r : Ty × World} (ha : Ty.substBinder n old new a w = .ok (x, w₁))
        (hb : Ty.substBinder n old new b w₁ = .ok r) : ∀ u ∈ [a, b], w.Low n u := by
      intro u hu
      rcases List.mem_pair.1 hu with rfl | rfl
      · exact ih _ _ _ ha
      · exact (ih _ _ _ hb).before ((grows_substBinder n old new a).le_of_ok ha)
    rw [Ty.substBinder, if_neg hne, get_bind_run] at h
    intro u hu
    rw [children] at hu
    cases hd : w.shape t with
    | named p | path p | classInfo p | byName p =>
      rw [hd] at h hu
      dsimp only at h
      rw [Ty.mapChildren, get_bind_run, hd] at h
      obtain ⟨x, w₁, hx, -⟩ := bind_ok h
      cases List.mem_singleton.1 hu
      exact ih _ _ _ hx
    | refined a _ b | inter a b | union a b | bounds a b =>
      rw [hd] at h hu
      dsimp only at h
      rw [Ty.mapChildren, get_bind_run, hd] at h
      obtain ⟨x, w₁, hx, h⟩ := bind_ok h
      obtain ⟨y, w₂, hy, -⟩ := bind_ok h
      exact hlater hx hy u hu
    | method b | universal b =>
      rw [hd] at h hu
      dsimp only at h
      rw [Ty.mapChildren, get_bind_run, hd] at h
      have hlow := low_of_rebuildBinder (grows_substBinder n old new) ih h
      dsimp only at hu
      cases hb : w.binder? b with
      | none =>
        rw [hb] at hu
        cases hu
      | some d =>
        rw [hb] at hu
        rcases List.mem_append.1 hu with hu | hu
        · exact (hlow d hb).1 u hu
        · exact List.mem_singleton.1 hu ▸ (hlow d hb).2
    | _ =>
      rw [hd] at hu
      cases hu

/-! ## Worlds as the constructors make them -/

/-- Every type has a shape that the constructors make. -/
def Regular (w : World) : Prop := ∀ t d, w.shape? t = some d → d.Regular w

instance (a b : Ty) : Decidable (a.Distinct b) := inferInstanceAs (Decidable (_ ∧ _))

instance (w : World) : (d : Shape) → Decidable (d.Regular w)
  | .inter a b | .union a b => inferInstanceAs (Decidable (a.Distinct b))
  | .param p => inferInstanceAs (Decidable (∃ k ∈ w.binderKind? p.binder, k.param p = .param p))
  | .valueParam p => inferInstanceAs (Decidable (∃ k ∈ w.binderKind? p.binder, k.param p = .valueParam p))
  | .universal b => inferInstanceAs (Decidable (∃ k ∈ w.binderKind? b, k.shape b = .universal b))
  | .method b => inferInstanceAs (Decidable (∃ k ∈ w.binderKind? b, k.shape b = .method b))
  | .fixed _ | .named .. | .path .. | .self _ | .literal _ | .skolem .. | .var _ | .refined .. | .byName _ | .bounds ..
  | .classInfo .. => inferInstanceAs (Decidable True)

theorem regular_of_all (h : ∀ d ∈ w.types.shapes.toList, d.Regular w) : w.Regular := by
  intro t d hd
  exact h d (Array.mem_toList_iff.2 (Array.mem_of_getElem? hd))

theorem regular_initial : initial.Regular := regular_of_all (by decide)

theorem Regular.intern (h : w.Regular) {d : Shape} (hd : d.Regular w) :
    Regular { w with types := (w.types.intern d).2 } := by
  intro t e he
  rcases shape?_of_intern he with he | rfl
  · exact (h t e he).kept fun _ _ => id
  · exact hd.kept fun _ _ => id

theorem paramType_run {k : BinderKind} {p : Param} (h : w.binderKind? p.binder = some k) :
    p.type w = WorldM.intern (k.param p) w := by
  rw [Param.type, get_bind_run, h]
  cases k <;> rfl

theorem binderType_run {k : BinderKind} (h : w.binderKind? b = some k) : b.type w = WorldM.intern (k.shape b) w := by
  rw [BinderId.type, get_bind_run, h]
  cases k <;> rfl

/-- A binder may be taken in, and filled in later. -/
theorem Regular.binders (h : w.Regular) {v : World} (htypes : v.types = w.types)
    (hkind : ∀ b k, w.binderKind? b = some k → v.binderKind? b = some k) : v.Regular := by
  intro t d hd
  rw [shape?, htypes] at hd
  exact (h t d hd).kept hkind

/-! ## Finite types are variants of themselves -/

/-- What is required of each part of a type: it is there, it is no class seen from its declaration, and where it is
compared operand by operand, variables do not go round in a circle. -/
structure Sound (w : World) (t : Ty) : Prop where
  present : t.present
  noInfo : ∀ q c, w.shape? t ≠ some (.classInfo q c)
  operands : ∀ d a, w.shape? t = some d → a ∈ d.operands → w.Unfolds a

/-- The pairing for types that nest at most `n` deep: the binders inside them nest less. -/
def lowest (w : World) (n : Nat) : Pairing := .alike fun a => ∃ k < n, w.LowInside k a

theorem Closed.has_child (hw : w.Closed) {u : Ty} (hu : u ∈ w.children t) : w.Has u := by
  cases hd : w.shape? t with
  | none =>
    have habsent : w.shape t = .fixed .noType := congrArg (Option.getD · _) hd
    rw [children, habsent] at hu
    cases hu
  | some d =>
    rw [children, shape_of_shape? hd] at hu
    cases hw.shape hd with
    | named h | path h | classInfo h | byName h => exact List.mem_singleton.1 hu ▸ h.2
    | refined h _ h' | inter h h' | union h h' | bounds h h' =>
      rcases List.mem_pair.1 hu with rfl | rfl
      · exact h.2
      · exact h'.2
    | @method b _ h | @universal b _ h =>
      dsimp only at hu
      cases hb : w.binder? b with
      | none =>
        rw [hb] at hu
        cases hu
      | some d =>
        rw [hb] at hu
        rcases List.mem_append.1 hu with hu | hu
        · exact (hw.binder hb).1 u hu
        · exact List.mem_singleton.1 hu ▸ (hw.binder hb).2
    | _ => cases hu

/-- Inside a binder the types are variants of themselves for a pairing that leaves the binder itself out, as it nests
deeper than what is inside it. -/
theorem variant_inside {d : Binder} (hlow : w.LowInside n b) (hd : w.binder? b = some d)
    (hself : ∀ m ≤ n, ∀ u ∈ d.infos ++ [d.result], w.Low m u → w.Variant m (w.lowest m) u u) :
    ∃ m ≤ n, (∀ a, (w.lowest m).inner a → a ≠ b) ∧
      ∀ u ∈ d.infos ++ [d.result], w.Variant m (w.lowest m) u u := by
  classical
  have hex : ∃ m, w.LowInside m b := ⟨n, hlow⟩
  have hm := Nat.find_spec hex
  refine ⟨Nat.find hex, Nat.find_min' hex hlow, ?_, fun u hu => hself _ (Nat.find_min' hex hlow) u hu ?_⟩
  · rintro a ⟨k, hk, ha⟩ rfl
    exact Nat.find_min hex hk ha
  · rcases List.mem_append.1 hu with hu | hu
    · exact (hm d hd).1 u hu
    · exact List.mem_singleton.1 hu ▸ (hm d hd).2

/-- The induction is on the height; inside a binder it goes on at the least height of what is inside. -/
theorem variant_self (hw : w.Closed) (hstd : w.Standard) (hr : w.Regular) (n : Nat) : ∀ t, w.Has t → w.Low n t →
    (∀ a, w.Within t a → w.Sound a) → w.Variant n (w.lowest n) t t := by
  induction n using Nat.strongRecOn with
  | ind n ih =>
    intro t hhas hlow hsound
    cases n with
    | zero => exact hlow.elim
    | succ n =>
      obtain ⟨d, hd⟩ := Option.isSome_iff_exists.1 hhas
      have hchild {m : Nat} (hm : m ≤ n) : ∀ u ∈ w.children t, w.Low m u → w.Variant m (w.lowest m) u u := by
        intro u hu hlow
        exact ih m (by omega) u (hw.has_child hu) hlow fun a ha => hsound a (.head hu ha)
      have hpart : ∀ u ∈ w.children t, w.Variant n (w.lowest (n + 1)) u u := by
        intro u hu
        refine (hchild (Nat.le_refl n) u hu (hlow u hu)).imp ⟨?_, fun _ _ _ _ h => h⟩
        rintro a - ⟨k, hk, ha⟩
        exact ⟨k, by omega, ha⟩
      have hself := hsound t .refl
      have hparts := hpart
      rw [children, shape_of_shape? hd] at hparts
      have hoperands : ∀ a ∈ d.operands, w.Unfolds a := fun a => hself.operands d a hd
      have hbinder {k : BinderKind} {b : BinderId} (hk : w.binderKind? b = some k) (hshape : d = k.shape b) :
          w.Variant (n + 1) (w.lowest (n + 1)) t t := by
        rw [binderKind?] at hk
        obtain ⟨e, he, rfl⟩ := Option.map_eq_some_iff.1 hk
        rw [hshape] at hd
        have hchildren := children_of_binder hd he
        have hinside : w.LowInside n b := by
          intro e' he'
          cases he.symm.trans he'
          exact ⟨fun u hu => hlow u (hchildren ▸ List.mem_append_left _ hu),
            hlow _ (hchildren ▸ List.mem_append_right _ (List.mem_singleton.2 rfl))⟩
        obtain ⟨m, hm, hne, hvariant⟩ := variant_inside hinside he fun m hm u hu =>
          hchild hm u (hchildren ▸ hu)
        have hsub : (w.lowest m).Sub w ((w.lowest (n + 1)).bind b b) := by
          refine ⟨fun a _ ha => ⟨?_, hne a ha, hne a ha⟩, ?_⟩
          · obtain ⟨k, hk, ha⟩ := ha
            exact ⟨k, by omega, ha⟩
          · rintro p q - - (rfl : p = q)
            exact (em (p = b)).imp (fun h => ⟨h, h⟩) fun h => ⟨h, h, rfl⟩
        have hown : (w.lowest (n + 1)).inner b := ⟨n, by omega, hinside⟩
        refine .binder hd hd he he hown hown rfl rfl ?_ ?_
        · exact List.forall₂_same.2 fun u hu => ((hvariant u (List.mem_append_left _ hu)).imp hsub).mono hm
        · exact ((hvariant _ (List.mem_append_right _ (List.mem_singleton.2 rfl))).imp hsub).mono hm
      cases d with
      | fixed k =>
        refine .leaf hd (decide_eq_true ?_) rfl
        rintro rfl
        exact (Ty.present_iff.1 hself.present) (TypeTable.shape?_injective hd hstd.absent)
      | self | literal | skolem | var => exact .leaf hd rfl rfl
      | param p | valueParam p =>
        obtain ⟨k, hk, hkp⟩ := hr t _ hd
        exact .param p.index rfl hk hk (hkp ▸ hd) (hkp ▸ hd)
      | method b | universal b =>
        obtain ⟨k, hk, hkb⟩ := hr t _ hd
        exact hbinder hk hkb.symm
      | named p s => exact .layer hd hd (.named (hparts p (List.mem_singleton.2 rfl)) s) hoperands hoperands
      | path p s => exact .layer hd hd (.path (hparts p (List.mem_singleton.2 rfl)) s) hoperands hoperands
      | byName p => exact .layer hd hd (.byName (hparts p (List.mem_singleton.2 rfl))) hoperands hoperands
      | refined p name i =>
        exact .layer hd hd (.refined (hparts p (List.mem_pair.2 (.inl rfl))) name (hparts i (List.mem_pair.2 (.inr rfl))))
          hoperands hoperands
      | inter a b =>
        exact .layer hd hd (.inter (hr t _ hd) (hr t _ hd) (hparts a (List.mem_pair.2 (.inl rfl)))
          (hparts b (List.mem_pair.2 (.inr rfl)))) hoperands hoperands
      | union a b =>
        exact .layer hd hd (.union (hr t _ hd) (hr t _ hd) (hparts a (List.mem_pair.2 (.inl rfl)))
          (hparts b (List.mem_pair.2 (.inr rfl)))) hoperands hoperands
      | bounds a b =>
        exact .layer hd hd (.bounds (hparts a (List.mem_pair.2 (.inl rfl))) (hparts b (List.mem_pair.2 (.inr rfl))))
          hoperands hoperands
      | classInfo q c => exact absurd hd (hself.noInfo q c)

end World

end Conformance
