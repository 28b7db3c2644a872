import Mathlib.Logic.Relation
import Conformance.Proofs.Closed

/-!
# What computations on types refer to

A comparison looks at far more than the two types that it was asked about: it opens binders, follows names to their
declarations and variables to what they were settled to, and makes new types and skolems on the way. All of that is laid
out here as a graph of nodes (`World.Step`). A `Domain` is a property of worlds together with nodes of them that no step
leads out of, such that a shape whose parts are inside has an inside handle, whether it was there before or is new.
`D.Makes w P m` says that `m`, started in an extension of `w` that has the property, ends in such a world with a result
that satisfies `P`; there is one lemma for each computation that the cascade runs, but for those that make binders.
-/

namespace Conformance

/-- What a shape, a binder or a declaration can refer to. -/
inductive Node where
  | ty (t : Ty)
  | binder (b : BinderId)
  | param (p : Param)
  | sym (s : Symbol)
  | var (v : VarId)
deriving DecidableEq

/-- The class of the values of a literal type. -/
def Literal.cls : Literal → Builtin
  | .int _ => .int
  | .bool _ => .boolean
  | .str _ => .string

/-- What a shape refers to. -/
def Shape.parts : Shape → List Node
  | .fixed _ => []
  | .named pre s | .path pre s | .classInfo pre s => [.ty pre, .sym s]
  | .self cls => [.sym cls]
  | .literal v => [.ty v.cls.type]
  | .skolem _ underlying => [.ty underlying]
  | .var v => [.var v]
  | .param p | .valueParam p => [.param p]
  | .refined parent _ info => [.ty parent, .ty info]
  | .inter a b | .union a b | .bounds a b => [.ty a, .ty b]
  | .method b | .universal b => [.binder b]
  | .byName result => [.ty result]

/-- What a declaration refers to: its info, its parents, its type parameters and its members. -/
def Declaration.parts (d : Declaration) : List Node :=
  .ty d.info :: d.parents.map .ty ++ d.typeParams.map .sym ++
    (d.typeMembers.entries ++ d.termMembers.entries).map fun e => .sym e.2

/-- One node refers to another. What a parameter refers to is its own info, not the rest of its binder. -/
inductive World.Step (w : World) : Node → Node → Prop
  | part {t : Ty} {d : Shape} {n : Node} (ht : w.shape? t = some d) (hn : n ∈ d.parts) : Step w (.ty t) n
  | info {b : BinderId} {d : Binder} {t : Ty} (hb : w.binder? b = some d) (ht : t ∈ d.infos) :
    Step w (.binder b) (.ty t)
  | result {b : BinderId} {d : Binder} (hb : w.binder? b = some d) : Step w (.binder b) (.ty d.result)
  | bound (b : BinderId) (i : Nat) : Step w (.binder b) (.param ⟨b, i⟩)
  | declared {p : Param} {d : Binder} {t : Ty} (hb : w.binder? p.binder = some d) (ht : d.infos[p.index]? = some t) :
    Step w (.param p) (.ty t)
  | declaration {s : Symbol} {d : Declaration} {n : Node} (hs : w.decls.get? s = some d) (hn : n ∈ d.parts) :
    Step w (.sym s) n
  | origin {v : VarId} {c : VarCell} (hv : w.vars[v.id]? = some c) : Step w (.var v) (.ty c.origin)
  | settled {v : VarId} {c : VarCell} {t : Ty} (hv : w.vars[v.id]? = some c) (ht : c.inst = some t) :
    Step w (.var v) (.ty t)

namespace World

/-- The handle was given out. -/
def Given (w : World) : Node → Prop
  | .ty t => w.Has t
  | .binder b => (w.binder? b).isSome
  | .param p => (w.binder? p.binder).isSome
  | .sym _ | .var _ => True

/-- What a shape mentions in a closed world was given out. -/
theorem Closed.given {w : World} (hw : w.Closed) {d : Shape} (hd : w.Mentions d) {n : Node} (hn : n ∈ d.parts) :
    w.Given n := by
  cases hd with
  | named h | path h | classInfo h =>
    rcases List.mem_pair.1 hn with rfl | rfl
    · exact h.2
    · trivial
  | refined h _ h' | inter h h' | union h h' | bounds h h' =>
    rcases List.mem_pair.1 hn with rfl | rfl
    · exact h.2
    · exact h'.2
  | skolem _ h | byName h | method h | universal h =>
    cases List.mem_singleton.1 hn
    exact h.2
  | param h | valueParam h =>
    cases List.mem_singleton.1 hn
    exact h.elim (fun h => h.2.2) False.elim
  | literal l =>
    cases List.mem_singleton.1 hn
    exact hw.fixed _ (by generalize l.cls = b; cases b <;> decide)
  | self | var =>
    cases List.mem_singleton.1 hn
    trivial
  | fixed => cases hn

/-- `a` is `t` or inside it, binders opened. -/
def Within (w : World) : Ty → Ty → Prop := Relation.ReflTransGen fun t u => u ∈ w.children t

/-- What is inside a type is inside it later. -/
theorem children_later {w v : World} {t u : Ty} (hv : w ≤ v) (hu : u ∈ w.children t) : u ∈ v.children t := by
  cases hd : w.shape? t with
  | none =>
    have habsent : w.shape t = .fixed .noType := congrArg (Option.getD · _) hd
    rw [children, habsent] at hu
    cases hu
  | some d =>
    rw [children, shape_of_shape? hd] at hu
    rw [children, shape_of_shape? (hv.shape hd)]
    cases d with
    | method b | universal b =>
      dsimp only at hu ⊢
      cases hb : w.binder? b with
      | none =>
        rw [hb] at hu
        cases hu
      | some e =>
        rw [hb] at hu
        rw [hv.binder hb]
        exact hu
    | _ => exact hu

end World

/-! ## Shapes that are made -/

/-- Neither of the types decides what the two are joined to. -/
def Ty.Distinct (a b : Ty) : Prop :=
  a ≠ b ∧ (a ≠ Builtin.any.type ∧ a ≠ Builtin.nothing.type) ∧ b ≠ Builtin.any.type ∧ b ≠ Builtin.nothing.type

/-- The shape of the type that a binder of this kind makes. -/
def BinderKind.shape : BinderKind → BinderId → Shape
  | .universal => .universal
  | .method _ => .method

/-- The shape of a parameter of a binder of this kind. -/
def BinderKind.param : BinderKind → Param → Shape
  | .universal => .param
  | .method _ => .valueParam

/-- The shape of the type of a binder. -/
def World.binderShape (w : World) (b : BinderId) : Shape :=
  match w.binderKind? b with
  | some (.method _) => .method b
  | _ => .universal b

theorem binderType_eq_intern (b : BinderId) (w : World) : b.type w = WorldM.intern (w.binderShape b) w := by
  show (match w.binderKind? b with
    | some (.method _) => WorldM.intern (.method b)
    | _ => WorldM.intern (.universal b)) w = _
  simp only [World.binderShape]
  cases w.binderKind? b with
  | none => rfl
  | some k => cases k <;> rfl

theorem parts_binderShape (w : World) (b : BinderId) : (w.binderShape b).parts = [.binder b] := by
  simp only [World.binderShape]
  split <;> rfl

/-- The shape of the type of a parameter. -/
def World.paramShape (w : World) (p : Param) : Shape :=
  match w.binderKind? p.binder with
  | some (.method _) => .valueParam p
  | _ => .param p

theorem paramType_eq_intern (p : Param) (w : World) : p.type w = WorldM.intern (w.paramShape p) w := by
  show (match w.binderKind? p.binder with
    | some (.method _) => WorldM.intern (.valueParam p)
    | _ => WorldM.intern (.param p)) w = _
  simp only [World.paramShape]
  cases w.binderKind? p.binder with
  | none => rfl
  | some k => cases k <;> rfl

theorem parts_paramShape (w : World) (p : Param) : (w.paramShape p).parts = [.param p] := by
  simp only [World.paramShape]
  split <;> rfl

/-- The shape is one that the constructors make in the world, the types of binders left out: the operands of intersections
and unions do not collapse, parameters are of the kind of their binder, and skolems were given out. -/
def Shape.Made (w : World) : Shape → Prop
  | .inter a b | .union a b => a.Distinct b
  | .param p => w.paramShape p = .param p
  | .valueParam p => w.paramShape p = .valueParam p
  | .skolem k _ => k.id < w.skolems
  | .method _ | .universal _ => False
  | _ => True

theorem World.made_paramShape (w : World) (p : Param) : (w.paramShape p).Made w := by
  have h : w.paramShape p = .param p ∨ w.paramShape p = .valueParam p := by
    rw [paramShape]
    split
    · exact .inr rfl
    · exact .inl rfl
  rcases h with h | h <;> (rw [h]; exact h)

/-- Worlds with a property that is kept when types and skolems are made, and the nodes that they are made of. -/
structure Domain where
  Holds : World → Prop
  inside : World → Node → Prop
  grow : ∀ {w w' : World} {n : Node}, w ≤ w' → inside w n → inside w' n
  step : ∀ {w : World} {m n : Node}, Holds w → w.Step m n → inside w m → inside w n
  noType : ∀ {w : World}, Holds w → inside w (.ty .noType)
  noPrefix : ∀ {w : World}, Holds w → inside w (.ty .noPrefix)
  intern : ∀ {w : World} {d : Shape}, Holds w → d.Made w → (∀ n ∈ d.parts, inside w n) →
    Holds { w with types := (w.types.intern d).2 } ∧
      inside { w with types := (w.types.intern d).2 } (.ty (w.types.intern d).1)
  binderType : ∀ {w : World} {b : BinderId} {d : Shape}, Holds w → inside w (.binder b) → w.binderShape b = d →
    Holds { w with types := (w.types.intern d).2 } ∧
      inside { w with types := (w.types.intern d).2 } (.ty (w.types.intern d).1)
  skolem : ∀ {w : World}, Holds w → Holds { w with skolems := w.skolems + 1 }
  snapshot : ∀ {w : World}, Holds w → Holds { w with snapshots := w.snapshots + 1 }

namespace Domain

variable {D : Domain} {w w₀ w' : World} {t lo hi : Ty} {s : Symbol} {p : Param} {b : BinderId} {v : VarId}

/-! ## Reading -/

namespace Holds

theorem parts (h : D.Holds w) (ht : D.inside w (.ty t)) {d : Shape} (hd : w.shape t = d) :
    ∀ n ∈ d.parts, D.inside w n := by
  intro n hn
  cases hs : w.shape? t with
  | none =>
    obtain rfl : .fixed .noType = d := by rw [← hd]; exact (congrArg (Option.getD · _) hs).symm
    cases hn
  | some e =>
    obtain rfl : e = d := (World.shape_of_shape? hs).symm.trans hd
    exact D.step h (.part hs hn) ht

theorem boundsParts (h : D.Holds w) (ht : D.inside w (.ty t)) (hb : w.boundsParts? t = some (lo, hi)) :
    D.inside w (.ty lo) ∧ D.inside w (.ty hi) := by
  have hd : w.shape? t = some (.bounds lo hi) := by
    simp only [World.boundsParts?] at hb
    split at hb
    · next heq => cases hb; exact heq
    · cases hb
  simpa [Shape.parts] using h.parts ht (World.shape_of_shape? hd)

theorem binder_parts (h : D.Holds w) {d : Binder} (hb : D.inside w (.binder b)) (hd : w.binder? b = some d) :
    (∀ t ∈ d.infos, D.inside w (.ty t)) ∧ D.inside w (.ty d.result) :=
  ⟨fun _ ht => D.step h (.info hd ht) hb, D.step h (.result hd) hb⟩

theorem paramInfo (h : D.Holds w) (hp : D.inside w (.param p)) : D.inside w (.ty (w.paramInfo p)) := by
  simp only [World.paramInfo]
  cases hd : w.binder? p.binder with
  | none => exact D.noType h
  | some d =>
    cases ht : d.infos[p.index]? with
    | none => simpa [ht] using D.noType h
    | some t => simpa [ht] using D.step h (.declared hd ht) hp

theorem paramUpper (h : D.Holds w) (hp : D.inside w (.param p)) : D.inside w (.ty (w.paramUpper p)) := by
  simp only [World.paramUpper]
  cases hb : w.boundsParts? (w.paramInfo p) with
  | none => exact D.noType h
  | some ends => exact (h.boundsParts (h.paramInfo hp) hb).2

theorem declaration (h : D.Holds w) (hs : D.inside w (.sym s)) {d : Declaration} (hd : w.decls.get? s = some d) :
    ∀ n ∈ d.parts, D.inside w n := fun _ hn => D.step h (.declaration hd hn) hs

theorem info (h : D.Holds w) (hs : D.inside w (.sym s)) : D.inside w (.ty (w.decls.info s)) := by
  simp only [Declarations.info]
  cases hd : w.decls.get? s with
  | none => exact D.noType h
  | some d => exact h.declaration hs hd _ (by simp [Declaration.parts])

theorem parents (h : D.Holds w) (hs : D.inside w (.sym s)) : ∀ t ∈ w.decls.parents s, D.inside w (.ty t) := by
  simp only [Declarations.parents]
  cases hd : w.decls.get? s with
  | none => exact fun t ht => nomatch ht
  | some d => exact fun t ht => h.declaration hs hd _ (by simp_all [Declaration.parts])

theorem typeParams (h : D.Holds w) (hs : D.inside w (.sym s)) :
    ∀ p ∈ w.decls.typeParams s, D.inside w (.sym p) := by
  simp only [Declarations.typeParams]
  cases hd : w.decls.get? s with
  | none => exact fun p hp => nomatch hp
  | some d => exact fun p hp => h.declaration hs hd _ (by simp_all [Declaration.parts])

theorem member (h : D.Holds w) (hs : D.inside w (.sym s)) {name : String} {space : MemberSpace} {m : Symbol}
    (hm : w.decls.member? s name space = some m) : D.inside w (.sym m) := by
  simp only [Declarations.member?] at hm
  cases hd : w.decls.get? s with
  | none => rw [hd] at hm; cases hm
  | some d =>
    rw [hd] at hm
    obtain ⟨l₁, l₂, hl, -⟩ := List.lookup_eq_some_iff.1 (show (d.members space).entries.lookup name = some m from hm)
    refine h.declaration hs hd _ ?_
    cases space with
    | type => simp [Declaration.parts, show d.typeMembers.entries = _ from hl]
    | term => simp [Declaration.parts, show d.termMembers.entries = _ from hl]

theorem varUnderlying (h : D.Holds w) (hv : D.inside w (.var v)) : D.inside w (.ty (w.varUnderlying v)) := by
  simp only [World.varUnderlying, World.varInstance?, World.varOrigin]
  cases hc : w.vars[v.id]? with
  | none => exact D.noType h
  | some c =>
    cases ht : c.inst with
    | none => simpa [ht] using D.step h (.origin hc) hv
    | some t => simpa [ht] using D.step h (.settled hc ht) hv

/-! ### Behind aliases and refinements -/

theorem dealiasFrom (h : D.Holds w) :
    ∀ (n : Nat) (g : Guard Ty) {t : Ty}, D.inside w (.ty t) → D.inside w (.ty (w.dealiasFrom n g t))
  | 0, _, _, ht => ht
  | n + 1, g, t, ht => by
    unfold World.dealiasFrom
    split
    · exact ht
    · next next hnext =>
      split
      · refine dealiasFrom h n _ ?_
        unfold World.aliased? at hnext
        split at hnext
        · next hd =>
          split at hnext
          · obtain rfl := Option.some.inj hnext
            exact h.info (h.parts ht hd _ (by simp [Shape.parts]))
          · cases hnext
        · cases hnext
      · exact ht

theorem typeSymbolFrom (h : D.Holds w) :
    ∀ (n : Nat) (g : Guard Ty) {t : Ty}, D.inside w (.ty t) → ∀ s, w.typeSymbolFrom n g t = some s → D.inside w (.sym s)
  | 0, _, _, _, _, hs => nomatch hs
  | n + 1, g, t, ht, s, hs => by
    unfold World.typeSymbolFrom at hs
    split at hs
    · split at hs
      · next pre sym hd =>
        have hsym : D.inside w (.sym sym) := h.parts ht hd _ (by simp [Shape.parts])
        split at hs
        · exact typeSymbolFrom h n _ (h.info hsym) s hs
        · obtain rfl := Option.some.inj hs
          exact hsym
      · next hd =>
        obtain rfl := Option.some.inj hs
        exact h.parts ht hd _ (by simp [Shape.parts])
      · next hd => exact typeSymbolFrom h n _ (h.parts ht hd _ (by simp [Shape.parts])) s hs
      · cases hs
    · cases hs

theorem typeSymbol (h : D.Holds w) (ht : D.inside w (.ty t)) (hs : w.typeSymbol? t = some s) : D.inside w (.sym s) :=
  h.typeSymbolFrom _ _ ht s hs

theorem refinement (h : D.Holds w) (name : String) : ∀ (n : Nat) {t : Ty}, D.inside w (.ty t) →
    ∀ info, w.refinement? name n t = .ok (some info) → D.inside w (.ty info)
  | 0, _, _, _, hr => nomatch hr
  | n + 1, t, ht, info, hr => by
    unfold World.refinement? at hr
    split at hr
    · next parent refinedName info' hd =>
      obtain ⟨hparent, hinfo⟩ : D.inside w (.ty parent) ∧ D.inside w (.ty info') := by
        simpa [Shape.parts] using h.parts ht hd
      split at hr
      · cases hr
        exact hinfo
      · exact refinement h name n hparent info hr
    · next hd =>
      split at hr
      · dsimp only at hr
        split at hr
        · cases hr
        · exact refinement h name n (h.info (h.parts ht hd _ (by simp [Shape.parts]))) info hr
      · cases hr
    · cases hr

end Holds

/-! ## Computations -/

section

variable {α β : Type} {P : World → α → Prop} {Q : World → β → Prop}

/-- From `w₀` on, the computation keeps to the domain and makes results with `P`. -/
def Makes (D : Domain) (w₀ : World) (P : World → α → Prop) (m : WorldM α) : Prop :=
  ∀ w a w', w₀ ≤ w → D.Holds w → m w = .ok (a, w') → w ≤ w' ∧ D.Holds w' ∧ P w' a

/-- The computation makes types that are inside. -/
abbrev MakesTy (D : Domain) (w₀ : World) (m : WorldM Ty) : Prop := D.Makes w₀ (fun w t => D.inside w (.ty t)) m

/-- The computation keeps to the domain. -/
abbrev Runs (D : Domain) (w₀ : World) (m : WorldM α) : Prop := D.Makes w₀ (fun _ _ => True) m

theorem Makes.later {m : WorldM α} (hm : D.Makes w₀ P m) (hle : w₀ ≤ w) : D.Makes w P m :=
  fun w₁ a w' h => hm w₁ a w' (le_trans hle h)

theorem Makes.pure {a : α} (ha : ∀ w, w₀ ≤ w → P w a) : D.Makes w₀ P (pure a : WorldM α) := by
  intro w a' w' hle h hm
  cases hm
  exact ⟨le_rfl, h, ha w hle⟩

theorem Makes.pure_ty (ht : D.inside w₀ (.ty t)) : D.MakesTy w₀ (Pure.pure t) := .pure fun _ hle => D.grow hle ht

theorem Makes.done (a : α) : D.Runs w₀ (Pure.pure a : WorldM α) := .pure fun _ _ => trivial

theorem Makes.bind {m : WorldM α} {f : α → WorldM β} (hm : D.Makes w₀ P m)
    (hf : ∀ w a, w₀ ≤ w → D.Holds w → P w a → D.Makes w Q (f a)) : D.Makes w₀ Q (m >>= f) := by
  intro w b w' hle h hrun
  obtain ⟨a, w₁, hr, hrun⟩ := bind_ok hrun
  obtain ⟨hle₁, h₁, ha⟩ := hm w a w₁ hle h hr
  obtain ⟨hle₂, h₂, hb⟩ := hf w₁ a (le_trans hle hle₁) h₁ ha w₁ b w' le_rfl h₁ hrun
  exact ⟨le_trans hle₁ hle₂, h₂, hb⟩

theorem Makes.get_bind {f : World → WorldM β} (hf : ∀ w, w₀ ≤ w → D.Holds w → D.Makes w Q (f w)) :
    D.Makes w₀ Q (get >>= f) := fun w b w' hle h hrun => hf w hle h w b w' le_rfl h hrun

theorem Makes.throw {e : Halt} : D.Makes w₀ P (throw e : WorldM α) := fun _ _ _ _ _ hrun => nomatch hrun

theorem Makes.ite {p : Prop} [Decidable p] {m₁ m₂ : WorldM α} (h₁ : p → D.Makes w₀ P m₁) (h₂ : ¬ p → D.Makes w₀ P m₂) :
    D.Makes w₀ P (if p then m₁ else m₂) := by
  split
  · next hp => exact h₁ hp
  · next hp => exact h₂ hp

theorem Makes.mapM {f : α → WorldM β} {l : List α} (hf : ∀ a ∈ l, D.Makes w₀ Q (f a))
    (hQ : ∀ {w w' : World} {b : β}, w ≤ w' → Q w b → Q w' b) :
    D.Makes w₀ (fun w bs => ∀ b ∈ bs, Q w b) (l.mapM f) := by
  induction l generalizing w₀ with
  | nil =>
    rw [List.mapM_nil]
    exact .pure fun _ _ _ h => nomatch h
  | cons a l ih =>
    rw [List.mapM_cons]
    refine .bind (hf a (by simp)) fun w₁ b hle _ hb => ?_
    refine .bind (ih fun a ha => (hf a (by simp [ha])).later hle) fun w₂ bs hle₂ _ hbs => ?_
    exact .pure fun w hle => by simpa using ⟨hQ (le_trans hle₂ hle) hb, fun b hb => hQ hle (hbs b hb)⟩

theorem Makes.orElse {x y : WorldM Bool} (hx : D.Runs w₀ x) (hy : D.Runs w₀ y) : D.Runs w₀ (x <||> y) :=
  .bind hx fun _ b hle _ _ => by cases b <;> [exact Makes.later hy hle; exact .done _]

theorem Makes.reading {f : World → Except Halt α} (hf : ∀ w a, w₀ ≤ w → D.Holds w → f w = .ok a → P w a) :
    D.Makes w₀ P (WorldM.reading f) := by
  intro w a w' hle hw hrun
  obtain ⟨hr, rfl⟩ := reading_ok hrun
  exact ⟨le_rfl, hw, hf _ a hle hw hr⟩

end

/-! ### New types and skolems -/

theorem makes_intern {d : Shape} (hmade : ∀ w, w₀ ≤ w → d.Made w) (hd : ∀ n ∈ d.parts, D.inside w₀ n) :
    D.MakesTy w₀ (WorldM.intern d) := by
  intro w t w' hle h hrun
  obtain ⟨rfl, rfl⟩ := Prod.mk.injEq .. ▸ Except.ok.inj hrun
  exact ⟨le_intern d w, D.intern h (hmade w hle) fun n hn => D.grow hle (hd n hn)⟩

theorem makes_freshSkolem : D.Makes w₀ (fun w k => k.id < w.skolems) WorldM.freshSkolem := by
  intro w k w' _ h hrun
  obtain ⟨rfl, rfl⟩ := Prod.mk.injEq .. ▸ Except.ok.inj hrun
  exact ⟨le_freshSkolem w, D.skolem h, Nat.lt_succ_self _⟩

theorem makes_freshSnapshot : D.Runs w₀ WorldM.freshSnapshot := by
  intro w k w' _ h hrun
  obtain ⟨rfl, rfl⟩ := Prod.mk.injEq .. ▸ Except.ok.inj hrun
  have hle : w ≤ { w with snapshots := w.snapshots + 1 } := (grows_freshSnapshot : Grows True _) w
  exact ⟨hle, D.snapshot h, trivial⟩

section Types

variable {a b : Ty}

theorem makes_named (hpre : D.inside w₀ (.ty a)) (hs : D.inside w₀ (.sym s)) : D.MakesTy w₀ (Ty.named a s) :=
  makes_intern (fun _ _ => trivial) (by simpa [Shape.parts] using ⟨hpre, hs⟩)

theorem makes_ref (hw : D.Holds w₀) (hs : D.inside w₀ (.sym s)) : D.MakesTy w₀ s.ref := makes_named (D.noPrefix hw) hs

theorem makes_skolem (ha : D.inside w₀ (.ty a)) : D.MakesTy w₀ a.skolem :=
  .bind makes_freshSkolem fun _ _ hle _ hk => makes_intern (fun _ hv => Nat.lt_of_lt_of_le hk hv.skolems)
    (by simpa [Shape.parts] using D.grow hle ha)

theorem makes_bounds (ha : D.inside w₀ (.ty a)) (hb : D.inside w₀ (.ty b)) : D.MakesTy w₀ (Ty.bounds a b) :=
  makes_intern (fun _ _ => trivial) (by simpa [Shape.parts] using ⟨ha, hb⟩)

/-- An intersection is a new type or one of its operands. -/
theorem makes_inter (ha : D.inside w₀ (.ty a)) (hb : D.inside w₀ (.ty b)) : D.MakesTy w₀ (Ty.inter a b) := by
  refine .ite (fun _ => .pure_ty ha) fun _ => .ite (fun _ => .pure_ty hb) fun _ =>
    .ite (fun _ => .pure_ty ha) fun _ => ?_
  refine .ite (fun hnothing => .pure_ty ?_) fun _ => makes_intern (fun _ _ => ?_) (by simpa [Shape.parts] using ⟨ha, hb⟩)
  · rcases hnothing with rfl | rfl
    · exact ha
    · exact hb
  · simp_all [Shape.Made, Ty.Distinct]

/-- A union is a new type or one of its operands. -/
theorem makes_union (ha : D.inside w₀ (.ty a)) (hb : D.inside w₀ (.ty b)) : D.MakesTy w₀ (Ty.union a b) := by
  refine .ite (fun _ => .pure_ty ha) fun _ => .ite (fun _ => .pure_ty hb) fun _ =>
    .ite (fun _ => .pure_ty ha) fun _ => ?_
  refine .ite (fun hany => .pure_ty ?_) fun _ => makes_intern (fun _ _ => ?_) (by simpa [Shape.parts] using ⟨ha, hb⟩)
  · rcases hany with rfl | rfl
    · exact ha
    · exact hb
  · simp_all [Shape.Made, Ty.Distinct]

theorem makes_asBounds (ha : D.inside w₀ (.ty a)) : D.MakesTy w₀ a.asBounds :=
  .get_bind fun _ hle _ => .ite (fun _ => makes_bounds (D.grow hle ha) (D.grow hle ha)) fun _ =>
    .pure_ty (D.grow hle ha)

theorem makes_endsOf (ha : D.inside w₀ (.ty a)) :
    D.Makes w₀ (fun w e => D.inside w (.ty e.1) ∧ D.inside w (.ty e.2)) a.endsOf := by
  refine .bind (makes_asBounds ha) fun w₁ lifted hle _ hlifted => .get_bind fun w hle₁ hw => .pure fun w' hle' => ?_
  cases he : w.boundsParts? lifted with
  | none =>
    have ha' := D.grow (le_trans hle (le_trans hle₁ hle')) ha
    exact ⟨ha', ha'⟩
  | some ends => exact (hw.boundsParts (D.grow hle₁ hlifted) he).imp (D.grow hle') (D.grow hle')

theorem makes_boundsInter (ha : D.inside w₀ (.ty a)) (hb : D.inside w₀ (.ty b)) :
    D.MakesTy w₀ (Ty.boundsInter a b) := by
  refine .bind (makes_endsOf ha) fun w₁ e hle₁ _ he => .bind (makes_endsOf (D.grow hle₁ hb)) fun w₂ e' hle₂ _ he' => ?_
  refine .bind (makes_union (D.grow hle₂ he.1) he'.1) fun w₃ lo hle₃ _ hlo => ?_
  refine .bind (makes_inter (D.grow (le_trans hle₂ hle₃) he.2) (D.grow hle₃ he'.2)) fun w₄ hi hle₄ _ hhi => ?_
  exact makes_bounds (D.grow hle₄ hlo) hhi

theorem makes_paramType (hp : D.inside w₀ (.param p)) : D.MakesTy w₀ p.type :=
  fun w t w' hle h hrun => by
    rw [paramType_eq_intern] at hrun
    obtain ⟨rfl, rfl⟩ := Prod.mk.injEq .. ▸ Except.ok.inj hrun
    refine ⟨le_intern _ w, D.intern h (w.made_paramShape p) fun n hn => ?_⟩
    rw [parts_paramShape] at hn
    exact List.mem_singleton.1 hn ▸ D.grow hle hp

theorem makes_binderType {b : BinderId} (hb : D.inside w₀ (.binder b)) : D.MakesTy w₀ b.type := by
  intro w t w' hle h hrun
  rw [binderType_eq_intern] at hrun
  obtain ⟨rfl, rfl⟩ := Prod.mk.injEq .. ▸ Except.ok.inj hrun
  exact ⟨le_intern _ w, D.binderType h (D.grow hle hb) rfl⟩

/-! ### What names and single values stand for -/

theorem makes_infoOf (ha : D.inside w₀ (.ty a)) : D.MakesTy w₀ a.infoOf := by
  refine .get_bind fun w hle hw => ?_
  have ha := D.grow hle ha
  split
  · next pre s hd =>
    obtain ⟨hpre, hs⟩ : D.inside w (.ty pre) ∧ D.inside w (.sym s) := by simpa [Shape.parts] using hw.parts ha hd
    split
    · exact makes_intern (fun _ _ => trivial) (by simpa [Shape.parts] using ⟨hpre, hs⟩)
    · exact makes_bounds (hw.info hs) (hw.info hs)
    · exact .pure_ty (hw.info hs)
    · exact .pure_ty (hw.info hs)
    · exact .pure_ty (D.noType hw)
  · next pre s hd =>
    obtain ⟨-, hs⟩ : D.inside w (.ty pre) ∧ D.inside w (.sym s) := by simpa [Shape.parts] using hw.parts ha hd
    exact .pure_ty (hw.info hs)
  · exact .pure_ty (D.noType hw)

theorem makes_upperBound (ha : D.inside w₀ (.ty a)) : D.MakesTy w₀ a.upperBound := by
  refine .bind (makes_infoOf ha) fun w₁ info hle _ hinfo => .get_bind fun w hle₁ hw => .pure_ty ?_
  have hinfo := D.grow hle₁ hinfo
  cases he : w.boundsParts? info with
  | none => exact hinfo
  | some ends => exact (hw.boundsParts hinfo he).2

theorem makes_underlying (ha : D.inside w₀ (.ty a)) : D.MakesTy w₀ a.underlying := by
  refine .get_bind fun w hle hw => ?_
  have ha := D.grow hle ha
  split
  · next pre s hd =>
    obtain ⟨-, hs⟩ : D.inside w (.ty pre) ∧ D.inside w (.sym s) := by simpa [Shape.parts] using hw.parts ha hd
    exact .pure_ty (hw.info hs)
  · next hd => exact makes_ref hw (hw.parts ha hd _ (by simp [Shape.parts]))
  · next hd => exact .pure_ty (hw.parts ha hd _ (by simp [Shape.parts, Literal.cls]))
  · next hd => exact .pure_ty (hw.parts ha hd _ (by simp [Shape.parts, Literal.cls]))
  · next hd => exact .pure_ty (hw.parts ha hd _ (by simp [Shape.parts, Literal.cls]))
  · next hd => exact .pure_ty (hw.parts ha hd _ (by simp [Shape.parts]))
  · next hd => exact .pure_ty (hw.paramInfo (hw.parts ha hd _ (by simp [Shape.parts])))
  · next hd => exact .pure_ty (hw.varUnderlying (hw.parts ha hd _ (by simp [Shape.parts])))
  · exact .pure_ty (D.noType hw)

theorem makes_ofUnion (ha : D.inside w₀ (.ty a)) (hb : D.inside w₀ (.ty b)) : D.MakesTy w₀ (Member.ofUnion a b) := by
  refine .get_bind fun w hle hw => ?_
  split
  · next hl hr =>
    have hl := hw.boundsParts (D.grow hle ha) hl
    have hr := hw.boundsParts (D.grow hle hb) hr
    refine .bind (makes_inter hl.1 hr.1) fun w₁ _ hle₁ _ hlo => ?_
    refine .bind (makes_union (D.grow hle₁ hl.2) (D.grow hle₁ hr.2)) fun w₂ _ hle₂ _ hhi => ?_
    exact makes_bounds (D.grow hle₂ hlo) hhi
  · exact makes_union (D.grow hle ha) (D.grow hle hb)

end Types

/-! ### Walks -/

section Walks

variable {α β : Type} {P : World → α → Prop} {Q : World → β → Prop}

/-- `Makes` of a computation under a guard. -/
def Walks (D : Domain) (w₀ : World) (P : World → α → Prop) (m : WalkM α) : Prop :=
  ∀ g, D.Makes w₀ (fun w r => P w r.1) (m g)

abbrev WalksTy (D : Domain) (w₀ : World) (m : WalkM Ty) : Prop := D.Walks w₀ (fun w t => D.inside w (.ty t)) m

theorem Walks.later {m : WalkM α} (hm : D.Walks w₀ P m) (hle : w₀ ≤ w) : D.Walks w P m := fun g => (hm g).later hle

theorem Walks.pure {a : α} (ha : ∀ w, w₀ ≤ w → P w a) : D.Walks w₀ P (pure a : WalkM α) := fun _ => Makes.pure ha

theorem Walks.done (a : α) : D.Walks w₀ (fun _ _ => True) (Pure.pure a : WalkM α) := .pure fun _ _ => trivial

theorem Walks.pure_ty (ht : D.inside w₀ (.ty t)) : D.WalksTy w₀ (Pure.pure t) := .pure fun _ hle => D.grow hle ht

theorem Walks.bind {m : WalkM α} {f : α → WalkM β} (hm : D.Walks w₀ P m)
    (hf : ∀ w a, w₀ ≤ w → D.Holds w → P w a → D.Walks w Q (f a)) : D.Walks w₀ Q (m >>= f) :=
  fun g => Makes.bind (hm g) fun w r hle hw hr => hf w r.1 hle hw hr r.2

theorem Walks.lift {m : WorldM α} (hm : D.Makes w₀ P m) (hP : ∀ w w' a, w ≤ w' → P w a → P w' a) :
    D.Walks w₀ P (liftM m : WalkM α) := by
  intro g
  show D.Makes w₀ (fun w r => P w r.1) (m >>= fun a => Pure.pure (a, g))
  exact .bind hm fun w a _ _ ha => .pure fun w' hle => hP w w' a hle ha

theorem Walks.lift_ty {m : WorldM Ty} (hm : D.MakesTy w₀ m) : D.WalksTy w₀ (liftM m : WalkM Ty) :=
  .lift hm fun _ _ _ => D.grow

theorem Walks.ite {p : Prop} [Decidable p] {m₁ m₂ : WalkM α} (h₁ : p → D.Walks w₀ P m₁) (h₂ : ¬ p → D.Walks w₀ P m₂) :
    D.Walks w₀ P (if p then m₁ else m₂) := by
  split
  · next hp => exact h₁ hp
  · next hp => exact h₂ hp

theorem Walks.orElse {x y : WalkM Bool} (hx : D.Walks w₀ (fun _ _ => True) x) (hy : D.Walks w₀ (fun _ _ => True) y) :
    D.Walks w₀ (fun _ _ => True) (x <||> y) :=
  .bind hx fun _ b hle _ _ => by cases b <;> [exact hy.later hle; exact .done _]

theorem Walks.andThen {x y : WalkM Bool} (hx : D.Walks w₀ (fun _ _ => True) x) (hy : D.Walks w₀ (fun _ _ => True) y) :
    D.Walks w₀ (fun _ _ => True) (x <&&> y) :=
  .bind hx fun _ b hle _ _ => by cases b <;> [exact .done _; exact hy.later hle]

theorem Walks.world_bind {f : World → WalkM β} (hf : ∀ w, w₀ ≤ w → D.Holds w → D.Walks w Q (f w)) :
    D.Walks w₀ Q (Walk.world >>= f) := fun g w r w' hle hw hrun => hf w hle hw g w r w' le_rfl hw hrun

theorem Walks.get_bind {f : Guard Ty → WalkM β} (hf : ∀ g, D.Walks w₀ Q (f g)) : D.Walks w₀ Q (get >>= f) :=
  fun g => hf g g

theorem Walks.set (g : Guard Ty) : D.Walks w₀ (fun _ _ => True) (set g : WalkM PUnit) :=
  fun _ => Makes.pure fun _ _ => trivial

variable (hP : ∀ w w' a, w ≤ w' → P w a → P w' a) {refused : α}

include hP

theorem walks_inside (hrefused : P w₀ refused) (t : Ty) {body : WalkM α} (hbody : D.Walks w₀ P body) :
    D.Walks w₀ P (Walk.inside refused t body) := by
  refine .get_bind fun g => .bind (.set _) fun w₁ _ hle₁ _ _ => ?_
  refine .ite (fun _ => ?_) fun _ => .pure fun w hle => hP _ _ _ (le_trans hle₁ hle) hrefused
  refine .bind (hbody.later hle₁) fun w₂ answer _ _ hanswer => .get_bind fun g => ?_
  refine .bind (P := fun _ _ => True) (.lift ?_ fun _ _ _ _ _ => trivial) fun w₃ g hle₃ _ _ => ?_
  · cases g.leave t with
    | ok g => exact .pure fun _ _ => trivial
    | error f => exact .throw
  · exact .bind (.set g) fun w₄ _ hle₄ _ _ => .pure fun w hle => hP _ _ _ (le_trans hle₃ (le_trans hle₄ hle)) hanswer

theorem walks_run (hrefused : ∀ w, D.Holds w → P w refused) {step : (Ty → WalkM α) → Ty → WalkM α}
    (hstep : ∀ next w₁, D.Holds w₁ → (∀ w t, w₁ ≤ w → D.inside w (.ty t) → D.Walks w P (next t)) →
      ∀ t, D.inside w₁ (.ty t) → D.Walks w₁ P (step next t))
    (ht : D.inside w₀ (.ty t)) : D.Makes w₀ P (Walk.run refused step t) := by
  have hdescend : ∀ (n : Nat) (w₁ : World) (t : Ty), D.inside w₁ (.ty t) →
      D.Walks w₁ P (Walk.descend refused step n t) := by
    intro n
    induction n with
    | zero => exact fun _ _ _ _ => Makes.throw
    | succ n ih =>
      intro w₁ t ht g w r w' hle hw hrun
      have hbody := hstep _ w hw (fun w' t _ => ih w' t) t (D.grow hle ht)
      exact walks_inside hP (hrefused w hw) t hbody g w r w' le_rfl hw hrun
  refine .bind (hdescend _ w₀ t ht { bounds := .walk }) fun w₁ r _ _ hr => ?_
  exact .bind (P := fun _ _ => True) (.pure fun _ _ => trivial) fun w₂ _ hle₂ _ _ =>
    .pure fun w hle => hP _ _ _ (le_trans hle₂ hle) hr

end Walks

section Steps

variable {next : Ty → WalkM Ty} (h : ∀ w t, w₀ ≤ w → D.inside w (.ty t) → D.WalksTy w (next t))

include h

theorem walks_firstPresent (hw₀ : D.Holds w₀) {l : List Ty} (hl : ∀ t ∈ l, D.inside w₀ (.ty t)) :
    D.WalksTy w₀ (Walk.firstPresent next l) := by
  induction l generalizing w₀ with
  | nil => exact .pure_ty (D.noType hw₀)
  | cons t l ih =>
    refine .bind (h w₀ t le_rfl (hl t (by simp))) fun w₁ a hle₁ hw₁ ha => .ite (fun _ => .pure_ty ha) fun _ => ?_
    exact ih (fun w t hle => h w t (le_trans hle₁ hle)) hw₁ fun t ht => D.grow hle₁ (hl t (by simp [ht]))

theorem walks_ofClass (name : String) {cls : Symbol} (hcls : D.inside w₀ (.sym cls)) :
    D.WalksTy w₀ (Member.ofClass name next cls) := by
  refine .world_bind fun w hle hw => ?_
  have hcls := D.grow hle hcls
  split
  · next s hs =>
    exact .bind (.lift_ty (makes_ref hw (hw.member hcls hs))) fun _ r _ _ hr => .lift_ty (makes_infoOf hr)
  · split
    · next s hs => exact .pure_ty (hw.info (hw.member hcls hs))
    · exact walks_firstPresent (fun w' t hle' => h w' t (le_trans hle hle')) hw (hw.parents hcls)

theorem walks_memberStep (name : String) {t : Ty} (ht : D.inside w₀ (.ty t)) :
    D.WalksTy w₀ (Member.step name next t) := by
  refine .world_bind fun w hle hw => ?_
  have ht := D.grow hle ht
  have h : ∀ w' t, w ≤ w' → D.inside w' (.ty t) → D.WalksTy w' (next t) := fun w' t hle' => h w' t (le_trans hle hle')
  split
  · next hd =>
    exact .ite (fun _ => walks_ofClass h name (hw.parts ht hd _ (by simp [Shape.parts]))) fun _ =>
      .bind (.lift_ty (makes_upperBound ht)) fun w₁ u hle₁ _ hu => h w₁ u hle₁ hu
  · next hd => exact walks_ofClass h name (hw.parts ht hd _ (by simp [Shape.parts]))
  · next hd =>
    exact .ite (fun _ => .pure_ty (hw.parts ht hd _ (by simp [Shape.parts]))) fun _ =>
      h w _ le_rfl (hw.parts ht hd _ (by simp [Shape.parts]))
  · next hd =>
    refine .bind (h w _ le_rfl (hw.parts ht hd _ (by simp [Shape.parts]))) fun w₁ info hle₁ _ hinfo => ?_
    exact .ite (fun _ => .pure_ty hinfo) fun _ =>
      h w₁ _ hle₁ (D.grow hle₁ (hw.parts ht hd _ (by simp [Shape.parts])))
  · next hd =>
    refine .bind (h w _ le_rfl (hw.parts ht hd _ (by simp [Shape.parts]))) fun w₁ _ hle₁ _ hl => ?_
    refine .bind (h w₁ _ hle₁ (D.grow hle₁ (hw.parts ht hd _ (by simp [Shape.parts])))) fun w₂ _ hle₂ hw₂ hr => ?_
    exact .ite (fun _ => .lift_ty (makes_ofUnion (D.grow hle₂ hl) hr)) fun _ => .pure_ty (D.noType hw₂)
  · next hd => exact h w _ le_rfl (hw.paramUpper (hw.parts ht hd _ (by simp [Shape.parts])))
  · exact .ite (fun _ => .bind (.lift_ty (makes_underlying ht)) fun w₁ u hle₁ _ hu => h w₁ u hle₁ hu) fun _ =>
      .pure_ty (D.noType hw)

theorem walks_baseTypeStep (cls : Symbol) {t : Ty} (ht : D.inside w₀ (.ty t)) :
    D.WalksTy w₀ (BaseType.step cls next t) := by
  refine .world_bind fun w hle hw => ?_
  have ht := D.grow hle ht
  have h : ∀ w' t, w ≤ w' → D.inside w' (.ty t) → D.WalksTy w' (next t) := fun w' t hle' => h w' t (le_trans hle hle')
  split
  · next hd =>
    refine .ite (fun _ => .pure_ty ht) fun _ => .ite (fun _ => ?_) fun _ =>
      .bind (.lift_ty (makes_upperBound ht)) fun w₁ u hle₁ _ hu => h w₁ u hle₁ hu
    exact walks_firstPresent h hw (hw.parents (hw.parts ht hd _ (by simp [Shape.parts])))
  · next pre c hd =>
    obtain ⟨hpre, hc⟩ : D.inside w (.ty pre) ∧ D.inside w (.sym c) := by simpa [Shape.parts] using hw.parts ht hd
    exact .bind (.lift_ty (makes_named hpre hc)) fun w₁ u hle₁ _ hu => h w₁ u hle₁ hu
  · next parent name info hd =>
    obtain ⟨hparent, hinfo⟩ : D.inside w (.ty parent) ∧ D.inside w (.ty info) := by
      simpa [Shape.parts] using hw.parts ht hd
    refine .bind (h w _ le_rfl hparent) fun w₁ base hle₁ _ hbase => .ite (fun _ => ?_) fun _ => .pure_ty hbase
    exact .lift_ty (makes_intern (fun _ _ => trivial) (by simpa [Shape.parts] using ⟨hbase, D.grow hle₁ hinfo⟩))
  · next hd =>
    refine .bind (h w _ le_rfl (hw.parts ht hd _ (by simp [Shape.parts]))) fun w₁ _ hle₁ _ hl => ?_
    refine .bind (h w₁ _ hle₁ (D.grow hle₁ (hw.parts ht hd _ (by simp [Shape.parts])))) fun w₂ _ hle₂ _ hr => ?_
    exact .ite (fun _ => .lift_ty (makes_inter (D.grow hle₂ hl) hr)) fun _ =>
      .ite (fun _ => .pure_ty (D.grow hle₂ hl)) fun _ => .pure_ty hr
  · next hd =>
    refine .bind (h w _ le_rfl (hw.parts ht hd _ (by simp [Shape.parts]))) fun w₁ _ hle₁ _ hl => ?_
    refine .bind (h w₁ _ hle₁ (D.grow hle₁ (hw.parts ht hd _ (by simp [Shape.parts])))) fun w₂ _ hle₂ hw₂ hr => ?_
    exact .ite (fun _ => .lift_ty (makes_union (D.grow hle₂ hl) hr)) fun _ => .pure_ty (D.noType hw₂)
  · next hd => exact h w _ le_rfl (hw.paramUpper (hw.parts ht hd _ (by simp [Shape.parts])))
  · exact .ite (fun _ => .bind (.lift_ty (makes_underlying ht)) fun w₁ u hle₁ _ hu => h w₁ u hle₁ hu) fun _ =>
      .pure_ty (D.noType hw)

end Steps

theorem makes_member (ht : D.inside w₀ (.ty t)) (name : String) : D.MakesTy w₀ (t.member name) :=
  walks_run (P := fun w t => D.inside w (.ty t)) (fun _ _ _ => D.grow) (fun _ => D.noType)
    (fun _ _ _ h _ ht => walks_memberStep h name ht) ht

theorem makes_baseType (ht : D.inside w₀ (.ty t)) (cls : Symbol) : D.MakesTy w₀ (t.baseType cls) :=
  walks_run (P := fun w t => D.inside w (.ty t)) (fun _ _ _ => D.grow) (fun _ => D.noType)
    (fun _ _ _ h _ ht => walks_baseTypeStep h cls ht) ht

theorem makes_derivesFrom {cls : Symbol} (hcls : D.inside w₀ (.sym cls)) (base : Symbol) :
    D.Runs w₀ (cls.derivesFrom base) := by
  refine .get_bind fun _ hle hw => .ite (fun _ => .done _) fun _ => .ite (fun _ => .done _) fun _ => ?_
  exact .bind (makes_ref hw (D.grow hle hcls)) fun _ r _ _ hr => .bind (makes_baseType hr base) fun _ _ _ _ _ => .done _

theorem makes_isReferenceClass (hs : D.inside w₀ (.sym s)) : D.Runs w₀ s.isReferenceClass := by
  refine .get_bind fun _ hle _ => .ite (fun _ => .done _) fun _ => ?_
  refine .bind (makes_derivesFrom (D.grow hle hs) _) fun _ _ hle₁ _ _ => .ite (fun _ => .done _) fun _ => ?_
  exact makes_derivesFrom (D.grow (le_trans hle hle₁) hs) _

theorem makes_nullConforms (ht : D.inside w₀ (.ty t)) : D.Runs w₀ (CompareM.nullConforms t) := by
  refine .get_bind fun w hle hw => ?_
  split
  · next s hs => exact makes_isReferenceClass (hw.typeSymbol (hw.dealiasFrom _ _ (D.grow hle ht)) hs)
  · exact .done _

theorem makes_isNotNull (ht : D.inside w₀ (.ty t)) : D.Runs w₀ t.isNotNull := by
  refine walks_run (fun _ _ _ _ _ => trivial) (fun _ _ => trivial) (fun next w₁ _ h t ht => ?_) ht
  refine .world_bind fun w hle hw => ?_
  have ht := D.grow hle ht
  split
  · exact .done _
  · exact .done _
  · next pre s hd =>
    have hs : D.inside w (.sym s) := hw.parts ht hd _ (by simp [Shape.parts])
    refine .ite (fun _ => .lift (.ite (fun _ => .done _) fun _ => ?_) fun _ _ _ _ _ => trivial) fun _ => ?_
    · exact Makes.orElse (makes_derivesFrom hs _) (makes_derivesFrom hs _)
    · exact .bind (.lift_ty (makes_upperBound ht)) fun w₂ u hle₂ _ hu => h w₂ u (le_trans hle hle₂) hu
  · next hd => exact h w _ hle (hw.parts ht hd _ (by simp [Shape.parts]))
  · next hd =>
    exact .orElse (h w _ hle (hw.parts ht hd _ (by simp [Shape.parts])))
      (h w _ hle (hw.parts ht hd _ (by simp [Shape.parts])))
  · next hd =>
    exact .andThen (h w _ hle (hw.parts ht hd _ (by simp [Shape.parts])))
      (h w _ hle (hw.parts ht hd _ (by simp [Shape.parts])))
  · exact .ite (fun _ => .bind (.lift_ty (makes_underlying ht)) fun w₂ u hle₂ _ hu => h w₂ u (le_trans hle hle₂) hu)
      fun _ => .done _

theorem makes_erasedName (ht : D.inside w₀ (.ty t)) : D.Runs w₀ t.erasedName := by
  refine walks_run (fun _ _ _ _ _ => trivial) (fun _ _ => trivial) (fun next w₁ _ h t ht => ?_) ht
  refine .world_bind fun w hle hw => ?_
  have ht := D.grow hle ht
  split
  · refine .ite (fun _ => .done _) fun _ => .ite (fun _ => .done _) fun _ => ?_
    exact .bind (.lift_ty (makes_upperBound ht)) fun w₂ u hle₂ _ hu => h w₂ u (le_trans hle hle₂) hu
  · exact .done _
  · next hd => exact h w _ hle (hw.parts ht hd _ (by simp [Shape.parts]))
  · next hd => exact h w _ hle (hw.parts ht hd _ (by simp [Shape.parts]))
  · exact .done _
  · next hd => exact h w _ hle (hw.parts ht hd _ (by simp [Shape.parts]))
  · next hd => exact h w _ hle (hw.paramUpper (hw.parts ht hd _ (by simp [Shape.parts])))
  · next hd =>
    split
    · next hb => exact h w _ hle (hw.binder_parts (hw.parts ht hd _ (by simp [Shape.parts])) hb).2
    · exact .done _
  · next hd =>
    split
    · next hb => exact h w _ hle (hw.binder_parts (hw.parts ht hd _ (by simp [Shape.parts])) hb).2
    · exact .done _
  · exact .ite (fun _ => .bind (.lift_ty (makes_underlying ht)) fun w₂ u hle₂ _ hu => h w₂ u (le_trans hle hle₂) hu)
      fun _ => .done _

theorem makes_signature :
    ∀ (n : Nat) {w₀ : World} {t : Ty}, D.inside w₀ (.ty t) → D.Runs w₀ (t.signature n)
  | 0, _, _, _ => .throw
  | n + 1, w₀, t, ht => by
    refine .get_bind fun w hle hw => ?_
    have ht := D.grow hle ht
    split
    · next hd =>
      split
      · next hb =>
        obtain ⟨hinfos, hresult⟩ := hw.binder_parts (hw.parts ht hd _ (by simp [Shape.parts])) hb
        refine .bind (.mapM (fun t ht => makes_erasedName (hinfos t ht)) fun _ _ => trivial) fun _ _ hle₁ _ _ => ?_
        exact .bind (makes_erasedName (D.grow hle₁ hresult)) fun _ _ _ _ _ => .done _
      · exact .done _
    · next hd =>
      split
      · next hb =>
        exact makes_signature n (hw.binder_parts (hw.parts ht hd _ (by simp [Shape.parts])) hb).2
      · exact .done _
    · exact .bind (makes_erasedName ht) fun _ _ _ _ _ => .done _

/-! ### Type arguments -/

theorem forall_of_mapM {α β : Type} {Q : β → Prop} {f : α → Except Halt β} :
    ∀ {l : List α} {bs : List β}, (∀ a ∈ l, ∀ b, f a = .ok b → Q b) → l.mapM f = .ok bs → ∀ b ∈ bs, Q b
  | [], bs, _, h => by
    rw [List.mapM_nil] at h
    cases h
    exact fun b hb => nomatch hb
  | a :: l, bs, hf, h => by
    rw [List.mapM_cons] at h
    cases ha : f a with
    | error e => rw [ha] at h; cases h
    | ok b =>
      cases hl : l.mapM f with
      | error e => rw [ha, hl] at h; cases h
      | ok bs' =>
        rw [ha, hl] at h
        cases h
        have htail : ∀ b ∈ bs', Q b := forall_of_mapM (fun a ha => hf a (by simp [ha])) hl
        simpa using ⟨hf a (by simp) b ha, htail⟩

theorem makes_typeArgs (n : Nat) (ht : D.inside w₀ (.ty t)) :
    D.Makes w₀ (fun w args => ∀ a ∈ args, D.inside w (.ty a)) (WorldM.reading (·.typeArgs n t)) := by
  refine .reading fun w args hle hw hargs => ?_
  have ht := D.grow hle ht
  unfold World.typeArgs at hargs
  split at hargs
  · cases hargs
    exact fun a ha => nomatch ha
  · next s hs =>
    refine forall_of_mapM (fun p hp arg harg => ?_) hargs
    cases hr : w.refinement? (w.decls.name p) n t with
    | error e => rw [hr] at harg; cases harg
    | ok info =>
      rw [hr] at harg
      cases harg
      cases info with
      | some info => exact hw.refinement _ n ht info hr
      | none => exact hw.info (hw.typeParams (hw.typeSymbol ht hs) p hp)

/-! ### Rebuilding -/

section Rebuilding

variable {f : Ty → WorldM Ty} {rename : BinderId → BinderId → Ty → WorldM Ty}
  (hf : ∀ {w a}, w₀ ≤ w → D.inside w (.ty a) → D.MakesTy w (f a))

include hf

theorem makes_rebuild₁ {make : Ty → WorldM Ty} {old : Ty}
    (hmake : ∀ {w a}, w₀ ≤ w → D.inside w (.ty a) → D.MakesTy w (make a)) (ht : D.inside w₀ (.ty t))
    (hold : D.inside w₀ (.ty old)) : D.MakesTy w₀ (Ty.rebuild₁ f t old make) :=
  .bind (hf le_rfl hold) fun _ _ hle _ hnew => .ite (fun _ => .pure_ty (D.grow hle ht)) fun _ => hmake hle hnew

theorem makes_rebuild₂ {make : Ty → Ty → WorldM Ty}
    (hmake : ∀ {w a b}, D.inside w (.ty a) → D.inside w (.ty b) → D.MakesTy w (make a b)) {old₁ old₂ : Ty}
    (ht : D.inside w₀ (.ty t)) (h₁ : D.inside w₀ (.ty old₁)) (h₂ : D.inside w₀ (.ty old₂)) :
    D.MakesTy w₀ (Ty.rebuild₂ f t old₁ old₂ make) :=
  .bind (hf le_rfl h₁) fun _ _ hle₁ _ hnew₁ => .bind (hf hle₁ (D.grow hle₁ h₂)) fun _ _ hle₂ _ hnew₂ =>
    .ite (fun _ => .pure_ty (D.grow (le_trans hle₁ hle₂) ht)) fun _ => hmake (D.grow hle₂ hnew₁) hnew₂

/-- All shapes but those of binders are rebuilt within the domain. -/
theorem makes_mapChildren (ht : D.inside w₀ (.ty t))
    (hbinder : ∀ {w b}, w₀ ≤ w → D.Holds w → D.inside w (.binder b) → D.MakesTy w (Ty.rebuildBinder f rename t b)) :
    D.MakesTy w₀ (Ty.mapChildren f rename t) := by
  refine .get_bind fun w hle hw => ?_
  have ht := D.grow hle ht
  have hf {v a} (hv : w ≤ v) : D.inside v (.ty a) → D.MakesTy v (f a) := hf (le_trans hle hv)
  cases hd : w.shape t with
  | named pre s | path pre s | classInfo pre s =>
    obtain ⟨hpre, hs⟩ : D.inside w (.ty pre) ∧ D.inside w (.sym s) := by simpa [Shape.parts] using hw.parts ht hd
    refine makes_rebuild₁ hf (fun hv ha => makes_intern (fun _ _ => trivial) ?_) ht hpre
    simpa [Shape.parts] using ⟨ha, D.grow hv hs⟩
  | refined parent name info =>
    obtain ⟨hparent, hinfo⟩ : D.inside w (.ty parent) ∧ D.inside w (.ty info) := by
      simpa [Shape.parts] using hw.parts ht hd
    refine makes_rebuild₂ hf (fun ha hb => makes_intern (fun _ _ => by trivial) ?_) ht hparent hinfo
    simpa [Shape.parts] using ⟨ha, hb⟩
  | inter a b =>
    obtain ⟨ha, hb⟩ : D.inside w (.ty a) ∧ D.inside w (.ty b) := by simpa [Shape.parts] using hw.parts ht hd
    exact makes_rebuild₂ hf makes_inter ht ha hb
  | union a b =>
    obtain ⟨ha, hb⟩ : D.inside w (.ty a) ∧ D.inside w (.ty b) := by simpa [Shape.parts] using hw.parts ht hd
    exact makes_rebuild₂ hf makes_union ht ha hb
  | byName result =>
    have hresult : D.inside w (.ty result) := by simpa [Shape.parts] using hw.parts ht hd
    refine makes_rebuild₁ hf (fun _ ha => makes_intern (fun _ _ => trivial) ?_) ht hresult
    simpa [Shape.parts] using ha
  | bounds lo hi =>
    obtain ⟨hlo, hhi⟩ : D.inside w (.ty lo) ∧ D.inside w (.ty hi) := by simpa [Shape.parts] using hw.parts ht hd
    exact makes_rebuild₂ hf makes_bounds ht hlo hhi
  | method b | universal b => exact hbinder hle hw (by simpa [Shape.parts] using hw.parts ht hd)
  | _ => exact .pure_ty ht

end Rebuilding

end Domain

end Conformance
