import Mathlib.Logic.Relation
import Conformance.Proofs.ClassInference
import Conformance.Proofs.Twins

/-!
# Comparisons that do not touch inference

Two types from which no binder under inference can be reached are compared without the constraints being read or
written: from any two stores of that kind the run is the same, and each store is left as it was
(`isSubType_unaffected`). Reaching goes from a type to its parts, through binders, names and variables, and from a
literal to the class of its values; leaving out the last of these would make the statement false
(`isSubType_affected_by_literal`).
-/

namespace Conformance

namespace World

/-- One node refers to another; with `outward`, a parameter also refers to its binder, and so to its siblings. -/
def Links (w : World) (outward : Bool) (m n : Node) : Prop :=
  w.Step m n ∨ outward ∧ ∃ p : Param, m = .param p ∧ n = .binder p.binder

/-- One node leads to another by any number of references. -/
def Reaches (w : World) (outward : Bool) : Node → Node → Prop := Relation.ReflTransGen (w.Links outward)

variable {w : World} {outward : Bool} {m n : Node} {t : Ty} {d : Shape} {b : BinderId} {i : Nat}

theorem links_ty (ht : w.shape? t = some d) : w.Links outward (.ty t) n ↔ n ∈ d.parts := by
  refine ⟨fun h => ?_, fun h => .inl (.part ht h)⟩
  rcases h with h | ⟨-, p, h, -⟩
  · cases h with
    | part ht' hn => exact Option.some.inj (ht.symm.trans ht') ▸ hn
  · cases h

theorem not_links_ty (ht : w.shape? t = none) : ¬ w.Links outward (.ty t) n := by
  rintro (h | ⟨-, p, h, -⟩)
  · cases h with
    | part ht' => rw [ht] at ht'; cases ht'
  · cases h

/-- A binder that was not given out leads to itself and its parameters only. -/
theorem reaches_new (hb : w.binder? b = none) (hm : m = .binder b ∨ ∃ i, m = .param ⟨b, i⟩)
    (h : w.Reaches outward m n) : n = .binder b ∨ ∃ i, n = .param ⟨b, i⟩ := by
  induction h with
  | refl => exact hm
  | tail _ hlink ih =>
    rcases hlink with hstep | ⟨-, p, rfl, rfl⟩
    · rcases ih with rfl | ⟨i, rfl⟩
      · cases hstep with
        | info hd => rw [hb] at hd; cases hd
        | result hd => rw [hb] at hd; cases hd
        | bound b i => exact .inr ⟨i, rfl⟩
      · cases hstep with
        | declared hd => rw [hb] at hd; cases hd
    · rcases ih with ih | ⟨i, hi⟩
      · cases ih
      · cases hi
        exact .inl rfl

end World

/-- The binder that a node belongs to. -/
def Node.binder? : Node → Option BinderId
  | .binder b => some b
  | .param p => some p.binder
  | _ => none

namespace World

variable {w : World} {m n : Node}

/-- What a type, a symbol or a variable refers to, as a list. -/
def referred (w : World) : Node → List Node
  | .ty t => (w.shape t).parts
  | .sym s => ((w.decls.get? s).map Declaration.parts).getD []
  | .var v => (w.vars[v.id]?.map fun c => .ty c.origin :: c.inst.toList.map .ty).getD []
  | _ => []

theorem mem_referred {outward : Bool} (hm : m.binder? = none) (h : w.Links outward m n) : n ∈ w.referred m := by
  rcases h with h | ⟨-, p, rfl, -⟩
  · cases h with
    | part ht hn => simpa only [referred, shape_of_shape? ht] using hn
    | info | result | bound | declared => cases hm
    | declaration hs hn => simpa [referred, hs] using hn
    | origin hv => simp [referred, hv]
    | settled hv ht => simp [referred, hv, ht]
  · cases hm

/-- The references other than those from a literal to the class of its values. -/
def LinksButLiterals (w : World) (m n : Node) : Prop :=
  w.Links true m n ∧ ∀ t v, m = .ty t → w.shape? t ≠ some (.literal v)

/-- What is closed under references is not left by following them. -/
theorem mem_of_reflTransGen {outward : Bool} {r : Node → Node → Prop} (hr : ∀ m n, r m n → w.Links outward m n)
    {l : List Node} (hl : ∀ m ∈ l, m.binder? = none)
    (hclosed : ∀ m ∈ l, (∀ n, ¬ r m n) ∨ ∀ n ∈ w.referred m, n ∈ l) (h : Relation.ReflTransGen r m n) (hm : m ∈ l) :
    n ∈ l := by
  induction h with
  | refl => exact hm
  | @tail k n _ hlink ih =>
    rcases hclosed k ih with hend | hnext
    · exact absurd hlink (hend n)
    · exact hnext n (mem_referred (hl k ih) (hr k n hlink))

end World

/-- The nodes that do not lead to any of the `avoided` ones, which are binders and parameters of the world. -/
def Region.avoiding (w : World) (outward : Bool) (avoided : Node → Prop)
    (havoided : ∀ n, avoided n → ∃ b, n.binder? = some b ∧ (w.binder? b).isSome) (hw : w.Standard)
    (hpre : w.shape? .noPrefix = some (.fixed .noPrefix)) : Region :=
  have hty : ∀ t, ¬ avoided (.ty t) := by
    intro t ht
    obtain ⟨b, hb, -⟩ := havoided _ ht
    cases hb
  have hends : ∀ {t}, (∀ n, ¬ w.Links outward (.ty t) n) → ∀ m, w.Reaches outward (.ty t) m → ¬ avoided m := by
    intro t hends m hm
    rcases hm.cases_head with rfl | ⟨n, hn, -⟩
    · exact hty t
    · exact absurd hn (hends n)
  have hnew : ∀ {b n}, w.binder? b = none → (n = .binder b ∨ ∃ i, n = .param ⟨b, i⟩) →
      ∀ m, w.Reaches outward n m → ¬ avoided m := by
    intro b n hb hn m hm ha
    obtain ⟨b', hb', hsome⟩ := havoided m ha
    obtain rfl : b = b' := by
      rcases World.reaches_new hb hn hm with rfl | ⟨i, rfl⟩
      · exact Option.some.inj hb'
      · exact Option.some.inj hb'
    rw [hb] at hsome
    cases hsome
  { base := w
    inside := fun n => ∀ m, w.Reaches outward n m → ¬ avoided m
    step := fun h hn m hm => hn m (.head (.inl h) hm)
    shape := by
      intro t d ht hparts m hm
      rcases hm.cases_head with rfl | ⟨n, hn, hm⟩
      · exact hty t
      · exact hparts n ((World.links_ty ht).1 hn) m hm
    newTy := fun ht => hends fun n => World.not_links_ty ht
    newBinder := fun hb => ⟨hnew hb (.inl rfl), fun i => hnew hb (.inr ⟨i, rfl⟩)⟩
    noType := hends fun n hn => nomatch (World.links_ty hw.absent).1 hn
    noPrefix := hends fun n hn => nomatch (World.links_ty hpre).1 hn }

namespace CompareM

variable {w : World} {S₁ S₂ : ConstraintStore}

/-- Two runs from `S₁` and `S₂` end alike: with the same error, or with the same answer in the same world, each with the
constraints that it started from. -/
inductive SameEnd (S₁ S₂ : ConstraintStore) :
    Except Halt ((Bool × Comparer) × World) → Except Halt ((Bool × Comparer) × World) → Prop
  | halt (e : Halt) : SameEnd S₁ S₂ (.error e) (.error e)
  | answer (answer : Bool) (c : Comparer) (w : World) :
    SameEnd S₁ S₂ (.ok ((answer, { c with constraint := S₁ }), w)) (.ok ((answer, { c with constraint := S₂ }), w))

/-- The store tracks binders of the world only, and none that `t` reaches. -/
def Untouched (w : World) (S : ConstraintStore) (t : Ty) : Prop :=
  ∀ b, S.tracks b → (w.binder? b).isSome ∧ ¬ w.Reaches true (.ty t) (.binder b)

/-- **Comparisons out of reach of inference.** Two types from which no binder can be reached that `S₁` or `S₂` tracks are
compared the same way from both stores, and both are left as they were. -/
theorem isSubType_unaffected (fuel : Nat) (t₁ t₂ : Ty) (c : Comparer) (hw : w.Standard)
    (hpre : w.shape? .noPrefix = some (.fixed .noPrefix))
    (h : ∀ S ∈ [S₁, S₂], Untouched w S t₁ ∧ Untouched w S t₂) :
    SameEnd S₁ S₂ (isSubType fuel t₁ t₂ { c with constraint := S₁ } w)
      (isSubType fuel t₁ t₂ { c with constraint := S₂ } w) := by
  let avoided : Node → Prop := fun n => ∃ b, n = .binder b ∧ ∃ S ∈ [S₁, S₂], S.tracks b
  have havoided : ∀ n, avoided n → ∃ b, n.binder? = some b ∧ (w.binder? b).isSome := by
    rintro _ ⟨b, rfl, S, hS, hb⟩
    exact ⟨b, rfl, ((h S hS).1 b hb).1⟩
  let R : Region := .avoiding w true avoided havoided hw hpre
  have hinside : ∀ t, (∀ S ∈ [S₁, S₂], Untouched w S t) → R.inside (.ty t) := by
    rintro t ht _ hreach ⟨b, rfl, S, hS, hb⟩
    exact (ht S hS b hb).2 hreach
  have hclosed : ∀ {p : Param}, R.inside (.param p) → ∀ S ∈ [S₁, S₂], S.slots? p.binder = none := by
    intro p hp S hS
    have hb : ¬ S.tracks p.binder := fun hb =>
      hp (.binder p.binder) (.single (.inr ⟨rfl, p, rfl, rfl⟩)) ⟨p.binder, rfl, S, hS, hb⟩
    have hnone : ¬ (S.slots? p.binder).isSome := hb
    simpa using hnone
  have hclosed₁ : ∀ {p : Param}, R.inside (.param p) → S₁.slots? p.binder = none := fun hp => hclosed hp S₁ (by simp)
  have hclosed₂ : ∀ {p : Param}, R.inside (.param p) → S₂.slots? p.binder = none := fun hp => hclosed hp S₂ (by simp)
  have hJ : Supports R fun _ T₁ T₂ => T₁ = S₁ ∧ T₂ = S₂ := by
    refine ⟨fun hT _ _ => hT, fun hT hp => ?_, fun hT hp hopen => ?_, fun hT hp hslots => ?_⟩
    · rw [hT.1, hT.2, hclosed₁ hp, hclosed₂ hp]
    · rw [hT.1, ConstraintStore.bounds?, hclosed₁ hp] at hopen
      cases hopen
    · rw [hT.1, hclosed₁ hp] at hslots
      cases hslots
  have hstep := inStep_isSubType hJ fuel t₁ t₂ (hinside t₁ fun S hS => (h S hS).1)
    (hinside t₂ fun S hS => (h S hS).2) { c with constraint := S₁ } { c with constraint := S₂ } w
    R.holds_base ⟨rfl, rfl, rfl⟩
  generalize isSubType fuel t₁ t₂ { c with constraint := S₁ } w = r₁,
    isSubType fuel t₁ t₂ { c with constraint := S₂ } w = r₂ at hstep ⊢
  obtain e | ⟨⟨a₁, c₁⟩, w₁⟩ := r₁ <;> obtain e' | ⟨⟨a₂, c₂⟩, w₂⟩ := r₂
  · obtain rfl : e = e' := hstep
    exact .halt e
  · cases hstep
  · cases hstep
  · obtain ⟨rfl, rfl, -, -, -, hrest, hS₁, hS₂⟩ := hstep
    rw [hrest, hS₂, show c₁ = { c₁ with constraint := S₁ } by rw [← hS₁]]
    exact .answer a₁ c₁ w₁

/-! ### Members of the class of a literal -/

/-- In the world of `[X] X`, the class `Int` has an abstract type `T <: X`; `5` is there, and `Any` with `T <: String`. -/
def literalWorld : World :=
  let w := SoleParam.leastWorld
  let w := { w with types := (w.types.intern (.bounds Builtin.nothing.type SoleParam.least.x)).2 }
  let w := { w with decls := (w.decls.register
    { kind := .abstractType, name := "T", owner := Builtin.int.symbol, info := ⟨17⟩ }).2 }
  let w := { w with types := (w.types.intern (.literal (.int 5))).2 }
  let w := { w with types := (w.types.intern (.bounds Builtin.nothing.type Builtin.string.type)).2 }
  { w with types := (w.types.intern (.refined Builtin.any.type "T" ⟨19⟩)).2 }

theorem literalWorld_built : literalWorld.Built := by
  have h₁ := World.Built.intern SoleParam.leastWorld_built.1 (.bounds Builtin.nothing.type SoleParam.least.x)
    (World.mentions_bounds (by decide) (by decide))
  have h₂ := World.Built.register h₁
    { kind := .abstractType, name := "T", owner := Builtin.int.symbol, info := ⟨17⟩ } (by decide)
    (fun t ht => nomatch ht)
  have h₃ := World.Built.intern h₂ (.literal (.int 5)) (.literal _)
  have h₄ := World.Built.intern h₃ (.bounds Builtin.nothing.type Builtin.string.type)
    (World.mentions_bounds (by decide) (by decide))
  exact .intern h₄ (.refined Builtin.any.type "T" ⟨19⟩) (World.mentions_refined (by decide) _ (by decide))

/-- What `5` and `Any` with `T <: String` lead to, but for the class of the literal. -/
def literalNodes : List Node :=
  [.ty ⟨18⟩, .ty ⟨20⟩, .ty ⟨4⟩, .ty ⟨19⟩, .ty ⟨1⟩, .ty ⟨0⟩, .ty ⟨5⟩, .ty ⟨11⟩, .ty ⟨7⟩, .sym ⟨1⟩, .sym ⟨2⟩, .sym ⟨8⟩,
    .sym ⟨4⟩]

theorem binder?_literalNodes : ∀ m ∈ literalNodes, m.binder? = none := by decide

theorem literalNodes_closed : ∀ m ∈ literalNodes, m = .ty ⟨18⟩ ∨ ∀ n ∈ literalWorld.referred m, n ∈ literalNodes.tail := by
  decide

theorem binder?_of_tracks {b : BinderId} (hb : SoleParam.leastComparer.constraint.tracks b) :
    (literalWorld.binder? b).isSome := by
  obtain ⟨slots, hslots⟩ := Option.isSome_iff_exists.1 hb
  obtain ⟨rfl, -⟩ := SoleParam.slots_leastComparer hslots
  decide

/-- `String` against `Any` with `T <: String`, with `X` tracked and not. -/
theorem isSubType_unaffected_tracked :
    let untracked : ConstraintStore := ⟨{}, 0⟩
    let tracked := SoleParam.leastComparer.constraint
    literalWorld.Standard ∧ literalWorld.shape? .noPrefix = some (.fixed .noPrefix) ∧
      (∀ S ∈ [untracked, tracked], Untouched literalWorld S Builtin.string.type ∧ Untouched literalWorld S ⟨20⟩) ∧
      SameEnd untracked tracked
        (isSubType 9 Builtin.string.type ⟨20⟩ { SoleParam.leastComparer with constraint := untracked } literalWorld)
        (isSubType 9 Builtin.string.type ⟨20⟩ { SoleParam.leastComparer with constraint := tracked } literalWorld) := by
  intro untracked tracked
  have hw := literalWorld_built.standard
  have hpre := literalWorld_built.shape_noPrefix
  have hreach : ∀ t, .ty t ∈ literalNodes.tail → ∀ b, ¬ literalWorld.Reaches true (.ty t) (.binder b) := by
    intro t ht b h
    have hclosed : ∀ m ∈ literalNodes.tail, ∀ n ∈ literalWorld.referred m, n ∈ literalNodes.tail :=
      fun m hm => (literalNodes_closed m (List.mem_of_mem_tail hm)).resolve_left fun h => absurd (h ▸ hm) (by decide)
    have hmem := World.mem_of_reflTransGen (fun _ _ => id) (fun m hm => binder?_literalNodes m (List.mem_of_mem_tail hm))
      (fun m hm => .inr (hclosed m hm)) h ht
    cases binder?_literalNodes _ (List.mem_of_mem_tail hmem)
  have hall : ∀ S ∈ [untracked, tracked],
      Untouched literalWorld S Builtin.string.type ∧ Untouched literalWorld S ⟨20⟩ := by
    intro S hS
    have hb : ∀ b, S.tracks b → (literalWorld.binder? b).isSome := by
      intro b hb
      obtain rfl | rfl : S = untracked ∨ S = tracked := by simpa using hS
      · cases hb
      · exact binder?_of_tracks hb
    exact ⟨fun b h => ⟨hb b h, hreach _ (by decide) b⟩, fun b h => ⟨hb b h, hreach _ (by decide) b⟩⟩
  exact ⟨hw, hpre, hall, isSubType_unaffected 9 Builtin.string.type ⟨20⟩ SoleParam.leastComparer hw hpre hall⟩

/-- References from a literal to its class count: without them no binder is reached from `5` or from `Any` with
`T <: String`, but whether the one conforms to the other depends on whether `X`, the bound of `Int#T`, is tracked. -/
theorem isSubType_affected_by_literal :
    let untracked : Comparer := { SoleParam.leastComparer with constraint := ⟨{}, 0⟩ }
    literalWorld.Built ∧ (∀ b, SoleParam.leastComparer.constraint.tracks b → (literalWorld.binder? b).isSome) ∧
      (∀ t ∈ [(⟨18⟩ : Ty), ⟨20⟩], ∀ b,
        ¬ Relation.ReflTransGen literalWorld.LinksButLiterals (.ty t) (.binder b)) ∧
      ((isSubType 9 ⟨18⟩ ⟨20⟩ untracked literalWorld).toOption.map (·.1.1)) = some false ∧
      ((isSubType 9 ⟨18⟩ ⟨20⟩ SoleParam.leastComparer literalWorld).toOption.map (·.1.1)) = some true := by
  have hlit : literalWorld.shape? ⟨18⟩ = some (.literal (.int 5)) := by decide
  have hclosed : ∀ m ∈ literalNodes,
      (∀ n, ¬ literalWorld.LinksButLiterals m n) ∨ ∀ n ∈ literalWorld.referred m, n ∈ literalNodes := by
    intro m hm
    rcases literalNodes_closed m hm with rfl | hnext
    · exact .inl fun n hn => hn.2 ⟨18⟩ _ rfl hlit
    · exact .inr fun n hn => List.mem_of_mem_tail (hnext n hn)
  have hstart : ∀ t ∈ [(⟨18⟩ : Ty), ⟨20⟩], .ty t ∈ literalNodes := by decide
  refine ⟨literalWorld_built, fun b => binder?_of_tracks, fun t ht b h => ?_, by decide +kernel, by decide +kernel⟩
  have hmem := World.mem_of_reflTransGen (fun _ _ h => h.1) binder?_literalNodes hclosed h (hstart t ht)
  cases binder?_literalNodes _ hmem

end CompareM

end Conformance
