import Conformance.Proofs.Lattice

/-!
# Names selected from prefixes

Two names of one symbol are compared by their prefixes and by nothing else, not even by what the symbol stands for. So
a name that stands for bounds is met through its lower end (`conforms_of_lower`), and a target by the clause of its
source (`conforms_of_source`), by everything but a name of the same symbol whose prefix does not conform
(`World.Apart`).

Where types are erased not even the prefixes are looked at, and whatever conforms goes on to conform
(`isSubType_erased`).
-/

namespace Conformance

open CompareM

/-- Behind variables, and the operands of intersections on the right, there are selections of one symbol whose prefixes
do not conform. That makes no difference for static symbols, and none where types are erased. -/
inductive World.Apart (erased : Bool) (w : World) : Ty → Ty → Prop
  | names {t u q₁ q₂ : Ty} {s : Symbol} {k₁ k₂ : Bool} (left : nameParts? (w.shape t) = some (q₁, s, k₁))
    (right : nameParts? (w.shape u) = some (q₂, s, k₂)) (typed : erased = false) (free : w.decls.isStatic s = false)
    (prefixes : ¬ Conforms erased w q₁ q₂) : Apart erased w t u
  | source {t u : Ty} {i : VarId} (shape : w.shape? t = some (.var i)) (apart : Apart erased w (w.varUnderlying i) u) :
    Apart erased w t u
  | target {t u : Ty} {i : VarId} (shape : w.shape? u = some (.var i)) (apart : Apart erased w t (w.varUnderlying i)) :
    Apart erased w t u
  | left {t u a b : Ty} (shape : w.shape? u = some (.inter a b)) (apart : Apart erased w t a) : Apart erased w t u
  | right {t u a b : Ty} (shape : w.shape? u = some (.inter a b)) (apart : Apart erased w t b) : Apart erased w t u

theorem World.isNamed_of_ends {w : World} {u lo hi : Ty} (hends : w.ends? u = some (lo, hi)) : (w.shape u).isNamed := by
  rw [World.ends?] at hends
  generalize w.shape u = d at hends
  cases d <;> first | rfl | cases hends

theorem World.ends?_of_isClass {w : World} {u q : Ty} {s : Symbol} (hu : w.shape? u = some (.named q s))
    (hcls : w.decls.isClass s) : w.ends? u = none := by
  rw [World.ends?, World.shape_of_shape? hu]
  simp only [Declarations.isClass, decide_eq_true_eq] at hcls
  simp only [hcls]

theorem nameParts?_of_isNamed {d : Shape} (h : d.isNamed) : ∃ q s k, nameParts? d = some (q, s, k) := by
  cases d <;> first | exact ⟨_, _, _, rfl⟩ | cases h

theorem World.Standard.isStatic {w : World} (h : w.Standard) (b : Builtin) : w.decls.isStatic b.symbol := by
  have hb := h.declared b
  cases hd : w.decls.get? b.symbol with
  | none => rw [hd] at hb; cases hb
  | some d =>
    rw [hd] at hb
    simp only [Option.map_some, Option.some.injEq, Prod.mk.injEq] at hb
    simp [Declarations.isStatic, Declarations.flags, hd, hb.2.2]

/-- Static symbols are not selected from anything. -/
theorem World.not_apart_of_static {erased : Bool} {w : World} {t u q : Ty} {s : Symbol}
    (hu : w.shape? u = some (.named q s)) (hs : w.decls.isStatic s) : ¬ w.Apart erased t u := by
  intro h
  induction h with
  | names _ hright _ hfree =>
    rw [World.shape_of_shape? hu] at hright
    cases hright
    rw [hs] at hfree
    cases hfree
  | source _ _ ih => exact ih hu
  | target hshape | left hshape | right hshape => cases hu.symm.trans hshape

/-- Names in plain sight are apart only if they are of one symbol. -/
theorem World.Apart.symbol_eq {erased : Bool} {w : World} {t u q₁ q₂ : Ty} {s₁ s₂ : Symbol}
    (h : w.Apart erased t u) (ht : w.shape? t = some (.named q₁ s₁)) (hu : w.shape? u = some (.named q₂ s₂)) : s₁ = s₂ := by
  cases h with
  | names hleft hright =>
    rw [World.shape_of_shape? ht] at hleft
    rw [World.shape_of_shape? hu] at hright
    cases hleft
    cases hright
    rfl
  | source hshape => cases ht.symm.trans hshape
  | target hshape | left hshape | right hshape => cases hu.symm.trans hshape

namespace CompareM

theorem intercepts_of_isNamed {d : Shape} (hd : d.isNamed) : intercepts d = false := by
  cases d <;> first | rfl | cases hd

section Named

variable {erased : Bool} {ρ : Corr} {w v : World} {t u x y lo hi : Ty} (hM : ρ.Matches w w) (kt : ρ.ty t t)
  (ku : ρ.ty u u)
include hM kt ku

/-- A name is met by what would meet it if the names were of different symbols. -/
theorem holds_of_thirdNamed {n : Nat} (hu : (w.shape u).isNamed) (hnot : intercepts (w.shape t) = false)
    (hapart : ¬ w.Apart erased t u) (h : Affirmed erased w (thirdNamed n (asking (Conforms erased)) t u)) :
    Holds erased (Conforms erased) w t u := by
  by_cases ht : (w.shape t).isNamed
  · obtain ⟨q₁, s₁, k₁, h₁⟩ := nameParts?_of_isNamed ht
    obtain ⟨q₂, s₂, k₂, h₂⟩ := nameParts?_of_isNamed hu
    refine (holds_names carried_conforms hM kt ku ht hu).2 ⟨n, ?_⟩
    by_cases hs : s₁ = s₂
    · subst hs
      refine (tells_names_same carried_conforms hM kt ku h₁ h₂).affirmed_iff.2 ?_
      by_contra hnone
      simp only [not_or, Bool.not_eq_true] at hnone
      exact hapart (.names h₁ h₂ hnone.1 hnone.2.1 hnone.2.2)
    · exact (affirmed_names_other carried_conforms hM kt ku h₁ h₂ hs).2 (.inr (.inr h))
  · exact (holds_named carried_conforms hM kt ku hu (Bool.eq_false_iff.2 ht) hnot).2 ⟨n, h⟩

/-- **A name that stands for bounds is met through the lower end**, if not by a name of the same symbol. -/
theorem conforms_of_lower (hw : w.Standard) (hends : w.ends? u = some (lo, hi)) (ht : w.Unfolds t)
    (hapart : ¬ w.Apart erased t u) (h : Conforms erased w t lo) : Conforms erased w t u := by
  have hu := World.isNamed_of_ends hends
  have klo := (ends?_known hM ku hends).1
  obtain ⟨d, -, hd, -, -⟩ := hM.ty ku
  have hpu : u.present := hw.present hd (by rintro rfl; rw [World.shape_of_shape? hd] at hu; cases hu)
  refine conforms_of_meets hM hw (P := fun x => Conforms erased w x lo ∧ ¬ w.Apart erased x u) ht kt ku hpu
    (intercepts_of_isNamed hu) (fun x kx _ hnot hx => ?_) (fun x i kx hi hpi hx => ?_) ⟨h, hapart⟩
  · have hthird : Affirmed erased w (thirdNamed 0 (asking (Conforms erased)) x u) :=
      (tells_thirdNamed_ends carried_conforms hM kx ku hw hends).affirmed_iff.2 (.inl hx.1)
    exact holds_of_thirdNamed hM kx ku hu hnot hx.2 hthird
  · exact ⟨underlying_conforms hx.1 hM hw kx klo hi hpi, fun h => hx.2 (.source hi h)⟩

omit kt ku in
/-- **The clause of a source reaches every target** along its intersections and variables, if they do not end at names of
the source's symbol. `Q` is what the clause asks. -/
theorem conforms_of_source {Q : Ty → Prop} (hw : w.Standard) (hu : w.Unfolds u) (ku : ρ.ty u u) (hx : w.Unfolds x)
    (kx : ρ.ty x x) (hnot : intercepts (w.shape x) = false)
    (hinter : ∀ m a b, ρ.ty m m → w.shape? m = some (.inter a b) → w.Unfolds a → w.Unfolds b → Q m → Q a ∧ Q b)
    (hvar : ∀ m i, ρ.ty m m → w.shape? m = some (.var i) → w.Unfolds (w.varUnderlying i) → Q m → Q (w.varUnderlying i))
    (hbelow : ∀ u, ρ.ty u u → Q u → Below erased (Conforms erased) w x u) (hQ : Q u) (hapart : ¬ w.Apart erased x u) :
    Conforms erased w x u := by
  have hpx := hx.present hw
  induction hu with
  | @leaf u d hpu hshape hleaf hnone =>
    cases hhole : isHole (w.shape u) with
    | true => exact conforms_hole_right hM kx ku hpx hpu hhole
    | false =>
      refine conforms_of_holds hM kx ku hpx hpu ?_
      by_cases hnamed : (w.shape u).isNamed
      · obtain ⟨n, hn⟩ := affirmed_thirdNamed_of_below carried_conforms hM kx ku hw (fun _ => hx.isStable) (hbelow u ku hQ)
        exact holds_of_thirdNamed hM kx ku hnamed hnot hapart hn
      · refine holds_of_below carried_conforms hM kx ku hw (intercepts_leaf hshape hleaf hhole) ?_ ?_
          (fun _ => hx.isStable) (hbelow u ku hQ)
        · rintro a b hab
          exact hnone a b (Option.some.inj (hshape.symm.trans hab))
        · rw [Bool.eq_false_iff.2 hnamed]
          exact Bool.and_false _
  | @inter u a b hshape ha hb iha ihb =>
    cases hM.parts ku hshape with | inter ka kb =>
    obtain ⟨hQa, hQb⟩ := hinter u a b ku hshape ha hb hQ
    exact conforms_inter hM hw hshape hx kx ku (iha ka hQa fun h => hapart (.left hshape h))
      (ihb kb hQb fun h => hapart (.right hshape h))
  | @var u i hshape hi ih =>
    refine (conforms_var_right hM hw hshape hi kx ku hpx).2 ?_
    exact ih (hM.held ku hshape) (hvar u i ku hshape hi hQ) fun h => hapart (.target hshape h)

omit kt in
/-- A source whose clause leads to `y` conforms to what `y` conforms to, in the world in which `y` was made. -/
theorem conforms_of_offer {σ : Corr} (hw : w.Standard) (hu : w.Unfolds u) (hx : w.Unfolds x) (kx : ρ.ty x x)
    (hnot : intercepts (w.shape x) = false) (hv : w ≤ v) (hσ : ρ ≤ σ) (hMσ : σ.Matches v v) (ky : σ.ty y y)
    (hbelow : ∀ u, ρ.ty u u → Conforms erased v y u → Below erased (Conforms erased) w x u)
    (hapart : ¬ w.Apart erased x u) (h : Conforms erased v y u) : Conforms erased w x u := by
  have hpy := h.present.1
  refine conforms_of_source hM hw hu ku hx kx hnot (Q := Conforms erased v y) (fun m a b km hm ha hb hQ => ?_)
    (fun m i km hm hi hQ => ?_) hbelow h hapart
  · exact operands_conform hQ hMσ (hw.grow hv) ky (hσ.ty km) (hv.shape hm) (ha.grow hv) (hb.grow hv)
  · rw [← World.varUnderlying_later hv] at hi ⊢
    exact (conforms_var_right hMσ (hw.grow hv) (hv.shape hm) (hi.grow hv) ky (hσ.ty km) hpy).1 hQ

end Named

end CompareM

/-- Names of symbols that are declared are enough to tell that a name stands alone. -/
theorem Declarations.alone_of_declared {ds : Declarations} {A : Symbol} (hne : ds.name A ≠ "")
    (h : ∀ n < ds.size, ds.name ⟨n + 1⟩ = ds.name A → n + 1 = A.id) (s : Symbol) (hs : ds.name s = ds.name A) : s = A := by
  have hunnamed (hs' : ds.get? s = none) : s = A := by
    rw [Declarations.name, hs'] at hs
    exact absurd hs.symm hne
  obtain ⟨_ | n⟩ := s
  · exact hunnamed rfl
  by_cases hn : n < ds.size
  · exact Symbol.id_inj.1 (h n hn hs)
  · exact hunnamed (Array.getElem?_eq_none (Nat.le_of_not_lt hn))

/-- A class `K` with the aliases `A` and `B` of `Int`, values `p` and `q` of type `K`, the selections `p.A` at `18`,
`q.A` at `19` and `q.B` at `20`, and at `22` the union of `p.A` with the literal type `5`. -/
def selectionWorld : World :=
  let declare (w : World) (d : Declaration) : World := { w with decls := (w.decls.register d).2 }
  let w := declare .initial { kind := .cls, name := "K", owner := .absent, flags := { static := true },
                              parents := [Builtin.object.type] }
  let w := declare w { kind := .synonym, name := "A", owner := ⟨44⟩, info := Builtin.int.type }
  let w := declare w { kind := .synonym, name := "B", owner := ⟨44⟩, info := Builtin.int.type }
  let w := { w with types := (w.types.intern (.named .noPrefix ⟨44⟩)).2 }
  let w := declare w { kind := .value, name := "p", owner := .absent, flags := { static := true }, info := ⟨15⟩ }
  let w := declare w { kind := .value, name := "q", owner := .absent, flags := { static := true }, info := ⟨15⟩ }
  [.path .noPrefix ⟨47⟩, .path .noPrefix ⟨48⟩, .named ⟨16⟩ ⟨45⟩, .named ⟨17⟩ ⟨45⟩, .named ⟨17⟩ ⟨46⟩, .literal (.int 5),
    .union ⟨18⟩ ⟨21⟩].foldl (fun w d => { w with types := (w.types.intern d).2 }) w

theorem selectionWorld_built : selectionWorld.Built := by
  have h₁ := World.Built.register .initial { kind := .cls, name := "K", owner := .absent, flags := { static := true },
                                             parents := [Builtin.object.type] } (by decide) (by decide)
  have h₂ := h₁.register { kind := .synonym, name := "A", owner := ⟨44⟩, info := Builtin.int.type } (by decide)
    (by decide)
  have h₃ := h₂.register { kind := .synonym, name := "B", owner := ⟨44⟩, info := Builtin.int.type } (by decide)
    (by decide)
  have h₄ := h₃.intern (.named .noPrefix ⟨44⟩) (World.mentions_named (by decide) _)
  have h₅ := h₄.register { kind := .value, name := "p", owner := .absent, flags := { static := true }, info := ⟨15⟩ }
    (by decide) (by decide)
  have h₆ := h₅.register { kind := .value, name := "q", owner := .absent, flags := { static := true }, info := ⟨15⟩ }
    (by decide) (by decide)
  have h₇ := h₆.intern (.path .noPrefix ⟨47⟩) (World.mentions_path (by decide) _)
  have h₈ := h₇.intern (.path .noPrefix ⟨48⟩) (World.mentions_path (by decide) _)
  have h₉ := h₈.intern (.named ⟨16⟩ ⟨45⟩) (World.mentions_named (by decide) _)
  have h₁₀ := h₉.intern (.named ⟨17⟩ ⟨45⟩) (World.mentions_named (by decide) _)
  have h₁₁ := h₁₀.intern (.named ⟨17⟩ ⟨46⟩) (World.mentions_named (by decide) _)
  have h₁₂ := h₁₁.intern (.literal (.int 5)) (.literal _)
  exact h₁₂.intern (.union ⟨18⟩ ⟨21⟩) (.union ⟨rfl, by decide⟩ ⟨rfl, by decide⟩)

/-! ## Erased types -/

/-- **Erasing types only adds conformances**: a type that conforms to another goes on to do so where types are erased,
whenever the comparison there comes to an answer, with whatever threshold. -/
theorem CompareM.isSubType_erased {w : World} {a b : Ty} {answer : Bool} (hw : w.Built) (ha : w.Has a) (hb : w.Has b)
    (hplain : w.Returns false a b true) (herased : w.Returns true a b answer) : answer = true := by
  have hcl := hw.closed
  have hconforms : Conforms false w a b := (hplain.iff hcl ha hb).1 rfl
  exact (herased.iff hcl ha hb).2 (hconforms.carry (fun _ => rfl) hcl.identity_matches ⟨rfl, ha⟩ ⟨rfl, hb⟩)

/-- `selectionWorld` with the union of `q.A` and `Int` at `23`. -/
def erasedWorld : World :=
  { selectionWorld with types := (selectionWorld.types.intern (.union ⟨19⟩ Builtin.int.type)).2 }

/-- The selection `p.A` conforms to `q.A | Int` for the sake of `Int`, and where types are erased for the sake of `q.A`
already, to which it does not conform otherwise. -/
theorem CompareM.isSubType_erased_selection : erasedWorld.Built ∧ erasedWorld.Returns false ⟨18⟩ ⟨19⟩ false ∧
    erasedWorld.Returns true ⟨18⟩ ⟨19⟩ true ∧ erasedWorld.Returns false ⟨18⟩ ⟨23⟩ true ∧
    ∃ answer, erasedWorld.Returns true ⟨18⟩ ⟨23⟩ answer ∧ answer = true := by
  have hw : erasedWorld.Built :=
    selectionWorld_built.intern (.union ⟨19⟩ Builtin.int.type) (.union ⟨rfl, by decide⟩ ⟨rfl, by decide⟩)
  have hplain : erasedWorld.Returns false ⟨18⟩ ⟨23⟩ true := World.returns_of_run 12 (by decide +kernel)
  have herased : erasedWorld.Returns true ⟨18⟩ ⟨23⟩ true := World.returns_of_run 12 (by decide)
  exact ⟨hw, World.returns_of_run 12 (by decide), World.returns_of_run 12 (by decide), hplain,
    true, herased, isSubType_erased hw (by decide) (by decide) hplain herased⟩

end Conformance
