import Conformance.Handle

/-!
# The free lattice over the classes

Intersections and unions of classes, ordered by the rules for intersections and unions and by some order `r` between
classes. The rules have no cut: `ClassTerm.Le.trans` shows that none is needed. Read from below they say what a
comparison has to look at (`le_inter_iff`, `union_le_iff`, `ref_le_union_iff`, `inter_le_ref_iff`,
`inter_le_union_iff`).
-/

namespace Conformance

/-- Classes, and intersections and unions of such types. -/
inductive ClassTerm where
  | ref (s : Symbol)
  | inter (a b : ClassTerm)
  | union (a b : ClassTerm)

namespace ClassTerm

/-- How deep intersections and unions are nested. -/
def depth : ClassTerm → Nat
  | .ref _ => 0
  | .inter a b | .union a b => max a.depth b.depth + 1

/-- The least order with meets and joins in which classes are ordered by `r`. -/
inductive Le (r : Symbol → Symbol → Prop) : ClassTerm → ClassTerm → Prop
  | ref {s s' : Symbol} (h : r s s') : Le r (.ref s) (.ref s')
  | inter {e f g : ClassTerm} (hf : Le r e f) (hg : Le r e g) : Le r e (.inter f g)
  | interLeft {e g : ClassTerm} (f : ClassTerm) (h : Le r e g) : Le r (.inter e f) g
  | interRight {f g : ClassTerm} (e : ClassTerm) (h : Le r f g) : Le r (.inter e f) g
  | union {e f g : ClassTerm} (he : Le r e g) (hf : Le r f g) : Le r (.union e f) g
  | unionLeft {e f : ClassTerm} (g : ClassTerm) (h : Le r e f) : Le r e (.union f g)
  | unionRight {e g : ClassTerm} (f : ClassTerm) (h : Le r e g) : Le r e (.union f g)

/-- `g` is a greatest lower bound of `e` and `f`. -/
def IsMeet (r : Symbol → Symbol → Prop) (e f g : ClassTerm) : Prop := ∀ x, Le r x g ↔ Le r x e ∧ Le r x f

/-- `g` is a least upper bound of `e` and `f`. -/
def IsJoin (r : Symbol → Symbol → Prop) (e f g : ClassTerm) : Prop := ∀ x, Le r g x ↔ Le r e x ∧ Le r f x

variable {r : Symbol → Symbol → Prop} {a b e f g : ClassTerm} {s s' : Symbol}

namespace Le

theorem refl (hr : ∀ s, r s s) (e : ClassTerm) : Le r e e := by
  induction e with
  | ref s => exact .ref (hr s)
  | inter a b iha ihb => exact .inter (.interLeft b iha) (.interRight a ihb)
  | union a b iha ihb => exact .union (.unionLeft b iha) (.unionRight a ihb)

/-- Cut elimination. A rule for the outer terms is put off, and the two rules for the term in the middle that then meet
cut at one of its operands. -/
theorem trans (hr : ∀ {s s' s''}, r s s' → r s' s'' → r s s'') {e f g : ClassTerm} (h : Le r e f) (h' : Le r f g) :
    Le r e g := by
  match h, h' with
  | .interLeft b h, h' => exact .interLeft b (trans hr h h')
  | .interRight a h, h' => exact .interRight a (trans hr h h')
  | .union h₁ h₂, h' => exact .union (trans hr h₁ h') (trans hr h₂ h')
  | h, .inter h₁ h₂ => exact .inter (trans hr h h₁) (trans hr h h₂)
  | h, .unionLeft b h' => exact .unionLeft b (trans hr h h')
  | h, .unionRight a h' => exact .unionRight a (trans hr h h')
  | .ref h, .ref h' => exact .ref (hr h h')
  | .inter h₁ _, .interLeft _ h' => exact trans hr h₁ h'
  | .inter _ h₂, .interRight _ h' => exact trans hr h₂ h'
  | .unionLeft _ h, .union h₁ _ => exact trans hr h h₁
  | .unionRight _ h, .union _ h₂ => exact trans hr h h₂
termination_by sizeOf e + sizeOf f + sizeOf g

/-- Below all classes is below all terms. -/
theorem bot (h : ∀ s', r s s') (e : ClassTerm) : Le r (.ref s) e := by
  induction e with
  | ref s' => exact .ref (h s')
  | inter a b iha ihb => exact .inter iha ihb
  | union a b iha _ => exact .unionLeft b iha

end Le

/-! ## The rules read from below -/

theorem le_inter_iff : Le r e (.inter f g) ↔ Le r e f ∧ Le r e g := by
  refine ⟨fun h => ?_, fun ⟨hf, hg⟩ => .inter hf hg⟩
  generalize ht : ClassTerm.inter f g = t at h
  induction h with
  | ref => cases ht
  | inter hf hg => cases ht; exact ⟨hf, hg⟩
  | interLeft b _ ih => exact ⟨.interLeft b (ih ht).1, .interLeft b (ih ht).2⟩
  | interRight a _ ih => exact ⟨.interRight a (ih ht).1, .interRight a (ih ht).2⟩
  | union _ _ ih₁ ih₂ => exact ⟨.union (ih₁ ht).1 (ih₂ ht).1, .union (ih₁ ht).2 (ih₂ ht).2⟩
  | unionLeft => cases ht
  | unionRight => cases ht

theorem union_le_iff : Le r (.union e f) g ↔ Le r e g ∧ Le r f g := by
  refine ⟨fun h => ?_, fun ⟨he, hf⟩ => .union he hf⟩
  generalize ht : ClassTerm.union e f = t at h
  induction h with
  | ref => cases ht
  | inter _ _ ih₁ ih₂ => exact ⟨.inter (ih₁ ht).1 (ih₂ ht).1, .inter (ih₁ ht).2 (ih₂ ht).2⟩
  | interLeft => cases ht
  | interRight => cases ht
  | union he hf => cases ht; exact ⟨he, hf⟩
  | unionLeft b _ ih => exact ⟨.unionLeft b (ih ht).1, .unionLeft b (ih ht).2⟩
  | unionRight a _ ih => exact ⟨.unionRight a (ih ht).1, .unionRight a (ih ht).2⟩

theorem ref_le_ref_iff : Le r (.ref s) (.ref s') ↔ r s s' := by
  refine ⟨fun h => ?_, .ref⟩
  cases h with
  | ref h => exact h

theorem ref_le_union_iff : Le r (.ref s) (.union f g) ↔ Le r (.ref s) f ∨ Le r (.ref s) g := by
  constructor
  · intro h
    cases h with
    | unionLeft _ h => exact .inl h
    | unionRight _ h => exact .inr h
  · rintro (h | h)
    · exact .unionLeft g h
    · exact .unionRight f h

theorem inter_le_ref_iff : Le r (.inter a b) (.ref s) ↔ Le r a (.ref s) ∨ Le r b (.ref s) := by
  constructor
  · intro h
    cases h with
    | interLeft _ h => exact .inl h
    | interRight _ h => exact .inr h
  · rintro (h | h)
    · exact .interLeft b h
    · exact .interRight a h

theorem inter_le_union_iff : Le r (.inter a b) (.union f g) ↔
    Le r (.inter a b) f ∨ Le r (.inter a b) g ∨ Le r a (.union f g) ∨ Le r b (.union f g) := by
  constructor
  · intro h
    cases h with
    | interLeft _ h => exact .inr (.inr (.inl h))
    | interRight _ h => exact .inr (.inr (.inr h))
    | unionLeft _ h => exact .inl h
    | unionRight _ h => exact .inr (.inl h)
  · rintro (h | h | h | h)
    · exact .unionLeft g h
    · exact .unionRight f h
    · exact .interLeft b h
    · exact .interRight a h

end ClassTerm

end Conformance
