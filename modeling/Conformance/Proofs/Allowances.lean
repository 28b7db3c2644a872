import Conformance.Proofs.Congruence
import Conformance.Proofs.Layers
import Conformance.Proofs.TypeArguments

/-!
# Larger allowances

An allowance of nested steps only says when a comparison is given up. What is answered within it is answered within
every larger one, in the same state and the same world (`isSubType_extends`): what is read with it persists, and the
cascade passes it on.
-/

namespace Conformance

/-! ## Questions about a world -/

/-- Where `x` is an answer, `y` is the same. -/
def Persists {α : Type} (x y : Except Halt α) : Prop := ∀ r, x = .ok r → y = .ok r

section Persists

variable {α β : Type}

theorem Persists.refl (x : Except Halt α) : Persists x x := fun _ h => h

theorem Persists.bind {x y : Except Halt α} {f g : α → Except Halt β} (h : Persists x y) (hf : ∀ a, Persists (f a) (g a)) :
    Persists (x >>= f) (y >>= g) := by
  intro r hr
  cases x with
  | error e => cases hr
  | ok a =>
    rw [h a rfl]
    exact hf a r hr

theorem Persists.mapM {f g : α → Except Halt β} (h : ∀ a, Persists (f a) (g a)) : ∀ l : List α, Persists (l.mapM f) (l.mapM g)
  | [] => .refl _
  | a :: l => by
    rw [List.mapM_cons, List.mapM_cons]
    exact .bind (h a) fun _ => .bind (.mapM h l) fun _ => .refl _

theorem Persists.filterM {f g : α → Except Halt Bool} (h : ∀ a, Persists (f a) (g a)) (l : List α) :
    Persists (l.filterM f) (l.filterM g) := by
  have haux : ∀ l acc : List α, Persists (List.filterAuxM f l acc) (List.filterAuxM g l acc) := by
    intro l
    induction l with
    | nil => exact fun acc => .refl _
    | cons a l ih => exact fun acc => .bind (h a) fun b => ih _
  exact .bind (haux l []) fun _ => .refl _

theorem Persists.orElse {x x' y y' : Except Halt Bool} (hx : Persists x x') (hy : Persists y y') :
    Persists (x <||> y) (x' <||> y') :=
  .bind hx fun b => by cases b <;> [exact hy; exact .refl _]

end Persists

namespace World

variable {w : World} {n m : Nat} {t : Ty}

theorem persists_refinement (name : String) (hnm : n ≤ m) : Persists (w.refinement? name n t) (w.refinement? name m t) := by
  intro r h
  obtain ⟨k, hk, hseeks⟩ := refinement?_eq_ok_iff.1 h
  exact refinement?_eq_ok_iff.2 ⟨k, Nat.le_trans hk hnm, hseeks⟩

theorem persists_openTypeParams (hnm : n ≤ m) : Persists (w.openTypeParams n t) (w.openTypeParams m t) := by
  unfold openTypeParams
  split
  · exact .refl _
  · exact .filterM (fun p => .bind (persists_refinement _ hnm) fun _ => .refl _) _

theorem persists_typeArgs (hnm : n ≤ m) : Persists (w.typeArgs n t) (w.typeArgs m t) := by
  unfold typeArgs
  split
  · exact .refl _
  · exact .mapM (fun p => .bind (persists_refinement _ hnm) fun _ => .refl _) _

theorem persists_isStable : ∀ {n m : Nat} (t : Ty), n ≤ m → Persists (w.isStable n t) (w.isStable m t)
  | 0, _, _, _ => fun _ h => nomatch h
  | n + 1, 0, _, hnm => absurd hnm (Nat.not_succ_le_zero n)
  | n + 1, m + 1, t, hnm => by
    have ih (u : Ty) := persists_isStable u (Nat.le_of_succ_le_succ hnm)
    unfold isStable
    split
    · exact .refl _
    · exact .refl _
    · exact .refl _
    · exact .refl _
    · exact .refl _
    · exact .orElse (ih _) (ih _)
    · split
      · exact ih _
      · exact .refl _
    · exact .refl _

end World

namespace WorldM

theorem extends_reading {α : Type} {f g : World → Except Halt α} (h : ∀ w, Persists (f w) (g w)) :
    Extends (reading f) (reading g) := by
  intro w r hr
  obtain ⟨ha, hw⟩ := reading_ok hr
  obtain ⟨a, w'⟩ := r
  subst hw
  exact reading_run (h _ _ ha)

theorem extends_signature : ∀ {n m : Nat} (t : Ty), n ≤ m → Extends (t.signature n) (t.signature m)
  | 0, _, _, _ => fun _ _ h => nomatch h
  | n + 1, 0, _, hnm => absurd hnm (Nat.not_succ_le_zero n)
  | n + 1, m + 1, t, hnm => by
    refine .bind (.refl _) fun w => ?_
    split
    · exact .refl _
    · split
      · exact extends_signature _ (Nat.le_of_succ_le_succ hnm)
      · exact .refl _
    · exact .refl _

end WorldM

/-! ## Comparisons -/

namespace CompareM

theorem allows_of_le {n m : Nat} (h : n ≤ m) : Allows n m where
  openTypeParams _ := WorldM.extends_reading fun w => w.persists_openTypeParams h
  typeArgs _ := WorldM.extends_reading fun w => w.persists_typeArgs h
  isStable t := WorldM.extends_reading fun w => w.persists_isStable t h
  substBinder b c t := WorldM.extends_substBinder b c t h
  signature t := WorldM.extends_signature t h

theorem extends_lift {α : Type} {m m' : WorldM α} (h : m.Extends m') : Extends (liftM m : CompareM α) (liftM m') := by
  intro c w r hr
  obtain ⟨hm, hc⟩ := run_lift_ok hr
  obtain ⟨⟨a, c'⟩, w'⟩ := r
  subst hc
  exact run_lift (h w _ hm) _

theorem congruent_extends : Congruent fun _ => Extends where
  bind := .bind
  lift := extends_lift
  get := .refl _
  modify _ _ := .refl _

/-- **An answer does not depend on how large the allowance was.** -/
theorem isSubType_extends : ∀ {n m : Nat} (t u : Ty), n ≤ m → Extends (isSubType n t u) (isSubType m t u)
  | 0, _, _, _, _ => fun _ _ _ h => nomatch h
  | n + 1, 0, _, _, hnm => absurd hnm (Nat.not_succ_le_zero n)
  | n + 1, m + 1, t, u, hnm => by
    have hle : n ≤ m := Nat.le_of_succ_le_succ hnm
    refine .ite (.refl _) (.ite (.refl _) ?_)
    refine congruent_extends.framed (allows_of_le hle) (fun a b => isSubType_extends a b hle)
      (fun f g hbody => congruent_extends.atomically ?_) t u
    exact .bind (.refl _) fun mode => .bind (hbody mode) fun _ => .refl _

end CompareM

end Conformance
