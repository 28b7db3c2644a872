import Conformance.Proofs.Closed
import Conformance.Proofs.Equivariance

/-!
# Answers that do not change while the world grows

A computation on a closed world that is asked again later, when more has been given out, ends alike
(`World.Closed.repeats`). So whether a type inherits from a class, whether the null class conforms to it, and whether none
of its values is null, is settled once and for all.
-/

namespace Conformance

open CompareM

/-- A computation on a closed world ends alike in every world that has grown from it. -/
theorem World.Closed.repeats {α : Type} {A : Corr → α → α → Prop} {w v : World} {m : WorldM α} (hw : w.Closed)
    (hm : Grows False m) (hsim : Sim False (Corr.identity w) A m m) (hv : w ≤ v) :
    ∃ a w' b v' σ, m w = .ok (a, w') ∧ m v = .ok (b, v') ∧ v ≤ v' ∧ Corr.identity w ≤ σ ∧
      σ.Matches w' v' ∧ A σ a b := by
  obtain ⟨a, w', hr, -⟩ := hm.total w
  obtain ⟨b, v', hr', hle⟩ := hm.total v
  have hagree := hsim (Corr.identity w) w v le_rfl (hw.identity_matches.grow le_rfl hv)
  rw [hr, hr'] at hagree
  obtain ⟨σ, hid, hσ, hab⟩ := hagree
  exact ⟨a, w', b, v', σ, hr, hr', hle, hid, hσ, hab⟩

/-- A question about a closed world is answered alike in every world that has grown from it. -/
theorem World.Closed.answers_again {w v : World} {m : WorldM Bool} (hw : w.Closed) (hm : Grows False m)
    (hsim : Sim False (Corr.identity w) Corr.equal m m) (hv : w ≤ v) :
    ∃ b v', m v = .ok (b, v') ∧ v ≤ v' ∧ (b = true ↔ ∃ w', m w = .ok (true, w')) := by
  obtain ⟨b, w', b', v', σ, hr, hr', hle, -, -, hb⟩ := hw.repeats hm hsim hv
  obtain rfl : b = b' := hb
  refine ⟨b, v', hr', hle, ?_⟩
  constructor
  · rintro rfl
    exact ⟨w', hr⟩
  · rintro ⟨w'', hr''⟩
    rw [hr] at hr''
    cases hr''
    rfl

/-- The type inherits from the class. -/
def World.Inherits (w : World) (t : Ty) (cls : Symbol) : Prop :=
  ∃ base w', t.baseType cls w = .ok (base, w') ∧ base.present

/-- The null class conforms to the type. -/
def World.Nullable (w : World) (t : Ty) : Prop := ∃ w', nullConforms t w = .ok (true, w')

/-- No value of the type is null. -/
def World.NeverNull (w : World) (t : Ty) : Prop := ∃ w', t.isNotNull w = .ok (true, w')

namespace World.Closed

variable {w v : World} {t : Ty}

/-- A type that inherits from a class does so in every later world, and in none if it does not. -/
theorem baseType_run (hw : w.Closed) (ht : w.Has t) (cls : Symbol) (hv : w ≤ v) :
    ∃ base v', t.baseType cls v = .ok (base, v') ∧ v ≤ v' ∧ (base.present ↔ w.Inherits t cls) := by
  have hpair : (Corr.identity w).ty t t := ⟨rfl, ht⟩
  obtain ⟨base, w', base', v', σ, hr, hr', hle, -, hσ, hbase⟩ :=
    hw.repeats (grows_baseType t cls) (sim_baseType hpair cls) hv
  refine ⟨base', v', hr', hle, ?_⟩
  rw [← hσ.present hbase]
  constructor
  · intro hpresent
    exact ⟨base, w', hr, hpresent⟩
  · rintro ⟨base'', w'', hr'', hpresent⟩
    rw [hr] at hr''
    cases hr''
    exact hpresent

/-- A type that does not inherit from a class does not do so in a later world either. -/
theorem baseType_absent {cls : Symbol} (hw : w.Closed) (ht : w.Has t) (h : ¬ w.Inherits t cls) (hv : w ≤ v) :
    ∃ v', t.baseType cls v = .ok (.noType, v') ∧ v ≤ v' := by
  obtain ⟨base, v', hr, hle, hpresent⟩ := hw.baseType_run ht cls hv
  have habsent : base = .noType := by
    by_contra hne
    exact h (hpresent.1 (Ty.present_iff.2 hne))
  exact ⟨v', habsent ▸ hr, hle⟩

theorem nullConforms_run (hw : w.Closed) (ht : w.Has t) (hv : w ≤ v) :
    ∃ b v', nullConforms t v = .ok (b, v') ∧ v ≤ v' ∧ (b = true ↔ w.Nullable t) :=
  hw.answers_again (grows_nullConforms t) (sim_nullConforms ⟨rfl, ht⟩) hv

theorem isNotNull_run (hw : w.Closed) (ht : w.Has t) (hv : w ≤ v) :
    ∃ b v', t.isNotNull v = .ok (b, v') ∧ v ≤ v' ∧ (b = true ↔ w.NeverNull t) :=
  hw.answers_again (grows_isNotNull t) (sim_isNotNull ⟨rfl, ht⟩) hv

end World.Closed

/-- Handles of different shapes are different. -/
theorem World.ne_of_shape {w : World} {a b : Ty} {d e : Shape} (ha : w.shape? a = some d) (hb : w.shape? b = some e)
    (hde : d ≠ e) : a ≠ b := by
  rintro rfl
  exact hde (Option.some.inj (ha.symm.trans hb))

end Conformance
