import Conformance.Proofs.Convergence
import Conformance.Proofs.Erasures
import Conformance.Proofs.Members
import Conformance.Proofs.Selections

/-!
# Variants conform to each other

Types that differ in the binders inside them only, with every parameter in scope the same, conform to each other
(`CompareM.variants_conform`). The induction is on their height, layer by layer. Methods and universal types are
compared with the parameters of one binder put in the place of those of the other, which gives variants again, with the
same parameters in scope; their erased signatures agree beforehand, as erasing comes to the same names.
-/

namespace Conformance

open CompareM World

namespace CompareM

/-! ## Answers -/

section Answers

variable {α : Type} {erased : Bool} {ρ : Corr} {w : World} {P : Prop} {S : World → Ty → Ty → Prop} {t u : Ty}

/-- What is worked out first comes to an end, wherever it is asked for. -/
theorem Tells.lift_bind {m : WorldM α} {f : α → CompareM Bool}
    (h : ∀ v, w ≤ v → ∃ a v', m v = .ok (a, v') ∧ v ≤ v' ∧ Tells erased v' (f a) P) :
    Tells erased w (liftM m >>= f) P := by
  intro v c hv hc
  obtain ⟨a, v', hm, hle, hf⟩ := h v hv
  obtain ⟨b, c', v'', hr, hc', hle', hb⟩ := hf v' c le_rfl hc
  exact ⟨b, c', v'', (run_bind (run_lift hm c)).trans hr, hc', hle.trans hle', hb⟩

theorem Tells.atomically {x : CompareM Bool} (h : Tells erased w x True) : Tells erased w (atomically x) True := by
  intro v c hv hc
  obtain ⟨b, c', v', hr, hc', hle, hb⟩ := h v c hv hc
  obtain rfl := hb.2 trivial
  exact ⟨true, c', v', atomically_ok hr, hc', hle, hb⟩

theorem tells_allM {f : α → CompareM Bool} (l : List α) (h : ∀ a ∈ l, Tells erased w (f a) True) :
    Tells erased w (l.allM f) True := by
  induction l with
  | nil => exact .yes
  | cons a l ih =>
    intro v c hv hc
    obtain ⟨b, c', v', hr, hc', hle, hb⟩ := h a (.head _) v c hv hc
    obtain rfl := hb.2 trivial
    obtain ⟨b, c'', v'', hr', hc'', hle', hb⟩ := ih (fun a ha => h a (.tail _ ha)) v' c' (hv.trans hle) hc'
    exact ⟨b, c'', v'', (run_bind hr).trans hr', hc'', hle.trans hle', hb⟩

/-- A list worked out for a comparison is worked out on the world alone. -/
theorem mapM_lift {α β : Type} (f : α → WorldM β) (l : List α) :
    l.mapM (fun a => (liftM (f a) : CompareM β)) = liftM (l.mapM f) := by
  induction l with
  | nil => rfl
  | cons a l ih =>
    funext c w
    rw [List.mapM_cons, List.mapM_cons, ih]
    show Except.bind (Except.bind (f a w) _) _ = Except.bind (Except.bind (f a w) _) _
    cases f a w with
    | error => rfl
    | ok r =>
      show Except.bind (Except.bind (l.mapM f r.2) _) _ = Except.bind (Except.bind (l.mapM f r.2) _) _
      cases l.mapM f r.2 <;> rfl

/-- Types that conform to each other are the same. -/
theorem tells_same (hS : Carried S S) (hM : ρ.Matches w w) (kt : ρ.ty t t) (ku : ρ.ty u u) (ht : t.present)
    (hu : u.present) (h₁ : S w t u) (h₂ : S w u t) : Tells erased w (same (asking S) t u) True := by
  have hboth : Tells erased w (asking S t u <&&> asking S u t) True :=
    ((tells_asking hS hM kt ku).andThen (tells_asking hS hM ku kt)).congr (by simp [h₁, h₂])
  have hpresent : ¬ (!t.present || !u.present) = true := by simp [ht, hu]
  rw [same, if_neg hpresent]
  exact .ite (fun _ => .yes) fun _ => hboth.atomically

end Answers

/-! ## Layers -/

section Layers

variable {erased : Bool} {ρ : Corr} {w : World} {x y p q i j a b c d : Ty} {name : String}

/-- A type that is neither a name nor a variable is apart from nothing. -/
theorem not_apart_of_source (hnamed : (w.shape x).isNamed = false) (hvar : (w.shape x).isVar = false) :
    ¬ w.Apart erased x y := by
  intro h
  induction h with
  | @names t _ _ _ _ _ _ left =>
    cases hd : w.shape t <;> rw [hd] at left hnamed <;> cases left <;> cases hnamed
  | source shape => rw [shape_of_shape? shape] at hvar; cases hvar
  | target _ _ ih | left _ _ ih | right _ _ ih => exact ih hnamed hvar

/-- The member that a refinement is about. -/
theorem member_refined (hx : w.shape? x = some (.refined p name i)) : ∃ v, x.member name w = .ok (i, v) ∧ w ≤ v := by
  have hstep : Finds (x :: []) 1 1 w (Member.step name (Walk.descend .noType (Member.step name) 64) x)
      fun r _ => r = i := by
    intro g hg
    rw [memberStep_refined hx, if_pos rfl]
    exact ⟨i, g, w, rfl, hg, le_rfl, rfl⟩
  obtain ⟨r, v, hr, hle, rfl⟩ := finds_run (finds_descend List.not_mem_nil (Nat.zero_lt_succ 63) (by omega) hstep)
  exact ⟨v, hr, hle⟩

variable (hM : ρ.Matches w w) (hw : w.Standard) (kx : ρ.ty x x) (ky : ρ.ty y y)
include hM hw kx ky

/-- A compound source that offers a type conforms to what that one conforms to. -/
theorem conforms_of_part {e : Shape} (hx : w.shape? x = some e) (he : e ≠ .fixed .noType ∧ e.isNamed = false ∧
    e.isVar = false ∧ intercepts e = false) (hux : w.Unfolds x) (hu : w.Unfolds y) (kp : ρ.ty p p)
    (hbelow : ∀ u, ρ.ty u u → Conforms erased w p u → Below erased (Conforms erased) w x u)
    (h : Conforms erased w p y) : Conforms erased w x y := by
  obtain ⟨-, hnamed, hvar, hnot⟩ := he
  rw [← shape_of_shape? hx] at hnamed hvar hnot
  exact conforms_of_offer hM ky hw hu hux kx hnot le_rfl le_rfl hM kp hbelow (not_apart_of_source hnamed hvar) h

omit hw in
/-- Selections of one symbol from prefixes that conform. -/
theorem conforms_of_prefixes {s : Symbol} {k : Bool} (hpx : x.present) (hpy : y.present)
    (hx : nameParts? (w.shape x) = some (p, s, k)) (hy : nameParts? (w.shape y) = some (q, s, k))
    (h : Conforms erased w p q) : Conforms erased w x y := by
  have hnamed {t : Ty} {r : Ty × Symbol × Bool} (ht : nameParts? (w.shape t) = some r) : (w.shape t).isNamed := by
    cases hd : w.shape t <;> rw [hd] at ht <;> first | rfl | cases ht
  have hnames : Affirmed erased w (names 0 (asking (Conforms erased)) x y) :=
    (tells_names_same carried_conforms hM kx ky hx hy).affirmed_iff.2 (.inr (.inr h))
  exact conforms_of_holds hM kx ky hpx hpy ((holds_names carried_conforms hM kx ky (hnamed hx) (hnamed hy)).2 ⟨0, hnames⟩)

omit hw in
/-- What two types of which the second is no name are asked for in the end. -/
theorem conforms_of_third {P : Prop} {e f : Shape} {n : Nat} (hx : w.shape? x = some e) (hy : w.shape? y = some f)
    (hpx : x.present) (hpy : y.present) (hnot : intercepts e = false ∧ intercepts f = false) (hnamed : f.isNamed = false)
    (h : Tells erased w (third n (asking (Conforms erased)) x y) P) (hP : P) : Conforms erased w x y := by
  rw [← shape_of_shape? hx, ← shape_of_shape? hy] at hnot
  have hnames : ((w.shape x).isNamed && (w.shape y).isNamed) = false := by
    rw [shape_of_shape? hy, hnamed, Bool.and_false]
  have hthird := (holds_third carried_conforms hM kx ky hnot.2 hnot.1 hnames).2 ⟨n, h.affirmed_iff.2 hP⟩
  exact conforms_of_holds hM kx ky hpx hpy hthird

theorem conforms_of_refined (hx : w.shape? x = some (.refined p name i)) (hy : w.shape? y = some (.refined q name j))
    (hq : w.Unfolds q) (h : Conforms erased w p q) (hinfo : ∀ v, w ≤ v → Conforms erased v i j) :
    Conforms erased w x y := by
  have hleaf {t a b : Ty} (ht : w.shape? t = some (.refined a name b)) : w.Unfolds t :=
    .leaf (hw.present ht (by rintro ⟨⟩)) ht rfl (by rintro _ _ ⟨⟩)
  have hparent : Conforms erased w x q := by
    cases hM.parts kx hx with | refined kp =>
    cases hM.parts ky hy with | refined kq =>
    exact conforms_of_part hM hw kx kq hx ⟨by rintro ⟨⟩, rfl, rfl, rfl⟩ (hleaf hx) hq kp
      (fun u ku => (below_refined carried_conforms hM kx ku hx).2) h
  obtain ⟨v, hmember, hle⟩ := member_refined hx
  exact conforms_of_third hM kx ky hx hy ((hleaf hx).present hw) ((hleaf hy).present hw) ⟨rfl, rfl⟩ rfl
    (tells_third_refined (n := 0) carried_conforms hM kx ky hy)
    (.inl ⟨hparent, .inr ⟨i, v, hmember, hinfo v hle⟩⟩)

theorem conforms_of_inters (hx : w.shape? x = some (.inter a b)) (hy : w.shape? y = some (.inter c d))
    (hab : w.Unfolds a ∧ w.Unfolds b) (hcd : w.Unfolds c ∧ w.Unfolds d) (h : Conforms erased w a c)
    (h' : Conforms erased w b d) : Conforms erased w x y := by
  have hux : w.Unfolds x := .inter hx hab.1 hab.2
  cases hM.parts kx hx with | inter ka kb =>
  cases hM.parts ky hy with | inter kc kd =>
  have he : Shape.inter a b ≠ .fixed .noType ∧ (Shape.inter a b).isNamed = false ∧ (Shape.inter a b).isVar = false ∧
      intercepts (.inter a b) = false := ⟨by rintro ⟨⟩, rfl, rfl, rfl⟩
  refine conforms_inter hM hw hy hux kx ky ?_ ?_
  · exact conforms_of_part hM hw kx kc hx he hux hcd.1 ka
      (fun u ku h => (below_inter carried_conforms hM kx ku hx).2 (.inl h)) h
  · exact conforms_of_part hM hw kx kd hx he hux hcd.2 kb
      (fun u ku h => (below_inter carried_conforms hM kx ku hx).2 (.inr h)) h'

theorem conforms_of_unions (hx : w.shape? x = some (.union a b)) (hy : w.shape? y = some (.union c d))
    (hab : w.Unfolds a ∧ w.Unfolds b) (h : Conforms erased w a c) (h' : Conforms erased w b d) :
    Conforms erased w x y := by
  have huy : w.Unfolds y := .leaf (hw.present hy (by rintro ⟨⟩)) hy rfl (by rintro _ _ ⟨⟩)
  cases hM.parts kx hx with | union ka kb =>
  refine conforms_union_left hM hw hx hab.1 hab.2 huy kx ky ?_ ?_
  · exact conforms_union_right hM hw hy hab.1 ka ky (.inl h)
  · exact conforms_union_right hM hw hy hab.2 kb ky (.inr h')

/-- Bounds that are met by bounds. -/
theorem conforms_of_ends (hx : w.shape? x = some (.bounds a b)) (hy : w.shape? y = some (.bounds c d))
    (h : Conforms erased w c a) (h' : Conforms erased w b d) : Conforms erased w x y := by
  exact conforms_of_third hM kx ky hx hy (hw.present hx (by rintro ⟨⟩)) (hw.present hy (by rintro ⟨⟩)) ⟨rfl, rfl⟩ rfl
    (tells_third_bounds (n := 0) carried_conforms hM kx ky hy hx) ⟨h, h'⟩

theorem conforms_of_results (hx : w.shape? x = some (.byName a)) (hy : w.shape? y = some (.byName c))
    (h : Conforms erased w a c) : Conforms erased w x y := by
  cases hM.parts kx hx with | byName ka =>
  cases hM.parts ky hy with | byName kc =>
  have hthird : Tells erased w (third 0 (asking (Conforms erased)) x y) (Conforms erased w a c) := by
    refine .world_bind fun v hv => ?_
    rw [shape_of_shape? (hv.shape hx), shape_of_shape? (hv.shape hy)]
    exact (tells_asking carried_conforms hM ka kc).later hv
  exact conforms_of_third hM kx ky hx hy (hw.present hx (by rintro ⟨⟩)) (hw.present hy (by rintro ⟨⟩)) ⟨rfl, rfl⟩ rfl
    hthird h

end Layers

/-! ## Binders -/

/-- Every parameter in scope stands for itself. -/
def Plain (s : Pairing) : Prop := ∀ p q, s.rel p q → p = q

/-- Variants at most `n` deep, with every parameter in scope standing for itself, conform. -/
def ConformAt (erased : Bool) (n : Nat) : Prop :=
  ∀ {w : World} {ρ : Corr} {s : Pairing} {x y : Ty}, ρ.opens → ρ.Matches w w → w.Standard →
    w.shape? .noPrefix = some (.fixed .noPrefix) → ρ.ty x x → ρ.ty y y → Plain s → w.Variant n s x y →
    Conforms erased w x y

/-- Two binders of one kind, in a world that matches itself. -/
structure Facing (ρ : Corr) (w : World) (b c : BinderId) : Prop where
  opens : ρ.opens
  selves : ρ.Matches w w
  standard : w.Standard
  noPrefix : w.shape? .noPrefix = some (.fixed .noPrefix)
  ne : c ≠ b
  left : ρ.binder b b
  right : ρ.binder c c
  kinds : ∃ k, w.binderKind? b = some k ∧ w.binderKind? c = some k

section Binders

variable {erased : Bool} {w v : World} {ρ σ : Corr} {s : Pairing} {n fuel : Nat} {b c : BinderId} {x y : Ty}

theorem Facing.later (h : Facing ρ w b c) (hv : w ≤ v) (hσ : ρ ≤ σ) (hM : σ.Matches v v) : Facing σ v b c where
  opens := hσ.opens h.opens
  selves := hM
  standard := h.standard.grow hv
  noPrefix := hv.shape h.noPrefix
  ne := h.ne
  left := hσ.binder h.left
  right := hσ.binder h.right
  kinds := by
    obtain ⟨k, hb, hc⟩ := h.kinds
    exact ⟨k, binderKind?_later hb hv, binderKind?_later hc hv⟩

theorem Facing.grow (h : Facing ρ w b c) (hv : w ≤ v) : Facing ρ v b c := h.later hv le_rfl (h.selves.grow hv hv)

/-- Opened on `b`, the inside of `c` is what the inside of `b` is, with the same parameters in scope. -/
theorem Facing.opened (h : Facing ρ w b c) (hs : Plain s) (hfuel : n ≤ fuel) (hxy : w.Variant n (s.bind b c) x y) :
    ∃ y' w' t, Ty.substBinder fuel c b y w = .ok (y', w') ∧ w ≤ w' ∧ Plain t ∧ w'.Variant n t x y' := by
  -- binders that were not given out yet are in scope nowhere
  let s' : Pairing := ⟨fun a => (w.binder? a).isSome ∧ (s.bind b c).inner a,
    fun p q => (w.binder? q).isSome ∧ (s.bind b c).rel p q⟩
  have hsub : (s.bind b c).Sub w s' := ⟨fun _ ha h => ⟨ha, h⟩, fun _ _ _ hq h => ⟨hq, h⟩⟩
  have hadmits : s'.Admits w c b := by
    obtain ⟨k, hb, hc⟩ := h.kinds
    refine ⟨h.ne, ⟨k, hc, hb⟩, fun a ha => ⟨ha.1, ha.2.2.2, ha.2.2.1⟩, ?_⟩
    rintro p q ⟨hq, ⟨-, rfl⟩ | ⟨hp, -, hpq⟩⟩
    · exact ⟨hq, h.ne⟩
    · exact ⟨hq, hs p q hpq ▸ hp⟩
  obtain ⟨y', w', hr, hle, hv, -⟩ := renamesAt n h.standard h.noPrefix hadmits (hxy.imp hsub) hfuel
  refine ⟨y', w', s'.rename w w' c b, hr, hle, ?_, hv⟩
  rintro p q ⟨q₀, ⟨-, ⟨rfl, rfl⟩ | ⟨-, hq₀, hpq⟩⟩, rfl⟩
  · exact (if_pos rfl).symm
  · rw [if_neg hq₀]
    exact hs p q₀ hpq

/-- Parameter lists whose types conform to each other place by place are the same. -/
theorem tells_sameParams {xs ys : List Ty} (hM : ρ.Matches w w) (kxs : ∀ x ∈ xs, ρ.ty x x)
    (h : List.Forall₂ (fun x y => ρ.ty y y ∧ Conforms erased w x y ∧ Conforms erased w y x) xs ys) (f g : Bool) :
    Tells erased w (sameParams (asking (Conforms erased)) xs ys f g) True := by
  obtain ⟨hlength, hzip⟩ := List.forall₂_iff_zip.1 h
  rw [sameParams, if_neg (not_not.2 hlength)]
  refine tells_allM _ ?_
  rintro ⟨x, y⟩ hxy
  obtain ⟨ky, h₁, h₂⟩ := hzip hxy
  have hsame : Tells erased w (same (asking (Conforms erased)) x y) True :=
    tells_same carried_conforms hM (kxs x (List.of_mem_zip hxy).1) ky h₁.present.1 h₁.present.2 h₁ h₂
  exact (hsame.orElse (.of_return Iff.rfl)).congr (by simp)

/-- The signatures of variants match, wherever they are asked for. -/
theorem Variant.signatures {k : Nat} (ho : ρ.opens) (hM : ρ.Matches w w) (hw : w.Standard) (hs : Plain s) (hk : n ≤ k)
    (kx : ρ.ty x x) (ky : ρ.ty y y) (h : w.Variant n s x y) : ∃ names,
      (∀ v, w ≤ v → ∃ sig v', x.signature k v = .ok (sig, v') ∧ v ≤ v' ∧ sig.params = names) ∧
        ∀ v, w ≤ v → ∃ sig v', y.signature k v = .ok (sig, v') ∧ v ≤ v' ∧ sig.params = names := by
  refine ⟨w.paramNames k x, fun v hv => signature_run ho hM hw k h hk kx hv, fun v hv => ?_⟩
  have hagrees (j : Nat) : w.Agrees s j := by
    intro p q i hpq
    cases hs p q hpq
    exact ⟨rfl, rfl⟩
  rw [Variant.paramNames k hagrees h]
  exact signature_run ho hM hw k h.symm hk ky hv

variable (hn : ConformAt erased n) (hs : Plain s) (hfuel : n ≤ fuel)
include hn hs hfuel

/-- What is inside `b` and what is inside `c` conform to each other, the latter opened on `b`. -/
theorem Facing.conform (h : Facing ρ w b c) (kx : ρ.ty x x) (ky : ρ.ty y y) (hxy : w.Variant n (s.bind b c) x y) :
    ∃ y' w' σ, Ty.substBinder fuel c b y w = .ok (y', w') ∧ w ≤ w' ∧ ρ ≤ σ ∧ σ.Matches w' w' ∧ σ.ty y' y' ∧
      Conforms erased w' x y' ∧ Conforms erased w' y' x := by
  obtain ⟨y', w', t, hr, hle, ht, hxy'⟩ := h.opened hs hfuel hxy
  obtain ⟨σ, hσ, hMσ, ky'⟩ := h.selves.made (sim_renamed h.opens (.inr le_rfl) h.right h.left ky) hr
  have ho := hσ.opens h.opens
  have hw' := h.standard.grow hle
  have hpre' := hle.shape h.noPrefix
  refine ⟨y', w', σ, hr, hle, hσ, hMσ, ky', hn ho hMσ hw' hpre' (hσ.ty kx) ky' ht hxy', ?_⟩
  exact hn ho hMσ hw' hpre' ky' (hσ.ty kx) (fun p q h => (ht q p h).symm) hxy'.symm

/-- The lists inside the binders, one type after the other. -/
theorem Facing.conform_list (xs : List Ty) : ∀ {ys : List Ty} {w : World} {ρ : Corr}, Facing ρ w b c →
    (∀ x ∈ xs, ρ.ty x x) → (∀ y ∈ ys, ρ.ty y y) → List.Forall₂ (w.Variant n (s.bind b c)) xs ys →
    ∃ ys' w' σ, ys.mapM (Ty.substBinder fuel c b) w = .ok (ys', w') ∧ w ≤ w' ∧ ρ ≤ σ ∧ σ.Matches w' w' ∧
      List.Forall₂ (fun x y' => σ.ty y' y' ∧ Conforms erased w' x y' ∧ Conforms erased w' y' x) xs ys' := by
  induction xs with
  | nil =>
    rintro _ w ρ h - - ⟨⟩
    exact ⟨[], w, ρ, rfl, le_rfl, le_rfl, h.selves, .nil⟩
  | cons x xs ih =>
    rintro _ w ρ h kxs kys (_ | ⟨hxy, hxys⟩)
    have kx := kxs x (.head _)
    obtain ⟨y', w₁, σ, hr, hle, hσ, hMσ, ky', h₁, h₂⟩ := h.conform hn hs hfuel kx (kys _ (.head _)) hxy
    obtain ⟨ys', w₂, τ, hrs, hle', hτ, hMτ, hall⟩ := ih (h.later hle hσ hMσ) (fun x hx => hσ.ty (kxs x (.tail _ hx)))
      (fun y hy => hσ.ty (kys y (.tail _ hy))) (hxys.imp fun _ _ h => h.grow hle)
    have hlater := hMσ.grow le_rfl hle'
    refine ⟨y' :: ys', w₂, τ, ?_, hle.trans hle', hσ.trans hτ, hMτ, .cons ⟨hτ.ty ky', ?_, ?_⟩ hall⟩
    · rw [List.mapM_cons, bind_run hr, bind_run hrs]
      rfl
    · exact h₁.transport hlater (hσ.ty kx) ky'
    · exact h₂.transport hlater ky' (hσ.ty kx)

/-- The results, the second one opened. -/
theorem Facing.tells_results (h : Facing ρ w b c) (kx : ρ.ty x x) (ky : ρ.ty y y)
    (hxy : w.Variant n (s.bind b c) x y) (hv : w ≤ v) :
    Tells erased v (do asking (Conforms erased) x (← Ty.substBinder fuel c b y)) True := by
  refine .lift_bind fun v₁ hv₁ => ?_
  have hle := hv.trans hv₁
  obtain ⟨y', v₂, σ, hr, hle', hσ, hMσ, ky', h₁, -⟩ := (h.grow hle).conform hn hs hfuel kx ky (hxy.grow hle)
  exact ⟨y', v₂, hr, hle', (tells_asking carried_conforms hMσ (hσ.ty kx) ky').congr (by simp [h₁])⟩

section Steps

variable {d e : Binder} (h : Facing ρ w b c) (hd : w.binder? b = some d) (he : w.binder? c = some e)
  (kd : (∀ u ∈ d.infos, ρ.ty u u) ∧ ρ.ty d.result d.result) (ke : (∀ u ∈ e.infos, ρ.ty u u) ∧ ρ.ty e.result e.result)
  (hinfos : List.Forall₂ (w.Variant n (s.bind b c)) d.infos e.infos)
  (hresult : w.Variant n (s.bind b c) d.result e.result) (kx : ρ.ty x x) (ky : ρ.ty y y) {m : Nat} (hm : m ≤ fuel)
  (hxy : w.Variant m s x y)
include h hd he kd ke hinfos hresult kx ky hm hxy

theorem Facing.tells_methods (hkind : e.kind = d.kind) :
    Tells erased w (methods fuel (asking (Conforms erased)) x b y c) True := by
  obtain ⟨names, hx, hy⟩ := Variant.signatures h.opens h.selves h.standard hs hm kx ky hxy
  have hflags : ¬ d.flags.implicitArgs ≠ e.flags.implicitArgs := by simp [Binder.flags, hkind]
  refine .world_bind fun v hv => ?_
  rw [hv.binder hd, hv.binder he]
  dsimp only
  rw [infosUnder, mapM_lift]
  refine .lift_bind fun v₁ hv₁ => ?_
  have hle₁ := hv.trans hv₁
  obtain ⟨formals, v₂, σ, hr, hv₂, hσ, hMσ, hformals⟩ := (h.grow hle₁).conform_list hn hs hfuel d.infos kd.1 ke.1
    (hinfos.imp fun _ _ h => h.grow hle₁)
  have hsame := tells_sameParams hMσ (fun u hu => hσ.ty (kd.1 u hu)) hformals d.flags.foreign e.flags.foreign
  refine ⟨formals, v₂, hr, hv₂, .lift_bind fun v₃ hv₃ => ?_⟩
  have hle₃ := (hle₁.trans hv₂).trans hv₃
  obtain ⟨sig, v₄, hsig, hv₄, hnames⟩ := hx v₃ hle₃
  refine ⟨sig, v₄, hsig, hv₄, .lift_bind fun v₅ hv₅ => ?_⟩
  obtain ⟨sig', v₆, hsig', hv₆, hnames'⟩ := hy v₅ ((hle₃.trans hv₄).trans hv₅)
  refine ⟨sig', v₆, hsig', hv₆, ?_⟩
  have hmatches : ¬ (!sig.matches sig') = true := by simp [Signature.matches, hnames, hnames']
  rw [if_neg hmatches, if_neg hflags]
  have hle₆ := (hv₃.trans hv₄).trans (hv₅.trans hv₆)
  have hresults := h.tells_results hn hs hfuel kd.2 ke.2 hresult ((hle₁.trans hv₂).trans hle₆)
  exact ((hsame.later hle₆).andThen hresults).congr (by simp)

theorem Facing.tells_universals (hnames : e.names = d.names) :
    Tells erased w (universals fuel (asking (Conforms erased)) x b y c) True := by
  obtain ⟨names, hx, hy⟩ := Variant.signatures h.opens h.selves h.standard hs hm kx ky hxy
  refine .world_bind fun v hv => ?_
  rw [hv.binder hd, hv.binder he]
  refine .lift_bind fun v₁ hv₁ => ?_
  obtain ⟨sig, v₂, hsig, hv₂, hsignames⟩ := hx v₁ (hv.trans hv₁)
  refine ⟨sig, v₂, hsig, hv₂, .lift_bind fun v₃ hv₃ => ?_⟩
  obtain ⟨sig', v₄, hsig', hv₄, hsignames'⟩ := hy v₃ (((hv.trans hv₁).trans hv₂).trans hv₃)
  refine ⟨sig', v₄, hsig', hv₄, ?_⟩
  have hmatches : ¬ (!sig.matches sig' || d.arity ≠ e.arity) = true := by
    simp [Signature.matches, hsignames, hsignames', Binder.arity, hnames]
  rw [if_neg hmatches]
  have hle₄ := ((hv.trans hv₁).trans hv₂).trans (hv₃.trans hv₄)
  have hresults := h.tells_results hn hs hfuel kd.2 ke.2 hresult hle₄
  refine (Tells.andThen (tells_allM _ ?_) hresults).congr (by simp)
  rintro ⟨u, u'⟩ hu
  have hvariant := (List.forall₂_iff_zip.1 hinfos).2 hu
  have ku := kd.1 u (List.of_mem_zip hu).1
  refine .lift_bind fun v₅ hv₅ => ?_
  have hle₅ := hle₄.trans hv₅
  obtain ⟨r, v₆, σ, hr, hv₆, hσ, hMσ, kr, h₁, h₂⟩ := (h.grow hle₅).conform hn hs hfuel ku
    (ke.1 u' (List.of_mem_zip hu).2) (hvariant.grow hle₅)
  exact ⟨r, v₆, hr, hv₆, tells_same carried_conforms hMσ (hσ.ty ku) kr h₁.present.1 h₁.present.2 h₁ h₂⟩

end Steps

end Binders

/-! ## Variants of every height -/

section Heights

variable {erased : Bool} {w : World} {ρ : Corr} {s : Pairing} {n : Nat} {x y : Ty}

/-- Two types on binders that face each other, and what is inside those is in each other's place. -/
theorem Facing.conforms (hn : ConformAt erased n) (hs : Plain s) {b c : BinderId} {d e : Binder} (h : Facing ρ w b c)
    (hx : w.shape? x = some (d.kind.shape b)) (hy : w.shape? y = some (e.kind.shape c)) (hd : w.binder? b = some d)
    (he : w.binder? c = some e) (hkind : e.kind = d.kind) (hnames : e.names = d.names)
    (hinfos : List.Forall₂ (w.Variant n (s.bind b c)) d.infos e.infos)
    (hresult : w.Variant n (s.bind b c) d.result e.result) (kx : ρ.ty x x) (ky : ρ.ty y y)
    (hxy : w.Variant (n + 1) s x y) : Conforms erased w x y := by
  obtain ⟨-, kd⟩ := known_inside h.opens h.selves kx hx hd
  obtain ⟨-, ke⟩ := known_inside h.opens h.selves ky hy he
  have hmethods : Tells erased w (methods (n + 1) (asking (Conforms erased)) x b y c) True :=
    h.tells_methods hn hs (Nat.le_succ n) hd he kd ke hinfos hresult kx ky le_rfl hxy hkind
  have huniversals : Tells erased w (universals (n + 1) (asking (Conforms erased)) x b y c) True :=
    h.tells_universals hn hs (Nat.le_succ n) hd he kd ke hinfos hresult kx ky le_rfl hxy hnames
  have hpx := hxy.present h.standard
  have hpy := hxy.symm.present h.standard
  rw [hkind] at hy
  cases hk : d.kind with
  | universal =>
    rw [hk] at hx hy
    have hthird : Tells erased w (third (n + 1) (asking (Conforms erased)) x y) True := by
      refine .world_bind fun v hv => ?_
      rw [shape_of_shape? (hv.shape hx), shape_of_shape? (hv.shape hy)]
      exact huniversals.later hv
    exact conforms_of_third h.selves kx ky hx hy hpx hpy ⟨rfl, rfl⟩ rfl hthird trivial
  | method =>
    rw [hk] at hx hy
    have hthird : Tells erased w (third (n + 1) (asking (Conforms erased)) x y) True := by
      refine .world_bind fun v hv => ?_
      rw [shape_of_shape? (hv.shape hx), shape_of_shape? (hv.shape hy)]
      exact hmethods.later hv
    exact conforms_of_third h.selves kx ky hx hy hpx hpy ⟨rfl, rfl⟩ rfl hthird trivial

/-- Types of one layer conform to each other if their parts do. -/
theorem conforms_of_layer (hn : ConformAt erased n) (ho : ρ.opens) (hM : ρ.Matches w w) (hw : w.Standard)
    (hpre : w.shape? .noPrefix = some (.fixed .noPrefix)) (hs : Plain s) {d e : Shape} (hx : w.shape? x = some d)
    (hy : w.shape? y = some e) (hde : Shape.Over (w.Variant n s) d e) (hd : ∀ a ∈ d.operands, w.Unfolds a)
    (he : ∀ a ∈ e.operands, w.Unfolds a) (kx : ρ.ty x x) (ky : ρ.ty y y) (hpx : x.present) (hpy : y.present) :
    Conforms erased w x y := by
  have hpart {v : World} {a c : Ty} (hv : w ≤ v) (ka : ρ.ty a a) (kc : ρ.ty c c) (hac : w.Variant n s a c) :
      Conforms erased v a c :=
    hn ho (hM.grow hv hv) (hw.grow hv) (hv.shape hpre) ka kc hs (hac.grow hv)
  cases hde with
  | named h sym =>
    cases hM.parts kx hx with | named ka =>
    cases hM.parts ky hy with | named kc =>
    exact conforms_of_prefixes hM kx ky hpx hpy (by rw [shape_of_shape? hx]; rfl) (by rw [shape_of_shape? hy]; rfl)
      (hpart le_rfl ka kc h)
  | path h sym =>
    cases hM.parts kx hx with | path ka =>
    cases hM.parts ky hy with | path kc =>
    exact conforms_of_prefixes hM kx ky hpx hpy (by rw [shape_of_shape? hx]; rfl) (by rw [shape_of_shape? hy]; rfl)
      (hpart le_rfl ka kc h)
  | refined h name h' =>
    cases hM.parts kx hx with | refined ka _ kb =>
    cases hM.parts ky hy with | refined kc _ kd =>
    exact conforms_of_refined hM hw kx ky hx hy (he _ (List.mem_singleton.2 rfl)) (hpart le_rfl ka kc h)
      fun v hv => hpart hv kb kd h'
  | inter _ _ h h' =>
    cases hM.parts kx hx with | inter ka kb =>
    cases hM.parts ky hy with | inter kc kd =>
    exact conforms_of_inters hM hw kx ky hx hy ⟨hd _ (List.mem_pair.2 (.inl rfl)), hd _ (List.mem_pair.2 (.inr rfl))⟩
      ⟨he _ (List.mem_pair.2 (.inl rfl)), he _ (List.mem_pair.2 (.inr rfl))⟩ (hpart le_rfl ka kc h)
      (hpart le_rfl kb kd h')
  | union _ _ h h' =>
    cases hM.parts kx hx with | union ka kb =>
    cases hM.parts ky hy with | union kc kd =>
    exact conforms_of_unions hM hw kx ky hx hy ⟨hd _ (List.mem_pair.2 (.inl rfl)), hd _ (List.mem_pair.2 (.inr rfl))⟩
      (hpart le_rfl ka kc h) (hpart le_rfl kb kd h')
  | byName h =>
    cases hM.parts kx hx with | byName ka =>
    cases hM.parts ky hy with | byName kc =>
    exact conforms_of_results hM hw kx ky hx hy (hpart le_rfl ka kc h)
  | bounds h h' =>
    cases hM.parts kx hx with | bounds ka kb =>
    cases hM.parts ky hy with | bounds kc kd =>
    have hlow : Conforms erased w _ _ := hn ho hM hw hpre kc ka (fun p q h => (hs q p h).symm) h.symm
    exact conforms_of_ends hM hw kx ky hx hy hlow (hpart le_rfl kb kd h')

/-- **Variants conform to each other.** The induction is on the height, and the cases are the layers. -/
theorem conformAt (n : Nat) : ConformAt erased n := by
  induction n with
  | zero =>
    intro w ρ s x y _ _ _ _ _ _ _ h
    exact h.elim
  | succ n ih =>
    intro w ρ s x y ho hM hw hpre kx ky hs h
    have hpx := h.present hw
    have hpy := h.symm.present hw
    have hxy := h
    cases h with
    | leaf _ _ eq =>
      cases eq
      exact .refl hpx
    | param i rel _ _ shape₁ shape₂ =>
      cases hs _ _ rel
      exact TypeTable.shape?_injective shape₁ shape₂ ▸ .refl hpx
    | layer shape₁ shape₂ parts operands₁ operands₂ =>
      exact conforms_of_layer ih ho hM hw hpre hs shape₁ shape₂ parts operands₁ operands₂ kx ky hpx hpy
    | @binder b c d e shape₁ shape₂ binder₁ binder₂ _ _ kind names infos result =>
      by_cases hcb : c = b
      · cases hcb
        exact TypeTable.shape?_injective shape₁ (kind ▸ shape₂) ▸ .refl hpx
      · have hfacing : Facing ρ w b c := by
          refine ⟨ho, hM, hw, hpre, hcb, (known_inside ho hM kx shape₁ binder₁).1, (known_inside ho hM ky shape₂ binder₂).1,
            d.kind, binderKind?_of_binder? binder₁, ?_⟩
          rw [binderKind?_of_binder? binder₂, kind]
        exact hfacing.conforms ih hs shape₁ shape₂ binder₁ binder₂ kind names infos result kx ky hxy

end Heights

end CompareM

end Conformance
