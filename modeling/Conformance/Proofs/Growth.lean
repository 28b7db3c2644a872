import Mathlib.Order.Basic
import Conformance.Cascade

/-!
# What computations on types leave alone

Building, looking up and rewriting types adds to the world and takes nothing away: every handle given out before keeps
its meaning (`w ≤ w'`, see `World.Extends`), and no rule of use is broken on the way, so that a computation that gives
no answer has run out of fuel. `Grows` says both of a computation on the world, and of one that does not starve that it
gives an answer: walks over declarations do (`grows_run`). `Keeps I` says them of a computation that also carries a
state, and that the state satisfies `I` afterwards if it did before.
-/

namespace Conformance

/-- `w'` holds what `w` holds, under the same handles; only types, binders and skolems were added. -/
structure World.Extends (w w' : World) : Prop where
  shape : ∀ {t : Ty} {d : Shape}, w.shape? t = some d → w'.shape? t = some d
  binder : ∀ {b : BinderId} {d : Binder}, w.binder? b = some d → w'.binder? b = some d
  vars : w'.vars = w.vars
  skolems : w.skolems ≤ w'.skolems
  decls : w'.decls = w.decls

instance : Preorder World where
  le := World.Extends
  le_refl _ := ⟨id, id, rfl, Nat.le_refl _, rfl⟩
  le_trans _ _ _ h₁ h₂ :=
    ⟨h₂.shape ∘ h₁.shape, h₂.binder ∘ h₁.binder, h₂.vars.trans h₁.vars, Nat.le_trans h₁.skolems h₂.skolems,
      h₂.decls.trans h₁.decls⟩

namespace World

theorem shape_of_shape? {w : World} {t : Ty} {d : Shape} (h : w.shape? t = some d) : w.shape t = d := by
  simp only [World.shape, TypeTable.shape]
  exact congrArg (Option.getD · _) h

theorem shape?_of_shape {w : World} {t : Ty} {d : Shape} (h : w.shape t = d) (hd : d ≠ .fixed .noType) :
    w.shape? t = some d := by
  cases ht : w.shape? t with
  | none =>
    rw [World.shape, TypeTable.shape, show w.types.shape? t = none from ht] at h
    exact absurd h.symm hd
  | some e => rw [← h, shape_of_shape? ht]

theorem boundsParts?_eq_some_iff {w : World} {t lo hi : Ty} :
    w.boundsParts? t = some (lo, hi) ↔ w.shape? t = some (.bounds lo hi) := by
  unfold boundsParts?
  split
  · next h => simp [h]
  · next h => simpa using fun hd => h _ _ hd

theorem binders_size_le {w w' : World} (h : w ≤ w') : w.binders.size ≤ w'.binders.size := by
  cases hn : w.binders.size with
  | zero => exact Nat.zero_le _
  | succ n =>
    have hlt : n < w.binders.size := by omega
    have hlast : w.binder? ⟨n⟩ = some w.binders[n] := Array.getElem?_eq_getElem hlt
    exact (Array.getElem?_eq_some_iff.1 (h.binder hlast)).1

end World

/-! ## Computations on the world -/

section Worlds

variable {α β : Type} {starves : Prop}

/-- How a computation that starts in `w` may end: in an extension of `w` or, if it `starves`, out of fuel. -/
def Grown (starves : Prop) (w : World) : Except Halt (α × World) → Prop
  | .ok (_, w') => w ≤ w'
  | .error .outOfFuel => starves
  | .error (.fault _) => False

/-- The computation only adds to the world and breaks no rule of use; unless it `starves` it comes to an end. -/
def Grows (starves : Prop) (m : WorldM α) : Prop := ∀ w, Grown starves w (m w)

theorem Grown.ok {w w' : World} {x : Except Halt (α × World)} {a : α} (h : Grown starves w x) (hx : x = .ok (a, w')) :
    w ≤ w' := by
  subst hx; exact h

/-- A computation that does not starve gives a result. -/
theorem Grows.total {m : WorldM α} (hm : Grows False m) (w : World) : ∃ a w', m w = .ok (a, w') ∧ w ≤ w' := by
  match hr : m w, hm w with
  | .ok (a, w'), h => exact ⟨a, w', rfl, h⟩
  | .error .outOfFuel, h => exact h.elim

theorem Grows.le_of_ok {m : WorldM α} (hm : Grows True m) {w w' : World} {a : α} (h : m w = .ok (a, w')) : w ≤ w' :=
  (hm w).ok h

theorem Grows.error {m : WorldM α} (hm : Grows True m) {w : World} {e : Halt} (h : m w = .error e) : e = .outOfFuel := by
  have hgrown := hm w
  rw [h] at hgrown
  cases e with
  | outOfFuel => rfl
  | fault f => exact hgrown.elim

/-- The computation keeps what `w` holds, wherever in the extensions of `w` it starts. -/
def GrowsFrom (starves : Prop) (w : World) (m : WorldM α) : Prop := ∀ w', w ≤ w' → Grown starves w (m w')

theorem GrowsFrom.of_grows {w : World} {m : WorldM α} (hm : Grows starves m) : GrowsFrom starves w m := by
  intro w' h
  match m w', hm w' with
  | .ok _, hx => exact le_trans h hx
  | .error .outOfFuel, h => exact h

theorem GrowsFrom.bind {w : World} {m : WorldM α} {f : α → WorldM β} (hm : GrowsFrom starves w m)
    (hf : ∀ a, GrowsFrom starves w (f a)) : GrowsFrom starves w (m >>= f) := by
  intro w' h
  show Grown starves w (Except.bind (m w') fun p => f p.1 p.2)
  match m w', hm w' h with
  | .ok (a, w''), hx => exact hf a w'' hx
  | .error .outOfFuel, h => exact h

theorem Grows.pure (a : α) : Grows starves (pure a : WorldM α) := fun _ => le_rfl

theorem Grows.bind {m : WorldM α} {f : α → WorldM β} (hm : Grows starves m) (hf : ∀ a, Grows starves (f a)) :
    Grows starves (m >>= f) :=
  fun w => GrowsFrom.bind (.of_grows hm) (fun a => .of_grows (hf a)) w le_rfl

theorem Grows.get_bind {f : World → WorldM β} (hf : ∀ w, Grows starves (f w)) : Grows starves (get >>= f) :=
  .bind (fun _ => le_rfl) hf

theorem get_bind_run (f : World → WorldM α) (w : World) : (get >>= f) w = f w w := rfl

theorem bind_run {m : WorldM α} {f : α → WorldM β} {a : α} {w v : World} (h : m w = .ok (a, v)) :
    (m >>= f) w = f a v := by
  show Except.bind (m w) _ = _
  rw [h]
  rfl

theorem bind_ok {w w' : World} {m : WorldM α} {f : α → WorldM β} {b : β}
    (h : (m >>= f) w = .ok (b, w')) : ∃ a w₁, m w = .ok (a, w₁) ∧ f a w₁ = .ok (b, w') := by
  change Except.bind (m w) _ = _ at h
  match hm : m w with
  | .error _ => rw [hm] at h; cases h
  | .ok (a, w₁) => rw [hm] at h; exact ⟨a, w₁, rfl, h⟩

theorem Grows.throw : Grows True (throw .outOfFuel : WorldM α) := fun _ => trivial

theorem Grows.ite {p : Prop} [Decidable p] {m₁ m₂ : WorldM α} (h₁ : Grows starves m₁) (h₂ : Grows starves m₂) :
    Grows starves (if p then m₁ else m₂) := by
  split
  · exact h₁
  · exact h₂

theorem Grows.mapM {f : α → WorldM β} (hf : ∀ a, Grows starves (f a)) (l : List α) : Grows starves (l.mapM f) := by
  induction l with
  | nil => rw [List.mapM_nil]; exact .pure _
  | cons a l ih => rw [List.mapM_cons]; exact .bind (hf a) fun _ => .bind ih fun _ => .pure _

theorem Grows.orElse {x y : WorldM Bool} (hx : Grows starves x) (hy : Grows starves y) : Grows starves (x <||> y) :=
  .bind hx fun b => by cases b <;> [exact hy; exact .pure _]

theorem le_intern (d : Shape) (w : World) : w ≤ { w with types := (w.types.intern d).2 } :=
  ⟨TypeTable.shape?_intern_of_shape? d, id, rfl, Nat.le_refl _, rfl⟩

theorem grows_intern (d : Shape) : Grows starves (WorldM.intern d) := le_intern d

theorem le_freshSkolem (w : World) : w ≤ { w with skolems := w.skolems + 1 } := ⟨id, id, rfl, Nat.le_succ _, rfl⟩

theorem grows_freshSkolem : Grows starves WorldM.freshSkolem := le_freshSkolem

theorem grows_freshSnapshot : Grows starves WorldM.freshSnapshot := fun _ => ⟨id, id, rfl, Nat.le_refl _, rfl⟩

end Worlds

/-! ## Building types -/

theorem grows_named (pre : Ty) (s : Symbol) : Grows starves (Ty.named pre s) := grows_intern _

theorem grows_skolem (t : Ty) : Grows starves t.skolem := .bind grows_freshSkolem fun _ => grows_intern _

theorem grows_ref (s : Symbol) : Grows starves s.ref := grows_named _ _

/-- The reference to a symbol that was given out before. -/
theorem ref_run {w : World} {t : Ty} {s : Symbol} (ht : w.shape? t = some (.named .noPrefix s)) :
    s.ref w = .ok (t, w) := by
  show Except.ok ((w.types.intern _).1, { w with types := (w.types.intern _).2 }) = _
  rw [TypeTable.intern_of_shape? ht]

theorem grows_inter (a b : Ty) : Grows starves (Ty.inter a b) :=
  .ite (.pure _) (.ite (.pure _) (.ite (.pure _) (.ite (.pure _) (grows_intern _))))

theorem grows_union (a b : Ty) : Grows starves (Ty.union a b) :=
  .ite (.pure _) (.ite (.pure _) (.ite (.pure _) (.ite (.pure _) (grows_intern _))))

theorem grows_bounds (lo hi : Ty) : Grows starves (Ty.bounds lo hi) := grows_intern _

theorem grows_asBounds (info : Ty) : Grows starves info.asBounds :=
  .get_bind fun _ => .ite (grows_bounds _ _) (.pure _)

theorem grows_endsOf (info : Ty) : Grows starves info.endsOf :=
  .bind (grows_asBounds _) fun _ => .get_bind fun _ => .pure _

theorem grows_boundsInter (a b : Ty) : Grows starves (Ty.boundsInter a b) :=
  .bind (grows_endsOf _) fun _ => .bind (grows_endsOf _) fun _ =>
    .bind (grows_union _ _) fun _ => .bind (grows_inter _ _) fun _ => grows_bounds _ _

theorem grows_paramType (p : Param) : Grows starves p.type := .get_bind fun _ => by split <;> exact grows_intern _

theorem grows_binderType (b : BinderId) : Grows starves b.type := .get_bind fun _ => by split <;> exact grows_intern _

/-! ## What names and single values stand for -/

theorem grows_infoOf (t : Ty) : Grows starves t.infoOf := by
  refine .get_bind fun w => ?_
  split
  · split
    · exact grows_intern _
    · exact grows_bounds _ _
    all_goals exact .pure _
  all_goals exact .pure _

theorem grows_upperBound (t : Ty) : Grows starves t.upperBound :=
  .bind (grows_infoOf t) fun _ => .get_bind fun _ => .pure _

theorem grows_underlying (t : Ty) : Grows starves t.underlying := by
  refine .get_bind fun w => ?_
  split
  case h_2 => exact grows_ref _
  all_goals exact .pure _

theorem grows_ofUnion (left right : Ty) : Grows starves (Member.ofUnion left right) := by
  refine .get_bind fun w => ?_
  split
  · exact .bind (grows_inter _ _) fun _ => .bind (grows_union _ _) fun _ => grows_bounds _ _
  · exact grows_union _ _

/-! ## Substitution -/

section Rebuilding

variable {f : Ty → WorldM Ty} {rename : BinderId → BinderId → Ty → WorldM Ty}

theorem grows_rebuild₁ (hf : ∀ a, Grows starves (f a)) {make : Ty → WorldM Ty}
    (hmake : ∀ a, Grows starves (make a)) (t old : Ty) : Grows starves (Ty.rebuild₁ f t old make) :=
  .bind (hf _) fun _ => .ite (.pure _) (hmake _)

theorem grows_rebuild₂ (hf : ∀ a, Grows starves (f a)) {make : Ty → Ty → WorldM Ty}
    (hmake : ∀ a b, Grows starves (make a b)) (t old₁ old₂ : Ty) : Grows starves (Ty.rebuild₂ f t old₁ old₂ make) :=
  .bind (hf _) fun _ => .bind (hf _) fun _ => .ite (.pure _) (hmake _ _)

/-- Filling in a binder that `w` does not hold leaves what `w` holds alone. -/
theorem le_fillBinder {w w' : World} {n : Nat} (h : w ≤ w') (hn : w.binders.size ≤ n) (infos : List Ty) (result : Ty) :
    w ≤ { w' with binders := w'.binders.modify n fun d => { d with infos, result } } := by
  refine ⟨h.shape, fun {b d} hb => ?_, h.vars, h.skolems, h.decls⟩
  have hlt : b.id < w.binders.size := (Array.getElem?_eq_some_iff.1 hb).1
  show (w'.binders.modify n _)[b.id]? = some d
  rw [Array.getElem?_modify, if_neg (by omega)]
  exact h.binder hb

theorem le_freshBinder (w : World) (d : Binder) : w ≤ { w with binders := w.binders.push d } := by
  refine ⟨id, fun {b d} hb => ?_, rfl, Nat.le_refl _, rfl⟩
  have hlt : b.id < w.binders.size := (Array.getElem?_eq_some_iff.1 hb).1
  show (w.binders.push _)[b.id]? = some d
  rw [Array.getElem?_push, if_neg (Nat.ne_of_lt hlt)]
  exact hb

/-- A fresh binder is filled in after its infos and result were made; no world from before holds it. -/
theorem grows_fillFresh {α : Type} {kind : BinderKind} {names : List String} {g : BinderId → Ty → WorldM Ty}
    (hg : ∀ b a, Grows starves (g b a)) (infos : List Ty) (result : Ty) {k : BinderId → WorldM α}
    (hk : ∀ b, Grows starves (k b)) :
    Grows starves (do
      let fresh ← WorldM.freshBinder kind names
      let infos ← infos.mapM (g fresh)
      let result ← g fresh result
      WorldM.fillBinder fresh infos result
      k fresh) := by
  intro w
  let fresh : BinderId := ⟨w.binders.size⟩
  have hfill : GrowsFrom starves w (do
      let infos ← infos.mapM (g fresh)
      let result ← g fresh result
      WorldM.fillBinder fresh infos result
      k fresh) := by
    refine .bind (.of_grows (.mapM (hg _) infos)) fun infos' => .bind (.of_grows (hg _ _)) fun result' => ?_
    exact .bind (fun w' h => le_fillBinder h (Nat.le_refl w.binders.size) infos' result') fun _ => .of_grows (hk _)
  exact hfill _ (le_freshBinder w { kind, names })

theorem grows_rebuildBinder (hf : ∀ a, Grows starves (f a)) (hr : ∀ b c a, Grows starves (rename b c a)) (t : Ty)
    (b : BinderId) : Grows starves (Ty.rebuildBinder f rename t b) := by
  refine .get_bind fun w => ?_
  split
  · exact .pure _
  · exact .bind (.mapM hf _) fun _ => .bind (hf _) fun _ => .ite (.pure _)
      (grows_fillFresh (fun c a => hr _ c a) _ _ fun _ => grows_binderType _)

theorem grows_mapChildren (hf : ∀ a, Grows starves (f a)) (hr : ∀ b c a, Grows starves (rename b c a)) (t : Ty) :
    Grows starves (Ty.mapChildren f rename t) := by
  refine .get_bind fun w => ?_
  split
  case h_4 | h_8 => exact grows_rebuild₂ hf (fun _ _ => grows_intern _) _ _ _
  case h_5 => exact grows_rebuild₂ hf grows_inter _ _ _
  case h_6 => exact grows_rebuild₂ hf grows_union _ _ _
  case h_9 | h_10 => exact grows_rebuildBinder hf hr _ _
  case h_11 => exact .pure _
  all_goals exact grows_rebuild₁ hf (fun _ => grows_intern _) _ _

end Rebuilding

theorem grows_substBinder (n : Nat) : ∀ (old new : BinderId) (t : Ty), Grows True (Ty.substBinder n old new t) := by
  induction n with
  | zero => exact fun _ _ _ => .throw
  | succ n ih =>
    intro old new t
    refine .ite (.pure _) (.get_bind fun w => ?_)
    split
    case h_3 => exact grows_mapChildren (ih old new) ih t
    all_goals exact .ite (grows_paramType _) (.pure _)

theorem grows_copy (n : Nat) (b : BinderId) : Grows True (b.copy n) := by
  refine .get_bind fun w => ?_
  split
  · exact .pure _
  · exact grows_fillFresh (fun fresh t => grows_substBinder n b fresh t) _ _ fun _ => .pure _

/-! ## Computations with a state -/

section States

variable {σ α β : Type} {I J K : σ → Prop} {starves : Prop}

/-- How a computation with a state that starts in `w` may end: in an extension of `w` and a state with `J`, or out of
fuel if it `starves`. -/
def Reached (starves : Prop) (J : σ → Prop) (w : World) : Except Halt ((α × σ) × World) → Prop
  | .ok ((_, s), w') => J s ∧ w ≤ w'
  | .error .outOfFuel => starves
  | .error (.fault _) => False

/-- From states with `I` the computation leads to states with `J`; it only adds to the world and breaks no rule of
use, and unless it `starves` it comes to an end. -/
def Leads (starves : Prop) (I J : σ → Prop) (m : StateT σ WorldM α) : Prop := ∀ s w, I s → Reached starves J w (m s w)

/-- The computation leads from states with `I` back to states with `I`, if it comes to an end. -/
abbrev Keeps (I : σ → Prop) (m : StateT σ WorldM α) : Prop := Leads True I I m

theorem Reached.ok {w w' : World} {x : Except Halt ((α × σ) × World)} {a : α} {s : σ} (h : Reached starves J w x)
    (hx : x = .ok ((a, s), w')) : J s ∧ w ≤ w' := by
  subst hx; exact h

theorem Reached.error {w : World} {x : Except Halt ((α × σ) × World)} {e : Halt} (h : Reached starves J w x)
    (hx : x = .error e) : e = .outOfFuel := by
  subst hx
  cases e with
  | outOfFuel => rfl
  | fault f => exact absurd h id

theorem run_get_bind (f : σ → StateT σ WorldM β) (s : σ) (w : World) : (get >>= f) s w = f s s w := rfl

theorem run_bind {m : StateT σ WorldM α} {f : α → StateT σ WorldM β} {a : α} {s s' : σ} {w w' : World}
    (h : m s w = .ok ((a, s'), w')) : (m >>= f) s w = f a s' w' := by
  show Except.bind (m s w) _ = _
  rw [h]
  rfl

theorem run_lift {m : WorldM α} {a : α} {w w' : World} (h : m w = .ok (a, w')) (s : σ) :
    (liftM m : StateT σ WorldM α) s w = .ok ((a, s), w') := by
  show Except.bind (m w) _ = _
  rw [h]
  rfl

theorem run_bind_ok {m : StateT σ WorldM α} {f : α → StateT σ WorldM β} {s : σ} {w : World} {r : (β × σ) × World}
    (h : (m >>= f) s w = .ok r) : ∃ a s' w', m s w = .ok ((a, s'), w') ∧ f a s' w' = .ok r := by
  change Except.bind (m s w) _ = _ at h
  match hm : m s w with
  | .error _ => rw [hm] at h; cases h
  | .ok ((a, s'), w') => rw [hm] at h; exact ⟨a, s', w', rfl, h⟩

theorem run_lift_ok {m : WorldM α} {a : α} {s s' : σ} {w w' : World}
    (h : (liftM m : StateT σ WorldM α) s w = .ok ((a, s'), w')) : m w = .ok (a, w') ∧ s' = s := by
  change Except.bind (m w) _ = _ at h
  match hm : m w with
  | .error _ => rw [hm] at h; cases h
  | .ok (a, w') => rw [hm] at h; cases h; exact ⟨rfl, rfl⟩

theorem run_lift_bind_ok {m : WorldM α} {f : α → StateT σ WorldM β} {s : σ} {w : World} {r : (β × σ) × World}
    (h : ((liftM m : StateT σ WorldM α) >>= f) s w = .ok r) : ∃ a w', m w = .ok (a, w') ∧ f a s w' = .ok r := by
  obtain ⟨a, s', w', hm, hf⟩ := run_bind_ok h
  obtain ⟨hworld, rfl⟩ := run_lift_ok hm
  exact ⟨a, w', hworld, hf⟩

theorem Leads.bind {m : StateT σ WorldM α} {f : α → StateT σ WorldM β} (hm : Leads starves I J m)
    (hf : ∀ a, Leads starves J K (f a)) : Leads starves I K (m >>= f) := by
  intro s w hs
  show Reached starves K w (Except.bind (m s w) fun p => f p.1.1 p.1.2 p.2)
  match m s w, hm s w hs with
  | .error .outOfFuel, h => exact h
  | .ok ((a, s'), w'), ⟨hs', hle⟩ =>
    show Reached starves K w (f a s' w')
    match f a s' w', hf a s' w' hs' with
    | .ok _, h => exact ⟨h.1, le_trans hle h.2⟩
    | .error .outOfFuel, h => exact h

theorem Leads.pure (a : α) : Leads starves I I (pure a : StateT σ WorldM α) := fun _ _ hs => ⟨hs, le_rfl⟩

theorem Leads.mono {I' J' : σ → Prop} {m : StateT σ WorldM α} (h : Leads starves I J m) (hI : ∀ s, I' s → I s)
    (hJ : ∀ s, J s → J' s) : Leads starves I' J' m := by
  intro s w hs
  match m s w, h s w (hI s hs) with
  | .ok ((_, s'), _), h => exact ⟨hJ s' h.1, h.2⟩
  | .error .outOfFuel, h => exact h

theorem Leads.get_bind {f : σ → StateT σ WorldM β} (hf : ∀ s, I s → Leads starves (· = s) J (f s)) :
    Leads starves I J (get >>= f) := fun s w hs => hf s hs s w rfl

theorem Leads.modify (f : σ → σ) (h : ∀ s, I s → J (f s)) : Leads starves I J (modify f : StateT σ WorldM PUnit) :=
  fun s _ hs => ⟨h s hs, le_rfl⟩

theorem Leads.set (s' : σ) (h : J s') : Leads starves I J (set s' : StateT σ WorldM PUnit) := fun _ _ _ => ⟨h, le_rfl⟩

theorem Leads.run {m : StateT σ WorldM α} (h : Leads starves I J m) {s : σ} (hs : I s) : Grows starves (m.run s) := by
  intro w
  show Grown starves w (m s w)
  match m s w, h s w hs with
  | .ok _, h => exact h.2
  | .error .outOfFuel, h => exact h

theorem Leads.throw : Leads True I J (throw .outOfFuel : StateT σ WorldM α) := fun _ _ _ => trivial

theorem Leads.ite {p : Prop} [Decidable p] {m₁ m₂ : StateT σ WorldM α} (h₁ : Leads starves I J m₁)
    (h₂ : Leads starves I J m₂) : Leads starves I J (if p then m₁ else m₂) := by
  split
  · exact h₁
  · exact h₂

/-- A computation on the world alone leaves the state as it is. -/
theorem Leads.lift {m : WorldM α} (hm : Grows starves m) : Leads starves I I (liftM m : StateT σ WorldM α) := by
  intro s w hs
  show Reached starves I w (Except.bind (m w) fun p => .ok ((p.1, s), p.2))
  match m w, hm w with
  | .ok _, h => exact ⟨hs, h⟩
  | .error .outOfFuel, h => exact h

theorem Leads.world : Leads starves I I (liftM (get : WorldM World) : StateT σ WorldM World) := .lift fun _ => le_rfl

theorem Leads.orElse {x y : StateT σ WorldM Bool} (hx : Leads starves I I x) (hy : Leads starves I I y) :
    Leads starves I I (x <||> y) :=
  .bind hx fun b => by cases b <;> [exact hy; exact .pure _]

theorem Leads.andThen {x y : StateT σ WorldM Bool} (hx : Leads starves I I x) (hy : Leads starves I I y) :
    Leads starves I I (x <&&> y) :=
  .bind hx fun b => by cases b <;> [exact .pure _; exact hy]

theorem Leads.mapM {f : α → StateT σ WorldM β} (hf : ∀ a, Leads starves I I (f a)) (l : List α) :
    Leads starves I I (l.mapM f) := by
  induction l with
  | nil => rw [List.mapM_nil]; exact .pure _
  | cons a l ih => rw [List.mapM_cons]; exact .bind (hf a) fun _ => .bind ih fun _ => .pure _

theorem Leads.allM {f : α → StateT σ WorldM Bool} (hf : ∀ a, Leads starves I I (f a)) :
    ∀ l : List α, Leads starves I I (l.allM f)
  | [] => .pure _
  | a :: l => .bind (hf a) fun b => by cases b <;> [exact .pure _; exact Leads.allM hf l]

end States

/-! ## Guards -/

namespace Guard

variable {κ : Type} [DecidableEq κ]

/-- The part of a guard that is given back as it was found. -/
structure Stands (b : Bounds) (ks : List κ) (n : Nat) (g : Guard κ) : Prop where
  bounds : g.bounds = b
  openKeys : g.openKeys = ks
  depth : g.depth = n

/-- An attempt to enter opens the key, or leaves the guard as it is but for its counts. -/
theorem enter_cases {b : Bounds} {ks : List κ} {n : Nat} {g : Guard κ} (h : Stands b ks n g) (k : κ) :
    (∃ g', g.enter k = (.entered, g') ∧ Stands b (k :: ks) (n + 1) g') ∨
      ∃ e g', g.enter k = (e, g') ∧ e.isEntered = false ∧ Stands b ks n g' := by
  obtain ⟨rfl, rfl, rfl⟩ := h
  unfold Guard.enter
  dsimp only
  split
  · exact .inl ⟨_, rfl, rfl, rfl, rfl⟩
  · exact .inr ⟨_, _, rfl, rfl, rfl, rfl, rfl⟩
  · next e hne _ => exact .inr ⟨_, _, rfl, by simpa [Entry.isEntered] using hne, rfl, rfl, rfl⟩

/-- Keys are let in below the limit on depth only. -/
theorem depth_lt_of_enter {g g' : Guard κ} {k : κ} (h : g.enter k = (.entered, g')) :
    g.depth < g.bounds.depth.toNat := by
  have hverdict : { g with entries := Limits.tally g.entries }.verdict k = .entered := by
    simp only [enter] at h
    split at h
    · next hv => exact hv
    · simp at h
    · next hne _ => exact absurd (Prod.mk.injEq .. ▸ h).1 (by intro e; exact hne e)
  simp only [verdict] at hverdict
  split at hverdict
  · cases hverdict
  · split at hverdict
    · cases hverdict
    · omega

/-- The key entered last can be left. -/
theorem leave_last {b : Bounds} {k : κ} {ks : List κ} {n : Nat} {g : Guard κ} (h : Stands b (k :: ks) (n + 1) g) :
    ∃ g', g.leave k = .ok g' ∧ Stands b ks n g' := by
  refine ⟨{ g with openKeys := ks, depth := n }, ?_, h.bounds, rfl, rfl⟩
  simp [Guard.leave, Guard.isOpen, h.openKeys, h.depth]

end Guard

/-! ## Walks -/

section Walks

variable {α β : Type}

/-- A walk that starts `d` levels deep with `n` levels left: it stays within the guard's limit, or may starve. -/
def Admitted (starves : Prop) (n : Nat) (b : Guard.Bounds) (d : Nat) : Prop :=
  starves ∨ (b = .walk ∧ 0 < n ∧ Limits.walkDepth.toNat < d + n)

/-- The guard lets in only where levels are left, so they are not used up behind a type that was entered. -/
theorem Admitted.enter {starves : Prop} {n d : Nat} {b : Guard.Bounds} {ks : List Ty} {g g' : Guard Ty} {t : Ty}
    (h : Admitted starves (n + 1) b d) (hg : g.Stands b ks d) (he : g.enter t = (.entered, g')) :
    Admitted starves n b (d + 1) := by
  refine h.imp_right fun ⟨hb, _, hn⟩ => ⟨hb, ?_, by omega⟩
  have hdepth := Guard.depth_lt_of_enter he
  rw [hg.depth, hg.bounds, hb] at hdepth
  have hlimit : Guard.Bounds.walk.depth = Limits.walkDepth := rfl
  rw [hlimit] at hdepth
  omega

/-- Whatever is open when it starts with `n` levels left, the walk ends with the same types open. -/
def Balanced (starves : Prop) (n : Nat) (m : WalkM α) : Prop :=
  ∀ b ks d, Admitted starves n b d → Leads starves (Guard.Stands b ks d) (Guard.Stands b ks d) m

variable {starves : Prop} {n : Nat}

theorem Balanced.bind {m : WalkM α} {f : α → WalkM β} (hm : Balanced starves n m) (hf : ∀ a, Balanced starves n (f a)) :
    Balanced starves n (m >>= f) := fun b ks d h => .bind (hm b ks d h) fun a => hf a b ks d h

theorem Balanced.pure (a : α) : Balanced starves n (pure a : WalkM α) := fun _ _ _ _ => .pure a

theorem Balanced.lift {m : WorldM α} (hm : Grows starves m) : Balanced starves n (liftM m : WalkM α) :=
  fun _ _ _ _ => .lift hm

theorem Balanced.ite {p : Prop} [Decidable p] {m₁ m₂ : WalkM α} (h₁ : Balanced starves n m₁)
    (h₂ : Balanced starves n m₂) : Balanced starves n (if p then m₁ else m₂) :=
  fun b ks d h => .ite (h₁ b ks d h) (h₂ b ks d h)

theorem Balanced.orElse {x y : WalkM Bool} (hx : Balanced starves n x) (hy : Balanced starves n y) :
    Balanced starves n (x <||> y) := fun b ks d h => .orElse (hx b ks d h) (hy b ks d h)

theorem Balanced.andThen {x y : WalkM Bool} (hx : Balanced starves n x) (hy : Balanced starves n y) :
    Balanced starves n (x <&&> y) := fun b ks d h => .andThen (hx b ks d h) (hy b ks d h)

theorem Balanced.world_bind {f : World → WalkM β} (hf : ∀ w, Balanced starves n (f w)) :
    Balanced starves n (Walk.world >>= f) := .bind (fun _ _ _ _ => .world) hf

theorem balanced_inside (refused : α) (t : Ty) {body : WalkM α} (hbody : Balanced starves n body) :
    Balanced starves (n + 1) (Walk.inside refused t body) := by
  intro b ks d hd
  refine .get_bind fun g hg => ?_
  obtain ⟨g', he, hg'⟩ | ⟨e, g', he, hne, hg'⟩ := Guard.enter_cases hg t
  · have hbody := hbody b (t :: ks) (d + 1) (hd.enter hg he)
    rw [he]
    refine .bind (.set g' hg') fun _ => .bind hbody fun answer => .get_bind fun g'' hg'' => ?_
    obtain ⟨g₀, hl, hg₀⟩ := Guard.leave_last hg''
    rw [hl]
    show Leads starves _ _ ((set g₀ : WalkM PUnit) >>= fun _ => pure answer)
    exact .bind (.set g₀ hg₀) fun _ => .pure answer
  · rw [he]
    refine .bind (.set g' hg') fun _ => ?_
    simp only [hne]
    exact .pure refused

theorem balanced_descend (refused : α) {step : (Ty → WalkM α) → Ty → WalkM α}
    (hstep : ∀ n next, (∀ t, Balanced starves n (next t)) → ∀ t, Balanced starves n (step next t)) :
    ∀ (n : Nat) (t : Ty), Balanced starves n (Walk.descend refused step n t)
  | 0, _ => by
    rintro b ks d (hstarves | ⟨-, hn, -⟩)
    · exact fun _ _ _ => hstarves
    · exact absurd hn (Nat.lt_irrefl 0)
  | n + 1, t => balanced_inside refused t (hstep _ _ (balanced_descend refused hstep n) t)

/-- A walk that is balanced at each level ends with nothing open, so its guard can be given up. The guard refuses before
the levels run out, so the walk comes to an end. -/
theorem grows_run (refused : α) {step : (Ty → WalkM α) → Ty → WalkM α}
    (hstep : ∀ n next, (∀ t, Balanced starves n (next t)) → ∀ t, Balanced starves n (step next t)) (t : Ty) :
    Grows starves (Walk.run refused step t) := by
  have hwalk : Leads starves (Guard.Stands .walk [] 0) (Guard.Stands .walk [] 0)
      (Walk.descend refused step (Limits.walkDepth.toNat + 1) t) :=
    balanced_descend refused hstep _ t .walk [] 0 (.inr ⟨rfl, Nat.succ_pos _, by omega⟩)
  exact .bind (hwalk.run ⟨rfl, rfl, rfl⟩) fun _ => .bind (.pure ()) fun _ => .pure _

theorem Walk.run_world_bind (f : World → WalkM α) (g : Guard Ty) (w : World) : (Walk.world >>= f) g w = f w g w := rfl

theorem run_of_descend {refused a : α} {step : (Ty → WalkM α) → Ty → WalkM α} {t : Ty} {g : Guard Ty} {w w' : World}
    (h : Walk.descend refused step (Limits.walkDepth.toNat + 1) t { bounds := .walk } w = .ok ((a, g), w')) :
    Walk.run refused step t w = .ok (a, w') := by
  unfold Walk.run
  exact (bind_run h).trans rfl

theorem descend_of_run {refused a : α} {step : (Ty → WalkM α) → Ty → WalkM α} {t : Ty} {w w' : World}
    (h : Walk.run refused step t w = .ok (a, w')) :
    ∃ g, Walk.descend refused step (Limits.walkDepth.toNat + 1) t { bounds := .walk } w = .ok ((a, g), w') := by
  obtain ⟨⟨b, g⟩, v, hr, hrest⟩ := bind_ok h
  cases hrest
  exact ⟨g, hr⟩

theorem balanced_firstPresent {next : Ty → WalkM Ty} (h : ∀ t, Balanced starves n (next t)) :
    ∀ l : List Ty, Balanced starves n (Walk.firstPresent next l)
  | [] => .pure _
  | t :: l => .bind (h t) fun _ => .ite (.pure _) (balanced_firstPresent h l)

section Steps

variable {next : Ty → WalkM Ty} (h : ∀ t, Balanced starves n (next t))
include h

theorem balanced_ofClass (name : String) (cls : Symbol) : Balanced starves n (Member.ofClass name next cls) := by
  refine .world_bind fun w => ?_
  split
  · exact .bind (.lift (grows_ref _)) fun r => .lift (grows_infoOf r)
  · split
    · exact .pure _
    · exact balanced_firstPresent h _

theorem balanced_memberStep (name : String) (t : Ty) : Balanced starves n (Member.step name next t) := by
  refine .world_bind fun w => ?_
  split
  · exact .ite (balanced_ofClass h _ _) (.bind (.lift (grows_upperBound t)) h)
  · exact balanced_ofClass h _ _
  · exact .ite (.pure _) (h _)
  · exact .bind (h _) fun _ => .ite (.pure _) (h _)
  · exact .bind (h _) fun _ => .bind (h _) fun _ => .ite (.lift (grows_ofUnion _ _)) (.pure _)
  · exact h _
  · exact .ite (.bind (.lift (grows_underlying t)) h) (.pure _)

theorem balanced_baseTypeStep (cls : Symbol) (t : Ty) : Balanced starves n (BaseType.step cls next t) := by
  refine .world_bind fun w => ?_
  split
  · exact .ite (.pure _) (.ite (balanced_firstPresent h _) (.bind (.lift (grows_upperBound t)) h))
  · exact .bind (.lift (grows_named _ _)) h
  · exact .bind (h _) fun _ => .ite (.lift (grows_intern _)) (.pure _)
  · exact .bind (h _) fun _ => .bind (h _) fun _ => .ite (.lift (grows_inter _ _)) (.ite (.pure _) (.pure _))
  · exact .bind (h _) fun _ => .bind (h _) fun _ => .ite (.lift (grows_union _ _)) (.pure _)
  · exact h _
  · exact .ite (.bind (.lift (grows_underlying t)) h) (.pure _)

end Steps

theorem grows_member (t : Ty) (name : String) : Grows starves (t.member name) :=
  grows_run _ (fun _ _ h => balanced_memberStep h name) t

theorem grows_baseType (t : Ty) (cls : Symbol) : Grows starves (t.baseType cls) :=
  grows_run _ (fun _ _ h => balanced_baseTypeStep h cls) t

theorem grows_derivesFrom (cls base : Symbol) : Grows starves (cls.derivesFrom base) :=
  .get_bind fun _ => .ite (.pure _) (.ite (.pure _) (.bind (grows_ref _) fun r =>
    .bind (grows_baseType r base) fun _ => .pure _))

theorem grows_isReferenceClass (s : Symbol) : Grows starves s.isReferenceClass :=
  .get_bind fun _ => .ite (.pure _) (.bind (grows_derivesFrom _ _) fun _ => .ite (.pure _) (grows_derivesFrom _ _))

theorem grows_nullConforms (t : Ty) : Grows starves (CompareM.nullConforms t) := by
  refine .get_bind fun w => ?_
  split
  · exact grows_isReferenceClass _
  · exact .pure _

theorem grows_classExcludes (s : Symbol) : Grows starves (Nullability.classExcludes s) :=
  .ite (.pure _) (.orElse (grows_derivesFrom _ _) (grows_derivesFrom _ _))

theorem balanced_nullabilityStep {next : Ty → WalkM Bool} (h : ∀ t, Balanced starves n (next t)) (t : Ty) :
    Balanced starves n (Nullability.step next t) := by
  refine .world_bind fun w => ?_
  split
  · exact .pure _
  · exact .pure _
  · exact .ite (.lift (grows_classExcludes _)) (.bind (.lift (grows_upperBound _)) h)
  · exact h _
  · exact .orElse (h _) (h _)
  · exact .andThen (h _) (h _)
  · exact .ite (.bind (.lift (grows_underlying _)) h) (.pure _)

theorem balanced_erasureStep {next : Ty → WalkM String} (h : ∀ t, Balanced starves n (next t)) (t : Ty) :
    Balanced starves n (Erasure.step next t) := by
  refine .world_bind fun w => ?_
  split
  · exact .ite (.pure _) (.ite (.pure _) (.bind (.lift (grows_upperBound _)) h))
  · exact .pure _
  · exact h _
  · exact h _
  · exact .pure _
  · exact h _
  · exact h _
  · split
    · exact h _
    · exact .pure _
  · split
    · exact h _
    · exact .pure _
  · exact .ite (.bind (.lift (grows_underlying _)) h) (.pure _)

theorem grows_isNotNull (t : Ty) : Grows starves t.isNotNull :=
  grows_run _ (fun _ _ h => balanced_nullabilityStep h) t

theorem grows_erasedName (t : Ty) : Grows starves t.erasedName :=
  grows_run _ (fun _ _ h => balanced_erasureStep h) t

theorem grows_signature : ∀ (n : Nat) (t : Ty), Grows True (t.signature n)
  | 0, _ => .throw
  | n + 1, t => by
    refine .get_bind fun w => ?_
    split
    · split
      · exact .bind (.mapM grows_erasedName _) fun _ => .bind (grows_erasedName _) fun _ => .pure _
      · exact .pure _
    · split
      · exact grows_signature n _
      · exact .pure _
    · exact .bind (grows_erasedName _) fun _ => .pure _

end Walks

/-! ## Readers -/

section Readers

variable {α β : Type}

/-- A reader that gives up only for lack of fuel. -/
def Starves (x : Except Halt α) : Prop := ∀ e, x = .error e → e = .outOfFuel

theorem Starves.ok (a : α) : Starves (.ok a : Except Halt α) := fun _ h => by cases h

theorem Starves.outOfFuel : Starves (.error .outOfFuel : Except Halt α) := fun _ h => by cases h; rfl

theorem Starves.bind {x : Except Halt α} {f : α → Except Halt β} (hx : Starves x) (hf : ∀ a, Starves (f a)) :
    Starves (x >>= f) := by
  intro e h
  match x, hx with
  | .error e', hx => exact hx e (by cases h; rfl)
  | .ok a, _ => exact hf a e h

theorem Starves.mapM {f : α → Except Halt β} (hf : ∀ a, Starves (f a)) (l : List α) : Starves (l.mapM f) := by
  induction l with
  | nil => exact .ok _
  | cons a l ih => rw [List.mapM_cons]; exact .bind (hf a) fun _ => .bind ih fun _ => .ok _

theorem Starves.filterM {f : α → Except Halt Bool} (hf : ∀ a, Starves (f a)) (l : List α) : Starves (l.filterM f) := by
  have haux : ∀ (l acc : List α), Starves (List.filterAuxM f l acc) := by
    intro l
    induction l with
    | nil => exact fun _ => .ok _
    | cons a l ih => exact fun _ => .bind (hf a) fun _ => ih _
  exact .bind (haux l []) fun _ => .ok _

theorem starves_refinement? (w : World) (name : String) : ∀ (n : Nat) (t : Ty), Starves (w.refinement? name n t)
  | 0, _ => .outOfFuel
  | n + 1, t => by
    unfold World.refinement?
    split
    · split
      · exact .ok _
      · exact starves_refinement? w name n _
    · split
      · dsimp only
        split
        · exact .ok _
        · exact starves_refinement? w name n _
      · exact .ok _
    · exact .ok _

theorem starves_openTypeParams (w : World) (n : Nat) (t : Ty) : Starves (w.openTypeParams n t) := by
  unfold World.openTypeParams
  split
  · exact .ok _
  · exact .filterM (fun _ => .bind (starves_refinement? w _ n t) fun _ => .ok _) _

theorem starves_typeArgs (w : World) (n : Nat) (t : Ty) : Starves (w.typeArgs n t) := by
  unfold World.typeArgs
  split
  · exact .ok _
  · exact .mapM (fun _ => .bind (starves_refinement? w _ n t) fun _ => .ok _) _

theorem starves_isStable (w : World) : ∀ (n : Nat) (t : Ty), Starves (w.isStable n t)
  | 0, _ => .outOfFuel
  | n + 1, t => by
    unfold World.isStable
    split
    case h_6 => exact .bind (starves_isStable w n _) fun b => by cases b <;> [exact starves_isStable w n _; exact .ok _]
    case h_7 => split <;> [exact starves_isStable w n _; exact .ok _]
    all_goals exact .ok _

/-- A reader as a computation on the world. -/
theorem grows_reading {f : World → Except Halt α} (hf : ∀ w, Starves (f w)) : Grows True (WorldM.reading f) := by
  intro w
  show Grown True w (Except.bind (f w) fun a => .ok (a, w))
  cases hx : f w with
  | error e => rw [hf w e hx]; exact trivial
  | ok a => exact le_refl w

theorem reading_run {f : World → Except Halt α} {a : α} {w : World} (h : f w = .ok a) :
    WorldM.reading f w = .ok (a, w) := by
  show Except.bind (f w) _ = _
  rw [h]
  rfl

theorem reading_ok {f : World → Except Halt α} {a : α} {w w' : World} (h : WorldM.reading f w = .ok (a, w')) :
    f w = .ok a ∧ w' = w := by
  change Except.bind (f w) _ = _ at h
  cases hf : f w with
  | error e => rw [hf] at h; cases h
  | ok b => rw [hf] at h; cases h; exact ⟨rfl, rfl⟩

end Readers

end Conformance
