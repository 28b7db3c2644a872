import Conformance.Proofs.Occurrences

/-!
# Rewriting comes to an end in finite types

A type that nests at most `n` deep, binders opened, is rewritten with an allowance of as many steps, and what it is
rewritten to nests no deeper than the type, or than the type and the replacement one upon the other
(`total_substBinder`, `total_substParam`, `total_dropRefinements`). What is made must not mention the fresh binder that
it is to be filled in: so `Ends` says of a computation that it ends and that its result is clear of something.
-/

namespace Conformance

namespace World

variable {w v w' : World} {bad : Shape → Prop} {t u : Ty} {b : BinderId} {p : Param} {n k fuel : Nat}

/-! ## Depth -/

/-- Depth is found by going through the type. -/
instance decidableLow (w : World) : (n : Nat) → (t : Ty) → Decidable (w.Low n t)
  | 0, _ => .isFalse id
  | n + 1, t =>
    have := w.decidableLow n
    inferInstanceAs (Decidable (∀ u ∈ w.children t, w.Low n u))

/-- What is settled nests as deep later on. -/
theorem Low.later (h : w.Low n t) (ht : w.Settled t) (hv : w ≤ v) : v.Low n t := by
  induction n generalizing t with
  | zero => exact h
  | succ n ih =>
    intro u hu
    rw [ht.known.children hv] at hu
    exact ih (h u hu) (ht.child (by rwa [inside_true]))

/-- What is not the type of a binder has the same types inside when that is filled in. -/
theorem children_fill {d : Binder} {l : List Ty} {result : Ty} (ht : ¬ .binder b ∈ (w.shape t).parts)
    (hb : w.binder? b = some d) : (w.fill b l result).children t = w.children t := by
  have hshape : (w.fill b l result).shape t = w.shape t := rfl
  rw [children, children, hshape]
  cases hd : w.shape t with
  | method c | universal c =>
    rw [hd] at ht
    have hne : c ≠ b := fun heq => ht (by simp [Shape.parts, heq])
    simp only [binder?_fill hb, if_neg hne]
  | _ => rfl

/-- What does not mention a binder nests as deep when that is filled in. -/
theorem Low.fill {d : Binder} {l : List Ty} {result : Ty} (h : w.Low n t)
    (ht : w.Clear true (fun d => .binder b ∈ d.parts) t) (hb : w.binder? b = some d) :
    (w.fill b l result).Low n t := by
  induction n generalizing t with
  | zero => exact h
  | succ n ih =>
    intro u hu
    rw [children_fill ht.shape hb] at hu
    exact ih (h u hu) (ht.child (by rwa [inside_true]))

/-- What does not mention a binder stays clear when that is filled in. -/
theorem Clear.fill_apart {d : Binder} {l : List Ty} {result : Ty} (h : w.Clear true bad t)
    (ht : w.Clear true (fun d => .binder b ∈ d.parts) t) (hb : w.binder? b = some d) :
    (w.fill b l result).Clear true bad t := by
  refine of_kept (X := fun t => w.Clear true bad t ∧ w.Clear true (fun d => .binder b ∈ d.parts) t) (fun t ht => ?_) ⟨h, ht⟩
  obtain ⟨e, he, hbinder⟩ := ht.1.known
  refine ⟨⟨⟨e, he, fun c hc => ?_⟩, ht.1.shape⟩, fun u hu => ?_⟩
  · rw [binder?_fill hb]
    split
    · rfl
    · exact hbinder c hc
  · rw [inside_true, children_fill ht.2.shape hb, ← inside_true] at hu
    exact ⟨ht.1.child hu, ht.2.child hu⟩

/-- A binder that was not given out is not mentioned by what is settled. -/
theorem Clear.apart (h : w.Settled t) (hb : w.binder? b = none) : w.Clear true (fun d => .binder b ∈ d.parts) t := by
  intro u hu
  obtain ⟨⟨d, hd, hbinder⟩, -⟩ := h u hu
  refine ⟨⟨d, hd, hbinder⟩, fun hmem => ?_⟩
  rw [shape_of_shape? hd] at hmem
  have hsome := hbinder b hmem
  rw [hb] at hsome
  cases hsome

theorem watches_apart (hb : (w.binder? b).isSome) : w.Watches (fun d => .binder b ∈ d.parts) where
  kind {d} hd := by cases d <;> simp [Shape.parts] at hd <;> exact .inr rfl
  binder {d c} hd hc := by
    have heq : c = b := by
      cases d <;> simp [Shape.parts] at hd hc <;> exact hc.trans hd.symm
    exact heq ▸ hb
  param {d c} hd hc := by
    obtain ⟨i, rfl | rfl⟩ := hc <;> simp [Shape.parts] at hd

theorem watches_nothing (w : World) : w.Watches (fun _ => False) := ⟨False.elim, fun h => h.elim, fun h => h.elim⟩

/-! ## Computations that come to an end -/

/-- Wherever it is run from `w` on, the computation ends with a type that nests at most `k` deep and is clear. -/
def Ends (w : World) (k : Nat) (bad : Shape → Prop) (m : WorldM Ty) : Prop :=
  ∀ v, w ≤ v → ∃ t v', m v = .ok (t, v') ∧ v'.Low k t ∧ v'.Clear true bad t

theorem Ends.later {m : WorldM Ty} (h : w.Ends k bad m) (hv : w ≤ v) : v.Ends k bad m := fun v' hv' => h v' (hv.trans hv')

theorem low_intern {d : Shape} (hplain : d.isBinderType = false) (hparts : ∀ u, .ty u ∈ d.parts → w.Low k u ∧ w.Settled u) :
    ∃ t w', WorldM.intern d w = .ok (t, w') ∧ w'.Low (k + 1) t := by
  obtain ⟨t, w', hrun⟩ : ∃ t w', WorldM.intern d w = .ok (t, w') := ⟨_, _, rfl⟩
  obtain ⟨hle, hshape⟩ := intern_ok hrun
  refine ⟨t, w', hrun, fun u hu => ?_⟩
  obtain ⟨hlow, hsettled⟩ := hparts u (part_of_child (shape_of_shape? hshape) hplain hu)
  exact hlow.later hsettled hle

theorem low_inter {a c : Ty} (ha : w.Low k a ∧ w.Settled a) (hc : w.Low k c ∧ w.Settled c) :
    ∃ t w', Ty.inter a c w = .ok (t, w') ∧ w'.Low (k + 1) t := by
  rw [Ty.inter]
  split_ifs with h₁ h₂ h₃ h₄
  · exact ⟨_, _, rfl, ha.1.succ⟩
  · exact ⟨_, _, rfl, hc.1.succ⟩
  · exact ⟨_, _, rfl, ha.1.succ⟩
  · refine ⟨_, _, rfl, ?_⟩
    rcases h₄ with rfl | rfl
    · exact ha.1.succ
    · exact hc.1.succ
  · refine low_intern rfl fun u hu => ?_
    simp only [Shape.parts, List.mem_pair, Node.ty.injEq] at hu
    rcases hu with rfl | rfl
    · exact ha
    · exact hc

theorem low_union {a c : Ty} (ha : w.Low k a ∧ w.Settled a) (hc : w.Low k c ∧ w.Settled c) :
    ∃ t w', Ty.union a c w = .ok (t, w') ∧ w'.Low (k + 1) t := by
  rw [Ty.union]
  split_ifs with h₁ h₂ h₃ h₄
  · exact ⟨_, _, rfl, ha.1.succ⟩
  · exact ⟨_, _, rfl, hc.1.succ⟩
  · exact ⟨_, _, rfl, ha.1.succ⟩
  · refine ⟨_, _, rfl, ?_⟩
    rcases h₄ with rfl | rfl
    · exact ha.1.succ
    · exact hc.1.succ
  · refine low_intern rfl fun u hu => ?_
    simp only [Shape.parts, List.mem_pair, Node.ty.injEq] at hu
    rcases hu with rfl | rfl
    · exact ha
    · exact hc

/-- A parameter nests nothing. -/
theorem low_paramType (p : Param) : ∃ t w', p.type w = .ok (t, w') ∧ w'.Low (k + 1) t := by
  rw [Param.type, get_bind_run]
  rcases w.binderKind? p.binder with _ | _ | flags <;>
    exact low_intern rfl (by simp [Shape.parts])

section Rebuilding

variable {f : Ty → WorldM Ty} {rename : BinderId → BinderId → Ty → WorldM Ty} {a c : Ty}

theorem total_rebuild₁ {make : Ty → WorldM Ty} (ht : w.Settled t) (hchildren : w.children t = [a])
    (hgrows : ∀ a, Grows True (f a)) (hf : w.Ends k (fun _ => False) (f a))
    (hmake : ∀ {v c}, v.Low k c ∧ v.Settled c → ∃ u v', make c v = .ok (u, v') ∧ v'.Low (k + 1) u) :
    ∃ u w', Ty.rebuild₁ f t a make w = .ok (u, w') ∧ w'.Low (k + 1) u := by
  obtain ⟨a', w₁, ha, hlow, hsettled⟩ := hf w le_rfl
  have hle : w ≤ w₁ := (hgrows a).le_of_ok ha
  rw [Ty.rebuild₁, bind_run ha]
  split_ifs with heq
  · refine ⟨_, _, rfl, fun x hx => ?_⟩
    rw [ht.known.children hle, hchildren] at hx
    exact List.mem_singleton.1 hx ▸ heq ▸ hlow
  · exact hmake ⟨hlow, hsettled⟩

theorem total_rebuild₂ {make : Ty → Ty → WorldM Ty} (ht : w.Settled t) (hchildren : w.children t = [a, c])
    (hgrows : ∀ a, Grows True (f a)) (hf : ∀ x ∈ w.children t, w.Ends k (fun _ => False) (f x))
    (hmake : ∀ {v x y}, v.Low k x ∧ v.Settled x → v.Low k y ∧ v.Settled y →
      ∃ u v', make x y v = .ok (u, v') ∧ v'.Low (k + 1) u) :
    ∃ u w', Ty.rebuild₂ f t a c make w = .ok (u, w') ∧ w'.Low (k + 1) u := by
  rw [hchildren] at hf
  obtain ⟨a', w₁, ha, hlow₁, hsettled₁⟩ := hf a (by simp) w le_rfl
  have hle₁ : w ≤ w₁ := (hgrows a).le_of_ok ha
  obtain ⟨c', w₂, hc, hlow₂, hsettled₂⟩ := hf c (by simp) w₁ hle₁
  have hle₂ : w₁ ≤ w₂ := (hgrows c).le_of_ok hc
  rw [Ty.rebuild₂, bind_run ha, bind_run hc]
  split_ifs with heq
  · refine ⟨_, _, rfl, fun x hx => ?_⟩
    rw [ht.known.children (hle₁.trans hle₂), hchildren] at hx
    rcases List.mem_pair.1 hx with rfl | rfl
    · exact heq.1 ▸ hlow₁.later hsettled₁ hle₂
    · exact heq.2 ▸ hlow₂
  · exact hmake ⟨hlow₁.later hsettled₁ hle₂, hsettled₁.later hle₂⟩ ⟨hlow₂, hsettled₂⟩

theorem total_mapM (hgrows : ∀ a, Grows True (f a)) {l : List Ty} : ∀ {w : World}, (∀ x ∈ l, w.Ends k bad (f x)) →
    ∃ l' w', l.mapM f w = .ok (l', w') ∧ ∀ y ∈ l', w'.Low k y ∧ w'.Clear true bad y := by
  induction l with
  | nil => exact fun _ => ⟨[], _, rfl, fun y hy => nomatch hy⟩
  | cons x l ih =>
    intro w hf
    obtain ⟨y, w₁, hy, hlow, hclear⟩ := hf x List.mem_cons_self w le_rfl
    have hle₁ : w ≤ w₁ := (hgrows x).le_of_ok hy
    obtain ⟨l', w₂, hl, hl'⟩ := ih fun z hz => (hf z (List.mem_cons_of_mem x hz)).later hle₁
    have hle₂ : w₁ ≤ w₂ := (Grows.mapM hgrows l).le_of_ok hl
    refine ⟨y :: l', w₂, ?_, fun z hz => ?_⟩
    · rw [List.mapM_cons, bind_run hy, bind_run hl]
      rfl
    · rcases List.mem_cons.1 hz with rfl | hz
      · exact ⟨hlow.later hclear.settled hle₂, hclear.later hle₂⟩
      · exact hl' z hz

/-- The fresh binder is filled in with what does not mention it, so the type of it nests one level more. -/
theorem total_fillFresh {kind : BinderKind} {names : List String} {l : List Ty} {result : Ty}
    {g : BinderId → Ty → WorldM Ty} (hgrows : ∀ b a, Grows True (g b a))
    (hl : ∀ x ∈ l, w.Low k x ∧ w.Settled x) (hresult : w.Low k result ∧ w.Settled result)
    (hg : ∀ c v x, w ≤ v → w.binder? c = none → (v.binder? c).isSome → v.Low k x →
      v.Clear true (fun d => .binder c ∈ d.parts) x → v.Ends k (fun d => .binder c ∈ d.parts) (g c x)) :
    ∃ t w', (do
      let fresh ← WorldM.freshBinder kind names
      let l ← l.mapM (g fresh)
      let result ← g fresh result
      WorldM.fillBinder fresh l result
      fresh.type : WorldM Ty) w = .ok (t, w') ∧ w'.Low (k + 1) t := by
  let fresh : BinderId := ⟨w.binders.size⟩
  let w₁ : World := { w with binders := w.binders.push { kind, names } }
  have hle₁ : w ≤ w₁ := le_freshBinder w { kind, names }
  have hnew : w.binder? fresh = none := Array.getElem?_eq_none (Nat.le_refl _)
  have hb₁ : w₁.binder? fresh = some { kind, names } := Array.getElem?_push_size
  have hapart {x : Ty} (hx : w.Low k x ∧ w.Settled x) : w₁.Ends k (fun d => .binder fresh ∈ d.parts) (g fresh x) := by
    refine hg fresh w₁ x hle₁ hnew (by rw [hb₁]; rfl) (hx.1.later hx.2 hle₁) ?_
    exact (Clear.apart hx.2 hnew).later hle₁
  obtain ⟨l', w₂, hmapped, hl'⟩ := total_mapM (hgrows fresh) fun x hx => hapart (hl x hx)
  have hle₂ : w₁ ≤ w₂ := (Grows.mapM (hgrows fresh) l).le_of_ok hmapped
  obtain ⟨result', w₃, hrenamed, hlow, hclear⟩ := hapart hresult w₂ hle₂
  have hle₃ : w₂ ≤ w₃ := (hgrows fresh result).le_of_ok hrenamed
  have hb₃ : w₃.binder? fresh = some { kind, names } := hle₃.binder (hle₂.binder hb₁)
  have hb₄ : (w₃.fill fresh l' result').binder? fresh = some { kind, names, infos := l', result := result' } :=
    (binder?_fill hb₃ fresh).trans (if_pos rfl)
  have htype := binderType_run (binderKind?_of_binder? hb₄)
  obtain ⟨t, w₄, hrun⟩ : ∃ t w₄, WorldM.intern (kind.shape fresh) (w₃.fill fresh l' result') = .ok (t, w₄) := ⟨_, _, rfl⟩
  obtain ⟨hle₄, hshape⟩ := intern_ok hrun
  refine ⟨t, w₄, ?_, fun u hu => ?_⟩
  · refine (bind_run rfl).trans ((bind_run hmapped).trans ((bind_run hrenamed).trans ((bind_run rfl).trans ?_)))
    exact htype.trans hrun
  · rw [children_of_binder hshape (hle₄.binder hb₄)] at hu
    have hl₃ : ∀ x ∈ l' ++ [result'], w₃.Low k x ∧ w₃.Clear true (fun d => .binder fresh ∈ d.parts) x := by
      intro x hx
      rcases List.mem_append.1 hx with hx | hx
      · exact ⟨(hl' x hx).1.later (hl' x hx).2.settled hle₃, (hl' x hx).2.later hle₃⟩
      · cases List.mem_singleton.1 hx
        exact ⟨hlow, hclear⟩
    obtain ⟨hlow, hclear⟩ := hl₃ u hu
    refine (hlow.fill hclear hb₃).later (hclear.settled.fill hb₃ (fun x hx => ?_) ?_) hle₄
    · exact (hl₃ x (List.mem_append_left _ hx)).2.settled
    · exact (hl₃ _ (List.mem_append_right _ (List.mem_singleton.2 rfl))).2.settled

theorem total_rebuildBinder (kind : BinderKind) {b : BinderId} (ht : w.Settled t)
    (hshape : w.shape? t = some (kind.shape b)) (hgrows : ∀ a, Grows True (f a))
    (hrgrows : ∀ b c a, Grows True (rename b c a)) (hf : ∀ x ∈ w.children t, w.Ends k (fun _ => False) (f x))
    (hr : ∀ b c v x, w ≤ v → w.binder? c = none → (v.binder? c).isSome → v.Low k x →
      v.Clear true (fun d => .binder c ∈ d.parts) x → v.Ends k (fun d => .binder c ∈ d.parts) (rename b c x)) :
    ∃ u w', Ty.rebuildBinder f rename t b w = .ok (u, w') ∧ w'.Low (k + 1) u := by
  have hsome : (w.binder? b).isSome := by
    obtain ⟨d, hd, hbinder⟩ := ht.known
    cases hshape.symm.trans hd
    exact hbinder b (by cases kind <;> exact List.mem_singleton.2 rfl)
  obtain ⟨d, hd⟩ := Option.isSome_iff_exists.1 hsome
  have hchildren : w.children t = d.infos ++ [d.result] := children_of_binder hshape hd
  rw [hchildren] at hf
  obtain ⟨l, w₁, hl, hl'⟩ := total_mapM hgrows fun x hx => hf x (List.mem_append_left _ hx)
  have hle₁ : w ≤ w₁ := (Grows.mapM hgrows d.infos).le_of_ok hl
  obtain ⟨result, w₂, hresult, hlow, hsettled⟩ :=
    hf d.result (List.mem_append_right _ (List.mem_singleton.2 rfl)) w₁ hle₁
  have hle₂ : w₁ ≤ w₂ := (hgrows d.result).le_of_ok hresult
  have hle : w ≤ w₂ := hle₁.trans hle₂
  have hl₂ : ∀ x ∈ l, w₂.Low k x ∧ w₂.Settled x := fun x hx =>
    ⟨(hl' x hx).1.later (hl' x hx).2 hle₂, (hl' x hx).2.later hle₂⟩
  rw [Ty.rebuildBinder, get_bind_run, hd]
  dsimp only
  rw [bind_run hl, bind_run hresult]
  split_ifs with heq
  · refine ⟨_, _, rfl, fun x hx => ?_⟩
    rw [ht.known.children hle, hchildren, ← heq.1, ← heq.2] at hx
    exact (List.mem_append.1 hx).elim (fun hx => (hl₂ x hx).1) fun hx => List.mem_singleton.1 hx ▸ hlow
  · refine total_fillFresh (hrgrows b) hl₂ ⟨hlow, hsettled⟩ fun c v x hv hc hcv hlow hx => ?_
    refine hr b c v x (hle.trans hv) ?_ hcv hlow hx
    cases hcw : w.binder? c with
    | none => rfl
    | some e =>
      rw [hle.binder hcw] at hc
      cases hc

/-- A type is rebuilt if its children are, and renaming comes to an end. -/
theorem total_mapChildren (ht : w.Settled t) (hgrows : ∀ a, Grows True (f a))
    (hrgrows : ∀ b c a, Grows True (rename b c a)) (hf : ∀ x ∈ w.children t, w.Ends k (fun _ => False) (f x))
    (hr : ∀ b c v x, w ≤ v → w.binder? c = none → (v.binder? c).isSome → v.Low k x →
      v.Clear true (fun d => .binder c ∈ d.parts) x → v.Ends k (fun d => .binder c ∈ d.parts) (rename b c x)) :
    ∃ u w', Ty.mapChildren f rename t w = .ok (u, w') ∧ w'.Low (k + 1) u := by
  obtain ⟨d, hd, -⟩ := ht.known
  rw [Ty.mapChildren, get_bind_run, shape_of_shape? hd]
  cases d with
  | named a | path a | classInfo a | byName a =>
    have hlist : w.children t = [a] := by rw [children, shape_of_shape? hd]
    refine total_rebuild₁ ht hlist hgrows (hf a (by simp [hlist])) fun hc => low_intern rfl fun u hu => ?_
    simp [Shape.parts] at hu
    exact hu ▸ hc
  | refined a _ c | bounds a c =>
    have hlist : w.children t = [a, c] := by rw [children, shape_of_shape? hd]
    refine total_rebuild₂ ht hlist hgrows hf fun hx hy => low_intern rfl fun u hu => ?_
    simp only [Shape.parts, List.mem_pair, Node.ty.injEq] at hu
    rcases hu with rfl | rfl
    · exact hx
    · exact hy
  | inter a c => exact total_rebuild₂ ht (by rw [children, shape_of_shape? hd]) hgrows hf low_inter
  | union a c => exact total_rebuild₂ ht (by rw [children, shape_of_shape? hd]) hgrows hf low_union
  | method b => exact total_rebuildBinder (.method {}) ht hd hgrows hrgrows hf hr
  | universal b => exact total_rebuildBinder .universal ht hd hgrows hrgrows hf hr
  | _ =>
    refine ⟨_, _, rfl, fun x hx => ?_⟩
    rw [children, shape_of_shape? hd] at hx
    cases hx

end Rebuilding

/-! ## Rewriting -/

/-- Renaming comes to an end in a finite type, and what it makes is no deeper. -/
theorem total_substBinder (n : Nat) : ∀ {w : World} (old : BinderId) {new : BinderId} {t : Ty} {fuel : Nat}, n ≤ fuel →
    (w.binder? new).isSome → w.Settled t → w.Low n t →
    ∃ u w', Ty.substBinder fuel old new t w = .ok (u, w') ∧ w'.Low n u := by
  induction n with
  | zero => exact fun _ => fun _ _ _ hlow => hlow.elim
  | succ n ih =>
    intro w old new t fuel hfuel hnew ht hlow
    obtain ⟨fuel, rfl⟩ : ∃ m, fuel = m + 1 := ⟨fuel - 1, by omega⟩
    have hfuel : n ≤ fuel := by omega
    have hmap : ∃ u w', Ty.mapChildren (Ty.substBinder fuel old new) (Ty.substBinder fuel) t w = .ok (u, w') ∧
        w'.Low (n + 1) u := by
      refine total_mapChildren ht (grows_substBinder fuel old new) (grows_substBinder fuel) (fun x hx v hv => ?_)
        fun b c v x hv hc hcv hlow hx v₁ hv₁ => ?_
      · have hx' : w.Settled x := ht.child (by rwa [inside_true])
        obtain ⟨d, hd⟩ := Option.isSome_iff_exists.1 hnew
        have hnew : (v.binder? new).isSome := by rw [hv.binder hd]; rfl
        obtain ⟨u, v', hrun, hu⟩ := ih old hfuel hnew (hx'.later hv) ((hlow x hx).later hx' hv)
        refine ⟨u, v', hrun, hu, ?_⟩
        exact clear_substBinder fuel (watches_nothing v) hnew (fun _ _ => id) ((hx'.later hv).imp fun d hd => hd.1) hrun
      · obtain ⟨d, hd⟩ := Option.isSome_iff_exists.1 hcv
        have hcv : (v₁.binder? c).isSome := by rw [hv₁.binder hd]; rfl
        obtain ⟨u, v', hrun, hu⟩ := ih b hfuel hcv (hx.settled.later hv₁) (hlow.later hx.settled hv₁)
        refine ⟨u, v', hrun, hu, clear_substBinder fuel (watches_apart hcv) hcv (fun d hd h => ?_)
          ((hx.later hv₁).imp fun d hd => hd.1) hrun⟩
        obtain ⟨i, rfl | rfl⟩ := hd <;> simp [Shape.parts] at h
    change ∃ u w', (if old = new then pure t else _ : WorldM Ty) w = .ok (u, w') ∧ _
    split_ifs with heq
    · exact ⟨t, w, rfl, hlow⟩
    · rw [get_bind_run]
      have hleaf (p : Param) : ∃ u w', (if p.binder = old then Param.type ⟨new, p.index⟩ else pure t : WorldM Ty) w =
          .ok (u, w') ∧ w'.Low (n + 1) u := by
        split_ifs
        · exact low_paramType _
        · exact ⟨t, w, rfl, hlow⟩
      cases hd : w.shape t with
      | param p | valueParam p => exact hleaf p
      | _ => exact hmap

/-- Replacing a parameter comes to an end in a finite type. -/
theorem total_substParam {r : Ty} (n : Nat) : ∀ {w : World} {t : Ty} {fuel : Nat}, n + k ≤ fuel →
    w.Settled t → w.Low n t → w.Settled r → w.Low k r →
    ∃ u w', Ty.substParam p r fuel t w = .ok (u, w') ∧ w'.Low (n + k) u := by
  induction n with
  | zero => exact fun _ _ hlow => hlow.elim
  | succ n ih =>
    intro w t fuel hfuel ht hlow hr hrlow
    obtain ⟨fuel, rfl⟩ : ∃ m, fuel = m + 1 := ⟨fuel - 1, by omega⟩
    have hfuel : n + k ≤ fuel := by omega
    have hmap : ∃ u w', Ty.mapChildren (Ty.substParam p r fuel) (Ty.substBinder fuel) t w = .ok (u, w') ∧
        w'.Low (n + k + 1) u := by
      refine total_mapChildren ht (grows_substParam p r fuel) (grows_substBinder fuel) (fun x hx v hv => ?_)
        fun b c v x hv hc hcv hlow hx v₁ hv₁ => ?_
      · have hx' : w.Settled x := ht.child (by rwa [inside_true])
        obtain ⟨u, v', hrun, hu⟩ := ih hfuel (hx'.later hv) ((hlow x hx).later hx' hv) (hr.later hv)
          (hrlow.later hr hv)
        refine ⟨u, v', hrun, hu, ?_⟩
        exact clear_substParam fuel (watches_nothing v) (hr.later hv) ((hx'.later hv).imp fun d hd => hd.1) hrun
      · obtain ⟨d, hd⟩ := Option.isSome_iff_exists.1 hcv
        have hcv : (v₁.binder? c).isSome := by rw [hv₁.binder hd]; rfl
        obtain ⟨u, v', hrun, hu⟩ := total_substBinder (n + k) b hfuel hcv
          (hx.settled.later hv₁) (hlow.later hx.settled hv₁)
        refine ⟨u, v', hrun, hu, clear_substBinder fuel (watches_apart hcv) hcv (fun d hd h => ?_)
          ((hx.later hv₁).imp fun d hd => hd.1) hrun⟩
        obtain ⟨i, rfl | rfl⟩ := hd <;> simp [Shape.parts] at h
    rw [Nat.add_right_comm]
    rw [Ty.substParam, get_bind_run]
    cases hd : w.shape t with
    | param q =>
      change ∃ u w', (if q = p then pure r else pure t : WorldM Ty) w = .ok (u, w') ∧ _
      split_ifs
      · exact ⟨r, w, rfl, hrlow.mono (by omega)⟩
      · exact ⟨t, w, rfl, hlow.mono (by omega)⟩
    | _ => exact hmap

/-! ## Looking for a parameter, and dropping refinements -/

theorem total_anyM {α : Type} {f : α → Except Halt Bool} {l : List α} (hf : ∀ a ∈ l, ∃ m, f a = .ok m) :
    ∃ m, l.anyM f = .ok m := by
  induction l with
  | nil => exact ⟨false, rfl⟩
  | cons a l ih =>
    obtain ⟨m, hm⟩ := hf a List.mem_cons_self
    obtain ⟨m', hm'⟩ := ih fun b hb => hf b (List.mem_cons_of_mem a hb)
    rw [List.anyM_cons, hm]
    cases m with
    | true => exact ⟨true, rfl⟩
    | false => exact ⟨m', hm'⟩

/-- The search for a parameter comes to an end in a finite type. -/
theorem total_mentions (n : Nat) : ∀ {t : Ty} {fuel : Nat}, n ≤ fuel → w.Low n t → ∃ m, w.mentions p fuel t = .ok m := by
  induction n with
  | zero => exact fun _ hlow => hlow.elim
  | succ n ih =>
    intro t fuel hfuel hlow
    obtain ⟨fuel, rfl⟩ : ∃ m, fuel = m + 1 := ⟨fuel - 1, by omega⟩
    rw [mentions]
    split
    · exact ⟨_, rfl⟩
    · exact total_anyM fun x hx => ih (by omega) (hlow x hx)

/-- Dropping refinements comes to an end in a finite type, and what is left is no deeper. -/
theorem total_dropRefinements (n : Nat) : ∀ {w : World} {t : Ty} {fuel : Nat}, n ≤ fuel → w.Settled t → w.Low n t →
    ∃ u w', Ty.dropRefinements p fuel t w = .ok (u, w') ∧ w'.Low n u := by
  induction n with
  | zero => exact fun _ _ hlow => hlow.elim
  | succ n ih =>
    intro w t fuel hfuel ht hlow
    obtain ⟨fuel, rfl⟩ : ∃ m, fuel = m + 1 := ⟨fuel - 1, by omega⟩
    have hfuel : n ≤ fuel := by omega
    have hmap : ∃ u w', Ty.mapChildren (Ty.dropRefinements p fuel) (Ty.substBinder fuel) t w = .ok (u, w') ∧
        w'.Low (n + 1) u := by
      refine total_mapChildren ht (grows_dropRefinements p fuel) (grows_substBinder fuel) (fun x hx v hv => ?_)
        fun b c v x hv hc hcv hlow hx v₁ hv₁ => ?_
      · have hx' : w.Settled x := ht.child (by rwa [inside_true])
        obtain ⟨u, v', hrun, hu⟩ := ih hfuel (hx'.later hv) ((hlow x hx).later hx' hv)
        refine ⟨u, v', hrun, hu, ?_⟩
        exact clear_dropRefinements fuel (watches_nothing v) ((hx'.later hv).imp fun d hd => hd.1)
          (hx'.later hv).outside hrun
      · obtain ⟨d, hd⟩ := Option.isSome_iff_exists.1 hcv
        have hcv : (v₁.binder? c).isSome := by rw [hv₁.binder hd]; rfl
        obtain ⟨u, v', hrun, hu⟩ := total_substBinder n b hfuel hcv
          (hx.settled.later hv₁) (hlow.later hx.settled hv₁)
        refine ⟨u, v', hrun, hu, clear_substBinder fuel (watches_apart hcv) hcv (fun d hd h => ?_)
          ((hx.later hv₁).imp fun d hd => hd.1) hrun⟩
        obtain ⟨i, rfl | rfl⟩ := hd <;> simp [Shape.parts] at h
    rw [Ty.dropRefinements, get_bind_run]
    cases hd : w.shape t with
    | refined parent name info =>
      have hchild {x : Ty} (hx : x ∈ [parent, info]) : x ∈ w.children t := by rwa [children, hd]
      obtain ⟨m, hm⟩ := total_mentions (p := p) n hfuel (hlow info (hchild (by simp)))
      dsimp only
      rw [bind_run (reading_run hm)]
      cases m with
      | true =>
        obtain ⟨u, w', hrun, hu⟩ := ih hfuel (ht.child (by rw [inside_true]; exact hchild (by simp)))
          (hlow parent (hchild (by simp)))
        exact ⟨u, w', hrun, hu.succ⟩
      | false => exact hmap
    | _ => exact hmap

end World

end Conformance
