import Conformance.Proofs.Supplied
import Conformance.Proofs.SolvingOrder
import Conformance.Proofs.Choices

/-!
# Dropping the refinements that mention a parameter

A type is stripped of a parameter if no refinement among its parts, binders opened, has an info that mentions it
(`World.Stripped`). Dropping refinements makes such types (`stripped_dropRefinements`): where a refinement goes its
parent is stripped; a refinement that stays has an info without the parameter, which is left alone; and types of binders
are rebuilt on fresh binders, of which the parameter is none, so that renaming brings it nowhere
(`stripped_substBinder`). In a stripped type there is nothing to drop (`dropRefinements_stripped`), so doing it twice is
doing it once.
-/

namespace Conformance

namespace World

variable {w v w' : World} {p : Param} {t u : Ty} {b : BinderId}

/-! ## Layers -/

section Layers

variable {f : Ty → WorldM Ty} {rename : BinderId → BinderId → Ty → WorldM Ty} {node : Ty → Ty → Shape}
  {unit zero a c : Ty} {d : Shape}

/-- What is joined is one of the two, or a layer around both. -/
theorem Combines.cases (h : w.Combines node unit zero a c t) : t = a ∨ t = c ∨ w.shape? t = some (node a c) := by
  rw [Combines] at h
  split_ifs at h with h₁ h₂ h₃ h₄
  · exact .inl h
  · exact .inr (.inl h)
  · exact .inl h
  · rcases h₄ with rfl | rfl
    · exact .inl h
    · exact .inr (.inl h)
  · exact .inr (.inr h)

/-- Both children are rewritten, and they are joined anew, or the type is left alone if neither has changed. -/
theorem mapChildren_joined (hnode : Shape.Joint node unit zero) (ht : w.shape? t = some (node a c))
    (hgrows : ∀ a, Grows True (f a)) (hrun : Ty.mapChildren f rename t w = .ok (u, w')) :
    ∃ a' c', Ran w w' (f a) a' ∧ Ran w w' (f c) c' ∧ (u = a' ∨ u = c' ∨ w'.shape? u = some (node a' c')) := by
  have hjoined {make : Ty → Ty → WorldM Ty} (hmakes : ∀ a c, Grows True (make a c))
      (hcombines : ∀ {a c v}, make a c v = .ok (u, w') → w'.Combines node unit zero a c u)
      (hrun : Ty.rebuild₂ f t a c make w = .ok (u, w')) :
      ∃ a' c', Ran w w' (f a) a' ∧ Ran w w' (f c) c' ∧ (u = a' ∨ u = c' ∨ w'.shape? u = some (node a' c')) := by
    obtain ⟨a', v₁, c', v₂, ha, hc, hle₁, hle₂, hle₃, hmade⟩ := rebuild₂_ok hgrows hmakes hrun
    refine ⟨a', c', ⟨w, v₁, le_rfl, hle₂.trans hle₃, ha⟩, ⟨v₁, v₂, hle₁, hle₃, hc⟩, ?_⟩
    split_ifs at hmade with hsame
    · obtain ⟨rfl, rfl⟩ := hsame
      exact .inr (.inr (hmade ▸ (hle₁.trans (hle₂.trans hle₃)).shape ht))
    · exact (hcombines hmade).cases
  rw [Ty.mapChildren, get_bind_run, shape_of_shape? ht] at hrun
  cases hnode with
  | inter => exact hjoined grows_inter (combines_of_inter le_rfl) hrun
  | union => exact hjoined grows_union (combines_of_union le_rfl) hrun

/-- What a type that is not that of a binder is rewritten to is what has become of one of its children, or a layer
around what has become of them; it is a refinement only if the type is, with what has become of the info. -/
theorem mapChildren_layer (ht : w.shape? t = some d) (hplain : d.isBinderType = false) (hgrows : ∀ a, Grows True (f a))
    (hrun : Ty.mapChildren f rename t w = .ok (u, w')) :
    (∃ a ∈ w.children t, Ran w w' (f a) u) ∨
    ∃ e, w'.shape? u = some e ∧ e.isBinderType = false ∧ (∀ y ∈ w'.children u, ∃ a ∈ w.children t, Ran w w' (f a) y) ∧
      ∀ parent name info, e = .refined parent name info →
        ∃ parent₀ info₀, d = .refined parent₀ name info₀ ∧ Ran w w' (f info₀) info := by
  have hone {mk : Ty → Shape} {a : Ty} (hmk : Shape.Around₁ mk) (ht : w.shape? t = some (mk a)) :
      ∃ a', w'.shape? u = some (mk a') ∧ ∀ y ∈ w'.children u, ∃ a ∈ w.children t, Ran w w' (f a) y := by
    rw [mapChildren_around₁ hmk ht] at hrun
    obtain ⟨a', v, ha, hle, hu⟩ := rebuild₁_ok ht (hgrows a) hrun
    refine ⟨a', hu, fun y hy => ?_⟩
    rw [children_around₁ hmk hu, List.mem_singleton] at hy
    exact ⟨a, by simp [children_around₁ hmk ht], w, v, le_rfl, hle, hy ▸ ha⟩
  have htwo {node : Ty → Ty → Shape} {a c : Ty} (hmk : Shape.Around₂ node) (ht : w.shape? t = some (node a c)) :
      ∃ a' c', w'.shape? u = some (node a' c') ∧ Ran w w' (f c) c' ∧
        ∀ y ∈ w'.children u, ∃ a ∈ w.children t, Ran w w' (f a) y := by
    rw [mapChildren_around₂ hmk ht] at hrun
    obtain ⟨a', v₁, c', v₂, ha, hc, hle₁, hle₂, hle₃, hmade⟩ := rebuild₂_ok hgrows (fun _ _ => grows_intern _) hrun
    have hc' : Ran w w' (f c) c' := ⟨v₁, v₂, hle₁, hle₃, hc⟩
    have hu : w'.shape? u = some (node a' c') := by
      split_ifs at hmade with hsame
      · obtain ⟨rfl, rfl⟩ := hsame
        exact hmade ▸ (hle₁.trans (hle₂.trans hle₃)).shape ht
      · exact (intern_ok hmade).2
    refine ⟨a', c', hu, hc', fun y hy => ?_⟩
    rw [children_around₂ hmk hu, List.mem_pair] at hy
    rcases hy with rfl | rfl
    · exact ⟨a, by simp [children_around₂ hmk ht], w, v₁, le_rfl, hle₂.trans hle₃, ha⟩
    · exact ⟨c, by simp [children_around₂ hmk ht], hc'⟩
  have hjoint {node : Ty → Ty → Shape} {unit zero a c : Ty} (hnode : Shape.Joint node unit zero)
      (ht : w.shape? t = some (node a c)) : (∃ a ∈ w.children t, Ran w w' (f a) u) ∨
      ∃ a' c', w'.shape? u = some (node a' c') ∧ ∀ y ∈ w'.children u, ∃ a ∈ w.children t, Ran w w' (f a) y := by
    obtain ⟨a', c', ha, hc, hu⟩ := mapChildren_joined hnode ht hgrows hrun
    have ha : ∃ a ∈ w.children t, Ran w w' (f a) a' := ⟨a, by simp [children_joint hnode ht], ha⟩
    have hc : ∃ a ∈ w.children t, Ran w w' (f a) c' := ⟨c, by simp [children_joint hnode ht], hc⟩
    rcases hu with rfl | rfl | hu
    · exact .inl ha
    · exact .inl hc
    · refine .inr ⟨a', c', hu, fun y hy => ?_⟩
      rw [children_joint hnode hu, List.mem_pair] at hy
      rcases hy with rfl | rfl
      · exact ha
      · exact hc
  cases d with
  | named a s =>
    obtain ⟨a', hu, hchildren⟩ := hone (.named s) ht
    exact .inr ⟨_, hu, rfl, hchildren, by rintro _ _ _ ⟨⟩⟩
  | path a s =>
    obtain ⟨a', hu, hchildren⟩ := hone (.path s) ht
    exact .inr ⟨_, hu, rfl, hchildren, by rintro _ _ _ ⟨⟩⟩
  | classInfo a s =>
    obtain ⟨a', hu, hchildren⟩ := hone (.classInfo s) ht
    exact .inr ⟨_, hu, rfl, hchildren, by rintro _ _ _ ⟨⟩⟩
  | byName a =>
    obtain ⟨a', hu, hchildren⟩ := hone .byName ht
    exact .inr ⟨_, hu, rfl, hchildren, by rintro _ _ _ ⟨⟩⟩
  | refined a name c =>
    obtain ⟨a', c', hu, hc, hchildren⟩ := htwo (.refined name) ht
    refine .inr ⟨_, hu, rfl, hchildren, fun parent name info h => ?_⟩
    cases h
    exact ⟨a, c, rfl, hc⟩
  | bounds a c =>
    obtain ⟨a', c', hu, -, hchildren⟩ := htwo .bounds ht
    exact .inr ⟨_, hu, rfl, hchildren, by rintro _ _ _ ⟨⟩⟩
  | inter a c =>
    obtain hone | ⟨a', c', hu, hchildren⟩ := hjoint .inter ht
    · exact .inl hone
    · exact .inr ⟨_, hu, rfl, hchildren, by rintro _ _ _ ⟨⟩⟩
  | union a c =>
    obtain hone | ⟨a', c', hu, hchildren⟩ := hjoint .union ht
    · exact .inl hone
    · exact .inr ⟨_, hu, rfl, hchildren, by rintro _ _ _ ⟨⟩⟩
  | method | universal => cases hplain
  | _ =>
    rw [Ty.mapChildren, get_bind_run, shape_of_shape? ht] at hrun
    cases hrun
    refine .inr ⟨_, ht, rfl, fun y hy => ?_, by rintro _ _ _ ⟨⟩⟩
    rw [children, shape_of_shape? ht] at hy
    cases hy

end Layers

/-! ## Stripped types -/

/-- `t` and all that is inside it was given out, and no refinement among these has an info that mentions `p`. -/
def Stripped (w : World) (p : Param) (t : Ty) : Prop :=
  ∀ u, w.Within t u → w.Known u ∧ ∀ parent name info, w.shape u = .refined parent name info → w.Lacks p info

namespace Stripped

theorem known (h : w.Stripped p t) : w.Known t := (h t .refl).1

theorem info {parent info : Ty} {name : String} (h : w.Stripped p t) (hd : w.shape t = .refined parent name info) :
    w.Lacks p info := (h t .refl).2 parent name info hd

theorem child (h : w.Stripped p t) (hu : u ∈ w.children t) : w.Stripped p u := fun x hx => h x (.head hu hx)

/-- What is kept by going inside, and is known and no refinement to drop, is stripped. -/
theorem of_kept {X : Ty → Prop} (hX : ∀ t, X t → w.Known t ∧
    (∀ parent name info, w.shape t = .refined parent name info → w.Lacks p info) ∧ ∀ u ∈ w.children t, X u) (ht : X t) :
    w.Stripped p t := by
  intro u hu
  have hmem : X u := by
    induction hu with
    | refl => exact ht
    | tail _ hchild ih => exact (hX _ ih).2.2 _ hchild
  exact ⟨(hX u hmem).1, (hX u hmem).2.1⟩

theorem of_children (hknown : w.Known t)
    (hinfo : ∀ parent name info, w.shape t = .refined parent name info → w.Lacks p info)
    (h : ∀ u ∈ w.children t, w.Stripped p u) : w.Stripped p t := by
  intro x hx
  rcases Relation.ReflTransGen.cases_head hx with rfl | ⟨u, hu, hx⟩
  · exact ⟨hknown, hinfo⟩
  · exact h u hu x hx

theorem settled (h : w.Stripped p t) : w.Settled t :=
  Clear.of_kept (X := w.Stripped p)
    (fun _ ht => ⟨⟨ht.known, id⟩, fun _ hu => ht.child (by rwa [inside_true] at hu)⟩) h

theorem of_lacks (ht : w.Settled t) (h : w.Lacks p t) : w.Stripped p t := by
  refine of_kept (X := fun t => w.Settled t ∧ w.Lacks p t) (fun t ht => ⟨ht.1.known, fun parent name info hd => ?_,
    fun u hu => ⟨ht.1.child (by rwa [inside_true]), ht.2.child hu⟩⟩) ⟨ht, h⟩
  exact ht.2.child (by simp [children, hd])

theorem later (h : w.Stripped p t) (hv : w ≤ v) : v.Stripped p t := by
  refine of_kept (X := w.Stripped p) (fun t ht => ⟨ht.known.later hv, fun parent name info hd => ?_, fun u hu => ?_⟩) h
  · rw [ht.known.shape hv] at hd
    exact (ht.info hd).later (ht.child (by simp [children, hd])).settled hv
  · exact ht.child (by rwa [ht.known.children hv] at hu)

/-- A type without the type of a binder stays stripped when the binder is filled in. -/
theorem fill_apart {d : Binder} {l : List Ty} {result : Ty} (h : w.Stripped p t)
    (ht : w.Clear true (fun d => .binder b ∈ d.parts) t) (hb : w.binder? b = some d) :
    (w.fill b l result).Stripped p t := by
  refine of_kept (X := fun t => w.Stripped p t ∧ w.Clear true (fun d => .binder b ∈ d.parts) t) (fun t ht => ?_) ⟨h, ht⟩
  have hchild {u : Ty} (hu : u ∈ w.children t) : w.Clear true (fun d => .binder b ∈ d.parts) u :=
    ht.2.child (by rwa [inside_true])
  refine ⟨(ht.1.settled.fill_apart ht.2 hb).known, fun parent name info hd => ?_, fun u hu => ?_⟩
  · have hinfo : info ∈ w.children t := by simp [children, show w.shape t = .refined parent name info from hd]
    exact ((Clear.of_lacks (ht.1.child hinfo).settled (ht.1.info hd)).fill_apart (hchild hinfo) hb).lacks
  · rw [children_fill ht.2.shape hb] at hu
    exact ⟨ht.1.child hu, hchild hu⟩

end Stripped

/-- Whenever it is run from `w` on, the computation makes a stripped type. -/
def GivesStripped (w : World) (p : Param) (m : WorldM Ty) : Prop :=
  ∀ v t v', w ≤ v → m v = .ok (t, v') → v'.Stripped p t

theorem GivesStripped.of_ran {m : WorldM Ty} (h : w.GivesStripped p m) (hran : Ran w w' m u) : w'.Stripped p u := by
  obtain ⟨v, v', hv, hv', hrun⟩ := hran
  exact (h v u v' hv hrun).later hv'

/-- The type of a binder is stripped if infos and result are. -/
theorem stripped_binderType {d : Binder} (hb : w.binder? b = some d) (hd : ∀ y ∈ d.infos ++ [d.result], w.Stripped p y)
    (hrun : b.type w = .ok (u, w')) : w'.Stripped p u := by
  rw [binderType_run (binderKind?_of_binder? hb)] at hrun
  obtain ⟨hle, hshape⟩ := intern_ok hrun
  refine .of_children ⟨_, hshape, fun c hc => ?_⟩ (fun parent name info h => ?_) fun y hy => ?_
  · have heq : c = b := by cases hkind : d.kind <;> rw [hkind] at hc <;> cases List.mem_singleton.1 hc <;> rfl
    rw [heq, hle.binder hb]
    rfl
  · rw [shape_of_shape? hshape] at h
    cases hkind : d.kind <;> rw [hkind] at h <;> cases h
  · rw [children_of_binder hshape (hle.binder hb)] at hy
    exact (hd y hy).later hle

/-- Each member of a list that is made comes from one of the list it is made of. -/
theorem mem_mapM_ran {f : Ty → WorldM Ty} (hgrows : ∀ a, Grows True (f a)) {l l' : List Ty}
    (hrun : l.mapM f w = .ok (l', w')) {y : Ty} (hy : y ∈ l') : ∃ a ∈ l, Ran w w' (f a) y := by
  obtain ⟨-, -, hrans⟩ := makes_mapM_ran hgrows w l w l' w' le_rfl trivial hrun
  obtain ⟨i, hi, rfl⟩ := List.mem_iff_getElem.mp hy
  exact ⟨_, List.getElem_mem (hrans.length_eq ▸ hi), hrans.get (hrans.length_eq ▸ hi) hi⟩

section Rewriting

variable {f : Ty → WorldM Ty} {rename : BinderId → BinderId → Ty → WorldM Ty} (hgrows : ∀ a, Grows True (f a))
  (hrgrows : ∀ b c a, Grows True (rename b c a)) (hf : ∀ x ∈ w.children t, w.GivesStripped p (f x))

include hgrows hf

theorem stripped_mapLayer {d : Shape} (ht : w.shape? t = some d) (hplain : d.isBinderType = false)
    (hinfo : ∀ parent name info, d = .refined parent name info → ∀ y, Ran w w' (f info) y → w'.Lacks p y)
    (hrun : Ty.mapChildren f rename t w = .ok (u, w')) : w'.Stripped p u := by
  rcases mapChildren_layer ht hplain hgrows hrun with ⟨a, ha, hran⟩ | ⟨e, hu, heplain, hchildren, hrefined⟩
  · exact (hf a ha).of_ran hran
  · have hbinder : ∀ b, .binder b ∈ e.parts → (w'.binder? b).isSome := fun b hb => by
      rw [isBinderType_of_part hb] at heplain
      cases heplain
    refine .of_children ⟨e, hu, hbinder⟩ (fun parent name info he => ?_) fun y hy => ?_
    · rw [shape_of_shape? hu] at he
      obtain ⟨parent₀, info₀, hd, hran⟩ := hrefined parent name info he
      exact hinfo parent₀ name info₀ hd info hran
    · obtain ⟨a, ha, hran⟩ := hchildren y hy
      exact (hf a ha).of_ran hran

include hrgrows

/-- Infos and result of a binder are stripped, and stay so when they are renamed to the fresh binder, of which there is
no type before it is filled in. -/
theorem stripped_rebuildBinder {k : BinderKind} (ht : w.shape? t = some (k.shape b)) (hknown : w.Known t)
    (hr : ∀ {c v v' x y}, w ≤ v → w.binder? c = none → (v.binder? c).isSome → v.Stripped p x →
      v.Clear true (fun d => .binder c ∈ d.parts) x → Ran v v' (rename b c x) y →
      v'.Stripped p y ∧ v'.Clear true (fun d => .binder c ∈ d.parts) y)
    (hrun : Ty.rebuildBinder f rename t b w = .ok (u, w')) : w'.Stripped p u := by
  have hsome : (w.binder? b).isSome := by
    obtain ⟨d, hd, hbinder⟩ := hknown
    cases ht.symm.trans hd
    exact hbinder b (by cases k <;> exact List.mem_singleton.2 rfl)
  obtain ⟨d, hd⟩ := Option.isSome_iff_exists.1 hsome
  have hchildren : w.children t = d.infos ++ [d.result] := children_of_binder ht hd
  obtain ⟨l, w₁, r, w₂, hl, hresult, hle₁, hle₂, hcase⟩ := rebuildBinder_ok hd hgrows hrgrows hrun
  have hle : w ≤ w₂ := hle₁.trans hle₂
  have hmade : ∀ y ∈ l ++ [r], w₂.Stripped p y := by
    intro y hy
    rcases List.mem_append.1 hy with hy | hy
    · obtain ⟨a, ha, hran⟩ := mem_mapM_ran hgrows hl hy
      exact ((hf a (by simp [hchildren, ha])).of_ran hran).later hle₂
    · rw [List.mem_singleton.1 hy]
      exact hf d.result (by simp [hchildren]) w₁ r w₂ hle₁ hresult
  rcases hcase with ⟨rfl, rfl, rfl, rfl⟩ | ⟨fresh, x, l', x₁, r', x₂, hx, hnone, hfresh, hl', hr', hle₃, hle₄, htype⟩
  · refine .of_children (hknown.later hle) (fun parent name info h => ?_) fun y hy => hmade y ?_
    · rw [hknown.shape hle, shape_of_shape? ht] at h
      cases k <;> cases h
    · rwa [hknown.children hle, hchildren] at hy
  · have hnew : w.binder? fresh = none := by
      cases hc : w.binder? fresh with
      | none => rfl
      | some e => exact (hle.binder hc).symm.trans hnone
    have hopen {y : Ty} (hy : y ∈ l ++ [r]) : x.Stripped p y ∧ x.Clear true (fun d => .binder fresh ∈ d.parts) y :=
      ⟨(hmade y hy).later hx, ((hmade y hy).settled.apart hnone).later hx⟩
    have hrename {a y : Ty} (ha : a ∈ l ++ [r]) (hran : Ran x x₂ (rename b fresh a) y) :
        x₂.Stripped p y ∧ x₂.Clear true (fun d => .binder fresh ∈ d.parts) y :=
      hr (hle.trans hx) hnew (Option.isSome_of_eq_some hfresh) (hopen ha).1 (hopen ha).2 hran
    have hfresh₂ := (hle₃.trans hle₄).binder hfresh
    have hfilled : ∀ y ∈ l' ++ [r'], (x₂.fill fresh l' r').Stripped p y := by
      intro y hy
      have hrenamed : x₂.Stripped p y ∧ x₂.Clear true (fun d => .binder fresh ∈ d.parts) y := by
        rcases List.mem_append.1 hy with hy | hy
        · obtain ⟨a, ha, hran⟩ := mem_mapM_ran (hrgrows b fresh) hl' hy
          exact hrename (List.mem_append_left _ ha) (hran.mono le_rfl hle₄)
        · rw [List.mem_singleton.1 hy]
          exact hrename (by simp) ⟨x₁, x₂, hle₃, le_rfl, hr'⟩
      exact hrenamed.1.fill_apart hrenamed.2 hfresh₂
    exact stripped_binderType ((binder?_fill hfresh₂ fresh).trans (if_pos rfl)) hfilled htype

end Rewriting

/-! ## Renaming and dropping -/

/-- Renaming to the parameters of a binder brings in no type of it. -/
theorem apart_substBinder {n : Nat} {old new : BinderId} (hnew : (w.binder? new).isSome)
    (ht : w.Clear true (fun d => .binder new ∈ d.parts) t) (hrun : Ty.substBinder n old new t w = .ok (u, w')) :
    w'.Clear true (fun d => .binder new ∈ d.parts) u := by
  refine clear_substBinder n (watches_apart hnew) hnew (fun d hd h => ?_) (ht.imp fun _ hd => hd.1) hrun
  obtain ⟨i, rfl | rfl⟩ := hd <;> simp [Shape.parts] at h

/-- **A type is rebuilt stripped** if its children are, the info of a refinement loses the parameter, and renaming keeps
types stripped. -/
theorem stripped_mapChildren {f : Ty → WorldM Ty} {n : Nat} (hp : (w.binder? p.binder).isSome)
    (hgrows : ∀ a, Grows True (f a)) (hf : ∀ x ∈ w.children t, w.GivesStripped p (f x)) (ht : w.Known t)
    (hinfo : ∀ parent name info, w.shape t = .refined parent name info → ∀ y, Ran w w' (f info) y → w'.Lacks p y)
    (hr : ∀ {w w' : World} {old new : BinderId} {t u : Ty}, (w.binder? p.binder).isSome → (w.binder? new).isSome →
      p.binder ≠ new → w.Stripped p t → Ty.substBinder n old new t w = .ok (u, w') → w'.Stripped p u)
    (hrun : Ty.mapChildren f (Ty.substBinder n) t w = .ok (u, w')) : w'.Stripped p u := by
  obtain ⟨d, hd, -⟩ := id ht
  cases hplain : d.isBinderType with
  | false =>
    rw [shape_of_shape? hd] at hinfo
    exact stripped_mapLayer hgrows hf hd hplain hinfo hrun
  | true =>
    obtain ⟨k, b, rfl⟩ : ∃ (k : BinderKind) (b : BinderId), d = k.shape b := by
      cases d with
      | method b => exact ⟨.method {}, b, rfl⟩
      | universal b => exact ⟨.universal, b, rfl⟩
      | _ => cases hplain
    rw [mapChildren_binder hd] at hrun
    refine stripped_rebuildBinder hgrows (grows_substBinder n) hf hd ht
      (fun {c v v' x y} hv hc hcv hx hapart hran => ?_) hrun
    obtain ⟨v₁, v₂, hv₁, hv₂, hrun⟩ := hran
    have hcv₁ := isSome_binder?_grow hcv hv₁
    have hne : p.binder ≠ c := fun h => by
      rw [h, hc] at hp
      cases hp
    exact ⟨(hr (isSome_binder?_grow hp (hv.trans hv₁)) hcv₁ hne (hx.later hv₁) hrun).later hv₂,
      (apart_substBinder hcv₁ (hapart.later hv₁) hrun).later hv₂⟩

/-- Renaming to the parameters of another binder does not bring in the parameter. -/
theorem lacks_substBinder {n : Nat} {old new : BinderId} (hp : (w.binder? p.binder).isSome)
    (hnew : (w.binder? new).isSome) (hne : p.binder ≠ new) (ht : w.Clear true (· = .param p) t)
    (hrun : Ty.substBinder n old new t w = .ok (u, w')) : w'.Clear true (· = .param p) u := by
  refine clear_substBinder n (watches_param hp) hnew (fun d hd h => hne ?_) (ht.imp fun _ hd => hd.1) hrun
  obtain ⟨i, rfl | rfl⟩ := hd <;> cases h
  rfl

/-- **Renaming keeps types stripped**, the parameter being none of the new binder. -/
theorem stripped_substBinder (n : Nat) : ∀ {w w' : World} {old new : BinderId} {t u : Ty},
    (w.binder? p.binder).isSome → (w.binder? new).isSome → p.binder ≠ new → w.Stripped p t →
    Ty.substBinder n old new t w = .ok (u, w') → w'.Stripped p u := by
  induction n with
  | zero => exact fun _ _ _ _ hrun => nomatch hrun
  | succ n ih =>
    intro w w' old new t u hp hnew hne ht hrun
    change (if old = new then pure t else _ : WorldM Ty) w = _ at hrun
    split at hrun
    · cases hrun
      exact ht
    · rw [get_bind_run] at hrun
      have hleaf {q : Param} (hrun : (if q.binder = old then Param.type ⟨new, q.index⟩ else pure t : WorldM Ty) w =
          .ok (u, w')) : w'.Stripped p u := by
        split at hrun
        · have hclear : w'.Clear true (· = .param p) u :=
            clear_paramType (fun h => by cases h; exact hne rfl) nofun hrun
          exact .of_lacks hclear.settled hclear.lacks
        · cases hrun
          exact ht
      have hmap (hrun : Ty.mapChildren (Ty.substBinder n old new) (Ty.substBinder n) t w = .ok (u, w')) :
          w'.Stripped p u := by
        refine stripped_mapChildren hp (grows_substBinder n old new) (fun x hx v y v' hv hrun => ?_) ht.known
          (fun parent name info hd y hran => ?_) ih hrun
        · exact ih (isSome_binder?_grow hp hv) (isSome_binder?_grow hnew hv) hne ((ht.child hx).later hv) hrun
        · obtain ⟨v, v', hv, hv', hrun⟩ := hran
          have hinfo : w.Clear true (· = .param p) info :=
            .of_lacks (ht.child (by simp [children, hd])).settled (ht.info hd)
          exact ((lacks_substBinder (isSome_binder?_grow hp hv) (isSome_binder?_grow hnew hv) hne (hinfo.later hv)
            hrun).later hv').lacks
      cases hd : w.shape t with
      | param q | valueParam q =>
        rw [hd] at hrun
        exact hleaf hrun
      | _ =>
        rw [hd] at hrun
        exact hmap hrun

/-- **Dropping the refinements that mention a parameter leaves none.** -/
theorem stripped_dropRefinements (n : Nat) : ∀ {w w' : World} {t u : Ty}, (w.binder? p.binder).isSome → w.Settled t →
    Ty.dropRefinements p n t w = .ok (u, w') → w'.Stripped p u := by
  induction n with
  | zero => exact fun _ _ hrun => by cases hrun
  | succ n ih =>
    intro w w' t u hp ht hrun
    have hchild {x : Ty} (hx : x ∈ w.children t) : w.Settled x := ht.child (by rwa [inside_true])
    have hmap (hlacks : ∀ parent name info, w.shape t = .refined parent name info → w.Lacks p info)
        (hrun : Ty.mapChildren (Ty.dropRefinements p n) (Ty.substBinder n) t w = .ok (u, w')) : w'.Stripped p u := by
      refine stripped_mapChildren hp (grows_dropRefinements p n) (fun x hx v y v' hv hrun => ?_) ht.known
        (fun parent name info hd y hran => ?_) (stripped_substBinder n) hrun
      · exact ih (isSome_binder?_grow hp hv) ((hchild hx).later hv) hrun
      · obtain ⟨v, v', hv, hv', hrun⟩ := hran
        have hinfo : w.Settled info := hchild (by simp [children, hd])
        have hlacks : v.Lacks p info := (hlacks parent name info hd).later hinfo hv
        cases dropRefinements_same n hlacks hrun
        exact hlacks.later (hinfo.later hv) hv'
    rw [Ty.dropRefinements, get_bind_run] at hrun
    cases hd : w.shape t with
    | refined parent name info =>
      rw [hd] at hrun
      obtain ⟨mentioned, v, hmentions, hrun⟩ := bind_ok hrun
      obtain ⟨hmentions, rfl⟩ := reading_ok hmentions
      cases mentioned with
      | true => exact ih hp (hchild (by simp [children, hd])) hrun
      | false =>
        refine hmap (fun parent₀ name₀ info₀ hd₀ => ?_) hrun
        cases hd.symm.trans hd₀
        exact (mentions_ok n hmentions).1 rfl
    | _ =>
      rw [hd] at hrun
      exact hmap (fun _ _ _ hd₀ => by cases hd.symm.trans hd₀) hrun

/-- In a stripped type there is nothing to drop. -/
theorem dropRefinements_stripped (n : Nat) : ∀ {t : Ty} {s : Ty × World}, w.Stripped p t →
    Ty.dropRefinements p n t w = .ok s → s = (t, w) := by
  induction n with
  | zero => exact fun _ hrun => nomatch hrun
  | succ n ih =>
    intro t s ht hrun
    have hchildren {s : Ty × World} (hrun : Ty.mapChildren (Ty.dropRefinements p n) (Ty.substBinder n) t w = .ok s) :
        s = (t, w) := mapChildren_same (fun x hx r hr => ih (ht.child hx) hr) hrun
    rw [Ty.dropRefinements, get_bind_run] at hrun
    cases hd : w.shape t with
    | refined parent name info =>
      rw [hd] at hrun
      obtain ⟨mentioned, v, hmentions, hrun⟩ := bind_ok (b := s.1) hrun
      obtain ⟨hmentions, rfl⟩ := reading_ok hmentions
      obtain rfl : mentioned = false := (mentions_ok n hmentions).2 (ht.info hd)
      exact hchildren hrun
    | _ =>
      rw [hd] at hrun
      exact hchildren hrun

/-- The search for a parameter that is not there finds none. -/
theorem mentions_of_lacks {n fuel : Nat} (hlow : w.Low n t) (h : w.Lacks p t) (hfuel : n ≤ fuel) :
    w.mentions p fuel t = .ok false := by
  obtain ⟨m, hm, hlacks⟩ := exists_mentions hlow p
  rw [hm fuel hfuel, hlacks.2 h]

section Tiers

variable {opened : List BinderId} (hw : w.Tiered opened)

include hw

/-- A parameter of a binder that was not given out occurs nowhere. -/
theorem Tiered.lacks_of_absent (hp : w.binder? p.binder = none) : w.Lacks p t := by
  intro u _ hu
  have hsome := hw.param (shape?_of_shape hu nofun) (p := p) (by simp [Shape.parts])
  rw [hp] at hsome
  cases hsome

/-- What is left when refinements are dropped is stripped, and without the parameter if that was in infos only. -/
theorem Tiered.dropped {n : Nat} (ht : w.Has t) (hrun : Ty.dropRefinements p n t w = .ok (u, w')) :
    w'.Stripped p u ∧ (w.OnlyInInfos p t → w'.Lacks p u) := by
  have hsettled := hw.settled ht
  cases hp : w.binder? p.binder with
  | none =>
    have hlacks : w.Lacks p t := hw.lacks_of_absent hp
    cases dropRefinements_same n hlacks hrun
    exact ⟨.of_lacks hsettled hlacks, fun _ => hlacks⟩
  | some d =>
    have hp : (w.binder? p.binder).isSome := Option.isSome_of_eq_some hp
    refine ⟨stripped_dropRefinements n hp hsettled hrun, fun honly => ?_⟩
    exact (clear_dropRefinements n (watches_param hp) (hsettled.imp fun _ hd => hd.2 hd.1)
      (.of_onlyInInfos hsettled honly) hrun).lacks

theorem Tiered.id_le (hu : w.Within t u) : u.id ≤ t.id := by
  induction hu with
  | refl => exact le_rfl
  | tail _ hchild ih => exact (hw.child_lt hchild).le.trans ih

end Tiers

end World

namespace Session

variable {s : Session} {t : Ty}

/-- **Refinements that mention a parameter are dropped, once and for all.** Of every type that was given out, by calls
with handles from earlier calls, and for every parameter, dropping comes to an end. No refinement that is left, at any
depth and binders opened, has an info that mentions the parameter; if it occurs in infos of refinements only, the result
does not mention it at all; a type that does not mention it is returned as it is; and dropping again returns the same
type. -/
theorem dropRefinements_strips (h : SuppliedRun .initial s) (ht : s.world.Has t) (p : Param) :
    ∃ k u w', s.world ≤ w' ∧ (∀ fuel, k ≤ fuel → Ty.dropRefinements p fuel t s.world = .ok (u, w')) ∧
      (∀ x parent name info, w'.Within u x → w'.shape? x = some (.refined parent name info) →
        ∀ fuel, k ≤ fuel → w'.mentions p fuel info = .ok false) ∧
      (s.world.OnlyInInfos p t → ∀ fuel, k ≤ fuel → w'.mentions p fuel u = .ok false) ∧
      (∃ m, (∀ fuel, k ≤ fuel → s.world.mentions p fuel t = .ok m) ∧ (m = false → u = t ∧ w' = s.world)) ∧
      ∀ fuel, k ≤ fuel → Ty.dropRefinements p fuel u w' = .ok (u, w') := by
  have hw := h.tiered
  have hlow := World.low_of_child_lt hw.child_lt t
  obtain ⟨u, w', hrun, -⟩ := World.total_dropRefinements (p := p) _ le_rfl (hw.settled ht) hlow
  obtain ⟨hle, hw', hu⟩ := World.Tiered.makes_dropRefinements _ ht s.world u w' le_rfl hw hrun
  obtain ⟨hstripped, honly⟩ := hw.dropped ht hrun
  have hlow' := World.low_of_child_lt (World.Tiered.child_lt hw')
  obtain ⟨m, hm, hlacks⟩ := World.exists_mentions hlow p
  refine ⟨max (t.id + 1) (u.id + 1), u, w', hle, fun fuel hfuel => ?_, fun x parent name info hx hd fuel hfuel => ?_,
    fun h fuel hfuel => ?_, ⟨m, fun fuel hfuel => hm fuel (by omega), fun hfalse => ?_⟩, fun fuel hfuel => ?_⟩
  · exact WorldM.extends_dropRefinements t (by omega) s.world _ hrun
  · have hinfo : info ∈ w'.children x := by simp [World.children, World.shape_of_shape? hd]
    have hid : info.id ≤ u.id := World.Tiered.id_le hw' (hx.tail hinfo)
    exact World.mentions_of_lacks (hlow' info) ((hstripped x hx).2 parent name info (World.shape_of_shape? hd))
      (by omega)
  · exact World.mentions_of_lacks (hlow' u) (honly h) (by omega)
  · have hsame := World.dropRefinements_same _ (hlacks.1 hfalse) hrun
    exact ⟨congrArg Prod.fst hsame, congrArg Prod.snd hsame⟩
  · obtain ⟨u', w'', hrun', -⟩ := World.total_dropRefinements (p := p) _ le_rfl hstripped.settled (hlow' u)
    cases World.dropRefinements_stripped _ hstripped hrun'
    exact WorldM.extends_dropRefinements u (by omega) w' _ hrun'

/-- The world in which two universal types are being built, the first one on `X` and the second one on `Y`. -/
def openedWorld : World :=
  let x : World := { World.initial with binders := #[{ kind := .universal, names := ["X"] }] }
  let x : World := { x with types := (x.types.intern (.param ⟨⟨0⟩, 0⟩)).2 }
  let y : World := { x with binders := x.binders.push { kind := .universal, names := ["Y"] } }
  { y with types := (y.types.intern (.param ⟨⟨1⟩, 0⟩)).2 }

/-- The same world with the second type finished, its result a refinement of `Y` that mentions `X`. -/
def refinedWorld : World :=
  let w : World := { openedWorld with types := (openedWorld.types.intern (.refined ⟨16⟩ "T" ⟨15⟩)).2 }
  let w := w.fill ⟨1⟩ [⟨14⟩] ⟨17⟩
  { w with types := (w.types.intern (.universal ⟨1⟩)).2 }

theorem run_openedWorld : SuppliedRun .initial ⟨openedWorld, [⟨1⟩, ⟨0⟩]⟩ := by
  let x₁ : World := { World.initial with binders := #[{ kind := .universal, names := ["X"] }] }
  let x₂ : World := { x₁ with types := (x₁.types.intern (.param ⟨⟨0⟩, 0⟩)).2 }
  let y₁ : World := { x₂ with binders := x₂.binders.push { kind := .universal, names := ["Y"] } }
  have hstartX : SuppliedStep .initial ⟨x₁, [⟨0⟩]⟩ := .start .universal ["X"] rfl
  have hparamX : SuppliedStep ⟨x₁, [⟨0⟩]⟩ ⟨x₂, [⟨0⟩]⟩ := .call (.add (.paramType (b := ⟨0⟩) 0 rfl)) rfl
  have hstartY : SuppliedStep ⟨x₂, [⟨0⟩]⟩ ⟨y₁, [⟨1⟩, ⟨0⟩]⟩ := .start .universal ["Y"] rfl
  have hparamY : SuppliedStep ⟨y₁, [⟨1⟩, ⟨0⟩]⟩ ⟨openedWorld, [⟨1⟩, ⟨0⟩]⟩ :=
    .call (.add (.paramType (b := ⟨1⟩) 0 rfl)) rfl
  exact .head hstartX (.head hparamX (.head hstartY (.single hparamY)))

theorem run_refinedWorld : SuppliedRun .initial ⟨refinedWorld, [⟨0⟩]⟩ := by
  let w : World := { openedWorld with types := (openedWorld.types.intern (.refined ⟨16⟩ "T" ⟨15⟩)).2 }
  have hparent : openedWorld.Has ⟨16⟩ := by decide
  have hinfo : openedWorld.Has ⟨15⟩ := by decide
  have hrefined : SuppliedStep ⟨openedWorld, [⟨1⟩, ⟨0⟩]⟩ ⟨w, [⟨1⟩, ⟨0⟩]⟩ :=
    .call (.add (.refined "T" hparent hinfo)) rfl
  have hinfos : ∀ t ∈ [⟨14⟩], w.Has t := by decide
  have hresult : w.Has ⟨17⟩ := by decide
  have hbinder : w.binder? ⟨1⟩ = some { kind := .universal, names := ["Y"] } := by rfl
  exact (run_openedWorld.tail hrefined).tail (.finish hinfos hresult hbinder rfl)

/-- The refinement is dropped inside the universal type, and with it the only mention of `X`. -/
theorem dropRefinements_strips_nested : ∃ s t p, SuppliedRun .initial s ∧ s.world.Has t ∧ s.world.OnlyInInfos p t ∧
    s.world.mentions p 10 t = .ok true ∧
    ∃ k u w', ∀ fuel, k ≤ fuel → Ty.dropRefinements p fuel t s.world = .ok (u, w') ∧ w'.mentions p fuel u = .ok false ∧
      Ty.dropRefinements p fuel u w' = .ok (u, w') := by
  have hhas : refinedWorld.Has ⟨18⟩ := by decide
  have honly : refinedWorld.OnlyInInfos ⟨⟨0⟩, 0⟩ ⟨18⟩ := by
    let outside : List Ty := [⟨18⟩, ⟨17⟩, ⟨16⟩, ⟨14⟩, Builtin.nothing.type, Builtin.any.type, .noPrefix]
    have houtside : ∀ t ∈ outside, refinedWorld.shape t ≠ .param ⟨⟨0⟩, 0⟩ ∧
        ∀ u ∈ refinedWorld.inside false t, u ∈ outside := by decide
    intro u hu
    have hmem : u ∈ outside := by
      induction hu with
      | refl => exact List.mem_cons_self
      | tail _ hu ih => exact (houtside _ ih).2 _ hu
    exact (houtside u hmem).1
  obtain ⟨k, u, w', -, hdrop, -, hgone, -, hagain⟩ := dropRefinements_strips run_refinedWorld hhas ⟨⟨0⟩, 0⟩
  exact ⟨_, _, _, run_refinedWorld, hhas, honly, by decide, k, u, w',
    fun fuel hfuel => ⟨hdrop fuel hfuel, hgone honly fuel hfuel, hagain fuel hfuel⟩⟩

end Session

end Conformance
