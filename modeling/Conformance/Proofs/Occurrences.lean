import Conformance.Proofs.FilledBinders
import Conformance.Proofs.Variants

/-!
# What occurs in a type

Whether a type mentions a parameter is decided by what is inside it, binders opened. A type is clear of some shapes if
all of its parts were given out and none has such a shape (`World.Clear`); the infos of refinements may be left out of
account. Rewriting makes types that are clear: `Ty.substBinder` leaves no parameter of the old binder
(`clear_substBinder`), `Ty.substParam` leaves the parameter only in the replacement (`clear_substParam`), and
`Ty.dropRefinements` leaves it nowhere if it stands in infos of refinements only (`clear_dropRefinements`). It matters
that fresh binders are new: parameters of theirs are not watched for.
-/

namespace Conformance

namespace Shape

/-- Whether the shape is that of a parameter, a skolem or a variable. -/
def isAtom : Shape → Bool
  | .param _ | .valueParam _ | .skolem .. | .var _ => true
  | _ => false

/-- Whether the shape hides a type that rewriting does not look into. -/
def isOpaque : Shape → Bool
  | .skolem .. | .var _ => true
  | _ => false

/-- The shape is that of a parameter of `b`. -/
def IsParamOf (b : BinderId) (d : Shape) : Prop := ∃ i, d = .param ⟨b, i⟩ ∨ d = .valueParam ⟨b, i⟩

theorem IsParamOf.unique {b c : BinderId} {d : Shape} (h : d.IsParamOf b) (h' : d.IsParamOf c) : b = c := by
  obtain ⟨i, rfl | rfl⟩ := h <;> obtain ⟨j, hj | hj⟩ := h' <;> cases hj <;> rfl

/-! ### Layers -/

/-- The shapes that are rebuilt around one type. -/
inductive Around₁ : (Ty → Shape) → Prop
  | named (s : Symbol) : Around₁ (.named · s)
  | path (s : Symbol) : Around₁ (.path · s)
  | classInfo (cls : Symbol) : Around₁ (.classInfo · cls)
  | byName : Around₁ .byName

/-- The shapes that are rebuilt around two types, whatever these are. -/
inductive Around₂ : (Ty → Ty → Shape) → Prop
  | refined (name : String) : Around₂ (.refined · name ·)
  | bounds : Around₂ .bounds

/-- Intersections and unions, with the operand that is left out and the one that takes all. -/
inductive Joint : (Ty → Ty → Shape) → Ty → Ty → Prop
  | inter : Joint .inter Builtin.any.type Builtin.nothing.type
  | union : Joint .union Builtin.nothing.type Builtin.any.type

variable {mk mk' : Ty → Shape} {node node' : Ty → Ty → Shape} {unit unit' zero zero' c c' d d' : Ty}

/-- Neither a parameter nor the type of a binder, nor hiding one: what rebuilding makes. -/
def isPlain (d : Shape) : Bool := !d.isAtom && !d.isBinderType

theorem Around₁.plain (h : Around₁ mk) : (mk c).isPlain := by cases h <;> rfl

theorem Around₁.sym_mem (h : Around₁ mk) {s : Symbol} (hs : .sym s ∈ (mk c).parts) : .sym s ∈ (mk c').parts := by
  cases h <;> simp_all [parts]

theorem Around₂.plain (h : Around₂ node) : (node c d).isPlain := by cases h <;> rfl

theorem Joint.plain (h : Joint node unit zero) : (node c d).isPlain := by cases h <;> rfl

theorem Around₁.inj (h : Around₁ mk) (h' : Around₁ mk') (heq : mk c = mk' c') : mk = mk' ∧ c = c' := by
  cases h <;> cases h' <;> cases heq <;> exact ⟨rfl, rfl⟩

theorem Around₂.inj (h : Around₂ node) (h' : Around₂ node') (heq : node c d = node' c' d') :
    node = node' ∧ c = c' ∧ d = d' := by
  cases h <;> cases h' <;> cases heq <;> exact ⟨rfl, rfl, rfl⟩

theorem Joint.inj (h : Joint node unit zero) (h' : Joint node' unit' zero') (heq : node c d = node' c' d') :
    (node = node' ∧ unit = unit' ∧ zero = zero') ∧ c = c' ∧ d = d' := by
  cases h <;> cases h' <;> cases heq <;> exact ⟨⟨rfl, rfl, rfl⟩, rfl, rfl⟩

theorem Around₁.ne_around₂ (h : Around₁ mk) (h' : Around₂ node) : mk c' ≠ node c d := by
  cases h <;> cases h' <;> rintro ⟨⟩

theorem Around₁.ne_joint (h : Around₁ mk) (h' : Joint node unit zero) : mk c' ≠ node c d := by
  cases h <;> cases h' <;> rintro ⟨⟩

theorem Around₂.ne_joint (h : Around₂ node) (h' : Joint node' unit zero) : node c' d' ≠ node' c d := by
  cases h <;> cases h' <;> rintro ⟨⟩

end Shape

namespace World

/-! ## Clear types -/

/-- The types directly inside `t`; `infos` says whether the infos of refinements are among them. -/
def inside (w : World) (infos : Bool) (t : Ty) : List Ty :=
  match w.shape t with
  | .refined parent _ info => if infos then [parent, info] else [parent]
  | _ => w.children t

/-- The handle was given out and, if it is the type of a binder, the binder was. -/
def Known (w : World) (t : Ty) : Prop := ∃ d, w.shape? t = some d ∧ ∀ b, .binder b ∈ d.parts → (w.binder? b).isSome

/-- `t` and all that is inside it, as far as `infos` says, was given out and has no shape in `bad`. -/
def Clear (w : World) (infos : Bool) (bad : Shape → Prop) (t : Ty) : Prop :=
  ∀ u, Relation.ReflTransGen (fun t u => u ∈ w.inside infos t) t u → w.Known u ∧ ¬ bad (w.shape u)

variable {w v w' : World} {infos : Bool} {bad bad' : Shape → Prop} {t u : Ty} {b : BinderId} {p : Param}

@[simp] theorem inside_true (w : World) (t : Ty) : w.inside true t = w.children t := by
  rw [inside]
  split
  · next hd => rw [if_pos rfl, children, hd]
  · rfl

theorem children_of_inside (hu : u ∈ w.inside infos t) : u ∈ w.children t := by
  rw [inside] at hu
  split at hu
  · next hd =>
    rw [children, hd]
    cases infos
    · exact List.mem_pair.2 (.inl (List.mem_singleton.1 hu))
    · exact hu
  · exact hu

/-- What is inside a type once a binder is filled in was inside, or has come with the binder. -/
theorem inside_fill {d : Binder} {l : List Ty} {result : Ty} (hb : w.binder? b = some d)
    (hu : u ∈ (w.fill b l result).inside infos t) : u ∈ l ++ [result] ∨ u ∈ w.inside infos t := by
  have hshape : (w.fill b l result).shape t = w.shape t := rfl
  rw [inside, children, hshape] at hu
  rw [inside, children]
  cases hd : w.shape t with
  | method c | universal c =>
    rw [hd] at hu
    dsimp only at hu ⊢
    rw [binder?_fill hb] at hu
    split_ifs at hu with hc
    · exact .inl hu
    · exact .inr hu
  | _ =>
    rw [hd] at hu
    exact .inr hu

theorem Known.later (h : w.Known t) (hv : w ≤ v) : v.Known t := by
  obtain ⟨d, hd, hb⟩ := h
  refine ⟨d, hv.shape hd, fun b hmem => ?_⟩
  obtain ⟨e, he⟩ := Option.isSome_iff_exists.1 (hb b hmem)
  rw [hv.binder he]
  rfl

theorem Known.shape (h : w.Known t) (hv : w ≤ v) : v.shape t = w.shape t := by
  obtain ⟨d, hd, -⟩ := h
  rw [shape_of_shape? hd, shape_of_shape? (hv.shape hd)]

/-- A type that is known has the same types inside later on. -/
theorem Known.children (h : w.Known t) (hv : w ≤ v) : v.children t = w.children t := by
  have hshape := h.shape hv
  obtain ⟨d, hd, hb⟩ := h
  rw [World.children, World.children, hshape, shape_of_shape? hd]
  cases d with
  | method b | universal b =>
    obtain ⟨e, he⟩ := Option.isSome_iff_exists.1 (hb b (List.mem_singleton.2 rfl))
    simp only [he, hv.binder he]
  | _ => rfl

theorem Known.inside (h : w.Known t) (hv : w ≤ v) (infos : Bool) : v.inside infos t = w.inside infos t := by
  rw [World.inside, World.inside, h.shape hv, h.children hv]

/-- All parts of `t`, binders opened, were given out. -/
abbrev Settled (w : World) (t : Ty) : Prop := w.Clear true (fun _ => False) t

namespace Clear

theorem known (h : w.Clear infos bad t) : w.Known t := (h t .refl).1

theorem shape (h : w.Clear infos bad t) : ¬ bad (w.shape t) := (h t .refl).2

theorem child (h : w.Clear infos bad t) (hu : u ∈ w.inside infos t) : w.Clear infos bad u :=
  fun x hx => h x (.head hu hx)

/-- What is kept by going inside, and is known and not bad, is clear. -/
theorem of_kept {X : Ty → Prop} (hX : ∀ t, X t → (w.Known t ∧ ¬ bad (w.shape t)) ∧ ∀ u ∈ w.inside infos t, X u)
    (ht : X t) : w.Clear infos bad t := by
  intro u hu
  have hmem : X u := by
    induction hu with
    | refl => exact ht
    | tail _ hchild ih => exact (hX _ ih).2 _ hchild
  exact (hX u hmem).1

theorem of_children (hknown : w.Known t) (hshape : ¬ bad (w.shape t))
    (h : ∀ u ∈ w.inside infos t, w.Clear infos bad u) : w.Clear infos bad t := by
  intro x hx
  rcases Relation.ReflTransGen.cases_head hx with rfl | ⟨u, hu, hx⟩
  · exact ⟨hknown, hshape⟩
  · exact h u hu x hx

theorem later (h : w.Clear infos bad t) (hv : w ≤ v) : v.Clear infos bad t := by
  refine of_kept (X := w.Clear infos bad) (fun t ht => ⟨⟨ht.known.later hv, ?_⟩, fun u hu => ht.child ?_⟩) h
  · rw [ht.known.shape hv]
    exact ht.shape
  · rwa [ht.known.inside hv] at hu

theorem imp (h : w.Clear infos bad t) (hbad : ∀ d, bad' d → bad d) : w.Clear infos bad' t :=
  fun u hu => ⟨(h u hu).1, fun hb => (h u hu).2 (hbad _ hb)⟩

/-- Less is looked at without the infos of refinements. -/
theorem outside (h : w.Clear true bad t) : w.Clear infos bad t := by
  refine of_kept (X := w.Clear true bad) (fun t ht => ⟨ht t .refl, fun u hu => ht.child ?_⟩) h
  rw [inside_true]
  exact children_of_inside hu

theorem settled (h : w.Clear true bad t) : w.Settled t := h.imp fun _ hd => hd.elim

/-- Types stay clear when a binder is filled in with types that are clear. -/
theorem fill {d : Binder} {l : List Ty} {result : Ty} (h : w.Clear infos bad t) (hb : w.binder? b = some d)
    (hl : ∀ u ∈ l, w.Clear infos bad u) (hresult : w.Clear infos bad result) :
    (w.fill b l result).Clear infos bad t := by
  refine of_kept (X := w.Clear infos bad) (fun t ht => ⟨⟨?_, ht.shape⟩, fun u hu => ?_⟩) h
  · obtain ⟨e, he, hbinder⟩ := ht.known
    refine ⟨e, he, fun c hc => ?_⟩
    rw [binder?_fill hb]
    split
    · rfl
    · exact hbinder c hc
  · rcases inside_fill hb hu with hu | hu
    · exact (List.mem_append.1 hu).elim (hl u) fun hu => List.mem_singleton.1 hu ▸ hresult
    · exact ht.child hu

end Clear

theorem Closed.known (hw : w.Closed) (ht : w.Has t) : w.Known t := by
  obtain ⟨d, hd⟩ := Option.isSome_iff_exists.1 ht
  refine ⟨d, hd, fun b hb => ?_⟩
  cases hw.shape hd with
  | method h | universal h =>
    cases List.mem_singleton.1 hb
    exact h.2
  | _ => simp [Shape.parts] at hb

theorem Closed.has_within (hw : w.Closed) (ht : w.Has t) (hu : w.Within t u) : w.Has u := by
  rcases hu.cases_tail with rfl | ⟨_, -, hchild⟩
  · exact ht
  · exact hw.has_child hchild

/-- In a closed world a type is clear if none of its parts is bad. -/
theorem Closed.clear (hw : w.Closed) (ht : w.Has t) (h : ∀ u, w.Within t u → ¬ bad (w.shape u)) :
    w.Clear true bad t := by
  intro u hu
  simp only [inside_true] at hu
  exact ⟨hw.known (hw.has_within ht hu), h u hu⟩

theorem Closed.settled (hw : w.Closed) (ht : w.Has t) : w.Settled t := hw.clear ht fun _ _ => id

theorem Clear.not_within (h : w.Clear true bad t) (hu : w.Within t u) : ¬ bad (w.shape u) := by
  refine (h u ?_).2
  simp only [inside_true]
  exact hu

/-! ## Making clear types -/

/-- Only parameters, skolems, variables and types of binders are watched for, and of fresh binders nothing. -/
structure Watches (w : World) (bad : Shape → Prop) : Prop where
  kind : ∀ {d}, bad d → d.isAtom ∨ d.isBinderType
  binder : ∀ {d b}, bad d → .binder b ∈ d.parts → (w.binder? b).isSome
  param : ∀ {d b}, bad d → d.IsParamOf b → (w.binder? b).isSome

theorem Watches.later (h : w.Watches bad) (hv : w ≤ v) : v.Watches bad := by
  have hlater {b : BinderId} (hb : (w.binder? b).isSome) : (v.binder? b).isSome := by
    obtain ⟨d, hd⟩ := Option.isSome_iff_exists.1 hb
    rw [hv.binder hd]
    rfl
  exact ⟨h.kind, fun hd hb => hlater (h.binder hd hb), fun hd hb => hlater (h.param hd hb)⟩

theorem part_of_child {d : Shape} (hd : w.shape t = d) (hplain : d.isBinderType = false) (hu : u ∈ w.children t) :
    .ty u ∈ d.parts := by
  rw [children, hd] at hu
  cases d with
  | method | universal => cases hplain
  | _ => simp_all [Shape.parts]

theorem intern_ok {d : Shape} (hrun : WorldM.intern d w = .ok (t, w')) : w ≤ w' ∧ w'.shape? t = some d := by
  cases hrun
  exact ⟨le_intern d w, TypeTable.shape?_intern w.types d⟩

theorem clear_intern {d : Shape} (hd : ¬ bad d) (hplain : d.isBinderType = false)
    (hparts : ∀ u, .ty u ∈ d.parts → w.Clear infos bad u) (hrun : WorldM.intern d w = .ok (t, w')) :
    w'.Clear infos bad t := by
  obtain ⟨hle, hshape⟩ := intern_ok hrun
  refine .of_children ⟨d, hshape, fun b hb => ?_⟩ ?_ fun u hu => ?_
  · cases d <;> simp [Shape.parts] at hb <;> cases hplain
  · rwa [shape_of_shape? hshape]
  · exact (hparts u (part_of_child (shape_of_shape? hshape) hplain (children_of_inside hu))).later hle

theorem clear_inter {a b : Ty} (hd : ¬ bad (.inter a b)) (ha : w.Clear infos bad a) (hb : w.Clear infos bad b)
    (hrun : Ty.inter a b w = .ok (t, w')) : w'.Clear infos bad t := by
  rw [Ty.inter] at hrun
  split_ifs at hrun with h₁ h₂ h₃ h₄
  · cases hrun; exact ha
  · cases hrun; exact hb
  · cases hrun; exact ha
  · cases hrun
    rcases h₄ with rfl | rfl
    · exact ha
    · exact hb
  · refine clear_intern hd rfl (fun u hu => ?_) hrun
    simp only [Shape.parts, List.mem_pair, Node.ty.injEq] at hu
    rcases hu with rfl | rfl
    · exact ha
    · exact hb

theorem clear_union {a b : Ty} (hd : ¬ bad (.union a b)) (ha : w.Clear infos bad a) (hb : w.Clear infos bad b)
    (hrun : Ty.union a b w = .ok (t, w')) : w'.Clear infos bad t := by
  rw [Ty.union] at hrun
  split_ifs at hrun with h₁ h₂ h₃ h₄
  · cases hrun; exact ha
  · cases hrun; exact hb
  · cases hrun; exact ha
  · cases hrun
    rcases h₄ with rfl | rfl
    · exact ha
    · exact hb
  · refine clear_intern hd rfl (fun u hu => ?_) hrun
    simp only [Shape.parts, List.mem_pair, Node.ty.injEq] at hu
    rcases hu with rfl | rfl
    · exact ha
    · exact hb

theorem clear_paramType (h₁ : ¬ bad (.param p)) (h₂ : ¬ bad (.valueParam p)) (hrun : p.type w = .ok (t, w')) :
    w'.Clear infos bad t := by
  rw [Param.type, get_bind_run] at hrun
  rcases hk : w.binderKind? p.binder with _ | _ | flags <;> rw [hk] at hrun
  · exact clear_intern h₁ rfl (by simp [Shape.parts]) hrun
  · exact clear_intern h₁ rfl (by simp [Shape.parts]) hrun
  · exact clear_intern h₂ rfl (by simp [Shape.parts]) hrun

theorem clear_binderType {d : Binder} (h₁ : ¬ bad (.method b)) (h₂ : ¬ bad (.universal b)) (hb : w.binder? b = some d)
    (hd : ∀ u ∈ d.infos ++ [d.result], w.Clear infos bad u) (hrun : b.type w = .ok (t, w')) : w'.Clear infos bad t := by
  rw [binderType_run (binderKind?_of_binder? hb)] at hrun
  obtain ⟨hle, hshape⟩ := intern_ok hrun
  refine .of_children ⟨_, hshape, fun c hc => ?_⟩ ?_ fun u hu => ?_
  · have hcb : c = b := by cases hkind : d.kind <;> rw [hkind] at hc <;> cases List.mem_singleton.1 hc <;> rfl
    rw [hcb, hle.binder hb]
    rfl
  · rw [shape_of_shape? hshape]
    cases d.kind
    · exact h₂
    · exact h₁
  · have hu := children_of_inside hu
    rw [children_of_binder hshape (hle.binder hb)] at hu
    exact (hd u hu).later hle

/-! ## Rewriting child by child -/

section Rebuilding

variable {f : Ty → WorldM Ty} {rename : BinderId → BinderId → Ty → WorldM Ty} {a c : Ty}

/-! ### Layer by layer -/

/-- What is rebuilt around one child is a layer around what has become of it. -/
theorem rebuild₁_ok {mk : Ty → Shape} (ht : w.shape? t = some (mk a)) (hgrows : Grows True (f a))
    (hrun : Ty.rebuild₁ f t a (fun c => WorldM.intern (mk c)) w = .ok (u, w')) :
    ∃ a' v, f a w = .ok (a', v) ∧ v ≤ w' ∧ w'.shape? u = some (mk a') := by
  obtain ⟨a', v, ha, hrun⟩ := bind_ok hrun
  refine ⟨a', v, ha, ?_⟩
  split_ifs at hrun with hsame
  · cases hrun
    exact ⟨le_rfl, hsame ▸ (hgrows.le_of_ok ha).shape ht⟩
  · exact intern_ok hrun

/-- Of two children one is rewritten after the other, and the type is left alone or made anew. -/
theorem rebuild₂_ok {make : Ty → Ty → WorldM Ty} (hgrows : ∀ a, Grows True (f a)) (hmakes : ∀ a c, Grows True (make a c))
    (hrun : Ty.rebuild₂ f t a c make w = .ok (u, w')) :
    ∃ a' v₁ c' v₂, f a w = .ok (a', v₁) ∧ f c v₁ = .ok (c', v₂) ∧ w ≤ v₁ ∧ v₁ ≤ v₂ ∧ v₂ ≤ w' ∧
      if a' = a ∧ c' = c then u = t else make a' c' v₂ = .ok (u, w') := by
  obtain ⟨a', v₁, ha, hrun⟩ := bind_ok hrun
  obtain ⟨c', v₂, hc, hrun⟩ := bind_ok hrun
  refine ⟨a', v₁, c', v₂, ha, hc, (hgrows a).le_of_ok ha, (hgrows c).le_of_ok hc, ?_⟩
  split_ifs at hrun ⊢
  · cases hrun
    exact ⟨le_rfl, rfl⟩
  · exact ⟨(hmakes a' c').le_of_ok hrun, hrun⟩

theorem mapChildren_around₁ {mk : Ty → Shape} (hmk : Shape.Around₁ mk) (ht : w.shape? t = some (mk a)) :
    Ty.mapChildren f rename t w = Ty.rebuild₁ f t a (fun c => WorldM.intern (mk c)) w := by
  rw [Ty.mapChildren, get_bind_run, shape_of_shape? ht]
  cases hmk <;> rfl

theorem mapChildren_around₂ {mk : Ty → Ty → Shape} (hmk : Shape.Around₂ mk) (ht : w.shape? t = some (mk a c)) :
    Ty.mapChildren f rename t w = Ty.rebuild₂ f t a c (fun a c => WorldM.intern (mk a c)) w := by
  rw [Ty.mapChildren, get_bind_run, shape_of_shape? ht]
  cases hmk <;> rfl

theorem mapChildren_binder {k : BinderKind} {b : BinderId} (ht : w.shape? t = some (k.shape b)) :
    Ty.mapChildren f rename t w = Ty.rebuildBinder f rename t b w := by
  rw [Ty.mapChildren, get_bind_run, shape_of_shape? ht]
  cases k <;> rfl

/-- A binder that is not given out was not before. -/
theorem binder?_before (hv : v ≤ v') (h : v'.binder? b = none) : v.binder? b = none := by
  cases hb : v.binder? b with
  | none => rfl
  | some d => exact (hv.binder hb).symm.trans h

/-- Infos and result of a binder are rewritten one after the other. If they change, they are renamed to a fresh binder,
which is filled in with them. -/
theorem rebuildBinder_ok {b : BinderId} {d : Binder} (hb : w.binder? b = some d) (hgrows : ∀ a, Grows True (f a))
    (hrgrows : ∀ b c a, Grows True (rename b c a)) (hrun : Ty.rebuildBinder f rename t b w = .ok (u, w')) :
    ∃ l w₁ r w₂, d.infos.mapM f w = .ok (l, w₁) ∧ f d.result w₁ = .ok (r, w₂) ∧ w ≤ w₁ ∧ w₁ ≤ w₂ ∧
      ((l = d.infos ∧ r = d.result ∧ u = t ∧ w' = w₂) ∨
        ∃ fresh x l' x₁ r' x₂, w₂ ≤ x ∧ w₂.binder? fresh = none ∧ x.binder? fresh = some { kind := d.kind, names := d.names } ∧
          l.mapM (rename b fresh) x = .ok (l', x₁) ∧ rename b fresh r x₁ = .ok (r', x₂) ∧ x ≤ x₁ ∧ x₁ ≤ x₂ ∧
          fresh.type (x₂.fill fresh l' r') = .ok (u, w')) := by
  rw [Ty.rebuildBinder, get_bind_run, hb] at hrun
  obtain ⟨l, w₁, hl, hrun⟩ := bind_ok hrun
  obtain ⟨r, w₂, hr, hrun⟩ := bind_ok hrun
  refine ⟨l, w₁, r, w₂, hl, hr, (Grows.mapM hgrows d.infos).le_of_ok hl, (hgrows d.result).le_of_ok hr, ?_⟩
  split_ifs at hrun with hsame
  · cases hrun
    exact .inl ⟨hsame.1, hsame.2, rfl, rfl⟩
  · obtain ⟨fresh, x, hfresh, hrun⟩ := bind_ok hrun
    cases hfresh
    obtain ⟨l', x₁, hl', hrun⟩ := bind_ok hrun
    obtain ⟨r', x₂, hr', hrun⟩ := bind_ok hrun
    obtain ⟨_, x₃, hfill, hrun⟩ := bind_ok hrun
    cases hfill
    refine .inr ⟨⟨w₂.binders.size⟩, _, l', x₁, r', x₂, le_freshBinder w₂ _, Array.getElem?_eq_none (Nat.le_refl _),
      Array.getElem?_push_size, hl', hr', ?_, (hrgrows b _ r).le_of_ok hr', hrun⟩
    exact (Grows.mapM (hrgrows b _) l : Grows True _).le_of_ok hl'

/-! ### Clear types -/

/-- Whenever it is run from `w` on, the computation makes a type that is clear. -/
def Clears (w : World) (bad : Shape → Prop) (m : WorldM Ty) : Prop :=
  ∀ v t v', w ≤ v → m v = .ok (t, v') → v'.Clear true bad t

theorem clear_rebuild₁ {make : Ty → WorldM Ty} (ht : w.Known t) (hshape : ¬ bad (w.shape t))
    (hchildren : w.children t = [a]) (hgrows : Grows True (f a)) (hf : w.Clears bad (f a))
    (hmake : ∀ {v c u v'}, v.Clear true bad c → make c v = .ok (u, v') → v'.Clear true bad u)
    (hrun : Ty.rebuild₁ f t a make w = .ok (u, w')) : w'.Clear true bad u := by
  obtain ⟨a', w₁, ha, hrun⟩ := bind_ok hrun
  have hle : w ≤ w₁ := hgrows.le_of_ok ha
  have ha' := hf w a' w₁ le_rfl ha
  split at hrun
  · next heq =>
    cases hrun
    refine .of_children (ht.later hle) (ht.shape hle ▸ hshape) fun x hx => ?_
    rw [inside_true, ht.children hle, hchildren] at hx
    exact List.mem_singleton.1 hx ▸ heq ▸ ha'
  · exact hmake ha' hrun

theorem clear_rebuild₂ {make : Ty → Ty → WorldM Ty} (ht : w.Known t) (hshape : ¬ bad (w.shape t))
    (hchildren : w.children t = [a, c]) (hgrows : ∀ a, Grows True (f a)) (hfa : w.Clears bad (f a))
    (hfc : w.Clears bad (f c))
    (hmake : ∀ {v x y u v'}, v.Clear true bad x → v.Clear true bad y → make x y v = .ok (u, v') → v'.Clear true bad u)
    (hrun : Ty.rebuild₂ f t a c make w = .ok (u, w')) : w'.Clear true bad u := by
  obtain ⟨a', w₁, ha, hrun⟩ := bind_ok hrun
  obtain ⟨c', w₂, hc, hrun⟩ := bind_ok hrun
  have hle₁ : w ≤ w₁ := (hgrows a).le_of_ok ha
  have hle₂ : w₁ ≤ w₂ := (hgrows c).le_of_ok hc
  have hle : w ≤ w₂ := hle₁.trans hle₂
  have ha' := (hfa w a' w₁ le_rfl ha).later hle₂
  have hc' := hfc w₁ c' w₂ hle₁ hc
  split at hrun
  · next heq =>
    cases hrun
    refine .of_children (ht.later hle) (ht.shape hle ▸ hshape) fun x hx => ?_
    rw [inside_true, ht.children hle, hchildren] at hx
    rcases List.mem_pair.1 hx with rfl | rfl
    · exact heq.1 ▸ ha'
    · exact heq.2 ▸ hc'
  · exact hmake ha' hc' hrun

/-- What is made of the members of a list is clear where the last one has been made. -/
theorem clear_mapM (hgrows : ∀ a, Grows True (f a)) {l l' : List Ty} :
    ∀ {w w' : World}, (∀ a ∈ l, w.Clears bad (f a)) → l.mapM f w = .ok (l', w') → ∀ x ∈ l', w'.Clear true bad x := by
  induction l generalizing l' with
  | nil =>
    intro w w' _ hrun x hx
    cases hrun
    cases hx
  | cons a l ih =>
    intro w w' hf hrun x hx
    rw [List.mapM_cons] at hrun
    obtain ⟨a', w₁, ha, hrun⟩ := bind_ok hrun
    obtain ⟨l₁, w₂, hl, hrun⟩ := bind_ok hrun
    cases hrun
    have hle : w ≤ w₁ := (hgrows a).le_of_ok ha
    have hle₂ : w₁ ≤ w' := (Grows.mapM hgrows l).le_of_ok hl
    rcases List.mem_cons.1 hx with rfl | hx
    · exact (hf a List.mem_cons_self w x w₁ le_rfl ha).later hle₂
    · exact ih (fun b hb v y v' hv => hf b (List.mem_cons_of_mem a hb) v y v' (hle.trans hv)) hl x hx

/-- The fresh binder is filled in with types that are clear, and the type of it is. -/
theorem clear_fillFresh {kind : BinderKind} {names : List String} {l : List Ty} {result : Ty}
    {g : BinderId → Ty → WorldM Ty} (hbad : w.Watches bad) (hgrows : ∀ b a, Grows True (g b a))
    (hl : ∀ x ∈ l, w.Clear true bad x) (hresult : w.Clear true bad result)
    (hg : ∀ c v x, w ≤ v → w.binder? c = none → (v.binder? c).isSome → v.Clear true bad x → v.Clears bad (g c x))
    (hrun : (do
      let fresh ← WorldM.freshBinder kind names
      let l ← l.mapM (g fresh)
      let result ← g fresh result
      WorldM.fillBinder fresh l result
      fresh.type : WorldM Ty) w = .ok (t, w')) : w'.Clear true bad t := by
  obtain ⟨fresh, w₁, hfresh, hrun⟩ := bind_ok hrun
  cases hfresh
  obtain ⟨l', w₂, hmapped, hrun⟩ := bind_ok hrun
  obtain ⟨result', w₃, hrenamed, hrun⟩ := bind_ok hrun
  obtain ⟨_, w₄, hfill, hrun⟩ := bind_ok hrun
  cases hfill
  let fresh : BinderId := ⟨w.binders.size⟩
  have hle₁ : w ≤ { w with binders := w.binders.push { kind, names } } := le_freshBinder w { kind, names }
  have hnew : w.binder? fresh = none := Array.getElem?_eq_none (Nat.le_refl _)
  have hb₁ : World.binder? { w with binders := w.binders.push { kind, names } } fresh = some { kind, names } :=
    Array.getElem?_push_size
  have hle₂ := (Grows.mapM (hgrows fresh) l : Grows True _).le_of_ok hmapped
  have hle₃ := (hgrows fresh result).le_of_ok hrenamed
  have hsome {v : World} (hv : World.mk w.types (w.binders.push { kind, names }) w.vars w.skolems w.decls w.snapshots ≤ v) :
      (v.binder? fresh).isSome := by
    rw [hv.binder hb₁]
    rfl
  have hl' := clear_mapM (hgrows fresh)
    (fun x hx => hg fresh _ x hle₁ hnew (hsome le_rfl) ((hl x hx).later hle₁)) hmapped
  have hresult' := hg fresh w₂ result (hle₁.trans hle₂) hnew (hsome hle₂) (hresult.later (hle₁.trans hle₂)) w₂ result' w₃
    le_rfl hrenamed
  have hl₃ : ∀ x ∈ l', w₃.Clear true bad x := fun x hx => (hl' x hx).later hle₃
  have hb₃ : w₃.binder? fresh = some { kind, names } := hle₃.binder (hle₂.binder hb₁)
  have hfree {d : Shape} (hd : .binder fresh ∈ d.parts) : ¬ bad d := fun h => by
    have hsome := hbad.binder h hd
    rw [hnew] at hsome
    cases hsome
  refine clear_binderType (hfree (List.mem_singleton.2 rfl)) (hfree (List.mem_singleton.2 rfl))
    ((binder?_fill hb₃ fresh).trans (if_pos rfl)) (fun u hu => ?_) hrun
  rcases List.mem_append.1 hu with hu | hu
  · exact (hl₃ u hu).fill hb₃ hl₃ hresult'
  · cases List.mem_singleton.1 hu
    exact hresult'.fill hb₃ hl₃ hresult'

theorem clear_rebuildBinder {k : BinderKind} {b : BinderId} (hbad : w.Watches bad) (ht : w.shape? t = some (k.shape b))
    (hknown : w.Known t) (hshape : ¬ bad (w.shape t)) (hgrows : ∀ a, Grows True (f a))
    (hrgrows : ∀ b c a, Grows True (rename b c a)) (hf : ∀ x ∈ w.children t, w.Clears bad (f x))
    (hr : ∀ b c v x, w ≤ v → w.binder? c = none → (v.binder? c).isSome → v.Clear true bad x →
      v.Clears bad (rename b c x))
    (hrun : Ty.rebuildBinder f rename t b w = .ok (u, w')) : w'.Clear true bad u := by
  have hsome : (w.binder? b).isSome := by
    obtain ⟨d, hd, hbinder⟩ := hknown
    cases ht.symm.trans hd
    exact hbinder b (by cases k <;> exact List.mem_singleton.2 rfl)
  obtain ⟨d, hd⟩ := Option.isSome_iff_exists.1 hsome
  have hchildren : w.children t = d.infos ++ [d.result] := children_of_binder ht hd
  rw [hchildren] at hf
  rw [Ty.rebuildBinder, get_bind_run, hd] at hrun
  obtain ⟨l, w₁, hl, hrun⟩ := bind_ok hrun
  obtain ⟨result, w₂, hresult, hrun⟩ := bind_ok hrun
  have hle₁ : w ≤ w₁ := (Grows.mapM hgrows d.infos).le_of_ok hl
  have hle₂ : w₁ ≤ w₂ := (hgrows d.result).le_of_ok hresult
  have hle : w ≤ w₂ := hle₁.trans hle₂
  have hl' : ∀ x ∈ l, w₂.Clear true bad x := fun x hx =>
    (clear_mapM hgrows (fun a ha => hf a (List.mem_append_left _ ha)) hl x hx).later hle₂
  have hresult' := hf d.result (List.mem_append_right _ (List.mem_singleton.2 rfl)) w₁ result w₂ hle₁ hresult
  split at hrun
  · next heq =>
    cases hrun
    refine .of_children (hknown.later hle) (hknown.shape hle ▸ hshape) fun x hx => ?_
    rw [inside_true, hknown.children hle, hchildren, ← heq.1, ← heq.2] at hx
    exact (List.mem_append.1 hx).elim (hl' x) fun hx => List.mem_singleton.1 hx ▸ hresult'
  · refine clear_fillFresh (hbad.later hle) (hrgrows b) hl' hresult' (fun c v x hv hc hcv hx => ?_) hrun
    refine hr b c v x (hle.trans hv) ?_ hcv hx
    cases hcw : w.binder? c with
    | none => rfl
    | some e =>
      rw [hle.binder hcw] at hc
      cases hc

/-- **A type is rebuilt clear** if its children are, and renaming keeps types clear. -/
theorem clear_mapChildren (hbad : w.Watches bad) (ht : w.Known t) (hshape : ¬ bad (w.shape t))
    (hgrows : ∀ a, Grows True (f a)) (hrgrows : ∀ b c a, Grows True (rename b c a))
    (hf : ∀ x ∈ w.children t, w.Clears bad (f x))
    (hr : ∀ b c v x, w ≤ v → w.binder? c = none → (v.binder? c).isSome → v.Clear true bad x →
      v.Clears bad (rename b c x))
    (hrun : Ty.mapChildren f rename t w = .ok (u, w')) : w'.Clear true bad u := by
  have hplain {d : Shape} (hatom : d.isAtom = false) (hbinder : d.isBinderType = false) : ¬ bad d := fun hd => by
    rcases hbad.kind hd with h | h
    · rw [hatom] at h; cases h
    · rw [hbinder] at h; cases h
  obtain ⟨d, hd, -⟩ := id ht
  have hchildren {l : List Ty} (h : w.children t = l) (x : Ty) (hx : x ∈ l) : w.Clears bad (f x) := hf x (h ▸ hx)
  rw [Ty.mapChildren, get_bind_run, shape_of_shape? hd] at hrun
  cases d with
  | named a s | path a s | classInfo a s | byName a =>
    have hlist : w.children t = [a] := by rw [children, shape_of_shape? hd]
    refine clear_rebuild₁ ht hshape hlist (hgrows a) (hchildren hlist a (by simp)) (fun hc hrun => ?_) hrun
    exact clear_intern (hplain rfl rfl) rfl (fun u hu => by simp [Shape.parts] at hu; exact hu ▸ hc) hrun
  | refined a s c | bounds a c =>
    have hlist : w.children t = [a, c] := by rw [children, shape_of_shape? hd]
    refine clear_rebuild₂ ht hshape hlist hgrows (hchildren hlist a (by simp)) (hchildren hlist c (by simp))
      (fun hx hy hrun => ?_) hrun
    refine clear_intern (hplain rfl rfl) rfl (fun u hu => ?_) hrun
    simp only [Shape.parts, List.mem_pair, Node.ty.injEq] at hu
    rcases hu with rfl | rfl
    · exact hx
    · exact hy
  | inter a c =>
    have hlist : w.children t = [a, c] := by rw [children, shape_of_shape? hd]
    exact clear_rebuild₂ ht hshape hlist hgrows (hchildren hlist a (by simp)) (hchildren hlist c (by simp))
      (clear_inter (hplain rfl rfl)) hrun
  | union a c =>
    have hlist : w.children t = [a, c] := by rw [children, shape_of_shape? hd]
    exact clear_rebuild₂ ht hshape hlist hgrows (hchildren hlist a (by simp)) (hchildren hlist c (by simp))
      (clear_union (hplain rfl rfl)) hrun
  | method b => exact clear_rebuildBinder (k := .method {}) hbad hd ht hshape hgrows hrgrows hf hr hrun
  | universal b => exact clear_rebuildBinder (k := .universal) hbad hd ht hshape hgrows hrgrows hf hr hrun
  | _ =>
    cases hrun
    refine .of_children ht hshape fun x hx => ?_
    rw [inside_true, children, shape_of_shape? hd] at hx
    cases hx

theorem mapM_same {l : List Ty} : ∀ {s : List Ty × World}, (∀ x ∈ l, ∀ r, f x w = .ok r → r = (x, w)) →
    l.mapM f w = .ok s → s = (l, w) := by
  induction l with
  | nil => exact fun _ h => (Except.ok.inj h).symm
  | cons x l ih =>
    intro s hx h
    rw [List.mapM_cons] at h
    obtain ⟨x', w₁, hx', h⟩ := bind_ok h
    cases hx x List.mem_cons_self _ hx'
    obtain ⟨l', w₂, hl', h⟩ := bind_ok h
    cases ih (fun y hy => hx y (List.mem_cons_of_mem x hy)) hl'
    exact (Except.ok.inj h).symm

/-- What is rebuilt child by child stays as it is where each child does. -/
theorem mapChildren_same {r : Ty × World} (hf : ∀ x ∈ w.children t, ∀ r, f x w = .ok r → r = (x, w))
    (hrun : Ty.mapChildren f rename t w = .ok r) : r = (t, w) := by
  have hone {a : Ty} {make : Ty → WorldM Ty} (hlist : w.children t = [a]) (h : Ty.rebuild₁ f t a make w = .ok r) :
      r = (t, w) := by
    obtain ⟨a', w₁, ha, h⟩ := bind_ok h
    cases hf a (hlist ▸ List.mem_singleton.2 rfl) _ ha
    rw [if_pos rfl] at h
    exact (Except.ok.inj h).symm
  have htwo {a c : Ty} {make : Ty → Ty → WorldM Ty} (hlist : w.children t = [a, c]) (h : Ty.rebuild₂ f t a c make w = .ok r) :
      r = (t, w) := by
    obtain ⟨a', w₁, ha, h⟩ := bind_ok h
    cases hf a (hlist ▸ List.mem_pair.2 (.inl rfl)) _ ha
    obtain ⟨c', w₂, hc, h⟩ := bind_ok h
    cases hf c (hlist ▸ List.mem_pair.2 (.inr rfl)) _ hc
    rw [if_pos ⟨rfl, rfl⟩] at h
    exact (Except.ok.inj h).symm
  have hbinder {b : BinderId} (hshape : w.shape t = .method b ∨ w.shape t = .universal b)
      (h : Ty.rebuildBinder f rename t b w = .ok r) : r = (t, w) := by
    rw [Ty.rebuildBinder, get_bind_run] at h
    cases hd : w.binder? b with
    | none =>
      rw [hd] at h
      exact (Except.ok.inj h).symm
    | some d =>
      have hchildren : w.children t = d.infos ++ [d.result] := by
        rw [children]
        rcases hshape with hshape | hshape <;> rw [hshape] <;> simp only [hd]
      rw [hd] at h
      rw [hchildren] at hf
      obtain ⟨l, w₁, hl, h⟩ := bind_ok h
      cases mapM_same (fun x hx => hf x (List.mem_append_left _ hx)) hl
      obtain ⟨result, w₂, hresult, h⟩ := bind_ok h
      cases hf d.result (List.mem_append_right _ (List.mem_singleton.2 rfl)) _ hresult
      rw [if_pos ⟨rfl, rfl⟩] at h
      exact (Except.ok.inj h).symm
  rw [Ty.mapChildren, get_bind_run] at hrun
  cases hd : w.shape t with
  | named a | path a | classInfo a | byName a =>
    rw [hd] at hrun
    exact hone (by rw [children, hd]) hrun
  | refined a _ c | inter a c | union a c | bounds a c =>
    rw [hd] at hrun
    exact htwo (by rw [children, hd]) hrun
  | method b =>
    rw [hd] at hrun
    exact hbinder (.inl hd) hrun
  | universal b =>
    rw [hd] at hrun
    exact hbinder (.inr hd) hrun
  | _ =>
    rw [hd] at hrun
    exact (Except.ok.inj hrun).symm

end Rebuilding

/-! ## Renaming and replacing -/

/-- An atom that is not bad is clear. -/
theorem Clear.atom (h : w.Clear true bad' t) (hd : (w.shape t).isAtom) (hbad : ¬ bad (w.shape t)) :
    w.Clear true bad t := by
  refine .of_children h.known hbad fun u hu => ?_
  rw [inside_true, children] at hu
  cases hshape : w.shape t with
  | param | valueParam | skolem | var =>
    rw [hshape] at hu
    cases hu
  | _ =>
    rw [hshape] at hd
    cases hd

/-- **Renaming leaves no parameter of the old binder**, and nothing else that is watched for comes in with the new one. -/
theorem clear_substBinder (n : Nat) : ∀ {w w' : World} {old new : BinderId} {t u : Ty}, w.Watches bad →
    (w.binder? new).isSome → (∀ d, d.IsParamOf new → ¬ bad d) →
    w.Clear true (fun d => bad d ∧ ¬ d.IsParamOf old) t → Ty.substBinder n old new t w = .ok (u, w') →
    w'.Clear true bad u := by
  induction n with
  | zero => exact fun _ _ _ _ hrun => nomatch hrun
  | succ n ih =>
    intro w w' old new t u hbad hnew hfree ht hrun
    change (if old = new then pure t else _ : WorldM Ty) w = _ at hrun
    split at hrun
    · next heq =>
      cases hrun
      exact ht.imp fun d hd => ⟨hd, fun hold => hfree d (heq ▸ hold) hd⟩
    · rw [get_bind_run] at hrun
      have hleaf {p : Param} (hp : (w.shape t).isAtom) (hold : (w.shape t).IsParamOf old → p.binder = old)
          (hrun : (if p.binder = old then Param.type ⟨new, p.index⟩ else pure t : WorldM Ty) w = .ok (u, w')) :
          w'.Clear true bad u := by
        split at hrun
        · exact clear_paramType (hfree _ ⟨p.index, .inl rfl⟩) (hfree _ ⟨p.index, .inr rfl⟩) hrun
        · next hne =>
          cases hrun
          exact ht.atom hp fun hd => ht.shape ⟨hd, fun h => hne (hold h)⟩
      have hmap (hd : ¬ (w.shape t).IsParamOf old)
          (hrun : Ty.mapChildren (Ty.substBinder n old new) (Ty.substBinder n) t w = .ok (u, w')) :
          w'.Clear true bad u := by
        refine clear_mapChildren hbad ht.known (fun h => ht.shape ⟨h, hd⟩) (grows_substBinder n old new)
          (grows_substBinder n) (fun x hx v y v' hv hrun => ?_) (fun b c v x hv hc hcv hx v₁ y v' hv₁ hrun => ?_) hrun
        · have hx : w.Clear true _ x := ht.child (by rwa [inside_true])
          obtain ⟨d, hd⟩ := Option.isSome_iff_exists.1 hnew
          exact ih (hbad.later hv) (by rw [hv.binder hd]; rfl) hfree (hx.later hv) hrun
        · obtain ⟨d, hd⟩ := Option.isSome_iff_exists.1 hcv
          refine ih (hbad.later (hv.trans hv₁)) (by rw [hv₁.binder hd]; rfl) (fun d hd h => ?_)
            ((hx.imp fun d hd => hd.1).later hv₁) hrun
          have hsome := hbad.param h hd
          rw [hc] at hsome
          cases hsome
      cases hd : w.shape t with
      | param p | valueParam p =>
        rw [hd] at hrun hleaf
        refine hleaf rfl (fun h => ?_) hrun
        obtain ⟨i, h | h⟩ := h <;> cases h
        rfl
      | _ =>
        rw [hd] at hrun
        exact hmap (by rw [hd]; rintro ⟨i, h⟩; simp at h) hrun

/-- **A parameter that is replaced is left in the replacement only.** -/
theorem clear_substParam {r : Ty} (n : Nat) : ∀ {w w' : World} {t u : Ty}, w.Watches bad → w.Clear true bad r →
    w.Clear true (fun d => bad d ∧ d ≠ .param p) t → Ty.substParam p r n t w = .ok (u, w') → w'.Clear true bad u := by
  induction n with
  | zero => exact fun _ _ _ hrun => nomatch hrun
  | succ n ih =>
    intro w w' t u hbad hr ht hrun
    rw [Ty.substParam, get_bind_run] at hrun
    have hmap (hd : w.shape t ≠ .param p)
        (hrun : Ty.mapChildren (Ty.substParam p r n) (Ty.substBinder n) t w = .ok (u, w')) : w'.Clear true bad u := by
      refine clear_mapChildren hbad ht.known (fun h => ht.shape ⟨h, hd⟩) (grows_substParam p r n) (grows_substBinder n)
        (fun x hx v y v' hv hrun => ?_) (fun b c v x hv hc hcv hx v₁ y v' hv₁ hrun => ?_) hrun
      · have hx : w.Clear true _ x := ht.child (by rwa [inside_true])
        exact ih (hbad.later hv) (hr.later hv) (hx.later hv) hrun
      · obtain ⟨d, hd⟩ := Option.isSome_iff_exists.1 hcv
        refine clear_substBinder n (hbad.later (hv.trans hv₁)) (by rw [hv₁.binder hd]; rfl) (fun d hd h => ?_)
          ((hx.imp fun d hd => hd.1).later hv₁) hrun
        have hsome := hbad.param h hd
        rw [hc] at hsome
        cases hsome
    cases hd : w.shape t with
    | param q =>
      rw [hd] at hrun
      change (if q = p then pure r else pure t : WorldM Ty) w = _ at hrun
      split at hrun
      · cases hrun
        exact hr
      · next hne =>
        cases hrun
        refine ht.atom (by rw [hd]; rfl) fun h => ht.shape ⟨h, ?_⟩
        rw [hd]
        rintro ⟨⟩
        exact hne rfl
    | _ =>
      rw [hd] at hrun
      exact hmap (by rw [hd]; rintro ⟨⟩) hrun

/-! ## Mentioning a parameter -/

/-- No part of `t`, binders opened, is the parameter `p`. -/
def Lacks (w : World) (p : Param) (t : Ty) : Prop := ∀ u, w.Within t u → w.shape u ≠ .param p

theorem Closed.clear_of_lacks (hw : w.Closed) (ht : w.Has t) (h : w.Lacks p t) : w.Clear true (· = .param p) t :=
  hw.clear ht h

theorem watches_param (hp : (w.binder? p.binder).isSome) : w.Watches (· = .param p) where
  kind hd := by rw [hd]; exact .inl rfl
  binder hd hb := by rw [hd] at hb; simp [Shape.parts] at hb
  param hd hb := by
    rw [hd] at hb
    obtain ⟨i, hi | hi⟩ := hb <;> cases hi
    exact hp

theorem watches_paramOf {b : BinderId} (hb : (w.binder? b).isSome) : w.Watches (·.IsParamOf b) where
  kind := by
    rintro _ ⟨i, rfl | rfl⟩ <;> exact .inl rfl
  binder := by
    rintro _ c ⟨i, rfl | rfl⟩ hc <;> simp [Shape.parts] at hc
  param h h' := h.unique h' ▸ hb

theorem Lacks.child (h : w.Lacks p t) (hu : u ∈ w.children t) : w.Lacks p u := fun x hx => h x (.head hu hx)

theorem Clear.lacks (h : w.Clear true (· = .param p) t) : w.Lacks p t := fun _ hu => h.not_within hu

theorem Clear.of_lacks (ht : w.Settled t) (h : w.Lacks p t) : w.Clear true (· = .param p) t := by
  intro u hu
  have hknown := (ht u hu).1
  simp only [inside_true] at hu
  exact ⟨hknown, h u hu⟩

/-- What settled types do not mention later on they have never mentioned. -/
theorem Lacks.earlier (h : v.Lacks p t) (ht : w.Settled t) (hv : w ≤ v) : w.Lacks p t := by
  have hwithin {u : Ty} (hu : w.Within t u) : w.Known u ∧ v.Within t u := by
    induction hu with
    | refl => exact ⟨ht.known, .refl⟩
    | @tail x u hx hu ih =>
      refine ⟨(ht u ?_).1, ih.2.tail ((ih.1.children hv).symm ▸ hu)⟩
      simp only [inside_true]
      exact hx.tail hu
  intro u hu
  obtain ⟨hknown, hu⟩ := hwithin hu
  exact (hknown.shape hv).symm ▸ h u hu

/-- An answer that no member of a list holds, or that one does. -/
theorem anyM_ok {α : Type} {f : α → Except Halt Bool} {l : List α} {m : Bool} (h : l.anyM f = .ok m) :
    if m then ∃ a ∈ l, f a = .ok true else ∀ a ∈ l, f a = .ok false := by
  induction l with
  | nil =>
    cases h
    exact fun a ha => nomatch ha
  | cons a l ih =>
    rw [List.anyM_cons] at h
    match hfa : f a with
    | .error e => rw [hfa] at h; cases h
    | .ok true =>
      rw [hfa] at h
      cases h
      exact ⟨a, List.mem_cons_self, hfa⟩
    | .ok false =>
      rw [hfa] at h
      cases m with
      | true =>
        obtain ⟨b, hb, hfb⟩ := ih h
        exact ⟨b, List.mem_cons_of_mem a hb, hfb⟩
      | false => exact List.forall_mem_cons.2 ⟨hfa, ih h⟩

/-- The search for a parameter finds it just when it occurs. -/
theorem mentions_ok {m : Bool} (n : Nat) : ∀ {t : Ty}, w.mentions p n t = .ok m → (m = false ↔ w.Lacks p t) := by
  induction n generalizing m with
  | zero => exact fun h => nomatch h
  | succ n ih =>
    intro t h
    rw [mentions] at h
    split at h
    · next q hd =>
      cases h
      rw [decide_eq_false_iff_not]
      refine ⟨fun hne u hu => ?_, fun h => fun heq => h t .refl (heq ▸ hd)⟩
      rcases Relation.ReflTransGen.cases_head hu with rfl | ⟨x, hx, -⟩
      · rw [hd]
        rintro ⟨⟩
        exact hne rfl
      · rw [children, hd] at hx
        cases hx
    · next hd =>
      have hany := anyM_ok h
      cases m with
      | true =>
        obtain ⟨x, hx, hmentions⟩ := hany
        exact ⟨fun h => (nomatch h), fun hlacks => (ih hmentions).2 (hlacks.child hx)⟩
      | false =>
        refine ⟨fun _ u hu => ?_, fun _ => rfl⟩
        rcases Relation.ReflTransGen.cases_head hu with rfl | ⟨x, hx, hu⟩
        · exact hd p
        · exact (ih (hany x hx)).1 rfl u hu

/-- A type that does not mention a parameter is left alone when the parameter is replaced. -/
theorem substParam_same {r : Ty} (n : Nat) : ∀ {t : Ty} {s : Ty × World}, w.Lacks p t →
    Ty.substParam p r n t w = .ok s → s = (t, w) := by
  induction n with
  | zero => exact fun _ hrun => nomatch hrun
  | succ n ih =>
    intro t s ht hrun
    rw [Ty.substParam, get_bind_run] at hrun
    cases hd : w.shape t with
    | param q =>
      rw [hd] at hrun
      change (if q = p then pure r else pure t : WorldM Ty) w = _ at hrun
      rw [if_neg fun (heq : q = p) => ht t .refl (heq ▸ hd)] at hrun
      exact (Except.ok.inj hrun).symm
    | _ =>
      rw [hd] at hrun
      exact mapChildren_same (fun x hx r hr => ih (ht.child hx) hr) hrun

theorem substBinder_layer {old new : BinderId} {n : Nat} {d : Shape} (hne : old ≠ new) (ht : w.shape? t = some d)
    (hd : d.isAtom = false) :
    Ty.substBinder (n + 1) old new t w = Ty.mapChildren (Ty.substBinder n old new) (Ty.substBinder n) t w := by
  rw [Ty.substBinder, if_neg hne, get_bind_run, shape_of_shape? ht]
  cases d <;> first | rfl | cases hd

theorem substBinder_param {old new : BinderId} {n i : Nat} {k : BinderKind} (hne : old ≠ new)
    (ht : w.shape? t = some (k.param ⟨b, i⟩)) :
    Ty.substBinder (n + 1) old new t w = (if b = old then Param.type ⟨new, i⟩ else pure t : WorldM Ty) w := by
  rw [Ty.substBinder, if_neg hne, get_bind_run, shape_of_shape? ht]
  cases k <;> rfl

/-- A type that does not mention the parameters of a binder is left alone when these are renamed. -/
theorem substBinder_same {new : BinderId} (n : Nat) : ∀ {t : Ty} {s : Ty × World}, w.Clear true (·.IsParamOf b) t →
    Ty.substBinder n b new t w = .ok s → s = (t, w) := by
  induction n with
  | zero => exact fun _ hrun => nomatch hrun
  | succ n ih =>
    intro t s ht hrun
    change (if b = new then pure t else _ : WorldM Ty) w = _ at hrun
    split at hrun
    · exact (Except.ok.inj hrun).symm
    · have hmap (h : Ty.mapChildren (Ty.substBinder n b new) (Ty.substBinder n) t w = .ok s) : s = (t, w) :=
        mapChildren_same (fun x hx r hr => ih (ht.child (by rwa [inside_true])) hr) h
      rw [get_bind_run] at hrun
      cases hd : w.shape t with
      | param p | valueParam p =>
        rw [hd] at hrun
        change (if p.binder = b then Param.type ⟨new, p.index⟩ else pure t : WorldM Ty) w = _ at hrun
        have hne : p.binder ≠ b := fun heq => ht.shape (hd ▸ heq ▸ ⟨p.index, by simp⟩)
        rw [if_neg hne] at hrun
        exact (Except.ok.inj hrun).symm
      | _ =>
        rw [hd] at hrun
        exact hmap hrun

/-! ## Dropping refinements -/

/-- In a type that does not mention the parameter there is nothing to drop. -/
theorem dropRefinements_same (n : Nat) : ∀ {t : Ty} {s : Ty × World}, w.Lacks p t →
    Ty.dropRefinements p n t w = .ok s → s = (t, w) := by
  induction n with
  | zero => exact fun _ hrun => nomatch hrun
  | succ n ih =>
    intro t s ht hrun
    rw [Ty.dropRefinements, get_bind_run] at hrun
    have hchildren {s : Ty × World}
        (hrun : Ty.mapChildren (Ty.dropRefinements p n) (Ty.substBinder n) t w = .ok s) : s = (t, w) :=
      mapChildren_same (fun x hx r hr => ih (ht.child hx) hr) hrun
    cases hd : w.shape t with
    | refined parent name info =>
      rw [hd] at hrun
      obtain ⟨mentioned, v, hmentions, hrun⟩ := bind_ok (b := s.1) hrun
      obtain ⟨hmentions, rfl⟩ := reading_ok hmentions
      have hinfo : v.Lacks p info := ht.child (by simp [children, hd])
      obtain rfl : mentioned = false := (mentions_ok n hmentions).2 hinfo
      exact hchildren hrun
    | _ =>
      rw [hd] at hrun
      exact hchildren hrun

/-- A parameter that stands in the infos of refinements only goes with them. -/
theorem clear_dropRefinements (n : Nat) : ∀ {w w' : World} {t u : Ty}, w.Watches bad →
    w.Clear true (fun d => bad d ∧ d ≠ .param p) t → w.Clear false bad t →
    Ty.dropRefinements p n t w = .ok (u, w') → w'.Clear true bad u := by
  induction n with
  | zero => exact fun _ _ _ hrun => nomatch hrun
  | succ n ih =>
    intro w w' t u hbad ht hopen hrun
    have hmap (hchildren : ∀ x ∈ w.children t, w.Clear false bad x)
        (hrun : Ty.mapChildren (Ty.dropRefinements p n) (Ty.substBinder n) t w = .ok (u, w')) : w'.Clear true bad u := by
      refine clear_mapChildren hbad ht.known hopen.shape (grows_dropRefinements p n) (grows_substBinder n)
        (fun x hx v y v' hv hrun => ?_) (fun b c v x hv hc hcv hx v₁ y v' hv₁ hrun => ?_) hrun
      · have hx' : w.Clear true _ x := ht.child (by rwa [inside_true])
        exact ih (hbad.later hv) (hx'.later hv) ((hchildren x hx).later hv) hrun
      · obtain ⟨d, hd⟩ := Option.isSome_iff_exists.1 hcv
        refine clear_substBinder n (hbad.later (hv.trans hv₁)) (by rw [hv₁.binder hd]; rfl) (fun d hd h => ?_)
          ((hx.imp fun d hd => hd.1).later hv₁) hrun
        have hsome := hbad.param h hd
        rw [hc] at hsome
        cases hsome
    rw [Ty.dropRefinements, get_bind_run] at hrun
    cases hd : w.shape t with
    | refined parent name info =>
      rw [hd] at hrun
      have hparent : w.Clear false bad parent := hopen.child (by rw [inside, hd]; exact List.mem_singleton.2 rfl)
      have hchild {x : Ty} (hx : x ∈ [parent, info]) : w.Clear true (fun d => bad d ∧ d ≠ .param p) x :=
        ht.child (by rwa [inside_true, children, hd])
      obtain ⟨mentioned, v, hmentions, hrun⟩ := bind_ok hrun
      obtain ⟨hmentions, rfl⟩ := reading_ok hmentions
      cases mentioned with
      | true => exact ih hbad (hchild List.mem_cons_self) hparent hrun
      | false =>
        have hinfo : v.Clear true bad info := by
          intro x hx
          refine ⟨(hchild (by simp) x hx).1, fun h => (hchild (by simp) x hx).2 ⟨h, ?_⟩⟩
          simp only [inside_true] at hx
          exact (mentions_ok n hmentions).1 rfl x hx
        refine hmap (fun x hx => ?_) hrun
        rw [children, hd] at hx
        rcases List.mem_pair.1 hx with rfl | rfl
        · exact hparent
        · exact hinfo.outside
    | _ =>
      rw [hd] at hrun
      refine hmap (fun x hx => hopen.child ?_) hrun
      rw [inside, hd]
      exact hx

end World

end Conformance
