import Conformance.Proofs.Layers

/-!
# Types stand on earlier types

In a world whose handles come from one another, every type is made of types with smaller handles, a universal or method
type of those that its binder was filled in with (`World.Tiered`). A binder that is still open may be mentioned by its
parameters only, so that it is filled in before any type stands on it. All of that is a domain (`World.tiers`), with what
was given out inside: what substitution rebuilds it puts on a fresh binder, which stays open until the infos and the
result are there, and so substitution, copies and comparisons keep to it. Since handles are numbers, types are
well-founded, and walks that follow their structure come to an end (`Tiered.structural_walks_end`).
-/

namespace Conformance

namespace World

variable {w v w' : World} {opened : List BinderId} {t u : Ty} {b : BinderId} {p : Param} {d : Shape}

/-! ## Worlds in tiers -/

/-- Everything was made by the constructors of what was given out before, and no type stands on an open binder. -/
structure Tiered (opened : List BinderId) (w : World) : Prop where
  layered : w.Layered
  regular : w.Regular
  apart : ∀ {t d b}, w.shape? t = some d → .binder b ∈ d.parts → b ∉ opened
  known : ∀ b ∈ opened, (w.binder? b).isSome
  nodup : opened.Nodup

/-- What was given out; a binder, to build a type on, only if it is not open. -/
def GivenOut (opened : List BinderId) (w : World) : Node → Prop
  | .ty t => w.Has t
  | .binder b => (w.binder? b).isSome ∧ b ∉ opened
  | .param p => (w.binder? p.binder).isSome
  | .sym _ | .var _ => True

theorem has_of_lt (h : u.id < t.id) (ht : w.Has t) : w.Has u := by
  have hlt : u.id < w.types.shapes.size := Nat.lt_trans h (id_lt_of_has ht)
  exact Option.isSome_iff_exists.2 ⟨_, Array.getElem?_eq_getElem hlt⟩

theorem isSome_binder?_grow (h : (w.binder? b).isSome) (hle : w ≤ w') : (w'.binder? b).isSome := by
  obtain ⟨d, hd⟩ := Option.isSome_iff_exists.1 h
  exact Option.isSome_iff_exists.2 ⟨d, hle.binder hd⟩

theorem GivenOut.grow {n : Node} (h : w.GivenOut opened n) (hle : w ≤ w') : w'.GivenOut opened n := by
  cases n with
  | ty t => exact Has.grow h hle
  | binder b => exact h.imp_left (isSome_binder?_grow · hle)
  | param p => exact isSome_binder?_grow h hle
  | sym s | var v => trivial

theorem tiered_initial : initial.Tiered [] where
  layered := .initial
  regular := regular_initial
  apart _ _ := List.not_mem_nil
  known _ h := nomatch h
  nodup := .nil

/-- What is made of what was given out mentions nothing else. -/
theorem mentions_of_made (hmade : d.Made w) (hparts : ∀ n ∈ d.parts, w.GivenOut opened n) : w.Mentions d := by
  have hpart {n : Node} (hn : n ∈ d.parts) : w.GivenOut opened n := hparts n hn
  cases d with
  | fixed k => exact .fixed k
  | named pre s => exact mentions_named (hpart List.mem_cons_self) s
  | path pre s => exact mentions_path (hpart List.mem_cons_self) s
  | classInfo pre s => exact mentions_classInfo (hpart List.mem_cons_self) s
  | self c => exact Corr.Shapes.self (ρ := Corr.identity w) (c := c) trivial
  | literal l => exact .literal l
  | skolem k t => exact Corr.Shapes.skolem (ρ := Corr.identity w) ⟨rfl, hmade⟩ ⟨rfl, hpart List.mem_cons_self⟩
  | var v => exact Corr.Shapes.var (ρ := Corr.identity w) (v := v) trivial
  | param p => exact mentions_param (hpart List.mem_cons_self) p.index
  | valueParam p =>
    exact Corr.Shapes.valueParam (ρ := Corr.identity w) (.inl ⟨trivial, rfl, hpart List.mem_cons_self⟩) p.index
  | refined parent name info =>
    exact mentions_refined (hpart List.mem_cons_self) name (hpart (List.mem_cons_of_mem _ List.mem_cons_self))
  | inter a b =>
    exact Corr.Shapes.inter (ρ := Corr.identity w) ⟨rfl, hpart List.mem_cons_self⟩
      ⟨rfl, hpart (List.mem_cons_of_mem _ List.mem_cons_self)⟩
  | union a b =>
    exact Corr.Shapes.union (ρ := Corr.identity w) ⟨rfl, hpart List.mem_cons_self⟩
      ⟨rfl, hpart (List.mem_cons_of_mem _ List.mem_cons_self)⟩
  | bounds a b => exact mentions_bounds (hpart List.mem_cons_self) (hpart (List.mem_cons_of_mem _ List.mem_cons_self))
  | byName r => exact mentions_byName (hpart List.mem_cons_self)
  | method | universal => exact hmade.elim

/-- What is made of what was given out is regular. -/
theorem regular_of_made (hmade : d.Made w) (hparts : ∀ n ∈ d.parts, w.GivenOut opened n) : d.Regular w := by
  have hkind {p : Param} (hp : .param p ∈ d.parts) : ∃ k, w.binderKind? p.binder = some k := by
    obtain ⟨e, he⟩ := Option.isSome_iff_exists.1 (hparts (.param p) hp)
    exact ⟨e.kind, binderKind?_of_binder? he⟩
  cases d with
  | inter | union => exact hmade
  | param p | valueParam p =>
    obtain ⟨k, hk⟩ := hkind List.mem_cons_self
    refine ⟨k, hk, ?_⟩
    simp only [Shape.Made, paramShape, hk] at hmade
    cases k <;> exact hmade
  | method | universal => exact hmade.elim
  | _ => trivial

/-- The shape of the type of a binder that was given out mentions this binder only, and is regular. -/
theorem made_binderShape (hb : (w.binder? b).isSome) : w.Mentions (w.binderShape b) ∧ (w.binderShape b).Regular w := by
  obtain ⟨e, he⟩ := Option.isSome_iff_exists.1 hb
  have hk : w.binderKind? b = some e.kind := binderKind?_of_binder? he
  rw [binderShape, hk]
  cases hkind : e.kind with
  | universal => exact ⟨mentions_universal hb, _, hk, by rw [hkind]; rfl⟩
  | method f => exact ⟨mentions_method hb, _, hk, by rw [hkind]; rfl⟩

namespace Tiered

theorem closed (h : w.Tiered opened) : w.Closed := h.layered.built.closed

theorem ty (h : w.Tiered opened) (ht : w.shape? t = some d) (hu : .ty u ∈ d.parts) : u.id < t.id :=
  h.layered.part_lt ht hu

/-- A type stands on a binder that is filled in with types given out before it. -/
theorem binder (h : w.Tiered opened) (ht : w.shape? t = some d) (hb : .binder b ∈ d.parts) :
    b ∉ opened ∧ ∃ e, w.binder? b = some e ∧ ∀ u ∈ e.infos ++ [e.result], u.id < t.id := by
  obtain ⟨e, he⟩ := Option.isSome_iff_exists.1 (h.closed.given (h.closed.shape ht) hb)
  refine ⟨h.apart ht hb, e, he, fun u hu => h.layered.child_lt ?_⟩
  have hk : ∃ k : BinderKind, d = k.shape b := by
    cases d <;> simp [Shape.parts] at hb
    · exact ⟨.method {}, congrArg _ hb.symm⟩
    · exact ⟨.universal, congrArg _ hb.symm⟩
  obtain ⟨k, rfl⟩ := hk
  rwa [children_of_binder ht he]

theorem param (h : w.Tiered opened) (ht : w.shape? t = some d) (hp : .param p ∈ d.parts) : (w.binder? p.binder).isSome :=
  h.closed.given (h.closed.shape ht) hp

theorem filled (h : w.Tiered opened) {d : Binder} (hb : w.binder? b = some d) : ∀ u ∈ d.infos ++ [d.result], w.Has u :=
  fun u hu => (List.mem_append.1 hu).elim ((h.closed.binder hb).1 u) fun hu => List.mem_singleton.1 hu ▸ (h.closed.binder hb).2

theorem fixed (h : w.Tiered opened) (ht : t.id < Ty.fixedCount + Builtin.all.length) : w.Has t := h.closed.fixed t ht

/-- New types may be made of what was given out before. -/
theorem intern (h : w.Tiered opened) (hmentions : w.Mentions d) (hregular : d.Regular w)
    (hbinder : ∀ b, .binder b ∈ d.parts → b ∉ opened) : Tiered opened { w with types := (w.types.intern d).2 } :=
  { h with
    layered := h.layered.intern d hmentions
    regular := h.regular.intern hregular
    apart := fun {t e b} ht hb => by
      rcases shape?_of_intern ht with hold | rfl
      · exact h.apart hold hb
      · exact hbinder b hb }

/-- What a shape, a binder, a declaration or a variable that was given out refers to was given out. -/
theorem step (h : w.Tiered opened) {m n : Node} (hstep : w.Step m n) (hm : w.GivenOut opened m) : w.GivenOut opened n := by
  cases hstep with
  | @part t d n ht hn =>
    cases n with
    | ty u => exact has_of_lt (h.ty ht hn) (Option.isSome_iff_exists.2 ⟨d, ht⟩)
    | binder b =>
      obtain ⟨hclosed, e, he, -⟩ := h.binder ht hn
      exact ⟨Option.isSome_iff_exists.2 ⟨e, he⟩, hclosed⟩
    | param p => exact h.param ht hn
    | sym s | var v => trivial
  | info hb ht => exact h.filled hb _ (List.mem_append_left _ ht)
  | result hb => exact h.filled hb _ (List.mem_append_right _ List.mem_cons_self)
  | bound b i => exact hm.1
  | declared hb ht => exact h.filled hb _ (List.mem_append_left _ (List.mem_of_getElem? ht))
  | @declaration s d n hs hn =>
    obtain ⟨hinfo, hparents⟩ := h.closed.decl d (mem_of_get? hs)
    simp only [Declaration.parts, List.mem_append, List.mem_cons, List.mem_map] at hn
    obtain ((rfl | ⟨t, ht, rfl⟩) | ⟨s, -, rfl⟩) | ⟨e, -, rfl⟩ := hn
    · exact hinfo
    · exact hparents t ht
    · trivial
    · trivial
  | origin hv => exact (h.closed.var _ (Array.mem_of_getElem? hv)).1
  | settled hv ht => exact (h.closed.var _ (Array.mem_of_getElem? hv)).2 _ ht

/-! ### Binders -/

/-- A fresh binder is open. -/
theorem push (h : w.Tiered opened) (kind : BinderKind) (names : List String) :
    Tiered (⟨w.binders.size⟩ :: opened) { w with binders := w.binders.push { kind, names } } := by
  have hle := le_freshBinder w { kind, names }
  have hnew : (⟨w.binders.size⟩ : BinderId) ∉ opened := fun hmem => by
    obtain ⟨e, he⟩ := Option.isSome_iff_exists.1 (h.known _ hmem)
    exact absurd (Array.getElem?_eq_some_iff.1 he).1 (Nat.lt_irrefl _)
  exact {
    layered := h.layered.binder kind names
    regular := h.regular.binders rfl fun b k hk => binderKind?_later hk hle
    apart := fun ht hb => by
      obtain ⟨hclosed, e, he, -⟩ := h.binder ht hb
      refine fun hmem => (List.mem_cons.1 hmem).elim (fun heq => ?_) hclosed
      subst heq
      exact absurd (Array.getElem?_eq_some_iff.1 he).1 (Nat.lt_irrefl _)
    known := fun b hb => (List.mem_cons.1 hb).elim
      (fun heq => by rw [heq, World.binder?, Array.getElem?_push_size]; rfl) fun hb => isSome_binder?_grow (h.known b hb) hle
    nodup := List.nodup_cons.2 ⟨hnew, h.nodup⟩ }

/-- An open binder is filled in with what was given out; no type stands on it yet. -/
theorem fill (h : w.Tiered (b :: opened)) {infos : List Ty} {result : Ty} (hinfos : ∀ t ∈ infos, w.Has t)
    (hresult : w.Has result) : (w.fill b infos result).Tiered opened := by
  obtain ⟨e, he⟩ := Option.isSome_iff_exists.1 (h.known b List.mem_cons_self)
  exact {
    layered := h.layered.fill b (fun t d ht hb => h.apart ht hb List.mem_cons_self) infos result hinfos hresult
    regular := h.regular.binders rfl fun c k hk => (binderKind?_fill he c).trans hk
    apart := fun ht hc hmem => h.apart ht hc (List.mem_cons_of_mem _ hmem)
    known := fun c hc => by
      rw [binder?_fill he]
      split
      · rfl
      · exact h.known c (List.mem_cons_of_mem _ hc)
    nodup := (List.nodup_cons.1 h.nodup).2 }

/-- Once it is filled in, types may stand on the binder. -/
theorem givenOut_fill (h : w.Tiered (b :: opened)) (infos : List Ty) (result : Ty) :
    (w.fill b infos result).GivenOut opened (.binder b) := by
  obtain ⟨e, he⟩ := Option.isSome_iff_exists.1 (h.known b List.mem_cons_self)
  refine ⟨?_, (List.nodup_cons.1 h.nodup).1⟩
  rw [binder?_fill he, if_pos rfl]
  rfl

/-- A binder that is given up is never filled in, so types may stand on it. -/
theorem giveUp (h : w.Tiered (b :: opened)) : w.Tiered opened :=
  { h with
    apart := fun ht hb hmem => h.apart ht hb (List.mem_cons_of_mem _ hmem)
    known := fun c hc => h.known c (List.mem_cons_of_mem _ hc)
    nodup := (List.nodup_cons.1 h.nodup).2 }

/-! ### Variables and declarations -/

theorem pushVar (h : w.Tiered opened) (ht : w.Has t) : Tiered opened { w with vars := w.vars.push { origin := t } } :=
  { h with layered := h.layered.var t ht }

theorem settle (h : w.Tiered opened) {c : VarCell} (hc : c ∈ w.vars) (v : Nat) (ht : w.Has t) :
    Tiered opened { w with vars := w.vars.setIfInBounds v { c with inst := some t } } :=
  { h with layered := h.layered.instantiate v c hc t ht }

theorem register (h : w.Tiered opened) {d : Declaration} (hinfo : w.Has d.info) (hparents : ∀ t ∈ d.parents, w.Has t) :
    Tiered opened { w with decls := (w.decls.register d).2 } :=
  { h with layered := h.layered.register d hinfo hparents }

theorem setParents (h : w.Tiered opened) (s : Symbol) {ps : List Ty} (hps : ∀ t ∈ ps, w.Has t) :
    Tiered opened { w with decls := w.decls.setParents s ps } :=
  { h with layered := h.layered.parents s ps hps }

end Tiered

/-- The worlds in tiers, with what was given out inside. -/
def tiers (opened : List BinderId) : Domain where
  Holds := Tiered opened
  inside := GivenOut opened
  grow hle h := h.grow hle
  step h hstep hm := h.step hstep hm
  noType h := h.fixed (by decide)
  noPrefix h := h.fixed (by decide)
  intern {w d} h hmade hd := by
    refine ⟨h.intern (mentions_of_made hmade hd) (regular_of_made hmade hd) fun b hb => (hd _ hb).2, ?_⟩
    exact Option.isSome_iff_exists.2 ⟨d, TypeTable.shape?_intern w.types d⟩
  binderType {w b d} h hb hd := by
    subst hd
    obtain ⟨hmentions, hregular⟩ := made_binderShape hb.1
    refine ⟨h.intern hmentions hregular fun c hc => ?_, Option.isSome_iff_exists.2 ⟨_, TypeTable.shape?_intern w.types _⟩⟩
    rw [parts_binderShape, List.mem_singleton] at hc
    cases hc
    exact hb.2
  skolem h := { h with layered := h.layered.skolem }
  snapshot h := { h with layered := h.layered.snapshot }

/-! ## What makes types -/

namespace Tiered

theorem makes_intern (hmade : ∀ v, w ≤ v → d.Made v) (hd : ∀ n ∈ d.parts, w.GivenOut opened n) :
    (tiers opened).MakesTy w (WorldM.intern d) := Domain.makes_intern (D := tiers opened) hmade hd

section Binders

variable {w₀ : World} {α : Type} {P : World → α → Prop} {n : Nat}

/-- Infos and result are made while the fresh binder is open. -/
theorem makes_fillOpen {kind : BinderKind} {names : List String} {g : BinderId → Ty → WorldM Ty}
    (hg : ∀ {w c a}, (w.binder? c).isSome → w.Has a → (tiers (c :: opened)).MakesTy w (g c a))
    (hgrows : ∀ c a, Grows True (g c a)) {infos : List Ty} {result : Ty} (hinfos : ∀ t ∈ infos, w₀.Has t)
    (hresult : w₀.Has result) {k : BinderId → WorldM α} (hkgrows : ∀ c, Grows True (k c))
    (hk : ∀ {w c}, w.GivenOut opened (.binder c) → w.binderKind? c = some kind → (tiers opened).Makes w P (k c)) :
    (tiers opened).Makes w₀ P (do
      let fresh ← WorldM.freshBinder kind names
      let infos ← infos.mapM (g fresh)
      let result ← g fresh result
      WorldM.fillBinder fresh infos result
      k fresh) := by
  intro w a w' hle hw hrun
  refine ⟨(grows_fillFresh hgrows infos result hkgrows).le_of_ok hrun, ?_⟩
  obtain ⟨fresh, w₁, hfresh, hrun⟩ := bind_ok hrun
  cases hfresh
  let fresh : BinderId := ⟨w.binders.size⟩
  let w₁ : World := { w with binders := w.binders.push { kind, names } }
  have hle₁ : w₀ ≤ w₁ := hle.trans (le_freshBinder w { kind, names })
  have hw₁ : w₁.Tiered (fresh :: opened) := Tiered.push hw kind names
  have hsome : (w₁.binder? fresh).isSome := hw₁.known fresh List.mem_cons_self
  obtain ⟨infos', w₂, hmade, hrun⟩ := bind_ok hrun
  obtain ⟨hle₂, hw₂, hinfos'⟩ := Domain.Makes.mapM (D := tiers (fresh :: opened))
    (fun a ha => hg hsome ((hinfos a ha).grow hle₁)) (fun hle h => Has.grow h hle) w₁ infos' w₂ le_rfl hw₁ hmade
  obtain ⟨result', w₃, hmade, hrun⟩ := bind_ok hrun
  obtain ⟨hle₃, hw₃, hresult'⟩ := hg (isSome_binder?_grow hsome hle₂) (hresult.grow (hle₁.trans hle₂))
    w₂ result' w₃ le_rfl hw₂ hmade
  obtain ⟨_, w₄, hfill, hrun⟩ := bind_ok hrun
  cases hfill
  have hw₄ : (w₃.fill fresh infos' result').Tiered opened := Tiered.fill hw₃ (fun t ht => Has.grow (hinfos' t ht) hle₃) hresult'
  have hkind : (w₃.fill fresh infos' result').binderKind? fresh = some kind := by
    have hfresh : w₃.binder? fresh = some { kind, names } := (hle₂.trans hle₃).binder Array.getElem?_push_size
    exact (binderKind?_fill hfresh fresh).trans (binderKind?_of_binder? hfresh)
  exact (hk (Tiered.givenOut_fill hw₃ _ _) hkind _ a w' le_rfl hw₄ hrun).2

section Rebuilding

variable {f : Ty → WorldM Ty} {rename : BinderId → BinderId → Ty → WorldM Ty}
  (hf : ∀ {w a}, w₀ ≤ w → w.Has a → (tiers opened).MakesTy w (f a))
  (hr : ∀ {opened w b c a}, (w.binder? c).isSome → w.Has a → (tiers opened).MakesTy w (rename b c a))
  (hgrows : ∀ b c a, Grows True (rename b c a))

include hf hr hgrows

theorem makes_rebuildOpen (ht : w₀.Has t) (b : BinderId) : (tiers opened).MakesTy w₀ (Ty.rebuildBinder f rename t b) := by
  refine .get_bind fun w hle hw => ?_
  have ht := ht.grow hle
  split
  · exact .pure_ty ht
  · next d hd =>
    have hparts := Tiered.filled hw hd
    refine .bind (.mapM (fun a ha => hf hle (hparts a (List.mem_append_left _ ha))) fun hle h => Has.grow h hle)
      fun v infos hv _ hinfos => ?_
    refine .bind (hf (hle.trans hv) ((hparts _ (List.mem_append_right _ List.mem_cons_self)).grow hv))
      fun v' result hv' _ hresult => .ite (fun _ => .pure_ty (ht.grow (hv.trans hv'))) fun _ => ?_
    exact makes_fillOpen hr (hgrows b) (fun t ht => Has.grow (hinfos t ht) hv') hresult (fun _ => grows_binderType _)
      fun hc _ => Domain.makes_binderType (D := tiers opened) hc

theorem makes_mapOpen (ht : w₀.Has t) : (tiers opened).MakesTy w₀ (Ty.mapChildren f rename t) :=
  Domain.makes_mapChildren (D := tiers opened) hf ht fun {_ b} hle _ _ =>
    makes_rebuildOpen (fun hle' => hf (hle.trans hle')) hr hgrows (ht.grow hle) b

end Rebuilding

/-- Renaming needs the binder whose parameters are put in, be it open. -/
theorem makes_substBinder (n : Nat) : ∀ {opened : List BinderId} {w₀ : World} {old new : BinderId} {t : Ty},
    (w₀.binder? new).isSome → w₀.Has t → (tiers opened).MakesTy w₀ (Ty.substBinder n old new t) := by
  induction n with
  | zero => exact fun _ _ => .throw
  | succ n ih =>
    intro opened w₀ old new t hnew ht
    refine .ite (fun _ => .pure_ty ht) fun _ => .get_bind fun w hle _ => ?_
    have ht := ht.grow hle
    have hnew := isSome_binder?_grow hnew hle
    have hparam (i : Nat) : (tiers opened).MakesTy w (Param.type ⟨new, i⟩) := Domain.makes_paramType hnew
    split
    · exact .ite (fun _ => hparam _) fun _ => .pure_ty ht
    · exact .ite (fun _ => hparam _) fun _ => .pure_ty ht
    · exact makes_mapOpen (fun hle' ha => ih (isSome_binder?_grow hnew hle') ha) ih (grows_substBinder n) ht

theorem makes_substParam {r : Ty} (n : Nat) : ∀ {w₀ : World} {t : Ty}, w₀.Has r → w₀.Has t →
    (tiers opened).MakesTy w₀ (Ty.substParam p r n t) := by
  induction n with
  | zero => exact fun _ _ => .throw
  | succ n ih =>
    intro w₀ t hr ht
    refine .get_bind fun w hle _ => ?_
    have ht := ht.grow hle
    have hr := hr.grow hle
    split
    · exact .ite (fun _ => .pure_ty hr) fun _ => .pure_ty ht
    · exact makes_mapOpen (fun hle' ha => ih (hr.grow hle') ha) (makes_substBinder n) (grows_substBinder n) ht

theorem makes_dropRefinements (n : Nat) : ∀ {w₀ : World} {t : Ty}, w₀.Has t →
    (tiers opened).MakesTy w₀ (Ty.dropRefinements p n t) := by
  induction n with
  | zero => exact fun _ => .throw
  | succ n ih =>
    intro w₀ t ht
    have hmap {v : World} (hle : w₀ ≤ v) : (tiers opened).MakesTy v
        (Ty.mapChildren (Ty.dropRefinements p n) (Ty.substBinder n) t) :=
      makes_mapOpen (fun _ ha => ih ha) (makes_substBinder n) (grows_substBinder n) (ht.grow hle)
    refine .get_bind fun w hle hw => ?_
    split
    · next parent name info hd =>
      have hparent : w.Has parent :=
        Domain.Holds.parts (D := tiers opened) hw (ht.grow hle) hd (.ty parent) (by simp [Shape.parts])
      refine .bind (P := fun _ _ => True) (.reading fun _ _ _ _ _ => trivial) fun v _ hv _ _ => ?_
      exact .ite (fun _ => ih (hparent.grow hv)) fun _ => hmap (hle.trans hv)
    · exact hmap hle

/-- The copy of a binder is no open binder, be that one open. -/
theorem makes_copy (n : Nat) (hb : (w₀.binder? b).isSome) :
    (tiers opened).Makes w₀ (fun w c => w.GivenOut opened (.binder c)) (b.copy n) := by
  refine .get_bind fun w hle hw => ?_
  split
  · next hnone =>
    have hsome := isSome_binder?_grow hb hle
    rw [hnone] at hsome
    cases hsome
  · next d hd =>
    have hparts := Tiered.filled hw hd
    refine makes_fillOpen (makes_substBinder n) (grows_substBinder n b) (fun t ht => hparts t (List.mem_append_left _ ht))
      (hparts _ (List.mem_append_right _ List.mem_cons_self)) (fun _ => .pure _) fun hc _ => ?_
    exact .pure fun _ hle => GivenOut.grow hc hle

/-- A simple method type is filled in at once. -/
theorem makes_simpleMethod {formals : List Ty} {result : Ty} (flags : MethodFlags) (hformals : ∀ t ∈ formals, w₀.Has t)
    (hresult : w₀.Has result) : (tiers opened).MakesTy w₀ (simpleMethod formals result flags) := by
  have hpure : formals.mapM (fun t => pure t : Ty → WorldM Ty) = pure formals := by
    simpa using List.mapM_pure (m := WorldM) (l := formals) (f := id)
  have hsame : simpleMethod formals result flags = (do
      let fresh ← WorldM.freshBinder (.method flags) ((List.range formals.length).map fun i => "x" ++ toString i)
      let infos ← formals.mapM (fun t => pure t)
      let result ← pure result
      WorldM.fillBinder fresh infos result
      WorldM.intern (.method fresh)) := by simp [simpleMethod, hpure]
  rw [hsame]
  refine makes_fillOpen (g := fun _ t => pure t) (fun _ ht => .pure_ty ht) (fun _ _ => .pure _) hformals hresult
    (fun _ => grows_intern _) fun {v c} hc hk x t x' hle hx hrun => ?_
  have hshape : x.binderShape c = .method c := by rw [binderShape, binderKind?_later hk hle]
  rw [← hshape, ← binderType_eq_intern] at hrun
  exact Domain.makes_binderType (D := tiers opened) hc x t x' hle hx hrun

end Binders

theorem rebuilds (opened : List BinderId) : (tiers opened).Rebuilds where
  builtin b h := Tiered.fixed h (by cases b <;> decide)
  substBinder n _ hnew ht := makes_substBinder n (hnew 0) ht
  substParam _ n hr ht := makes_substParam n hr ht
  dropRefinements _ n ht := makes_dropRefinements n ht
  copy n hb := makes_copy n hb.1

end Tiered

/-! ## Well-founded types -/

namespace Tiered

variable (h : w.Tiered opened)

include h

/-- **Direct children have smaller handles**, those of a universal or method type being what its binder was filled in
with. -/
theorem child_lt (hu : u ∈ w.children t) : u.id < t.id := h.layered.child_lt hu

theorem settled (ht : w.Has t) : w.Settled t := by
  refine Clear.of_kept (X := w.Has) (fun t ht => ?_) ht
  obtain ⟨d, hd⟩ := Option.isSome_iff_exists.1 ht
  refine ⟨⟨⟨d, hd, fun b hb => ?_⟩, id⟩, fun u hu => has_of_lt (h.child_lt (by rwa [inside_true] at hu)) ht⟩
  obtain ⟨-, e, he, -⟩ := h.binder hd hb
  exact Option.isSome_iff_exists.2 ⟨e, he⟩

/-- **Walks that follow the structure of types come to an end**, from some allowance on with one and the same result. -/
theorem structural_walks_end (ht : w.Has t) :
    (∀ p, ∃ k m, ∀ n, k ≤ n → w.mentions p n t = .ok m) ∧
      (∀ old new, (w.binder? new).isSome → ∃ k r, ∀ n, k ≤ n → Ty.substBinder n old new t w = .ok r) ∧
      (∀ p u, w.Has u → ∃ k r, ∀ n, k ≤ n → Ty.substParam p u n t w = .ok r) ∧
      ∀ p, ∃ k r, ∀ n, k ≤ n → Ty.dropRefinements p n t w = .ok r := by
  have hlow := low_of_child_lt h.child_lt
  have hsettled := h.settled ht
  refine ⟨fun p => ?_, fun old new hnew => ?_, fun p u hu => ?_, fun p => ?_⟩
  · obtain ⟨m, hm⟩ := total_mentions (p := p) _ le_rfl (hlow t)
    exact ⟨_, m, fun n hn => WorldM.mentions_mono hn hm⟩
  · obtain ⟨u, w', hrun, -⟩ := total_substBinder _ old le_rfl hnew hsettled (hlow t)
    exact ⟨_, (u, w'), fun n hn => WorldM.extends_substBinder old new t hn w _ hrun⟩
  · obtain ⟨r, w', hrun, -⟩ := total_substParam (p := p) _ le_rfl hsettled (hlow t) (h.settled hu) (hlow u)
    exact ⟨_, (r, w'), fun n hn => WorldM.extends_substParam t hn w _ hrun⟩
  · obtain ⟨u, w', hrun, -⟩ := total_dropRefinements (p := p) _ le_rfl hsettled (hlow t)
    exact ⟨_, (u, w'), fun n hn => WorldM.extends_dropRefinements t hn w _ hrun⟩

end Tiered

end World

end Conformance
