import Conformance.Proofs.Images

/-!
# Down the results of a type

Methods and universal types that are nested as results are opened one after the other, and each time the parameters of the
binder that is opened give way to those of another one in all that comes below. `Descends` follows what that makes of a
type: its binders are its own or fresh copies, and everything else is an image. It stays so when the next binder is
opened (`Descends.renamed`). The binders whose parameters have been renamed are not met any more on the way down; this is
what the set that goes along with `Descends` keeps, and why fresh binders can be told from those below.
-/

namespace Conformance

namespace World

variable {w v v' : World} {role : BinderId → Role} {s : Bool} {A A' : BinderId → Prop}
  {R : BinderId → BinderId → Prop} {t u x r : Ty} {b p q old new : BinderId}

/-- `R`, and inside of `p` on the left and `q` on the right these two as well, if the parameters of `p` are used. -/
def bind (role : BinderId → Role) (R : BinderId → BinderId → Prop) (p q a b : BinderId) : Prop :=
  R a b ∨ (∃ s, role p = .used s) ∧ a = p ∧ b = q

/-- Down its results, `u` in `v` is `x` in `w` with the binders that `R` pairs in each other's place. Each binder of `x` on
the way is of side `s`, and stands for itself or for a copy of it that is not in `A`. -/
inductive Descends (w : World) (role : BinderId → Role) (s : Bool) (v : World) :
    (BinderId → Prop) → (BinderId → BinderId → Prop) → Ty → Ty → Prop
  | plain {A : BinderId → Prop} {R : BinderId → BinderId → Prop} {x u : Ty} (image : Image (w.still role) w v R x u) :
    Descends w role s v A R x u
  | binder {A : BinderId → Prop} {R : BinderId → BinderId → Prop} {x u : Ty} {p q : BinderId} {d e : Binder}
    (shape₁ : w.shape? x = some (d.kind.shape p)) (shape₂ : v.shape? u = some (e.kind.shape q))
    (binder₁ : w.binder? p = some d) (binder₂ : v.binder? q = some e)
    (mine : role p = .used s ∧ d.names ≠ [] ∨ role p = .idle) (copy : q = p ∨ w.binder? q = none) (new : ¬ A q)
    (unopened : ∀ b, ¬ R p b) (kind : e.kind = d.kind) (names : e.names = d.names)
    (infos : List.Forall₂ (Image (w.still role) w v (bind role R p q)) d.infos e.infos)
    (result : Descends w role s v (fun b => A b ∨ b = q) (bind role R p q) d.result e.result) :
    Descends w role s v A R x u

namespace Descends

theorem off {P : Prop} (mine : role p = .used s ∧ P ∨ role p = .idle) (copy : q = p ∨ w.binder? q = none) : w.Off role q := by
  refine copy.imp ?_ id
  rintro rfl h
  rcases mine with ⟨hp, -⟩ | hp <;> rw [hp] at h <;> cases h

/-- Other binders may be avoided, as long as none on the way is among them. -/
theorem avoid (h : Descends w role s v A R x u)
    (hA : ∀ p q, role p = .used s ∨ role p = .idle → (w.binder? p).isSome → q = p ∨ w.binder? q = none →
      (v.binder? q).isSome → ¬ A q → ¬ A' q) : Descends w role s v A' R x u := by
  induction h generalizing A' with
  | plain image => exact .plain image
  | @binder A R x u p q d e shape₁ shape₂ binder₁ binder₂ mine copy new unopened kind names infos result ih =>
    refine .binder shape₁ shape₂ binder₁ binder₂ mine copy ?_ unopened kind names infos (ih ?_)
    · exact hA p q (mine.imp_left And.left) (by rw [binder₁]; rfl) copy (by rw [binder₂]; rfl) new
    · intro p' q' hp' hsome hcopy hq' hnot
      rintro (h | rfl)
      · exact hA p' q' hp' hsome hcopy hq' (fun h => hnot (.inl h)) h
      · exact hnot (.inr rfl)

/-- It stays so where shapes and kinds are kept and the binders that are not avoided are. -/
theorem kept (h : Descends w role s v A R x u) (hshape : ∀ {t d}, v.shape? t = some d → v'.shape? t = some d)
    (hkind : ∀ {b k}, v.binderKind? b = some k → v'.binderKind? b = some k)
    (hbinder : ∀ {b d}, ¬ A b → v.binder? b = some d → v'.binder? b = some d) : Descends w role s v' A R x u := by
  induction h with
  | plain image => exact .plain (image.kept hshape hkind)
  | binder shape₁ shape₂ binder₁ binder₂ mine copy new unopened kind names infos result ih =>
    exact .binder shape₁ (hshape shape₂) binder₁ (hbinder new binder₂) mine copy new unopened kind names
      (infos.imp fun _ _ h => h.kept hshape hkind) (ih fun hb => hbinder fun h => hb (.inl h))

theorem later (h : Descends w role s v A R x u) (hv : v ≤ v') : Descends w role s v' A R x u :=
  h.kept hv.shape (binderKind?_later · hv) fun _ => hv.binder

/-- It is clear of the parameters of a binder that is avoided and not paired. -/
theorem clear (hw : w.Closed) (hv : w ≤ v) (hold : w.Off role old) (h : Descends w role s v A R x u) (hA : A old)
    (hno : ∀ p, ¬ R p old) : v.Clear true (·.IsParamOf old) u := by
  induction h with
  | plain image => exact image.clear hw hv hold hno
  | @binder A R x u p q d e shape₁ shape₂ binder₁ binder₂ mine copy new unopened kind names infos result ih =>
    have hno' : ∀ a, ¬ bind role R p q a old := by
      rintro a (h | ⟨-, -, rfl⟩)
      · exact hno a h
      · exact new hA
    refine .of_children ⟨_, shape₂, fun b hb => ?_⟩ ?_ fun c hc => ?_
    · have hbq : b = q := by cases hkind : e.kind <;> rw [hkind] at hb <;> cases List.mem_singleton.1 hb <;> rfl
      rw [hbq, binder₂]
      rfl
    · rw [shape_of_shape? shape₂]
      rintro ⟨i, hi | hi⟩ <;> cases hkind : e.kind <;> rw [hkind] at hi <;> cases hi
    · rw [inside_true, children_of_binder shape₂ binder₂] at hc
      rcases List.mem_append.1 hc with hc | hc
      · obtain ⟨i, -, hi⟩ := exists_of_mem_right infos hc
        exact hi.clear hw hv hold hno'
      · cases List.mem_singleton.1 hc
        exact ih (.inl hA) hno'

end Descends

/-! ## Opening a binder -/

theorem redirect_bind (R : BinderId → BinderId → Prop) (p : BinderId) (hq : q ≠ old) (new : BinderId) :
    redirect (bind role R p q) old new = bind role (redirect R old new) p q := by
  funext a b
  refine propext ⟨?_, ?_⟩
  · rintro ⟨b₀, h | ⟨hp, rfl, rfl⟩, rfl⟩
    · exact .inl ⟨b₀, h, rfl⟩
    · exact .inr ⟨hp, rfl, if_neg hq⟩
  · rintro (⟨b₀, h, rfl⟩ | ⟨hp, rfl, rfl⟩)
    · exact ⟨b₀, .inl h, rfl⟩
    · exact ⟨b, .inr ⟨hp, rfl, rfl⟩, (if_neg hq).symm⟩

/-- The binder on the right gives way to another one. -/
theorem redirect_bind_self (hq : ∀ a, ¬ R a q) (p new : BinderId) :
    redirect (bind role R p q) q new = bind role R p new := by
  funext a b
  refine propext ⟨?_, ?_⟩
  · rintro ⟨b₀, h | ⟨hp, rfl, rfl⟩, rfl⟩
    · rw [if_neg fun heq : b₀ = q => hq a (heq ▸ h)]
      exact .inl h
    · exact .inr ⟨hp, rfl, if_pos rfl⟩
  · rintro (h | ⟨hp, rfl, rfl⟩)
    · exact ⟨b, .inl h, (if_neg fun heq : b = q => hq a (heq ▸ h)).symm⟩
    · exact ⟨q, .inr ⟨hp, rfl, rfl⟩, (if_pos rfl).symm⟩

theorem Lands.bind (h : w.Lands role R) (hq : ∀ a, ¬ R a q) (hoff : w.Off role q) (p : BinderId) :
    w.Lands role (bind role R p q) where
  unique := by
    rintro a a' b (h₁ | ⟨-, rfl, rfl⟩) (h₂ | ⟨-, rfl, h₂⟩)
    · exact h.unique h₁ h₂
    · exact absurd (h₂ ▸ h₁) (hq a)
    · exact absurd h₂ (hq a')
    · rfl
  off := by
    rintro a b (h₁ | ⟨-, rfl, rfl⟩)
    · exact h.off h₁
    · exact hoff

/-- What has to hold of the binders in play for `new` to take the place of `old`. -/
structure Opens (w : World) (role : BinderId → Role) (v : World) (A : BinderId → Prop) (R : BinderId → BinderId → Prop)
    (old new : BinderId) : Prop where
  le : w ≤ v
  avoids₁ : A old
  avoids₂ : A new
  alive : ∀ {b}, A b → (v.binder? b).isSome
  right : ∀ {p q}, R p q → A q
  lands : w.Lands role R
  free : ∀ p, ¬ R p new
  off₁ : w.Off role old
  off₂ : w.Off role new
  suits : Suits w v R old new

namespace Opens

/-- A binder `z` takes the place of the binder `q` that stands for one which `z` faces. -/
theorem facing {z : BinderId} {k l : BinderKind} (hv : w ≤ v) (alive : ∀ {b}, A b → (v.binder? b).isSome)
    (right : ∀ {p q}, R p q → A q) (lands : w.Lands role R) (hq : ¬ A q) (hsome : (v.binder? q).isSome)
    (hoff : w.Off role q) (hk : w.binderKind? p = some k) (hl : w.binderKind? z = some l)
    (hkl : l.bindsValues = k.bindsValues) (hz : role z = .used s) (hfree : ∀ a, ¬ R a z) (hqz : q ≠ z) :
    Opens w role v (fun b => (A b ∨ b = q) ∨ b = z) (World.bind role R p q) q z where
  le := hv
  avoids₁ := .inl (.inr rfl)
  avoids₂ := .inr rfl
  alive := by
    rintro b ((hb | rfl) | rfl)
    · exact alive hb
    · exact hsome
    · exact isSome_later (isSome_of_binderKind? hl) hv
  right := by
    rintro a b (hab | ⟨-, -, rfl⟩)
    · exact .inl (.inl (right hab))
    · exact .inl (.inr rfl)
  lands := lands.bind (fun _ ha => hq (right ha)) hoff p
  free := by
    rintro a (ha | ⟨-, -, ha⟩)
    · exact hfree a ha
    · exact hqz ha.symm
  off₁ := hoff
  off₂ := .inl (by rw [hz]; rintro ⟨⟩)
  suits := by
    rintro a m (ha | ⟨-, rfl, -⟩) hm
    · exact absurd (right ha) hq
    · cases hk.symm.trans hm
      exact ⟨l, binderKind?_later hl hv, hkl⟩

variable (h : Opens w role v A R old new)
include h

theorem later (hv : v ≤ v') : Opens w role v' A R old new :=
  { h with le := h.le.trans hv, alive := fun hb => isSome_later (h.alive hb) hv, suits := h.suits.later hv }

/-- Inside a binder that is not in play yet. -/
theorem bind (hq : ¬ A q) (hsome : (v.binder? q).isSome) (hoff : w.Off role q) (p : BinderId) :
    Opens w role v (fun b => A b ∨ b = q) (bind role R p q) old new where
  le := h.le
  avoids₁ := .inl h.avoids₁
  avoids₂ := .inl h.avoids₂
  alive := by
    rintro b (hb | rfl)
    · exact h.alive hb
    · exact hsome
  right := by
    rintro a b (hb | ⟨-, -, rfl⟩)
    · exact .inl (h.right hb)
    · exact .inr rfl
  lands := h.lands.bind (fun a ha => hq (h.right ha)) hoff p
  free := by
    rintro a (ha | ⟨-, -, rfl⟩)
    · exact h.free a ha
    · exact hq h.avoids₂
  off₁ := h.off₁
  off₂ := h.off₂
  suits := by
    rintro a k (ha | ⟨-, -, rfl⟩) hk
    · exact h.suits a k ha hk
    · exact absurd h.avoids₁ hq

theorem landed : w.Lands role (redirect R old new) := h.lands.redirect h.free h.off₂

theorem right_redirect {a b : BinderId} (hb : redirect R old new a b) : A b := by
  obtain ⟨b₀, hb₀, rfl⟩ := hb
  split_ifs
  · exact h.avoids₂
  · exact h.right hb₀

/-- A fresh binder takes the place of the binder `q` inside which the renaming has been done. -/
theorem fresh {f : BinderId} {k : BinderKind} (hq : ¬ A q) (hsome : (v.binder? q).isSome) (hoff : w.Off role q)
    (hp : w.binderKind? p = some k) (hv : v ≤ v') (hf : v.binder? f = none) (hk : v'.binderKind? f = some k) :
    Opens w role v' (fun b => (A b ∨ b = q) ∨ b = f) (World.bind role (redirect R old new) p q) q f where
  le := h.le.trans hv
  avoids₁ := .inl (.inr rfl)
  avoids₂ := .inr rfl
  alive := by
    rintro b ((hb | rfl) | rfl)
    · exact isSome_later (h.alive hb) hv
    · exact isSome_later hsome hv
    · exact isSome_of_binderKind? hk
  right := by
    rintro a b (hb | ⟨-, -, rfl⟩)
    · exact .inl (.inl (h.right_redirect hb))
    · exact .inl (.inr rfl)
  lands := h.landed.bind (fun a ha => hq (h.right_redirect ha)) hoff p
  free := by
    rintro a (ha | ⟨-, -, rfl⟩)
    · have hsome := h.alive (h.right_redirect ha)
      rw [hf] at hsome
      cases hsome
    · rw [hf] at hsome
      cases hsome
  off₁ := hoff
  off₂ := .inr (binder?_before h.le hf)
  suits := by
    rintro a l (ha | ⟨-, rfl, -⟩) hl
    · exact absurd (h.right_redirect ha) hq
    · exact ⟨k, hk, by rw [Option.some.inj (hp.symm.trans hl)]⟩

end Opens

namespace Descends

/-- Once the infos and the result of a fresh binder are filled in, its type is what the type of `p` has become. -/
theorem filled {f : BinderId} {d : Binder} {kind : BinderKind} {names : List String} {l : List Ty} {y : Ty}
    (hx : w.shape? x = some (d.kind.shape p)) (hp : w.binder? p = some d)
    (mine : role p = .used s ∧ d.names ≠ [] ∨ role p = .idle) (hnew : w.binder? f = none) (hA : ¬ A f)
    (unopened : ∀ b, ¬ R p b) (hkind : kind = d.kind) (hnames : names = d.names)
    (hf : v.binder? f = some { kind := kind, names := names })
    (infos : List.Forall₂ (Image (w.still role) w v (bind role R p f)) d.infos l)
    (result : Descends w role s v (fun b => A b ∨ b = f) (bind role R p f) d.result y)
    (hrun : f.type (v.fill f l y) = .ok (r, v')) : Descends w role s v' A R x r := by
  have hfilled (c : BinderId) : (v.fill f l y).binder? c =
      if c = f then some { kind := kind, names := names, infos := l, result := y } else v.binder? c :=
    binder?_fill hf c
  have hkinds {b : BinderId} {k : BinderKind} (hb : v.binderKind? b = some k) : (v.fill f l y).binderKind? b = some k :=
    (binderKind?_fill hf b).trans hb
  rw [binderType_run (hkinds (k := kind) (by rw [binderKind?, hf]; rfl))] at hrun
  obtain ⟨hle, hshape⟩ := intern_ok hrun
  refine .binder (e := { kind := kind, names := names, infos := l, result := y }) hx hshape hp
    (hle.binder ((hfilled f).trans (if_pos rfl))) mine (.inr hnew) hA unopened hkind hnames ?_ ?_
  · exact infos.imp fun _ _ h => (h.kept (x := v.fill f l y) id hkinds).later hle
  · have hkept : Descends w role s (v.fill f l y) (fun b => A b ∨ b = f) (bind role R p f) d.result y := by
      refine result.kept id hkinds fun {b d} hb hd => ?_
      rw [hfilled, if_neg fun heq => hb (.inr heq)]
      exact hd
    exact hkept.later hle

/-- A binder that was given out and is used on the other side is not met on the way. -/
theorem avoid_used (h : Descends w role s v A R x u) (hb : role b = .used !s) (hsome : (w.binder? b).isSome) :
    Descends w role s v (fun c => A c ∨ c = b) R x u := by
  refine h.avoid ?_
  rintro p q hp - hcopy - hnot (hA | rfl)
  · exact hnot hA
  · rcases hcopy with rfl | hnone
    · rw [hb] at hp
      rcases hp with hp | hp <;> cases s <;> cases hp
    · rw [hnone] at hsome
      cases hsome

/-- **Down its results a type stays what it is up to binders when one more binder is opened.** The binders on the way are
rebuilt where anything inside of them changes; the induction goes on inside them twice, the second time with the fresh
binder in the place of the old one. -/
theorem renamed (hw : w.Calm role) (n : Nat) : ∀ {v v' : World} {A : BinderId → Prop} {R : BinderId → BinderId → Prop}
    {old new : BinderId} {x u r : Ty}, Opens w role v A R old new → Descends w role s v A R x u →
      Ty.substBinder n old new u v = .ok (r, v') → Descends w role s v' A (redirect R old new) x r := by
  induction n with
  | zero => exact fun _ _ hrun => nomatch hrun
  | succ n ih =>
    intro v v' A R old new x u r ho h hrun
    have hle : v ≤ v' := (grows_substBinder (n + 1) old new u).le_of_ok hrun
    by_cases hne : old = new
    · subst hne
      change (if old = old then pure u else _ : WorldM Ty) v = _ at hrun
      rw [if_pos rfl] at hrun
      cases hrun
      rwa [redirect_self]
    cases h with
    | plain image => exact .plain (image.renamed hw le_rfl ho.off₁ ho.landed _ ho.le ho.suits hrun)
    | @binder _ _ _ _ p q d e shape₁ shape₂ binder₁ binder₂ mine copy hnew unopened kind names infos result =>
      have hoff := off mine copy
      have hsome : (v.binder? q).isSome := by rw [binder₂]; rfl
      have hq : q ≠ old := fun heq => hnew (heq ▸ ho.avoids₁)
      have ho' := ho.bind hnew hsome hoff p
      have hunopened : ∀ b, ¬ redirect R old new p b := fun b ⟨b₀, hb₀, _⟩ => unopened b₀ hb₀
      have hkind : w.binderKind? p = some e.kind := kind ▸ binderKind?_of_binder? binder₁
      rw [substBinder_layer hne shape₂ (by cases e.kind <;> rfl), mapChildren_binder shape₂] at hrun
      obtain ⟨l, v₁, y, v₂, hl, hy, hle₁, hle₂, hend⟩ :=
        rebuildBinder_ok binder₂ (grows_substBinder n old new) (grows_substBinder n) hrun
      have hle₁₂ := hle₁.trans hle₂
      have hinfos := Image.renamed_list hw le_rfl ho.off₁ ho'.landed ho.le ho'.suits infos hl
      have hresult := ih (ho'.later hle₁) (result.later hle₁) hy
      rw [redirect_bind R p hq new] at hinfos hresult
      rcases hend with ⟨rfl, rfl, rfl, rfl⟩ | ⟨f, v₃, l', v₄, y', v₅, hle₃, hfree, hf, hl', hy', hle₄, hle₅, htype⟩
      · exact .binder shape₁ (hle.shape shape₂) binder₁ (hle.binder binder₂) mine copy hnew hunopened kind names
          (hinfos.imp fun _ _ h => h.later hle₂) hresult
      · have hfv : v.binder? f = none := by
          cases hv : v.binder? f with
          | none => rfl
          | some d => exact (hle₁₂.binder hv).symm.trans hfree
        have hof : Opens w role v₃ _ _ q f :=
          ho.fresh hnew hsome hoff hkind (hle₁₂.trans hle₃) hfv (by rw [binderKind?, hf]; rfl)
        have hfresh : ∀ a, ¬ redirect R old new a q := fun a ha => hnew (ho.right_redirect ha)
        -- the binders on the way down were given out before `f` was
        have havoid : Descends w role s v₂ (fun b => (A b ∨ b = q) ∨ b = f) (bind role (redirect R old new) p q) d.result y := by
          refine hresult.avoid ?_
          rintro - q' - - - hq' hnot (h | rfl)
          · exact hnot h
          · rw [hfree] at hq'
            cases hq'
        have hinfos' := Image.renamed_list hw le_rfl hof.off₁ hof.landed hof.le hof.suits
          (hinfos.imp fun _ _ h => h.later (hle₂.trans hle₃)) hl'
        have hresult' := ih (hof.later hle₄) (havoid.later (hle₃.trans hle₄)) hy'
        rw [redirect_bind_self hfresh] at hinfos' hresult'
        have hf₅ : v₅.binder? f = some { kind := e.kind, names := e.names } := (hle₄.trans hle₅).binder hf
        have hA : ¬ A f := fun hA => by
          have hsome := ho.alive hA
          rw [hfv] at hsome
          cases hsome
        have hdown : Descends w role s v₅ (fun b => A b ∨ b = f) (bind role (redirect R old new) p f) d.result y' := by
          refine hresult'.avoid ?_
          rintro - q' - - - - hnot (h | h)
          · exact hnot (.inl (.inl h))
          · exact hnot (.inr h)
        exact filled shape₁ binder₁ mine (binder?_before ho.le hfv) hA hunopened kind names hf₅
          (hinfos'.imp fun _ _ h => h.later hle₅) hdown htype

end Descends

/-! ## Standing for a type -/

/-- `u` in `v` stands for `x`: down its results it is `x`, and the binders in play were given out. -/
structure Stands (w : World) (role : BinderId → Role) (s : Bool) (v : World) (R : BinderId → BinderId → Prop) (x u : Ty) :
    Prop where
  le : w ≤ v
  lands : w.Lands role R
  descends : ∃ A : BinderId → Prop, (∀ b, A b → (v.binder? b).isSome) ∧ (∀ p q, R p q → A q) ∧ Descends w role s v A R x u

/-- Two binders that face each other bind types or values both, and their parameters are used on both sides or on
neither. -/
structure Faces (w : World) (role : BinderId → Role) (s : Bool) (p q : BinderId) : Prop where
  roles : role p = .idle ∧ role q = .idle ∨ role p = .used s ∧ role q = .used !s
  kinds : ∃ k l, w.binderKind? p = some k ∧ w.binderKind? q = some l ∧ l.bindsValues = k.bindsValues

/-- Of the types of binders only those that stay as they are are images. -/
theorem Image.of_binder {k : BinderKind} (hv : w ≤ v) (h : Image (w.still role) v v' R t u) (ht : w.shape? t = some (k.shape b)) :
    w.Still role t ∧ u = t := by
  have hplain {d : Shape} (hd : v.shape? t = some d) : d.isPlain = false := by
    rw [← Option.some.inj ((hv.shape ht).symm.trans hd)]
    cases k <;> rfl
  cases h with
  | same still => exact ⟨still, rfl⟩
  | @param _ _ _ _ l _ _ _ _ _ _ shape₁ =>
    have heq := Option.some.inj ((hv.shape ht).symm.trans shape₁)
    cases k <;> cases l <;> cases heq
  | around₁ hmk shape₁ => exact absurd (hplain shape₁) (by rw [hmk.plain]; rintro ⟨⟩)
  | around₂ hmk shape₁ => exact absurd (hplain shape₁) (by rw [hmk.plain]; rintro ⟨⟩)
  | joint hnode shape₁ => exact absurd (hplain shape₁) (by rw [hnode.plain]; rintro ⟨⟩)

/-- Nothing is added for a binder whose parameters are not used. -/
theorem bind_of_idle (hp : ∀ s, role p ≠ .used s) (q : BinderId) : bind role R p q = R := by
  funext a b
  exact propext ⟨fun h => h.resolve_right fun h => h.1.elim hp, .inl⟩

namespace Stands

variable {d : Binder}

theorem later (h : Stands w role s v R x u) (hv : v ≤ v') : Stands w role s v' R x u := by
  obtain ⟨A, halive, hright, hd⟩ := h.descends
  exact ⟨h.le.trans hv, h.lands, A, fun b hb => isSome_later (halive b hb) hv, hright, hd.later hv⟩

theorem of_image (hv : w ≤ v) (hR : w.Lands role R) (halive : ∀ p q, R p q → (v.binder? q).isSome)
    (h : Image (w.still role) w v R x u) : Stands w role s v R x u :=
  ⟨hv, hR, fun q => ∃ p, R p q, fun q ⟨p, hp⟩ => halive p q hp, fun p _ hp => ⟨p, hp⟩, .plain h⟩

theorem alive (h : Stands w role s v R x u) (p q : BinderId) (hpq : R p q) : (v.binder? q).isSome := by
  obtain ⟨A, halive, hright, -⟩ := h.descends
  exact halive q (hright p q hpq)

/-- What stands for a type that is not that of a binder is an image of it. -/
theorem image (h : Stands w role s v R x u) (hx : ∀ (k : BinderKind) b, w.shape? x ≠ some (k.shape b)) :
    Image (w.still role) w v R x u := by
  obtain ⟨A, -, -, hd⟩ := h.descends
  cases hd with
  | plain image => exact image
  | binder shape₁ => exact absurd shape₁ (hx _ _)

variable (hx : w.shape? x = some (d.kind.shape p)) (hp : w.binder? p = some d)
include hx hp

/-- A binder whose parameters are used is met once on the way. -/
theorem unopened (hw : w.Closed) (h : Stands w role s v R x u) (hrole : role p = .used s) : ∀ b, ¬ R p b := by
  obtain ⟨A, -, -, hd⟩ := h.descends
  cases hd with
  | plain image =>
    obtain ⟨hstill, -⟩ := image.of_binder le_rfl hx
    exact absurd hrole ((hstill.binder hw hx hp).1 s)
  | binder shape₁ _ _ _ _ _ _ unopened =>
    cases BinderKind.shape_inj (Option.some.inj (hx.symm.trans shape₁))
    exact unopened

/-- A binder without parameters goes unused, and what is inside of it stands for what is inside of the other one. -/
theorem nullary (hw : w.Closed) (h : Stands w role s v R x u) (hnames : d.names = []) :
    ∃ q e, v.shape? u = some (e.kind.shape q) ∧ v.binder? q = some e ∧ e.kind = d.kind ∧ e.names = d.names ∧
      Stands w role s v R d.result e.result := by
  obtain ⟨A, halive, hright, hd⟩ := h.descends
  cases hd with
  | plain image =>
    obtain ⟨hstill, rfl⟩ := image.of_binder le_rfl hx
    obtain ⟨-, -, hresult⟩ := hstill.binder hw hx hp
    exact ⟨p, d, h.le.shape hx, h.le.binder hp, rfl, rfl, .of_image h.le h.lands h.alive (.same hresult)⟩
  | @binder _ _ _ _ p' q d' e shape₁ shape₂ binder₁ binder₂ mine copy new _ kind names infos result =>
    cases BinderKind.shape_inj (Option.some.inj (hx.symm.trans shape₁))
    cases hp.symm.trans binder₁
    have hidle : role p = .idle := mine.resolve_left fun h => h.2 hnames
    rw [bind_of_idle fun s h => by rw [hidle] at h; cases h] at result
    refine ⟨q, e, shape₂, binder₂, kind, names, h.le, h.lands, _, ?_, fun a b hab => .inl (hright a b hab), result⟩
    rintro b (hb | rfl)
    · exact halive b hb
    · rw [binder₂]
      rfl

/-- **Opening a binder.** In what stands for the type of `p` the parameters of the binder give way to those of `z`, which
faces `p`: the infos become images of those of `p`, and the result stands for that of `p`. -/
theorem opened (hw : w.Calm role) {z : BinderId} (h : Stands w role s v R x u) (hface : Faces w role s p z)
    (hfree : role p = .used s → ∀ a, ¬ R a z) :
    ∃ q e, v.shape? u = some (e.kind.shape q) ∧ v.binder? q = some e ∧ e.kind = d.kind ∧ e.names = d.names ∧
      (∀ n formals v', e.infos.mapM (Ty.substBinder n q z) v = .ok (formals, v') →
        List.Forall₂ (Image (w.still role) w v' (bind role R p z)) d.infos formals) ∧
      ∀ n v₁ r v₂, v ≤ v₁ → Ty.substBinder n q z e.result v₁ = .ok (r, v₂) →
        Stands w role s v₂ (bind role R p z) d.result r := by
  have hcl := hw.built.closed
  obtain ⟨A, halive, hright, hd⟩ := h.descends
  cases hd with
  | plain image =>
    obtain ⟨hstill, rfl⟩ := image.of_binder le_rfl hx
    obtain ⟨hunused, hinfos, hresult⟩ := hstill.binder hcl hx hp
    have hoff : w.Off role p := .inl fun h => by
      rcases hface.roles with ⟨hidle, -⟩ | ⟨hused, -⟩
      · rw [hidle] at h
        cases h
      · exact hunused s hused
    rw [bind_of_idle hunused]
    refine ⟨p, d, h.le.shape hx, h.le.binder hp, rfl, rfl, fun n formals v' hrun => ?_, fun n v₁ r v₂ hv₁ hrun => ?_⟩
    · cases mapM_same (fun i hi _ hr => substBinder_same n (((hinfos i hi).clear hcl hoff).later h.le) hr) hrun
      exact List.forall₂_same.2 fun i hi => .same (hinfos i hi)
    · cases substBinder_same n ((hresult.clear hcl hoff).later (h.le.trans hv₁)) hrun
      exact .of_image (h.le.trans hv₁) h.lands (h.later hv₁).alive (.same hresult)
  | @binder _ _ _ _ p' q d' e shape₁ shape₂ binder₁ binder₂ mine copy new unopened kind names infos result =>
    cases BinderKind.shape_inj (Option.some.inj (hx.symm.trans shape₁))
    cases hp.symm.trans binder₁
    have hoff := Descends.off mine copy
    have hsome : (v.binder? q).isSome := by rw [binder₂]; rfl
    have hnew : ∀ a, ¬ R a q := fun a ha => new (hright a q ha)
    refine ⟨q, e, shape₂, binder₂, kind, names, ?_⟩
    obtain ⟨k, l, hk, hl, hkl⟩ := hface.kinds
    rcases hface.roles with ⟨hidle, -⟩ | ⟨hused, hused'⟩
    · -- the parameters are not used, so that nothing is renamed
      have hunused (s : Bool) : role p ≠ .used s := by rw [hidle]; rintro ⟨⟩
      simp only [bind_of_idle hunused] at infos result ⊢
      refine ⟨fun n formals v' hrun => ?_, fun n v₁ r v₂ hv₁ hrun => ?_⟩
      · have hclear : ∀ i ∈ e.infos, v.Clear true (·.IsParamOf q) i := fun i hi => by
          obtain ⟨a, -, ha⟩ := exists_of_mem_right infos hi
          exact ha.clear hcl h.le hoff hnew
        cases mapM_same (fun i hi _ hr => substBinder_same n (hclear i hi) hr) hrun
        exact infos
      · cases substBinder_same n ((result.clear hcl h.le hoff (.inr rfl) hnew).later hv₁) hrun
        refine ⟨h.le.trans hv₁, h.lands, _, ?_, fun a b hab => .inl (hright a b hab), result.later hv₁⟩
        rintro b (hb | rfl)
        · exact isSome_later (halive b hb) hv₁
        · exact isSome_later hsome hv₁
    · have hz : (w.binder? z).isSome := isSome_of_binderKind? hl
      have hqz : q ≠ z := by
        rintro rfl
        rcases copy with rfl | hnone
        · rw [hused] at hused'
          cases s <;> cases hused'
        · rw [hnone] at hz
          cases hz
      have hopens : Opens w role v (fun b => (A b ∨ b = q) ∨ b = z) (bind role R p q) q z :=
        Opens.facing h.le (@halive) (fun {a b} => hright a b) h.lands new hsome hoff hk hl hkl hused' (hfree hused) hqz
      have hresult := result.avoid_used hused' hz
      refine ⟨fun n formals v' hrun => ?_, fun n v₁ r v₂ hv₁ hrun => ?_⟩
      · have hformals := Image.renamed_list hw le_rfl hopens.off₁ hopens.landed hopens.le
          hopens.suits infos hrun
        rwa [redirect_bind_self hnew] at hformals
      · have hr := (hresult.later hv₁).renamed hw n (hopens.later hv₁) hrun
        have hle₂ : v₁ ≤ v₂ := (grows_substBinder n q z _).le_of_ok hrun
        have hlands := hopens.landed
        have hback {a b : BinderId} (hab : redirect (bind role R p q) q z a b) := (hopens.later hv₁).right_redirect hab
        rw [redirect_bind_self hnew] at hr hlands hback
        exact ⟨h.le.trans (hv₁.trans hle₂), hlands, _, fun b hb => isSome_later ((hopens.later hv₁).alive hb) hle₂,
          fun a b hab => hback hab, hr⟩

end Stands

end World

end Conformance
