import Conformance.Proofs.Region

/-!
# Types are finite trees

A world is founded when every type in it is a finite tree: what a type is made of, down to the infos and results of
binders, was given out and comes to an end. Declarations and variables may still go round in a circle; they are not part
of the types that name them. Only the way along intersections and instances of variables has to end, which the test for
stability follows without a guard (`World.Follows`). Computations on types keep a world founded (`World.trees` is a
domain), and those that follow the trees come to an end when they are allowed as many steps as the trees are high:
substitution (`finishes_substBinder`), which gives trees that are no higher, and signatures. `WorldM.Finishes` is the
logic for such computations, indexed by their allowance.
-/

namespace Conformance

namespace World

variable {w w' : World} {h h' : Nat} {n : Node} {t u : Ty} {d : Shape} {b : BinderId} {v : VarId}

/-! ## Links -/

/-- Where the test for stability may go on from a type. -/
def links (w : World) (t : Ty) : List Ty :=
  match w.shape? t with
  | some (.inter a b) => [a, b]
  | some (.var v) => (w.varInstance? v).toList
  | _ => []

/-- There is a link from `t` to `u`. -/
def Follows (w : World) (t u : Ty) : Prop := u ∈ w.links t

/-- From an intersection to an operand, or from a variable to what it was settled to. -/
theorem follows_iff : w.Follows t u ↔
    (∃ a b, w.shape? t = some (.inter a b) ∧ (u = a ∨ u = b)) ∨ ∃ v, w.shape? t = some (.var v) ∧ w.varInstance? v = some u := by
  rw [Follows, links]
  split
  · next a b ht => simp [ht]
  · next v ht => simp [ht]
  · next hinter hvar =>
    refine ⟨fun h => absurd h List.not_mem_nil, ?_⟩
    rintro (⟨a, b, ht, -⟩ | ⟨v, ht, -⟩)
    · exact absurd ht (hinter a b)
    · exact absurd ht (hvar v)

theorem follows_of_settled (ht : w.shape? t = some (.var v)) (hu : w.varInstance? v = some u) : w.Follows t u :=
  follows_iff.2 (.inr ⟨v, ht, hu⟩)

theorem Follows.has (h : w.Follows t u) : w.Has t := by
  obtain ⟨a, b, ht, -⟩ | ⟨v, ht, -⟩ := follows_iff.1 h
  · exact Option.isSome_of_eq_some ht
  · exact Option.isSome_of_eq_some ht

/-- While no variable is settled, a type that was there is linked to what it was linked to. -/
theorem Follows.back (h : w'.Follows t u) (ht : w.Has t) (hshape : ∀ {d}, w.shape? t = some d → w'.shape? t = some d)
    (hinst : ∀ v, w'.varInstance? v = w.varInstance? v) : w.Follows t u := by
  obtain ⟨d, hd⟩ := Option.isSome_iff_exists.1 ht
  have hback {e : Shape} (he : w'.shape? t = some e) : w.shape? t = some e := hd.trans ((hshape hd).symm.trans he)
  obtain ⟨a, b, ht', hu⟩ | ⟨v, ht', hu⟩ := follows_iff.1 h
  · exact follows_iff.2 (.inl ⟨a, b, hback ht', hu⟩)
  · exact follows_of_settled (hback ht') ((hinst v).symm.trans hu)

theorem varInstance?_grow (hle : w ≤ w') (v : VarId) : w'.varInstance? v = w.varInstance? v := by
  rw [varInstance?, varInstance?, hle.vars]

/-! ## Founded worlds -/

/-- What `n` is made of was given out, and nests no more than `h` deep. What a variable stands for is no part of it. -/
inductive Tree (w : World) : Nat → Node → Prop
  | sym {h : Nat} (s : Symbol) : Tree w h (.sym s)
  | param {h : Nat} (p : Param) : Tree w h (.param p)
  | ty {h : Nat} {t : Ty} {d : Shape} (ht : w.shape? t = some d) (hparts : ∀ n ∈ d.parts, Tree w h n) :
    Tree w (h + 1) (.ty t)
  | binder {h : Nat} {b : BinderId} {d : Binder} (hb : w.binder? b = some d) (hinfos : ∀ t ∈ d.infos, Tree w h (.ty t))
    (hresult : Tree w h (.ty d.result)) : Tree w (h + 1) (.binder b)
  | var {h : Nat} (v : VarId) : Tree w h (.var v)

/-- What `n` is made of was given out and comes to an end. -/
def Finite (w : World) (n : Node) : Prop := ∃ h, w.Tree h n

/-- Every type is a finite tree, all that is referred to was given out, and the links from what a variable is settled to
come to an end. So no variable is an operand of its own instance, where the test for stability would go on for ever; in a
prefix or in a refinement of its instance it may be. -/
structure Founded (w : World) : Prop where
  tree : ∀ {t : Ty}, w.Has t → w.Finite (.ty t)
  binder : ∀ {b : BinderId}, (w.binder? b).isSome → w.Finite (.binder b)
  decl : ∀ {s : Symbol} {d : Declaration}, w.decls.get? s = some d → ∀ n ∈ d.parts, w.Finite n
  vars : ∀ c ∈ w.vars, w.Has c.origin ∧ ∀ t ∈ c.inst, w.Has t ∧ Acc (flip w.Follows) t
  fixed : ∀ t : Ty, t.id < Ty.fixedCount + Builtin.all.length → w.Has t

theorem Tree.succ (hn : w.Tree h n) : w.Tree (h + 1) n := by
  induction hn with
  | sym s => exact .sym s
  | param p => exact .param p
  | ty ht _ ih => exact .ty ht ih
  | binder hb _ _ ihinfos ihresult => exact .binder hb ihinfos ihresult
  | var v => exact .var v

theorem Tree.higher (hn : w.Tree h n) (hle : h ≤ h') : w.Tree h' n := by
  induction hle with
  | refl => exact hn
  | step _ ih => exact ih.succ

theorem Tree.grow (hle : w ≤ w') (hn : w.Tree h n) : w'.Tree h n := by
  induction hn with
  | sym s => exact .sym s
  | param p => exact .param p
  | ty ht _ ih => exact .ty (hle.shape ht) ih
  | binder hb _ _ ihinfos ihresult => exact .binder (hle.binder hb) ihinfos ihresult
  | var v => exact .var v

theorem Tree.parts (ht : w.Tree (h + 1) (.ty t)) (hd : w.shape t = d) : ∀ n ∈ d.parts, w.Tree h n := by
  cases ht with
  | ty ht hparts => exact (shape_of_shape? ht).symm.trans hd ▸ hparts

theorem Tree.binder_parts {d : Binder} (hb : w.Tree (h + 1) (.binder b)) (hd : w.binder? b = some d) :
    (∀ t ∈ d.infos, w.Tree h (.ty t)) ∧ w.Tree h (.ty d.result) := by
  cases hb with
  | binder hb hinfos hresult =>
    obtain rfl := Option.some.inj (hb.symm.trans hd)
    exact ⟨hinfos, hresult⟩

theorem Finite.grow (hle : w ≤ w') (hn : w.Finite n) : w'.Finite n := hn.imp fun _ => Tree.grow hle

theorem Finite.has (ht : w.Finite (.ty t)) : w.Has t := by
  obtain ⟨h, ht⟩ := ht
  cases ht with
  | ty hd _ => exact Option.isSome_of_eq_some hd

/-- Finitely many finite trees have a common bound on their heights. -/
theorem exists_height {l : List Node} (hl : ∀ n ∈ l, w.Finite n) : ∃ h, ∀ n ∈ l, w.Tree h n := by
  induction l with
  | nil => exact ⟨0, fun n hn => nomatch hn⟩
  | cons n l ih =>
    obtain ⟨h₁, h₁n⟩ := hl n (by simp)
    obtain ⟨h₂, h₂l⟩ := ih fun n hn => hl n (by simp [hn])
    refine ⟨max h₁ h₂, fun m hm => ?_⟩
    rcases List.mem_cons.1 hm with rfl | hm
    · exact h₁n.higher (Nat.le_max_left ..)
    · exact (h₂l m hm).higher (Nat.le_max_right ..)

theorem finite_ty (ht : w.shape? t = some d) (hparts : ∀ n ∈ d.parts, w.Finite n) : w.Finite (.ty t) :=
  (exists_height hparts).imp' (· + 1) fun _ hparts => .ty ht hparts

theorem finite_step {m : Node} (hw : w.Founded) (hstep : w.Step m n) (hm : w.Finite m) : w.Finite n := by
  obtain ⟨h, hm⟩ := hm
  cases hstep with
  | part ht hn =>
    cases hm with
    | ty ht' hparts => exact ⟨_, hparts _ (Option.some.inj (ht.symm.trans ht') ▸ hn)⟩
  | info hb ht =>
    cases hm with
    | binder hb' hinfos _ => exact ⟨_, hinfos _ (Option.some.inj (hb.symm.trans hb') ▸ ht)⟩
  | result hb =>
    cases hm with
    | binder hb' _ hresult => exact ⟨_, Option.some.inj (hb'.symm.trans hb) ▸ hresult⟩
  | bound b i => exact ⟨0, .param _⟩
  | declared hb ht =>
    obtain ⟨h, hb'⟩ := hw.binder (Option.isSome_iff_exists.2 ⟨_, hb⟩)
    cases hb' with
    | binder hb' hinfos _ =>
      exact ⟨_, hinfos _ (Option.some.inj (hb.symm.trans hb') ▸ List.mem_of_getElem? ht)⟩
  | declaration hs hn => exact hw.decl hs _ hn
  | origin hv => exact hw.tree (hw.vars _ (Array.mem_of_getElem? hv)).1
  | settled hv ht => exact hw.tree ((hw.vars _ (Array.mem_of_getElem? hv)).2 _ ht).1

namespace Founded

theorem settled (hw : w.Founded) (ht : w.varInstance? v = some t) : w.Has t ∧ Acc (flip w.Follows) t := by
  obtain ⟨c, hc, hinst⟩ := Option.bind_eq_some_iff.1 ht
  exact (hw.vars c (Array.mem_of_getElem? hc)).2 t hinst

theorem has_of_follows (hw : w.Founded) (h : w.Follows t u) : w.Has u := by
  have ht := hw.tree h.has
  obtain ⟨a, b, hd, rfl | rfl⟩ | ⟨v, -, hu⟩ := follows_iff.1 h
  · exact (finite_step hw (.part hd (by simp [Shape.parts])) ht).has
  · exact (finite_step hw (.part hd (by simp [Shape.parts])) ht).has
  · exact (hw.settled hu).1

/-- All ways along links come to an end: operands are smaller trees, and the ways from instances come to an end. -/
theorem acc_of_tree (hw : w.Founded) (h : Nat) : ∀ {t : Ty}, w.Tree h (.ty t) → Acc (flip w.Follows) t := by
  induction h with
  | zero => intro t ht; cases ht
  | succ h ih =>
    refine fun {t} ht => .intro t fun u hu => ?_
    obtain ⟨a, b, hd, rfl | rfl⟩ | ⟨v, -, hinst⟩ := follows_iff.1 hu
    · exact ih (ht.parts (shape_of_shape? hd) _ (by simp [Shape.parts]))
    · exact ih (ht.parts (shape_of_shape? hd) _ (by simp [Shape.parts]))
    · exact (hw.settled hinst).2

theorem acc_grow (hw : w.Founded) (hle : w ≤ w') (ht : w.Has t) (hacc : Acc (flip w.Follows) t) :
    Acc (flip w'.Follows) t := by
  induction hacc with
  | intro t _ ih =>
    refine .intro t fun u hu => ?_
    have hlink : w.Follows t u := Follows.back hu ht hle.shape (varInstance?_grow hle)
    exact ih u hlink (hw.has_of_follows hlink)

/-- A founded world stays so when finite trees are added. -/
theorem extend (hw : w.Founded) (hle : w ≤ w') (hty : ∀ t, w'.Has t → w.Has t ∨ w'.Finite (.ty t))
    (hbinder : ∀ b, (w'.binder? b).isSome → (w.binder? b).isSome ∨ w'.Finite (.binder b)) : w'.Founded where
  tree ht := (hty _ ht).elim (fun ht => (hw.tree ht).grow hle) id
  binder hb := (hbinder _ hb).elim (fun hb => (hw.binder hb).grow hle) id
  decl hs n hn := (hw.decl (hle.decls ▸ hs) n hn).grow hle
  vars c hc := by
    obtain ⟨horigin, hinst⟩ := hw.vars c (hle.vars ▸ hc)
    refine ⟨horigin.grow hle, fun t ht => ?_⟩
    obtain ⟨hhas, hacc⟩ := hinst t ht
    exact ⟨hhas.grow hle, hw.acc_grow hle hhas hacc⟩
  fixed t ht := (hw.fixed t ht).grow hle

theorem intern (hw : w.Founded) (hd : ∀ n ∈ d.parts, w.Finite n) :
    Founded { w with types := (w.types.intern d).2 } ∧
      Finite { w with types := (w.types.intern d).2 } (.ty (w.types.intern d).1) := by
  have hle : w ≤ { w with types := (w.types.intern d).2 } := le_intern d w
  have hparts := fun n hn => (hd n hn).grow hle
  refine ⟨hw.extend hle (fun t ht => ?_) fun b => .inl, finite_ty (TypeTable.shape?_intern w.types d) hparts⟩
  obtain ⟨e, he⟩ := Option.isSome_iff_exists.1 ht
  rcases shape?_of_intern he with he' | rfl
  · exact .inl (Option.isSome_iff_exists.2 ⟨e, he'⟩)
  · exact .inr (finite_ty he hparts)

end Founded

/-! ## Worlds in order -/

/-- The types that `n` is made of have handles below `i`. -/
def before (w : World) (i : Nat) : Node → Bool
  | .ty t => t.id < i
  | .sym _ | .param _ => true
  | .binder b => (w.binder? b).any fun d => (d.result :: d.infos).all (·.id < i)
  | .var v => w.vars[v.id]?.any fun c => (c.origin :: c.inst.toList).all (·.id < i)

/-- Every type is made of types before it, and variables and declarations are made of types. A type is given out after
what it is made of, so that only a variable that is settled to a later type breaks the order. -/
def orderly (w : World) : Bool :=
  decide (Ty.fixedCount + Builtin.all.length ≤ w.types.shapes.size) &&
    (List.range w.types.shapes.size).all (fun i => (w.shape ⟨i⟩).parts.all (w.before i)) &&
    (List.range w.binders.size).all (fun i => w.before w.types.shapes.size (.binder ⟨i⟩)) &&
    (List.range w.vars.size).all (fun i => w.before w.types.shapes.size (.var ⟨i⟩)) &&
    w.decls.entries.all fun d => d.parts.all (w.before w.types.shapes.size)

theorem Tree.of_before {i : Nat} (hty : ∀ t : Ty, t.id < i → w.Tree h (.ty t)) (hn : w.before i n) :
    w.Tree (h + 1) n := by
  cases n with
  | ty t => exact (hty t (by simpa [before] using hn)).succ
  | sym s => exact .sym s
  | param p => exact .param p
  | binder b =>
    obtain ⟨d, hd, hbelow⟩ := (Option.any_eq_true ..).1 hn
    simp only [List.all_eq_true, decide_eq_true_eq] at hbelow
    exact .binder hd (fun t ht => hty t (hbelow t (.tail _ ht))) (hty _ (hbelow _ (.head _)))
  | var v => exact .var v

theorem lt_of_before_var {i : Nat} {c : VarCell} (hv : w.before i (.var v)) (hc : w.vars[v.id]? = some c) :
    c.origin.id < i ∧ ∀ t ∈ c.inst, t.id < i := by
  rw [before, hc, Option.any_some, List.all_eq_true] at hv
  simp only [decide_eq_true_eq] at hv
  exact ⟨hv _ (.head _), fun t ht => hv t (.tail _ (Option.mem_toList.2 ht))⟩

theorem founded_of_orderly (h : w.orderly) : w.Founded := by
  simp only [orderly, Bool.and_eq_true, decide_eq_true_eq, List.all_eq_true, List.mem_range, Array.all_eq_true'] at h
  obtain ⟨⟨⟨⟨hfixed, hshapes⟩, hbinders⟩, hvars⟩, hdecls⟩ := h
  have hhas : ∀ {t : Ty}, w.Has t ↔ t.id < w.types.shapes.size := by simp [Has, World.shape?, TypeTable.shape?]
  have htree : ∀ i ≤ w.types.shapes.size, ∀ t : Ty, t.id < i → w.Tree (2 * i) (.ty t) := by
    intro i
    induction i with
    | zero => exact fun _ _ ht => absurd ht (Nat.not_lt_zero _)
    | succ i ih =>
      intro hi t ht
      have hsize : t.id < w.types.shapes.size := Nat.lt_of_lt_of_le ht hi
      obtain ⟨d, hd⟩ := Option.isSome_iff_exists.1 (hhas.2 hsize)
      have hbelow : ∀ u : Ty, u.id < t.id → w.Tree (2 * i) (.ty u) := fun u hu =>
        ih (Nat.le_of_succ_le hi) u (by omega)
      exact .ty hd fun n hn => .of_before hbelow (hshapes t.id hsize n (shape_of_shape? hd ▸ hn))
  have hfinite : ∀ {n : Node}, w.before w.types.shapes.size n → w.Finite n := fun hn =>
    ⟨_, .of_before (htree _ (Nat.le_refl _)) hn⟩
  have hlinks : ∀ {u t : Ty}, w.Follows t u → u.id < t.id := by
    intro u t hu
    have hparts {d : Shape} (hd : w.shape? t = some d) : ∀ n ∈ d.parts, w.before t.id n :=
      shape_of_shape? hd ▸ hshapes t.id (hhas.1 hu.has)
    obtain ⟨a, b, hd, rfl | rfl⟩ | ⟨v, hd, hinst⟩ := follows_iff.1 hu
    · simpa [before] using hparts hd (.ty u) (by simp [Shape.parts])
    · simpa [before] using hparts hd (.ty u) (by simp [Shape.parts])
    · obtain ⟨c, hc, hinst⟩ := Option.bind_eq_some_iff.1 hinst
      exact (lt_of_before_var (hparts hd (.var v) (by simp [Shape.parts])) hc).2 u hinst
  have hacc : ∀ t : Ty, Acc (flip w.Follows) t := (Subrelation.wf (fun h => hlinks h) (measure Ty.id).wf).apply
  exact {
    tree := fun ht => ⟨_, htree _ (Nat.le_refl _) _ (hhas.1 ht)⟩
    binder := fun {b} hb => hfinite (hbinders b.id (by simpa [World.binder?] using hb))
    decl := fun {s d} hs n hn => by
      obtain ⟨_ | i⟩ := s
      · cases hs
      · exact hfinite (hdecls d (Array.mem_of_getElem? hs) n hn)
    vars := fun c hc => by
      obtain ⟨i, hi, rfl⟩ := Array.getElem_of_mem hc
      obtain ⟨horigin, hinst⟩ := lt_of_before_var (hvars i hi) (Array.getElem?_eq_getElem hi)
      exact ⟨hhas.2 horigin, fun t ht => ⟨hhas.2 (hinst t ht), hacc t⟩⟩
    fixed := fun t ht => hhas.2 (Nat.lt_of_lt_of_le ht hfixed) }

/-- Founded worlds, with what is finite in them. -/
abbrev trees : Domain where
  Holds := Founded
  inside := Finite
  grow := Finite.grow
  step := finite_step
  noType hw := hw.tree (hw.fixed _ (by decide))
  noPrefix hw := hw.tree (hw.fixed _ (by decide))
  intern hw _ hd := hw.intern hd
  binderType hw hb hd := hw.intern fun n hn => by
    rw [← hd, parts_binderShape] at hn
    exact List.mem_singleton.1 hn ▸ hb
  skolem hw := hw.extend (le_freshSkolem _) (fun _ => .inl) fun _ => .inl
  snapshot hw := hw.extend ((grows_freshSnapshot : Grows True _) _) (fun _ => .inl) fun _ => .inl

/-! ## New binders -/

/-- All nodes but a binder that no type is made of. -/
def unmentioned (w : World) (b : BinderId) (hb : (w.binder? b).isSome)
    (hno : ∀ t d, w.shape? t = some d → .binder b ∉ d.parts) : Region where
  base := w
  inside n := n ≠ .binder b
  step := by
    rintro m n hstep - rfl
    cases hstep with
    | part ht hn => exact hno _ _ ht hn
    | declaration hs hn => simp [Declaration.parts] at hn
  shape _ _ h := nomatch h
  newTy _ h := nomatch h
  newBinder hb' := by
    refine ⟨?_, fun i h => nomatch h⟩
    rintro ⟨rfl⟩
    rw [hb'] at hb
    cases hb
  noType h := nomatch h
  noPrefix h := nomatch h

/-- Filling in a binder changes no tree that it is no part of. -/
theorem Tree.fill (hno : ∀ t d, w.shape? t = some d → .binder b ∉ d.parts) {infos : List Ty} {result : Ty}
    (hn : w.Tree h n) (hne : n ≠ .binder b) :
    Tree { w with binders := w.binders.modify b.id fun d => { d with infos, result } } h n := by
  induction hn with
  | sym s => exact .sym s
  | param p => exact .param p
  | ty ht _ ih => exact .ty ht fun n hn => ih n hn fun heq => hno _ _ ht (heq ▸ hn)
  | @binder h b' d hb _ _ ihinfos ihresult =>
    refine .binder ?_ (fun t ht => ihinfos t ht (by simp)) (ihresult (by simp))
    have hne : b.id ≠ b'.id := fun hid => hne (congrArg _ (by cases b; cases b'; simp_all))
    rw [World.binder?, Array.getElem?_modify, if_neg hne]
    exact hb
  | var v => exact .var v

/-- A binder that no type is made of can be filled in with finite trees. -/
theorem Founded.fill (hw : w.Founded) (hb : (w.binder? b).isSome)
    (hno : ∀ t d, w.shape? t = some d → .binder b ∉ d.parts) {infos : List Ty} {result : Ty}
    (hinfos : ∀ t ∈ infos, w.Tree h (.ty t)) (hresult : w.Tree h (.ty result)) :
    Founded { w with binders := w.binders.modify b.id fun d => { d with infos, result } } ∧
      Tree { w with binders := w.binders.modify b.id fun d => { d with infos, result } } (h + 1) (.binder b) := by
  have hbinder : Tree { w with binders := w.binders.modify b.id fun d => { d with infos, result } } (h + 1)
      (.binder b) := by
    obtain ⟨d, hd⟩ := Option.isSome_iff_exists.1 hb
    refine .binder (d := { d with infos, result }) ?_ (fun t ht => (hinfos t ht).fill hno fun h => nomatch h)
      (hresult.fill hno fun h => nomatch h)
    rw [World.binder?, Array.getElem?_modify, if_pos rfl]
    exact congrArg (Option.map _) hd
  refine ⟨⟨fun ht => ?_, fun {b'} hb' => ?_, fun hs n hn => ?_, hw.vars, hw.fixed⟩, hbinder⟩
  · exact (hw.tree ht).imp fun _ htree => htree.fill hno fun h => nomatch h
  · by_cases heq : b' = b
    · subst heq
      exact ⟨_, hbinder⟩
    · have hb' : (w.binder? b').isSome := by simpa [World.binder?, Array.getElem?_modify, apply_ite] using hb'
      exact (hw.binder hb').imp fun _ htree => htree.fill hno fun h => heq (by cases h; rfl)
  · refine (hw.decl hs n hn).imp fun _ htree => htree.fill hno ?_
    rintro rfl
    simp [Declaration.parts] at hn

/-- A fresh binder is part of no type. -/
theorem Founded.push (hw : w.Founded) (kind : BinderKind) (names : List String) :
    Founded { w with binders := w.binders.push { kind, names } } ∧
      ∀ t d, w.shape? t = some d → .binder ⟨w.binders.size⟩ ∉ d.parts := by
  have hle := le_freshBinder w { kind, names }
  refine ⟨hw.extend hle (fun t => .inl) fun b hb => ?_, fun t d ht hmem => ?_⟩
  · obtain ⟨d, hd⟩ := Option.isSome_iff_exists.1 hb
    have hd' := hd
    rw [World.binder?, Array.getElem?_push] at hd'
    split at hd'
    · obtain rfl := Option.some.inj hd'
      obtain ⟨h, hnone⟩ := hw.tree (hw.fixed .noType (by decide))
      exact .inr ⟨h + 1, .binder hd (by simp) (hnone.grow hle)⟩
    · exact .inl (Option.isSome_iff_exists.2 ⟨d, hd'⟩)
  · obtain ⟨h, htree⟩ := hw.tree (Option.isSome_iff_exists.2 ⟨d, ht⟩)
    cases htree with
    | ty ht' hparts =>
      cases hparts _ (Option.some.inj (ht.symm.trans ht') ▸ hmem) with
      | binder hb => simp [World.binder?] at hb

end World

/-! ## Computations that come to an end -/

namespace WorldM

open World (Founded Tree trees)

variable {α β : Type} {P : World → α → Prop} {Q : World → β → Prop} {k k' h : Nat} {w w₀ : World} {t a b : Ty}
  {d : Shape}

/-- From founded worlds beyond `w₀` the computation ends in a founded world, with a result that has `P`; both are the
same for all allowances from `k` on. -/
def Finishes (k : Nat) (w₀ : World) (P : World → α → Prop) (F : Nat → WorldM α) : Prop :=
  ∀ w, w₀ ≤ w → w.Founded → ∃ x w', w ≤ w' ∧ w'.Founded ∧ P w' x ∧ ∀ n, k ≤ n → F n w = .ok (x, w')

variable {F G : Nat → WorldM α}

theorem Finishes.later (hF : Finishes k w₀ P F) (hk : k ≤ k') (hle : w₀ ≤ w) : Finishes k' w P F := by
  intro w₁ hle₁ hw₁
  obtain ⟨x, w', hle', hw', hx, hrun⟩ := hF w₁ (le_trans hle hle₁) hw₁
  exact ⟨x, w', hle', hw', hx, fun n hn => hrun n (Nat.le_trans hk hn)⟩

theorem Finishes.imp {P' : World → α → Prop} (hF : Finishes k w₀ P F) (hP : ∀ w x, P w x → P' w x) :
    Finishes k w₀ P' F := by
  intro w hle hw
  obtain ⟨x, w', hle', hw', hx, hrun⟩ := hF w hle hw
  exact ⟨x, w', hle', hw', hP _ _ hx, hrun⟩

theorem Finishes.pure {x : α} (hx : ∀ w, w₀ ≤ w → P w x) : Finishes k w₀ P fun _ => Pure.pure x :=
  fun w hle hw => ⟨x, w, le_rfl, hw, hx w hle, fun _ _ => rfl⟩

theorem Finishes.bind {G : Nat → α → WorldM β} (hF : Finishes k w₀ P F)
    (hG : ∀ w x, w₀ ≤ w → w.Founded → P w x → Finishes k w Q fun n => G n x) :
    Finishes k w₀ Q fun n => F n >>= G n := by
  intro w hle hw
  obtain ⟨x, w₁, hle₁, hw₁, hx, hrun₁⟩ := hF w hle hw
  obtain ⟨y, w₂, hle₂, hw₂, hy, hrun₂⟩ := hG w₁ x (le_trans hle hle₁) hw₁ hx w₁ le_rfl hw₁
  exact ⟨y, w₂, le_trans hle₁ hle₂, hw₂, hy, fun n hn => (bind_run (hrun₁ n hn)).trans (hrun₂ n hn)⟩

theorem Finishes.get_bind {G : Nat → World → WorldM β}
    (hG : ∀ w, w₀ ≤ w → w.Founded → Finishes k w Q fun n => G n w) : Finishes k w₀ Q fun n => get >>= G n :=
  fun w hle hw => hG w hle hw w le_rfl hw

theorem Finishes.ite {p : Prop} [Decidable p] (hF : p → Finishes k w₀ P F) (hG : ¬ p → Finishes k w₀ P G) :
    Finishes k w₀ P fun n => if p then F n else G n := by
  split
  · next hp => exact hF hp
  · next hp => exact hG hp

theorem Finishes.mapM {f : Nat → β → WorldM α} (hP : ∀ w w' x, w ≤ w' → P w x → P w' x) {l : List β}
    (hf : ∀ y ∈ l, Finishes k w₀ P fun n => f n y) :
    Finishes k w₀ (fun w xs => ∀ x ∈ xs, P w x) fun n => l.mapM (f n) := by
  induction l generalizing w₀ with
  | nil => simpa only [List.mapM_nil] using .pure fun _ _ _ hx => nomatch hx
  | cons y l ih =>
    simp only [List.mapM_cons]
    refine .bind (hf y (by simp)) fun w₁ x hle₁ _ hx => ?_
    refine .bind (ih fun y hy => (hf y (by simp [hy])).later (Nat.le_refl k) hle₁) fun w₂ xs hle₂ _ hxs => ?_
    exact .pure fun w hle => by simpa using ⟨hP _ _ _ (le_trans hle₂ hle) hx, fun x hx => hP _ _ _ hle (hxs x hx)⟩

/-- What does not depend on the allowance and never starves. -/
theorem Finishes.of_makes {m : WorldM α} (hm : trees.Makes w₀ P m) (hgrows : Grows False m) :
    Finishes k w₀ P fun _ => m := by
  intro w hle hw
  obtain ⟨x, w', hrun, -⟩ := hgrows.total w
  obtain ⟨hle', hw', hx⟩ := hm w x w' hle hw hrun
  exact ⟨x, w', hle', hw', hx, fun _ _ => hrun⟩

/-- One step of the allowance. -/
theorem Finishes.step (hG : Finishes k w₀ P G) (hF : ∀ n, F (n + 1) = G n) : Finishes (k + 1) w₀ P F := by
  intro w hle hw
  obtain ⟨x, w', hle', hw', hx, hrun⟩ := hG w hle hw
  refine ⟨x, w', hle', hw', hx, fun n hn => ?_⟩
  obtain ⟨n, rfl⟩ := Nat.exists_eq_add_of_le' hn
  rw [← Nat.add_assoc, hF]
  exact hrun _ (Nat.le_add_left ..)

/-! ### Substitution -/

/-- The type is a tree of height `h`. -/
abbrev TreeTy (h : Nat) (w : World) (t : Ty) : Prop := w.Tree h (.ty t)

theorem finishes_intern (hd : ∀ n ∈ d.parts, w₀.Tree h n) : Finishes k w₀ (TreeTy (h + 1)) fun _ => intern d := by
  refine .of_makes (fun w t w' hle hw hrun => ?_) (grows_intern d)
  obtain ⟨rfl, rfl⟩ := Prod.mk.injEq .. ▸ Except.ok.inj hrun
  have hle' := le_intern d w
  refine ⟨hle', (hw.intern fun n hn => ⟨h, (hd n hn).grow hle⟩).1, ?_⟩
  exact .ty (TypeTable.shape?_intern w.types d) fun n hn => (hd n hn).grow (le_trans hle hle')

theorem Finishes.pure_ty (ht : w₀.Tree h (.ty t)) : Finishes k w₀ (TreeTy h) fun _ => Pure.pure t :=
  .pure fun _ hle => ht.grow hle

theorem finishes_inter (ha : w₀.Tree h (.ty a)) (hb : w₀.Tree h (.ty b)) :
    Finishes k w₀ (TreeTy (h + 1)) fun _ => Ty.inter a b := by
  refine .ite (fun _ => .pure_ty ha.succ) fun _ => .ite (fun _ => .pure_ty hb.succ) fun _ =>
    .ite (fun _ => .pure_ty ha.succ) fun _ => .ite (fun hnothing => .pure_ty ?_) fun _ =>
      finishes_intern (by simpa [Shape.parts] using ⟨ha, hb⟩)
  rcases hnothing with rfl | rfl
  · exact ha.succ
  · exact hb.succ

theorem finishes_union (ha : w₀.Tree h (.ty a)) (hb : w₀.Tree h (.ty b)) :
    Finishes k w₀ (TreeTy (h + 1)) fun _ => Ty.union a b := by
  refine .ite (fun _ => .pure_ty ha.succ) fun _ => .ite (fun _ => .pure_ty hb.succ) fun _ =>
    .ite (fun _ => .pure_ty ha.succ) fun _ => .ite (fun hany => .pure_ty ?_) fun _ =>
      finishes_intern (by simpa [Shape.parts] using ⟨ha, hb⟩)
  rcases hany with rfl | rfl
  · exact ha.succ
  · exact hb.succ

section Rebuilding

variable {f : Nat → Ty → WorldM Ty} {old new b : BinderId}

theorem finishes_rebuild₁ {make : Ty → WorldM Ty} {old : Ty} (hf : Finishes k w₀ (TreeTy h) fun n => f n old)
    (hmake : ∀ w a, w₀ ≤ w → w.Tree h (.ty a) → Finishes k w (TreeTy (h + 1)) fun _ => make a)
    (ht : w₀.Tree (h + 1) (.ty t)) : Finishes k w₀ (TreeTy (h + 1)) fun n => Ty.rebuild₁ (f n) t old make :=
  .bind hf fun w new hle _ hnew => .ite (fun _ => .pure_ty (ht.grow hle)) fun _ => hmake w new hle hnew

theorem finishes_rebuild₂ {make : Ty → Ty → WorldM Ty} {old₁ old₂ : Ty}
    (hf₁ : Finishes k w₀ (TreeTy h) fun n => f n old₁) (hf₂ : Finishes k w₀ (TreeTy h) fun n => f n old₂)
    (hmake : ∀ w a b, w₀ ≤ w → w.Tree h (.ty a) → w.Tree h (.ty b) → Finishes k w (TreeTy (h + 1)) fun _ => make a b)
    (ht : w₀.Tree (h + 1) (.ty t)) :
    Finishes k w₀ (TreeTy (h + 1)) fun n => Ty.rebuild₂ (f n) t old₁ old₂ make := by
  refine .bind hf₁ fun w₁ new₁ hle₁ _ hnew₁ => .bind (hf₂.later (Nat.le_refl k) hle₁) fun w₂ new₂ hle₂ _ hnew₂ => ?_
  refine .ite (fun _ => .pure_ty (ht.grow (le_trans hle₁ hle₂))) fun _ => ?_
  exact hmake w₂ new₁ new₂ (le_trans hle₁ hle₂) (hnew₁.grow hle₂) hnew₂

/-- Infos and result of a fresh binder are renamed to it before it is filled in; as no type is made of it until then, it
becomes no part of what it is filled with. -/
theorem finishes_fillFresh {kind : BinderKind} {names : List String} {old : BinderId} {infos : List Ty} {result : Ty}
    (hrename : ∀ w new t, w.Tree h (.ty t) → Finishes k w (TreeTy h) fun n => Ty.substBinder n old new t)
    (hinfos : ∀ t ∈ infos, w₀.Tree h (.ty t)) (hresult : w₀.Tree h (.ty result)) :
    Finishes k w₀ (TreeTy (h + 2)) fun n => (do
      let fresh ← freshBinder kind names
      let infos ← infos.mapM (Ty.substBinder n old fresh)
      let result ← Ty.substBinder n old fresh result
      fillBinder fresh infos result
      fresh.type) := by
  intro w hle hw
  let fresh : BinderId := ⟨w.binders.size⟩
  let w₁ : World := { w with binders := w.binders.push { kind, names } }
  have hle₁ : w ≤ w₁ := le_freshBinder w { kind, names }
  obtain ⟨hw₁, hno₁⟩ := hw.push kind names
  have hfresh : (w₁.binder? fresh).isSome := by simp [w₁, fresh, World.binder?]
  have hmap : Finishes k w₁ (fun w ts => ∀ t ∈ ts, w.Tree h (.ty t)) fun n => infos.mapM (Ty.substBinder n old fresh) :=
    .mapM (fun _ _ _ hle ht => ht.grow hle) fun t ht => hrename w₁ fresh t ((hinfos t ht).grow (le_trans hle hle₁))
  obtain ⟨infos', w₂, hle₂, hw₂, hinfos', hrun₂⟩ := hmap w₁ le_rfl hw₁
  obtain ⟨result', w₃, hle₃, hw₃, hresult', hrun₃⟩ :=
    hrename w₂ fresh result (hresult.grow (le_trans hle (le_trans hle₁ hle₂))) w₂ le_rfl hw₂
  have hno₃ : ∀ t d, w₃.shape? t = some d → .binder fresh ∉ d.parts := by
    let R : Region := w₁.unmentioned fresh hfresh hno₁
    have hstay : ∀ t, R.MakesTy (Ty.substBinder k old fresh t) := fun t =>
      Region.makes_substBinder k old fresh t (fun i h => by cases h) fun h => by cases h
    obtain ⟨-, hR₂, -⟩ := Domain.Makes.mapM (l := infos) (fun t _ => hstay t) (fun _ h => h) w₁ infos' w₂ le_rfl
      R.holds_base (hrun₂ k (Nat.le_refl k))
    obtain ⟨-, hR₃, -⟩ := hstay result w₂ result' w₃ hR₂.le hR₂ (hrun₃ k (Nat.le_refl k))
    intro t d hd hmem
    cases hbase : w₁.shape? t with
    | none => exact hR₃.shape hbase hd _ hmem rfl
    | some e =>
      obtain rfl : e = d := Option.some.inj ((hR₃.le.shape hbase).symm.trans hd)
      exact hno₁ t e hbase hmem
  have hfresh₃ : (w₃.binder? fresh).isSome := by
    obtain ⟨d, hd⟩ := Option.isSome_iff_exists.1 hfresh
    exact Option.isSome_iff_exists.2 ⟨d, (le_trans hle₂ hle₃).binder hd⟩
  obtain ⟨hw₄, hbinder⟩ := hw₃.fill hfresh₃ hno₃ (fun t ht => (hinfos' t ht).grow hle₃) hresult'
  let w₄ : World :=
    { w₃ with binders := w₃.binders.modify fresh.id fun d => { d with infos := infos', result := result' } }
  have hle₄ : w ≤ w₄ := le_fillBinder (le_trans hle₁ (le_trans hle₂ hle₃)) (Nat.le_refl _) infos' result'
  have htype : Finishes k w₄ (TreeTy (h + 2)) fun _ => fresh.type := by
    refine .get_bind fun w hle _ => ?_
    split <;> exact finishes_intern (by simpa [Shape.parts] using hbinder.grow hle)
  obtain ⟨t, w', hle', hw', ht, hrun⟩ := htype w₄ le_rfl hw₄
  refine ⟨t, w', le_trans hle₄ hle', hw', ht, fun n hn => ?_⟩
  have hpush : freshBinder kind names w = .ok (fresh, w₁) := rfl
  have hfill : fillBinder fresh infos' result' w₃ = .ok ((), w₄) := rfl
  simp only [bind_run hpush, bind_run (hrun₂ n hn), bind_run (hrun₃ n hn), bind_run hfill]
  exact hrun n hn

theorem finishes_rebuildBinder
    (hsub : ∀ w old new u, w.Tree h (.ty u) → Finishes k w (TreeTy h) fun n => Ty.substBinder n old new u)
    (ht : w₀.Tree (h + 2) (.ty t)) (hb : w₀.Tree (h + 1) (.binder b)) :
    Finishes k w₀ (TreeTy (h + 2)) fun n =>
      Ty.rebuildBinder (Ty.substBinder n old new) (Ty.substBinder n) t b := by
  refine .get_bind fun w hle _ => ?_
  have ht := ht.grow hle
  split
  · exact .pure_ty ht
  · next d hd =>
    obtain ⟨hinfos, hresult⟩ := (hb.grow hle).binder_parts hd
    refine .bind (.mapM (fun _ _ _ hle ht => ht.grow hle) fun u hu => hsub w old new u (hinfos u hu))
      fun w₁ infos hle₁ _ hinfos => ?_
    refine .bind (hsub w₁ old new _ (hresult.grow hle₁)) fun w₂ result hle₂ _ hresult => ?_
    refine .ite (fun _ => .pure_ty (ht.grow (le_trans hle₁ hle₂))) fun _ => ?_
    exact finishes_fillFresh (fun w => hsub w b) (fun u hu => (hinfos u hu).grow hle₂) hresult

theorem finishes_mapChildren
    (hsub : ∀ h' ≤ h, ∀ w old new u, w.Tree h' (.ty u) → Finishes h w (TreeTy h') fun n => Ty.substBinder n old new u)
    (ht : w₀.Tree (h + 1) (.ty t)) :
    Finishes h w₀ (TreeTy (h + 1)) fun n => Ty.mapChildren (Ty.substBinder n old new) (Ty.substBinder n) t := by
  refine .get_bind fun w hle _ => ?_
  have ht := ht.grow hle
  have hchild : ∀ u, w.Tree h (.ty u) → Finishes h w (TreeTy h) fun n => Ty.substBinder n old new u :=
    hsub h (Nat.le_refl h) w old new
  cases hd : w.shape t with
  | named pre s | path pre s | classInfo pre s =>
    have hpre : w.Tree h (.ty pre) := ht.parts hd _ (by simp [Shape.parts])
    refine finishes_rebuild₁ (hchild _ hpre) (fun w' a _ ha => finishes_intern ?_) ht
    simpa [Shape.parts] using ⟨ha, .sym s⟩
  | refined parent name info =>
    refine finishes_rebuild₂ (hchild _ (ht.parts hd _ (by simp [Shape.parts])))
      (hchild _ (ht.parts hd _ (by simp [Shape.parts]))) (fun w' a b _ ha hb => finishes_intern ?_) ht
    simpa [Shape.parts] using ⟨ha, hb⟩
  | inter a b =>
    exact finishes_rebuild₂ (hchild _ (ht.parts hd _ (by simp [Shape.parts])))
      (hchild _ (ht.parts hd _ (by simp [Shape.parts]))) (fun w' a b _ ha hb => finishes_inter ha hb) ht
  | union a b =>
    exact finishes_rebuild₂ (hchild _ (ht.parts hd _ (by simp [Shape.parts])))
      (hchild _ (ht.parts hd _ (by simp [Shape.parts]))) (fun w' a b _ ha hb => finishes_union ha hb) ht
  | byName result =>
    refine finishes_rebuild₁ (hchild _ (ht.parts hd _ (by simp [Shape.parts])))
      (fun w' a _ ha => finishes_intern ?_) ht
    simpa [Shape.parts] using ha
  | bounds lo hi =>
    refine finishes_rebuild₂ (hchild _ (ht.parts hd _ (by simp [Shape.parts])))
      (hchild _ (ht.parts hd _ (by simp [Shape.parts]))) (fun w' a b _ ha hb => finishes_intern ?_) ht
    simpa [Shape.parts] using ⟨ha, hb⟩
  | method b | universal b =>
    have hb : w.Tree h (.binder b) := ht.parts hd _ (by simp [Shape.parts])
    obtain _ | h := h
    · cases hb
    · exact finishes_rebuildBinder (hsub h (Nat.le_succ h)) ht hb
  | _ => exact .pure_ty ht

end Rebuilding

/-- A substitution in a tree needs no larger allowance than the tree is high, and its result is no higher. -/
theorem finishes_substBinder (h : Nat) : ∀ (w₀ : World) (old new : BinderId) (t : Ty), w₀.Tree h (.ty t) →
    Finishes h w₀ (TreeTy h) fun n => Ty.substBinder n old new t := by
  induction h using Nat.strongRecOn with | ind h ih => ?_
  intro w₀ old new t ht
  obtain _ | h := h
  · cases ht
  refine .step ?_ fun n => Ty.substBinder.eq_2 old new t n
  refine .ite (fun _ => .pure_ty ht) fun _ => .get_bind fun w hle hw => ?_
  have hparam : ∀ p : Param, Finishes h w (TreeTy (h + 1)) fun _ => p.type := by
    refine fun p => .get_bind fun w' _ _ => ?_
    split <;> exact finishes_intern (by simpa [Shape.parts] using .param _)
  split
  · exact .ite (fun _ => hparam _) fun _ => .pure_ty (ht.grow hle)
  · exact .ite (fun _ => hparam _) fun _ => .pure_ty (ht.grow hle)
  · refine finishes_mapChildren (fun h' hle' w old new u hu => ?_) (ht.grow hle)
    exact (ih h' (Nat.lt_succ_of_le hle') w old new u hu).later hle' le_rfl

/-! ### Signatures -/

theorem finishes_erasedName (ht : w₀.Finite (.ty t)) : Finishes k w₀ (fun _ _ => True) fun _ => t.erasedName :=
  .of_makes (Domain.makes_erasedName (D := trees) ht) (grows_erasedName t)

theorem finishes_signature (h : Nat) : ∀ (w₀ : World) (t : Ty), w₀.Tree h (.ty t) →
    Finishes h w₀ (fun _ _ => True) fun n => t.signature n := by
  induction h with
  | zero => intro w₀ t ht; cases ht
  | succ h ih =>
    intro w₀ t ht
    refine .step ?_ fun n => Ty.signature.eq_2 t n
    refine .get_bind fun w hle _ => ?_
    have ht := ht.grow hle
    split
    · next b hd =>
      have hb : w.Finite (.binder b) := ⟨h, ht.parts hd _ (by simp [Shape.parts])⟩
      split
      · next d hb' =>
        obtain ⟨h, hb⟩ := hb
        obtain _ | h := h
        · cases hb
        obtain ⟨hinfos, hresult⟩ := hb.binder_parts hb'
        refine .bind (.mapM (fun _ _ _ _ _ => trivial) fun u hu => finishes_erasedName ⟨h, hinfos u hu⟩)
          fun w₁ _ hle₁ _ _ => ?_
        exact .bind (finishes_erasedName ⟨h, hresult.grow hle₁⟩) fun _ _ _ _ _ => .pure fun _ _ => trivial
      · exact .pure fun _ _ => trivial
    · next b hd =>
      have hb : w.Tree h (.binder b) := ht.parts hd _ (by simp [Shape.parts])
      split
      · next d hb' =>
        obtain _ | h := h
        · cases hb
        exact ih w d.result (hb.binder_parts hb').2.succ
      · exact .pure fun _ _ => trivial
    · exact .bind (finishes_erasedName ⟨_, ht⟩) fun _ _ _ _ _ => .pure fun _ _ => trivial

/-! ### Reading -/

theorem finishes_reading {f : Nat → World → Except Halt α}
    (hf : ∀ w, w₀ ≤ w → w.Founded → ∃ x, P w x ∧ ∀ n, k ≤ n → f n w = .ok x) :
    Finishes k w₀ P fun n => reading (f n) := by
  intro w hle hw
  obtain ⟨x, hx, hrun⟩ := hf w hle hw
  exact ⟨x, w, le_rfl, hw, hx, fun n hn => reading_run (hrun n hn)⟩

end WorldM

namespace World

variable {w w' : World} {t : Ty}

/-- New types change nothing about the stability of those that were there. -/
theorem Founded.isStable_grow (hw : w.Founded) (hle : w ≤ w') : ∀ (n : Nat) {t : Ty}, w.Has t →
    w'.isStable n t = w.isStable n t
  | 0, _, _ => rfl
  | n + 1, t, ht => by
    have ih {u : Ty} (hu : w.Follows t u) := hw.isStable_grow hle n (hw.has_of_follows hu)
    obtain ⟨d, hd⟩ := Option.isSome_iff_exists.1 ht
    rw [isStable, isStable, shape_of_shape? hd, shape_of_shape? (hle.shape hd)]
    cases d with
    | path pre s => dsimp only; rw [hle.decls]
    | inter a b =>
      dsimp only
      rw [ih (follows_iff.2 (.inl ⟨a, b, hd, .inl rfl⟩)), ih (follows_iff.2 (.inl ⟨a, b, hd, .inr rfl⟩))]
    | var v =>
      dsimp only
      rw [varInstance?_grow hle]
      split
      · next u hu => exact ih (follows_of_settled hd hu)
      · rfl
    | _ => rfl

/-- The test takes one level more for a type than for those that it is linked to. -/
theorem isStable_step {k : Nat} (ht : w.Has t)
    (hnext : ∀ u, w.Follows t u → ∃ stable, ∀ n, k ≤ n → w.isStable n u = .ok stable) :
    ∃ stable, ∀ n, k + 1 ≤ n → w.isStable n t = .ok stable := by
  have hstep : ∃ stable, ∀ n, k ≤ n → w.isStable (n + 1) t = .ok stable := by
    obtain ⟨d, hd⟩ := Option.isSome_iff_exists.1 ht
    simp only [isStable, shape_of_shape? hd]
    cases d with
    | inter a b =>
      obtain ⟨x, hx⟩ := hnext a (follows_iff.2 (.inl ⟨a, b, hd, .inl rfl⟩))
      obtain ⟨y, hy⟩ := hnext b (follows_iff.2 (.inl ⟨a, b, hd, .inr rfl⟩))
      refine ⟨x || y, fun n hn => ?_⟩
      dsimp only
      rw [hx n hn, hy n hn]
      cases x <;> rfl
    | var v =>
      dsimp only
      split
      · next u hu => exact hnext u (follows_of_settled hd hu)
      · exact ⟨false, fun _ _ => rfl⟩
    | _ => exact ⟨_, fun _ _ => rfl⟩
  obtain ⟨stable, hstable⟩ := hstep
  refine ⟨stable, fun n hn => ?_⟩
  obtain ⟨n, rfl⟩ := Nat.exists_eq_add_of_le' (Nat.le_trans (Nat.le_add_left 1 k) hn)
  exact hstable n (Nat.le_of_succ_le_succ hn)

/-- One allowance is enough for finitely many types. -/
theorem exists_stability_allowance {l : List Ty} (hl : ∀ u ∈ l, ∃ k stable, ∀ n, k ≤ n → w.isStable n u = .ok stable) :
    ∃ k, ∀ u ∈ l, ∃ stable, ∀ n, k ≤ n → w.isStable n u = .ok stable := by
  induction l with
  | nil => exact ⟨0, fun u hu => nomatch hu⟩
  | cons u l ih =>
    obtain ⟨k₁, x, hx⟩ := hl u (by simp)
    obtain ⟨k₂, hk₂⟩ := ih fun u hu => hl u (by simp [hu])
    refine ⟨max k₁ k₂, fun v hv => ?_⟩
    rcases List.mem_cons.1 hv with rfl | hv
    · exact ⟨x, fun n hn => hx n (Nat.le_trans (Nat.le_max_left ..) hn)⟩
    · exact (hk₂ v hv).imp fun _ hy n hn => hy n (Nat.le_trans (Nat.le_max_right ..) hn)

/-- Tests for stability follow links, and come to an end with them. -/
theorem Founded.isStable_finishes (hw : w.Founded) (ht : w.Has t) :
    ∃ k stable, ∀ n, k ≤ n → w.isStable n t = .ok stable := by
  have hacc : Acc (flip w.Follows) t := (hw.tree ht).elim fun h => hw.acc_of_tree h
  induction hacc with
  | intro t _ ih =>
    obtain ⟨k, hk⟩ := exists_stability_allowance fun u hu => ih u hu (hw.has_of_follows hu)
    exact ⟨k + 1, isStable_step ht hk⟩

/-- Where the chain of aliases and refinements from `t` ends in a symbol, the search for a refinement ends as well. -/
theorem refinement_finishes (name : String) : ∀ (m : Nat) (g : Guard Ty) (t : Ty) (s : Symbol),
    w.typeSymbolFrom m g t = some s → ∃ info, ∀ n, m ≤ n → w.refinement? name n t = .ok info
  | 0, _, _, _, hs => nomatch hs
  | m + 1, g, t, s, hs => by
    have hstep : ∃ info, ∀ n, m ≤ n → w.refinement? name (n + 1) t = .ok info := by
      unfold typeSymbolFrom at hs
      unfold refinement?
      split at hs
      · split at hs
        · next hd =>
          simp only [hd]
          split at hs
          · next hsyn =>
            simp only [hsyn, if_true]
            split
            · exact ⟨_, fun _ _ => rfl⟩
            · exact refinement_finishes name m _ _ s hs
          · next hsyn =>
            simp only [hsyn]
            exact ⟨_, fun _ _ => rfl⟩
        · next hd =>
          simp only [hd]
          exact ⟨_, fun _ _ => rfl⟩
        · next hd =>
          simp only [hd]
          split
          · exact ⟨_, fun _ _ => rfl⟩
          · exact refinement_finishes name m _ _ s hs
        · cases hs
      · cases hs
    obtain ⟨info, hinfo⟩ := hstep
    refine ⟨info, fun n hn => ?_⟩
    obtain ⟨n, rfl⟩ := Nat.exists_eq_add_of_le' hn
    exact hinfo _ (Nat.le_add_left ..)

/-- One allowance finds the refinements of all names. -/
theorem refinements_finish {s : Symbol} (hs : w.typeSymbol? t = some s) : ∃ info : String → Option Ty,
    ∀ name n, Limits.walkDepth.toNat + 1 ≤ n → w.refinement? name n t = .ok (info name) :=
  ⟨fun name => (refinement_finishes name _ _ t s hs).choose,
    fun name => (refinement_finishes name _ _ t s hs).choose_spec⟩

theorem openTypeParams_of_refinements {s : Symbol} {info : String → Option Ty} {n : Nat} (hs : w.typeSymbol? t = some s)
    (hinfo : ∀ name, w.refinement? name n t = .ok (info name)) :
    w.openTypeParams n t = .ok ((w.decls.typeParams s).filter fun p => (info (w.decls.name p)).isNone) := by
  have hrun : ∀ p, (return (← w.refinement? (w.decls.name p) n t).isNone : Except Halt Bool) =
      pure (info (w.decls.name p)).isNone := fun p => by rw [hinfo]; rfl
  have hfilter : ∀ l acc : List Symbol,
      List.filterAuxM (fun p => (pure (info (w.decls.name p)).isNone : Except Halt Bool)) l acc =
        .ok ((l.filter fun p => (info (w.decls.name p)).isNone).reverse ++ acc) := by
    intro l
    induction l with
    | nil => exact fun acc => rfl
    | cons p l ih =>
      intro acc
      refine (ih _).trans ?_
      cases hp : (info (w.decls.name p)).isNone <;> simp [hp]
  rw [openTypeParams, hs]
  simp only [hrun, List.filterM, hfilter, List.append_nil]
  exact congrArg Except.ok (List.reverse_reverse _)

theorem typeArgs_of_refinements {s : Symbol} {info : String → Option Ty} {n : Nat} (hs : w.typeSymbol? t = some s)
    (hinfo : ∀ name, w.refinement? name n t = .ok (info name)) :
    w.typeArgs n t = .ok ((w.decls.typeParams s).map fun p => (info (w.decls.name p)).getD (w.decls.info p)) := by
  have hrun : ∀ p, (return (← w.refinement? (w.decls.name p) n t).getD (w.decls.info p) : Except Halt Ty) =
      pure ((info (w.decls.name p)).getD (w.decls.info p)) := fun p => by rw [hinfo]; rfl
  rw [typeArgs, hs]
  simp only [hrun, List.mapM_pure]
  rfl

theorem openTypeParams_finishes (w : World) (t : Ty) :
    ∃ params, ∀ n, Limits.walkDepth.toNat + 1 ≤ n → w.openTypeParams n t = .ok params := by
  cases hs : w.typeSymbol? t with
  | none => exact ⟨[], fun _ _ => by rw [openTypeParams, hs]; rfl⟩
  | some s =>
    obtain ⟨info, hinfo⟩ := refinements_finish hs
    exact ⟨_, fun n hn => openTypeParams_of_refinements hs fun name => hinfo name n hn⟩

theorem typeArgs_finishes (w : World) (t : Ty) :
    ∃ args, ∀ n, Limits.walkDepth.toNat + 1 ≤ n → w.typeArgs n t = .ok args := by
  cases hs : w.typeSymbol? t with
  | none => exact ⟨[], fun _ _ => by rw [typeArgs, hs]; rfl⟩
  | some s =>
    obtain ⟨info, hinfo⟩ := refinements_finish hs
    exact ⟨_, fun n hn => typeArgs_of_refinements hs fun name => hinfo name n hn⟩

end World

namespace WorldM

open World (trees)

variable {w₀ : World} {t : Ty}

theorem finishes_isStable (hw : w₀.Founded) (ht : w₀.Has t) :
    ∃ k, Finishes k w₀ (fun _ _ => True) fun n => reading (·.isStable n t) := by
  obtain ⟨k, answer, hanswer⟩ := hw.isStable_finishes ht
  refine ⟨k, finishes_reading fun w hle _ => ⟨answer, trivial, fun n hn => ?_⟩⟩
  rw [hw.isStable_grow hle n ht]
  exact hanswer n hn

theorem finishes_openTypeParams (t : Ty) :
    Finishes (Limits.walkDepth.toNat + 1) w₀ (fun _ _ => True) fun n => reading (·.openTypeParams n t) := by
  refine finishes_reading fun w _ _ => ?_
  obtain ⟨params, hparams⟩ := w.openTypeParams_finishes t
  exact ⟨params, trivial, hparams⟩

theorem finishes_typeArgs (ht : w₀.Finite (.ty t)) :
    Finishes (Limits.walkDepth.toNat + 1) w₀ (fun w args => ∀ a ∈ args, w.Finite (.ty a))
      fun n => reading (·.typeArgs n t) := by
  refine finishes_reading fun w hle hw => ?_
  obtain ⟨args, hargs⟩ := w.typeArgs_finishes t
  refine ⟨args, ?_, hargs⟩
  have hrun : reading (·.typeArgs (Limits.walkDepth.toNat + 1) t) w = .ok (args, w) :=
    reading_run (hargs _ (Nat.le_refl _))
  exact (Domain.makes_typeArgs (D := trees) _ ht w args w hle hw hrun).2.2

end WorldM

end Conformance
