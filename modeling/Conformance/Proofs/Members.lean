import Conformance.Proofs.Lineage

/-!
# Members of a lineage

The search for a member of a type in a lineage goes up and ends at the first type that speaks of the member itself: a
refinement of it, or a class that declares it (`Lineage.member_run`).
-/

namespace Conformance

open Relation

namespace World

variable {w v : World} {t u parent info : Ty} {name : String} {s m : Symbol} {D : Ty → Prop}

/-- Whether `t` itself speaks of the member: it refines it, or refers to a class that declares it. -/
def settles (w : World) (name : String) (t : Ty) : Bool :=
  match w.shape t with
  | .named _ s => (w.decls.member? s name .type).isSome || (w.decls.member? s name .term).isSome
  | .refined _ refinedName _ => refinedName = name
  | _ => false

/-- Whether a type that is declared as a member has an info. -/
def hasInfo (w : World) (m : Symbol) : Bool :=
  match w.decls.kind? m with
  | some .cls | some .synonym => true
  | some .abstractType | some .typeParam => (w.decls.info m).present
  | _ => false

/-- Whether what `t` itself says of the member is an info. -/
def informs (w : World) (name : String) (t : Ty) : Bool :=
  match w.shape t with
  | .named _ s =>
    match w.decls.member? s name .type with
    | some m => w.hasInfo m
    | none => ((w.decls.member? s name .term).map fun m => (w.decls.info m).present).getD false
  | .refined _ refinedName info => refinedName = name && info.present
  | _ => false

/-- What the search for the member goes on to from `t`. -/
def memberAbove (w : World) (name : String) (t : Ty) : List Ty := if w.settles name t then [] else w.above t

theorem settles_of_informs (h : w.informs name t) : w.settles name t := by
  unfold informs at h
  unfold settles
  split at h
  · split at h
    · next hm => simp [hm]
    · cases hm : w.decls.member? _ name .term <;> simp_all
  · simp only [Bool.and_eq_true, decide_eq_true_eq] at h ⊢
    exact h.1
  · cases h

theorem memberAbove_sublist (name : String) (t : Ty) : (w.memberAbove name t).Sublist (w.above t) := by
  unfold memberAbove
  split
  · exact List.nil_sublist _
  · exact List.Sublist.refl _

theorem settles_named {pre : Ty} (ht : w.shape? t = some (.named pre s)) : w.settles name t =
    ((w.decls.member? s name .type).isSome || (w.decls.member? s name .term).isSome) := by
  rw [settles, shape_of_shape? ht]

theorem informs_named {pre : Ty} (ht : w.shape? t = some (.named pre s)) : w.informs name t =
    match w.decls.member? s name .type with
    | some m => w.hasInfo m
    | none => ((w.decls.member? s name .term).map fun m => (w.decls.info m).present).getD false := by
  rw [informs, shape_of_shape? ht]

theorem settles_refined {refinedName : String} (ht : w.shape? t = some (.refined parent refinedName info)) :
    w.settles name t = decide (refinedName = name) := by
  rw [settles, shape_of_shape? ht]

theorem informs_refined {refinedName : String} (ht : w.shape? t = some (.refined parent refinedName info)) :
    w.informs name t = (decide (refinedName = name) && info.present) := by
  rw [informs, shape_of_shape? ht]

theorem memberAbove_of_settles (h : w.settles name t) : w.memberAbove name t = [] := if_pos h

theorem memberAbove_of_not_settles (h : w.settles name t = false) : w.memberAbove name t = w.above t :=
  if_neg (by simp [h])

/-- What the search makes of a chain: if the end of it refines the member, the info of that refinement. -/
def Informed (w : World) (name : String) (c : List Ty) (answer : Ty) (_ : World) : Prop :=
  ∃ u, c.getLast? = some u ∧ ∀ parent info, w.shape? u = some (.refined parent name info) → answer = info

theorem Informed.cons {c : List Ty} {answer : Ty} (h : w.Informed name c answer v) (t : Ty) :
    w.Informed name (t :: c) answer v := by
  obtain ⟨u, hu, hanswer⟩ := h
  exact ⟨u, by rw [List.getLast?_cons, hu]; rfl, hanswer⟩

/-! ## One level of the search -/

/-- The reference to a declared type and its info. -/
theorem infoOf_ref_run (hw : w.Standard) (m : Symbol) :
    ∃ info v, (do (← m.ref).infoOf : WorldM Ty) w = .ok (info, v) ∧ w ≤ v ∧ info.present = w.hasInfo m := by
  obtain ⟨r, v, hr, hv, hshape⟩ : ∃ r v, m.ref w = .ok (r, v) ∧ w ≤ v ∧ v.shape? r = some (.named .noPrefix m) :=
    ⟨_, _, rfl, le_intern _ w, TypeTable.shape?_intern w.types _⟩
  have hinfo : ∃ info v', r.infoOf v = .ok (info, v') ∧ v ≤ v' ∧ info.present = w.hasInfo m := by
    have hmade : ∀ d : Shape, d ≠ .fixed .noType →
        ∃ info v', WorldM.intern d v = .ok (info, v') ∧ v ≤ v' ∧ info.present = true := fun d hd =>
      ⟨_, _, rfl, le_intern d v, (hw.grow (hv.trans (le_intern d v))).present (TypeTable.shape?_intern v.types d) hd⟩
    rw [Ty.infoOf, get_bind_run, shape_of_shape? hshape]
    simp only [hasInfo, hv.decls]
    cases w.decls.kind? m with
    | none => exact ⟨_, v, rfl, le_rfl, rfl⟩
    | some kind =>
      cases kind with
      | cls => exact hmade _ (by simp)
      | synonym => exact hmade _ (by simp)
      | abstractType => exact ⟨_, v, rfl, le_rfl, rfl⟩
      | typeParam => exact ⟨_, v, rfl, le_rfl, rfl⟩
      | value => exact ⟨_, v, rfl, le_rfl, rfl⟩
  obtain ⟨info, v', hr', hv', hpresent⟩ := hinfo
  exact ⟨info, v', by rw [bind_run hr, hr'], hv.trans hv', hpresent⟩

/-- What a class says of the member itself. -/
theorem ofClass_run (hw : w.Standard) {pre : Ty} (ht : w.shape? t = some (.named pre s)) (hv : w ≤ v)
    (hsettles : w.settles name t) (next : Ty → WalkM Ty) (g : Guard Ty) :
    ∃ info v', Member.ofClass name next s g v = .ok ((info, g), v') ∧ v ≤ v' ∧ info.present = w.informs name t := by
  rw [settles_named ht] at hsettles
  rw [Member.ofClass, Walk.run_world_bind, informs_named ht, hv.decls]
  cases hm : w.decls.member? s name .type with
  | some m =>
    obtain ⟨info, v', hr, hv', hpresent⟩ := infoOf_ref_run (hw.grow hv) m
    refine ⟨info, v', ?_, hv', ?_⟩
    · obtain ⟨r, v₁, href, hinfo⟩ := bind_ok hr
      exact (run_bind (run_lift href g)).trans (run_lift hinfo g)
    · have hsame : v.hasInfo m = w.hasInfo m := by
        unfold hasInfo
        rw [hv.decls]
      rw [hpresent, hsame]
  | none =>
    cases hm' : w.decls.member? s name .term with
    | some m => exact ⟨w.decls.info m, v, rfl, le_rfl, rfl⟩
    | none => simp [hm, hm'] at hsettles

section

variable {next : Ty → WalkM Ty} {g : Guard Ty} {pre : Ty} {refinedName : String}

theorem memberStep_named (ht : w.shape? t = some (.named pre s)) (hs : w.decls.isClass s) :
    Member.step name next t g w = Member.ofClass name next s g w := by
  rw [Member.step, Walk.run_world_bind, shape_of_shape? ht]
  dsimp only
  rw [if_pos hs]

theorem memberStep_refined (ht : w.shape? t = some (.refined parent refinedName info)) :
    Member.step name next t g w = (if refinedName = name then return info else next parent : WalkM Ty) g w := by
  rw [Member.step, Walk.run_world_bind, shape_of_shape? ht]

/-- A class that does not speak of the member leaves it to its parents. -/
theorem ofClass_parents (ht : w.shape? t = some (.named pre s)) (hsettles : w.settles name t = false) :
    Member.ofClass name next s g w = Walk.firstPresent next (w.decls.parents s) g w := by
  rw [settles_named ht, Bool.or_eq_false_iff, Option.isSome_eq_false_iff, Option.isSome_eq_false_iff,
    Option.isNone_iff_eq_none, Option.isNone_iff_eq_none] at hsettles
  rw [Member.ofClass, Walk.run_world_bind, hsettles.1, hsettles.2]

end

/-! ## The search -/

/-- A search that ends without finding anything. -/
theorem searches_absent {hit : Ty → Bool} {A : List Ty → Ty → World → Prop} {ks : List Ty} {e : Nat} {m : WalkM Ty}
    (h : ∀ g, ∃ a v, m g w = .ok ((a, g), v) ∧ w ≤ v ∧ a.present = false) : Searches hit A ks e [] w m := by
  intro g hg
  obtain ⟨a, v, hr, hv, habsent⟩ := h g
  refine ⟨a, g, v, e, hr, hv, hg, ?_⟩
  simpa [firstHit, hg.le, Ty.present] using habsent

/-- A type that speaks of the member answers without going on. -/
theorem Lineage.memberStep_run (hw : w.Standard) (h : w.Lineage D) (ht : D t) (hsettles : w.settles name t)
    (hv : w ≤ v) (next : Ty → WalkM Ty) (g : Guard Ty) :
    ∃ answer v', Member.step name next t g v = .ok ((answer, g), v') ∧ v ≤ v' ∧
      answer.present = w.informs name t ∧ w.Informed name [t] answer v' := by
  rcases h.shape ht with ⟨pre, s, hshape, hcls⟩ | ⟨parent, refinedName, info, hshape⟩
  · obtain ⟨answer, v', hr, hv', hpresent⟩ := ofClass_run hw hshape hv hsettles next g
    refine ⟨answer, v', ?_, hv', hpresent, t, rfl, fun parent info hrefined => ?_⟩
    · rw [memberStep_named (hv.shape hshape) (hv.decls ▸ hcls), hr]
    · cases hshape.symm.trans hrefined
  · rw [settles_refined hshape, decide_eq_true_eq] at hsettles
    subst hsettles
    refine ⟨info, v, ?_, le_rfl, ?_, t, rfl, fun parent' info' hrefined => ?_⟩
    · rw [memberStep_refined (hv.shape hshape), if_pos rfl]
      rfl
    · rw [informs_refined hshape, decide_eq_true rfl, Bool.true_and]
    · cases hshape.symm.trans hrefined
      rfl

/-- The search for a member goes up, as far as the first type that speaks of it. -/
theorem Lineage.ascends_member (hw : w.Standard) (h : w.Lineage D) (name : String) :
    Ascends w (Member.step name) (w.memberAbove name) (w.informs name) D (w.Informed name) where
  closed ht hu := h.closed ht ((memberAbove_sublist name _).subset hu)
  acyclic ht hcycle :=
    h.acyclic ht (TransGen.mono (fun a _ hb => (memberAbove_sublist name a).subset hb) _ _ hcycle)
  answers := by
    intro t ht hhit next g v hv
    obtain ⟨answer, v', hr, hv', hpresent, hanswer⟩ := h.memberStep_run hw ht (settles_of_informs hhit) hv next g
    exact ⟨answer, v', hr, hv', hpresent.trans hhit, hanswer⟩
  goesOn := by
    intro t ht hhit next ks L hnext e v hv
    cases hsettles : w.settles name t with
    | true =>
      rw [memberAbove_of_settles hsettles]
      refine searches_absent fun g => ?_
      obtain ⟨answer, v', hr, hv', hpresent, -⟩ := h.memberStep_run hw ht hsettles hv next g
      exact ⟨answer, v', hr, hv', hpresent.trans hhit⟩
    | false =>
      rw [memberAbove_of_not_settles hsettles] at hnext ⊢
      rcases h.shape ht with ⟨pre, s, hshape, hcls⟩ | ⟨parent, refinedName, info, hshape⟩
      · have hfirst := (searches_firstPresent hnext e v hv).mono fun c a v h => Informed.cons h t
        have hsettles' : v.settles name t = false := by
          rw [settles_named (hv.shape hshape), hv.decls, ← settles_named hshape]
          exact hsettles
        intro g hg
        rw [memberStep_named (hv.shape hshape) (hv.decls ▸ hcls), ofClass_parents (hv.shape hshape) hsettles', hv.decls,
          ← above_named hshape]
        exact hfirst g hg
      · rw [settles_refined hshape, decide_eq_false_iff_not] at hsettles
        rw [above_refined hshape] at hnext ⊢
        rw [List.flatMap_singleton]
        have hparent := (hnext parent (List.mem_singleton_self parent) e v hv).mono fun c a v h => Informed.cons h t
        intro g hg
        rw [memberStep_refined (hv.shape hshape), if_neg hsettles]
        exact hparent g hg

/-- **The search for a member finds what the end of the first chain to speak of it says.** -/
theorem Lineage.member_run (hw : w.Standard) (h : w.Lineage D) (ht : D t) (name : String) (hv : w ≤ v) :
    ∃ answer v', t.member name v = .ok (answer, v') ∧ v ≤ v' ∧
      match firstHit (w.informs name) 64 ((ascents (w.memberAbove name) 65 t).take 100000) with
      | some c => answer.present ∧ w.Informed name c answer v'
      | none => answer = .noType :=
  (h.ascends_member hw name).run ht hv

end World

end Conformance
