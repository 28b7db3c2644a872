import Conformance.Proofs.ValidStores

/-!
# Only classes own symbols

A symbol is entered into the members of its owner, whatever the owner is; that owners are classes is left to the calls
that declare. What one call does to the declarations is said once (`Declarations.Change`, `Request.change`): all but the
declaration of a class check the owner first. So whatever calls are made, what is no class has a class for its owner, or
none, and nothing but classes is ever entered into it (`LooselyOwned`).

Classes may be declared under anything, a value or a symbol that does not exist (`class_under_value`). Where they are
declared at top level or under classes, all owners are classes, and what is no class is as it was declared
(`owners_are_classes`).
-/

namespace Conformance

/-- No parents have been given to the declaration and nothing has been declared under it. -/
structure Declaration.Bare (d : Declaration) : Prop where
  parents : d.parents = []
  typeParams : d.typeParams = []
  typeMembers : d.typeMembers = {}
  termMembers : d.termMembers = {}

instance : DecidablePred Declaration.Bare := fun d =>
  decidable_of_iff (d.parents = [] ∧ d.typeParams = [] ∧ d.typeMembers.entries = [] ∧ d.termMembers.entries = [])
    ⟨fun ⟨hparents, hparams, htypes, hterms⟩ =>
      ⟨hparents, hparams, congrArg InsertionMap.mk htypes, congrArg InsertionMap.mk hterms⟩,
     fun h => ⟨h.parents, h.typeParams, congrArg InsertionMap.entries h.typeMembers,
      congrArg InsertionMap.entries h.termMembers⟩⟩

namespace Declarations

variable {ds ds' : Declarations} {d e : Declaration} {s c o : Symbol} {P Q : Symbol → Prop}

/-- What may own a symbol: nothing, which is the top level, or a class. -/
def Houses (ds : Declarations) (o : Symbol) : Prop := o = .absent ∨ ds.isClass o

instance (ds : Declarations) : DecidablePred ds.Houses := fun o => inferInstanceAs (Decidable (o = .absent ∨ _))

/-- What one call does to the declarations: it leaves them alone, registers a symbol or sets parents of a class. The
owner of the new symbol was checked, unless it is a class; of the owners of classes `P` is known. -/
inductive Change (P : Symbol → Prop) (ds : Declarations) : Declarations → Prop
  | same : Change P ds ds
  | register {d : Declaration} (hd : d.Bare) (hkind : d.kind ≠ .cls) (howner : ds.Houses d.owner) :
    Change P ds (ds.register d).2
  | registerClass {d : Declaration} (hd : d.Bare) (hkind : d.kind = .cls) (howner : P d.owner) :
    Change P ds ((ds.register d).2.setParents (ds.register d).1 [Builtin.object.type])
  | setParents {s : Symbol} (ps : List Ty) (hs : ds.isClass s) : Change P ds (ds.setParents s ps)

theorem Change.mono (h : ds.Change P ds') (hPQ : ∀ s, P s → Q s) : ds.Change Q ds' := by
  cases h with
  | same => exact .same
  | register hd hkind howner => exact .register hd hkind howner
  | registerClass hd hkind howner => exact .registerClass hd hkind (hPQ _ howner)
  | setParents ps hs => exact .setParents ps hs

/-! ## What a change leaves alone -/

theorem Change.keepsHeadings (h : ds.Change P ds') : ds.KeepsHeadings ds' := by
  cases h with
  | same => exact fun hs => ⟨_, hs, rfl⟩
  | register => exact keepsHeadings_register _
  | @registerClass d =>
    intro s e hs
    obtain ⟨e₁, hs₁, he₁⟩ := keepsHeadings_register d hs
    obtain ⟨e', hs', he'⟩ := keepsHeadings_setParents (ds.register d).1 [Builtin.object.type] hs₁
    exact ⟨e', hs', he'.trans he₁⟩
  | setParents => exact keepsHeadings_setParents _ _

theorem KeepsHeadings.kind?_eq (h : ds.KeepsHeadings ds') (hs : ds.get? s = some d) : ds'.kind? s = some d.kind := by
  obtain ⟨e, he, hheading⟩ := h hs
  rw [kind?, he]
  exact congrArg some (Prod.mk.inj hheading).1

theorem KeepsHeadings.owner_eq (h : ds.KeepsHeadings ds') (hs : ds.get? s = some d) : ds'.owner s = d.owner := by
  obtain ⟨e, he, hheading⟩ := h hs
  rw [Declarations.owner, he]
  exact (Prod.mk.inj (Prod.mk.inj (Prod.mk.inj hheading).2).2).1

theorem exists_of_isClass (h : ds.isClass s) : ∃ d, ds.get? s = some d ∧ d.kind = .cls :=
  Option.map_eq_some_iff.1 (of_decide_eq_true h)

theorem isClass_of_get? (hs : ds.get? s = some d) (hkind : d.kind = .cls) : ds.isClass s := by
  rw [isClass, kind?, hs]
  exact decide_eq_true (congrArg some hkind)

theorem KeepsHeadings.isClass (h : ds.KeepsHeadings ds') (hs : ds.isClass s) : ds'.isClass s := by
  obtain ⟨d, hd, hkind⟩ := exists_of_isClass hs
  exact decide_eq_true ((h.kind?_eq hd).trans (congrArg some hkind))

theorem KeepsHeadings.houses (h : ds.KeepsHeadings ds') (ho : ds.Houses o) : ds'.Houses o :=
  ho.imp_right h.isClass

theorem owner_of_get? (hs : ds.get? s = some d) : ds.owner s = d.owner := by
  rw [Declarations.owner, hs]
  rfl

/-! ## The new symbol and its owner -/

theorem ne_next_of_get? (hs : ds.get? s = some d) : s ≠ ⟨ds.size + 1⟩ := by
  rintro rfl
  have hnext := ds.kind?_next
  rw [kind?, hs] at hnext
  cases hnext

/-- What is stored for a symbol after another one was registered: the new declaration, the old one with the new symbol
entered into it, or the old one. -/
theorem get?_register (hs : (ds.register d).2.get? s = some e) :
    (s = ⟨ds.size + 1⟩ ∧ s ≠ d.owner ∧ e = d) ∨
      (s = d.owner ∧ ∃ e₀, get? ⟨ds.entries.push d⟩ s = some e₀ ∧ e = e₀.enroll d.kind d.name ⟨ds.size + 1⟩) ∨
      (s ≠ ⟨ds.size + 1⟩ ∧ s ≠ d.owner ∧ ds.get? s = some e) := by
  simp only [register, get?_update] at hs
  split at hs
  · next howner =>
    obtain ⟨e₀, he₀, rfl⟩ := Option.map_eq_some_iff.1 hs
    exact .inr (.inl ⟨howner, e₀, he₀, rfl⟩)
  · next howner =>
    rw [get?_push_eq] at hs
    split at hs
    · next hnew => exact .inl ⟨hnew, howner, (Option.some.inj hs).symm⟩
    · next hnew => exact .inr (.inr ⟨hnew, howner, hs⟩)

theorem isClass_register_next (hkind : d.kind = .cls) : (ds.register d).2.isClass ⟨ds.size + 1⟩ := by
  rw [isClass, kind?_register, if_pos rfl, hkind]
  rfl

theorem owner_register (s : Symbol) :
    (ds.register d).2.owner s = if s = ⟨ds.size + 1⟩ then d.owner else ds.owner s := by
  have hmap : ((ds.register d).2.get? s).map (·.owner) = if s = ⟨ds.size + 1⟩ then some d.owner else _ :=
    map_register (·.owner) (fun d k _ _ => by cases k <;> rfl) s
  rw [owner, hmap]
  split <;> rfl

theorem owner_register_next : (ds.register d).2.owner ⟨ds.size + 1⟩ = d.owner := (owner_register _).trans (if_pos rfl)

theorem owner_setParents (s : Symbol) (ps : List Ty) (t : Symbol) : (ds.setParents s ps).owner t = ds.owner t :=
  congrArg (·.getD .absent) (map_setParents (·.owner) (fun _ _ => rfl) ds s ps t)

/-- What owns symbols is on record as a class, if it is on record at all. -/
theorem Houses.kind_of_get? (h : ds.Houses s) (hs : ds.get? s = some d) : d.kind = .cls := by
  obtain rfl | h := h
  · cases hs
  · obtain ⟨e, he, hkind⟩ := exists_of_isClass h
    cases hs.symm.trans he
    exact hkind

/-- The next symbol owns nothing yet. -/
theorem Houses.ne_next (h : ds.Houses o) : o ≠ ⟨ds.size + 1⟩ := by
  obtain rfl | h := h
  · exact fun h => absurd (Symbol.mk.inj h) (Nat.succ_ne_zero _).symm
  · obtain ⟨e, he, -⟩ := exists_of_isClass h
    exact ne_next_of_get? he

/-! ## Where owners have been checked -/

/-- `d` was declared as `s` with a class for its owner, or none, and has been left alone since, but that classes have been
declared under it. -/
structure Spared (ds : Declarations) (s : Symbol) (d : Declaration) : Prop where
  owner : ds.Houses d.owner
  parents : d.parents = []
  typeParams : d.typeParams = []
  termMembers : d.termMembers = {}
  typeMembers : ∀ m ∈ d.typeMembers.entries, ds.isClass m.2 ∧ ds.owner m.2 = s

namespace Spared

theorem of_bare (hd : d.Bare) (howner : ds.Houses d.owner) : ds.Spared s d where
  owner := howner
  parents := hd.parents
  typeParams := hd.typeParams
  termMembers := hd.termMembers
  typeMembers m hm := by
    rw [hd.typeMembers] at hm
    cases hm

theorem later (h : ds.Spared s d) (hkeep : ds.KeepsHeadings ds') : ds'.Spared s d where
  owner := hkeep.houses h.owner
  parents := h.parents
  typeParams := h.typeParams
  termMembers := h.termMembers
  typeMembers m hm := by
    obtain ⟨hclass, howner⟩ := h.typeMembers m hm
    obtain ⟨c, hc, -⟩ := exists_of_isClass hclass
    exact ⟨hkeep.isClass hclass, (hkeep.owner_eq hc).trans ((owner_of_get? hc).symm.trans howner)⟩

theorem enroll (h : ds.Spared s d) (name : String) (hc : ds.isClass c) (howner : ds.owner c = s) :
    ds.Spared s (d.enroll .cls name c) where
  owner := h.owner
  parents := h.parents
  typeParams := h.typeParams
  termMembers := h.termMembers
  typeMembers m hm := by
    obtain rfl | hm := InsertionMap.mem_put hm
    · exact ⟨hc, howner⟩
    · exact h.typeMembers m hm

end Spared

/-- Nothing but classes has been declared under what is no class, and only classes have. -/
def LooselyOwned (ds : Declarations) : Prop := ∀ s d, ds.get? s = some d → d.kind ≠ .cls → ds.Spared s d

/-- Every owner is a class, or there is none, and what is no class is bare. -/
structure Owned (ds : Declarations) : Prop where
  owner : ∀ {s d}, ds.get? s = some d → ds.Houses d.owner
  bare : ∀ {s d}, ds.get? s = some d → d.kind ≠ .cls → d.Bare

namespace LooselyOwned

/-- If classes are owned by classes, nothing is entered into anything else. -/
theorem owned (h : ds.LooselyOwned) (hclasses : ∀ {c}, ds.isClass c → ds.Houses (ds.owner c)) : ds.Owned where
  owner {s d} hs := by
    by_cases hkind : d.kind = .cls
    · rw [← owner_of_get? hs]
      exact hclasses (isClass_of_get? hs hkind)
    · exact (h s d hs hkind).owner
  bare {s d} hs hkind := by
    have hspared := h s d hs hkind
    have hempty : d.typeMembers.entries = [] := by
      refine List.eq_nil_iff_forall_not_mem.2 fun m hm => ?_
      obtain ⟨hclass, rfl⟩ := hspared.typeMembers m hm
      exact hkind ((hclasses hclass).kind_of_get? hs)
    exact ⟨hspared.parents, hspared.typeParams, congrArg InsertionMap.mk hempty, hspared.termMembers⟩

theorem setParents (h : ds.LooselyOwned) (hs : ds.isClass s) (ps : List Ty) : (ds.setParents s ps).LooselyOwned := by
  intro t e ht hkind
  rw [Declarations.setParents, get?_update] at ht
  split at ht
  · next heq =>
    subst heq
    obtain ⟨e₀, he₀, rfl⟩ := Option.map_eq_some_iff.1 ht
    exact (hkind (Houses.kind_of_get? (d := e₀) (.inr hs) he₀)).elim
  · exact (h t e ht hkind).later (keepsHeadings_setParents s ps)

/-- A new symbol whose owner was checked is entered into a class or nowhere. -/
theorem register (h : ds.LooselyOwned) (hd : d.Bare) (howner : ds.Houses d.owner) :
    (ds.register d).2.LooselyOwned := by
  intro s e hs hkind
  have hkeep : ds.KeepsHeadings (ds.register d).2 := keepsHeadings_register d
  obtain ⟨-, -, rfl⟩ | ⟨rfl, e₀, he₀, rfl⟩ | ⟨-, -, hold⟩ := get?_register hs
  · exact .of_bare hd (hkeep.houses howner)
  · rw [get?_push_eq, if_neg howner.ne_next] at he₀
    have hkind₀ : (e₀.enroll d.kind d.name ⟨ds.size + 1⟩).kind = e₀.kind := by cases d.kind <;> rfl
    exact (hkind (hkind₀.trans (howner.kind_of_get? he₀))).elim
  · exact (h s e hold hkind).later hkeep

/-- A new class is entered into whatever it was declared under. -/
theorem registerClass (h : ds.LooselyOwned) (hkind : d.kind = .cls) : (ds.register d).2.LooselyOwned := by
  intro s e hs hne
  have hkeep : ds.KeepsHeadings (ds.register d).2 := keepsHeadings_register d
  obtain ⟨-, -, rfl⟩ | ⟨rfl, e₀, he₀, rfl⟩ | ⟨-, -, hold⟩ := get?_register hs
  · exact (hne hkind).elim
  · rw [hkind] at hne ⊢
    rw [get?_push_eq] at he₀
    split at he₀
    · cases he₀
      exact (hne hkind).elim
    · exact ((h _ e₀ he₀ hne).later hkeep).enroll d.name (isClass_register_next hkind) owner_register_next
  · exact (h s e hold hne).later hkeep

/-- **One call** enters nothing but classes into what is no class. -/
theorem change (h : ds.LooselyOwned) (hchange : ds.Change P ds') : ds'.LooselyOwned := by
  cases hchange with
  | same => exact h
  | register hd hkind howner => exact h.register hd howner
  | @registerClass d hd hkind howner =>
    exact (h.registerClass hkind).setParents (isClass_register_next hkind) _
  | setParents ps hs => exact h.setParents hs ps

end LooselyOwned

/-- A class was there before, or the call has declared it. -/
theorem Change.isClass_cases (h : ds.Change P ds') (hc : ds'.isClass c) : ds.isClass c ∨ P (ds'.owner c) := by
  cases h with
  | same => exact .inl hc
  | @register d hd hkind =>
    rw [isClass, kind?_register] at hc
    split at hc
    · exact (hkind (Option.some.inj (of_decide_eq_true hc))).elim
    · exact .inl hc
  | @registerClass d _ _ howner =>
    rw [isClass, kind?_setParents, kind?_register] at hc
    split at hc
    · next hnew =>
      rw [owner_setParents, hnew, owner_register_next]
      exact .inr howner
    · exact .inl hc
  | setParents ps =>
    rw [isClass, kind?_setParents] at hc
    exact .inl hc

/-- Where classes are declared under classes, their owners are classes. -/
theorem Change.houses_class (h : ds.Change ds.Houses ds') (hclasses : ∀ {c}, ds.isClass c → ds.Houses (ds.owner c))
    (hc : ds'.isClass c) : ds'.Houses (ds'.owner c) := by
  have hkeep : ds.KeepsHeadings ds' := h.keepsHeadings
  obtain hold | hnew := h.isClass_cases hc
  · obtain ⟨d, hd, -⟩ := exists_of_isClass hold
    rw [hkeep.owner_eq hd, ← owner_of_get? hd]
    exact hkeep.houses (hclasses hold)
  · exact hkeep.houses hnew

theorem Owned.loosely (h : ds.Owned) : ds.LooselyOwned := fun _ _ hs hkind => .of_bare (h.bare hs hkind) (h.owner hs)

theorem owned_initial : World.initial.decls.Owned := by
  have hall : ∀ d ∈ World.initial.decls.entries,
      World.initial.decls.Houses d.owner ∧ (d.kind ≠ .cls → d.Bare) := by
    decide
  have hmem : ∀ {s d}, World.initial.decls.get? s = some d → d ∈ World.initial.decls.entries := by
    rintro ⟨_ | n⟩ d hs
    · cases hs
    · exact Array.mem_of_getElem? hs
  exact ⟨fun hs => (hall _ (hmem hs)).1, fun hs => (hall _ (hmem hs)).2⟩

end Declarations

/-! ## What calls do to declarations -/

/-- The owner that the call gives to a class. -/
def Request.Puts (r : Request) (owner : Symbol) : Prop := ∃ name flags, r = .cls owner name flags

section Runs

variable {α : Type} {w w' : World} {owner s : Symbol}

theorem houses_of_expectOwner (h : owner.expectOwner w = .ok (.ok ⟨⟩, w)) : w.decls.Houses owner := by
  by_contra howner
  have hrefused : owner.expectOwner w = .ok (.error (.badSymbol owner), w) := by
    show (if owner ≠ .absent ∧ !w.decls.isClass owner then throw _ else pure _ : BuildM Unit) w = _
    rw [if_pos (by simpa [Declarations.Houses] using howner)]
    rfl
  cases h.symm.trans hrefused

/-- Only the world is of interest. -/
theorem run_discard {m : BuildM α} {answer : Except BuildError Unit}
    (hrun : (do let _ ← m : BuildM Unit) w = .ok (answer, w')) : ∃ r, m w = .ok (r, w') := by
  obtain ⟨e, he, -⟩ | ⟨a, w₁, ha, hrest⟩ := build_bind_ok hrun
  · exact ⟨_, he⟩
  · cases hrest
    exact ⟨_, ha⟩

/-- The search for a cycle declares nothing. -/
theorem upholds_checkParents (ds : Declarations) (ps : List Ty) :
    Upholds (fun v => v.decls = ds) (ps.forM (checkParent s) : BuildM Unit).run := by
  have hcheck : ∀ t : Ty, Upholds (fun v => v.decls = ds) (checkParent s t).run := fun t =>
    .build_bind (.build_lift fun v _ _ hv hrun => ((grows_baseType t s).le_of_ok hrun).decls.trans hv) fun base => by
      split <;> exact .pure _
  induction ps with
  | nil => exact .pure _
  | cons t ps ih => exact .build_bind (hcheck t) fun _ => ih

/-- Parents are given to classes only. -/
theorem change_setParents {P : Symbol → Prop} {ps : List Ty} {answer : Except BuildError Unit}
    (hrun : setParents s ps w = .ok (answer, w')) : w.decls.Change P w'.decls := by
  by_cases hs : w.decls.isClass s
  · rw [setParents_eq] at hrun
    obtain ⟨e, he, -⟩ | ⟨_, w₁, hw₁, hrun⟩ := build_bind_ok hrun
    · cases (expectClass_run hs).symm.trans he
    · cases (expectClass_run hs).symm.trans hw₁
      obtain ⟨e, he, -⟩ | ⟨_, w₂, hw₂, hrun⟩ := build_bind_ok hrun
      · rw [upholds_checkParents w.decls _ w _ w' rfl he]
        exact .same
      · have hdecls : w₂.decls = w.decls := upholds_checkParents w.decls _ w _ w₂ rfl hw₂
        cases hrun
        show w.decls.Change P (w₂.decls.setParents s _)
        rw [hdecls]
        exact .setParents _ hs
  · cases (setParents_badSymbol hs ps).symm.trans hrun
    exact .same

/-- **What a request does to the declarations.** -/
theorem Request.change {r : Request} {answer : Except BuildError Unit} (hrun : r.run w = .ok (answer, w')) :
    w.decls.Change r.Puts w'.decls := by
  -- past the checks the declaration is registered
  have hregister : ∀ {d : Declaration} {a}, (liftM (WorldM.register d) : BuildM Symbol) w = .ok (a, w') → d.Bare →
      d.kind ≠ .cls → w.decls.Houses d.owner → w.decls.Change r.Puts w'.decls := by
    intro d a hrun hd hkind howner
    obtain ⟨s, hs, -⟩ := lift_ok hrun
    cases hs
    exact .register hd hkind howner
  cases r with
  | cls owner name flags =>
    cases hrun
    exact .registerClass ⟨rfl, rfl, rfl, rfl⟩ rfl ⟨name, flags, rfl⟩
  | typeParam owner name variance bounds =>
    obtain ⟨a, hrun⟩ := run_discard hrun
    obtain rfl | ⟨howner, hrun⟩ := (checks_expectClass owner).run_cases hrun
    · exact .same
    · obtain rfl | ⟨-, hrun⟩ := (checks_expectBounds bounds).run_cases hrun
      · exact .same
      · exact hregister hrun ⟨rfl, rfl, rfl, rfl⟩ nofun (.inr (isClass_of_expectClass howner))
  | abstractType owner name bounds =>
    obtain ⟨a, hrun⟩ := run_discard hrun
    obtain rfl | ⟨howner, hrun⟩ := (checks_expectOwner owner).run_cases hrun
    · exact .same
    · obtain rfl | ⟨-, hrun⟩ := (checks_expectBounds bounds).run_cases hrun
      · exact .same
      · exact hregister hrun ⟨rfl, rfl, rfl, rfl⟩ nofun (houses_of_expectOwner howner)
  | synonym owner name aliased =>
    obtain ⟨a, hrun⟩ := run_discard hrun
    obtain rfl | ⟨howner, hrun⟩ := (checks_expectOwner owner).run_cases hrun
    · exact .same
    · exact hregister hrun ⟨rfl, rfl, rfl, rfl⟩ nofun (houses_of_expectOwner howner)
  | value owner name t flags =>
    obtain ⟨a, hrun⟩ := run_discard hrun
    obtain rfl | ⟨howner, hrun⟩ := (checks_expectOwner owner).run_cases hrun
    · exact .same
    · exact hregister hrun ⟨rfl, rfl, rfl, rfl⟩ nofun (houses_of_expectOwner howner)
  | parents s ps => exact change_setParents hrun

theorem Call.change {m : WorldM α} {a : α} (hm : Call m) (hrun : m w = .ok (a, w')) :
    w.decls.Change (fun _ => True) w'.decls := by
  have hsame : w'.decls = w.decls → w.decls.Change (fun _ => True) w'.decls := fun h => h ▸ .same
  cases hm with
  | add hm => exact hsame (hm.le hrun).decls
  | var origin =>
    obtain ⟨-, rfl⟩ | ⟨p, t, -, -, ht⟩ := var_cases hrun
    · exact .same
    · cases ht
      exact .same
  | instantiate var inst =>
    obtain ⟨-, rfl⟩ | ⟨v, c, -, -, -, -, rfl⟩ := instantiate_cases hrun <;> exact .same
  | request r => exact (Request.change hrun).mono fun _ _ => trivial

end Runs

/-! ## Sessions -/

namespace Session

variable {s s' : Session}

theorem Step.change (h : Step s s') : s.world.decls.Change (fun _ => True) s'.world.decls := by
  cases h with
  | call hm hrun => exact hm.change hrun
  | start kind names hrun =>
    cases hrun
    exact .same
  | @finish infos result b d _ w w' _ _ hrun =>
    obtain ⟨-, rfl⟩ | ⟨-, -, t, ht, -⟩ := finish_cases (checks_check d.kind) hrun
    · exact .same
    · have hdecls : w'.decls = w.decls := ((grows_binderType b : Grows True _).le_of_ok ht).decls
      show w.decls.Change _ w'.decls
      rw [hdecls]
      exact .same
  | giveUp => exact .same

/-- Whatever calls are made, only classes own anything but classes. -/
theorem Run.looselyOwned (h : Run .initial s) : s.world.decls.LooselyOwned := by
  induction h with
  | refl => exact Declarations.owned_initial.loosely
  | tail _ hstep ih => exact ih.change hstep.change

/-- A step in which a class is declared only at top level or under a class. -/
inductive HousedStep : Session → Session → Prop
  | request {r : Request} {answer : Except BuildError Unit} {w w' : World} {opened : List BinderId}
    (howner : ∀ owner, r.Puts owner → w.decls.Houses owner) (hrun : r.run w = .ok (answer, w')) :
    HousedStep ⟨w, opened⟩ ⟨w', opened⟩
  | other {s s' : Session} (h : Step s s') (hdecls : s'.world.decls = s.world.decls) : HousedStep s s'

/-- Any number of such steps. -/
def HousedRun : Session → Session → Prop := Relation.ReflTransGen HousedStep

theorem HousedStep.step (h : HousedStep s s') : Step s s' := by
  cases h with
  | request _ hrun => exact .call (.request _) hrun
  | other h => exact h

theorem HousedRun.run (h : HousedRun s s') : Run s s' :=
  Relation.ReflTransGen.mono (fun _ _ => HousedStep.step) _ _ h

theorem HousedStep.change (h : HousedStep s s') : s.world.decls.Change s.world.decls.Houses s'.world.decls := by
  cases h with
  | request howner hrun => exact (Request.change hrun).mono howner
  | other _ hdecls => exact hdecls ▸ .same

/-- What is declared by such steps is owned by classes, whatever else is done. -/
theorem HousedRun.owned (h : HousedRun .initial s) : s.world.decls.Owned := by
  suffices hs : s.world.decls.LooselyOwned ∧ ∀ {c}, s.world.decls.isClass c →
      s.world.decls.Houses (s.world.decls.owner c) from hs.1.owned hs.2
  induction h with
  | refl =>
    refine ⟨Declarations.owned_initial.loosely, fun hc => ?_⟩
    obtain ⟨d, hd, -⟩ := Declarations.exists_of_isClass hc
    rw [Declarations.owner_of_get? hd]
    exact Declarations.owned_initial.owner hd
  | tail _ hstep ih => exact ⟨ih.1.change hstep.change, hstep.change.houses_class ih.2⟩

/-- **Only classes own symbols**, once only they are given classes to own. Whatever calls are made, and whatever symbols
they are given, what is no class has a class for its owner, or none; it has no parents, no type parameters and no
values, and what else was entered into it are classes that were declared under it. If classes are declared at top level
or under classes that are registered, all owners are registered classes, or there is none, and what is no class has no
parents, no type parameters and no members. -/
theorem owners_are_classes (h : Run .initial s) :
    s.world.decls.LooselyOwned ∧ (HousedRun .initial s → s.world.decls.Owned) :=
  ⟨h.looselyOwned, HousedRun.owned⟩

/-- A class `K`, at `44`, with a class `L` under it, at `45`, whose type parameter is `T`, and a value `v`, at `47`. -/
def nestedWorld : World :=
  let w := { World.initial with decls := (World.initial.decls.register
    { kind := .cls, name := "K", owner := .absent, flags := { static := true } }).2 }
  let w := { w with decls := w.decls.setParents ⟨44⟩ [Builtin.object.type] }
  let w := { w with decls := (w.decls.register { kind := .cls, name := "L", owner := ⟨44⟩ }).2 }
  let w := { w with decls := w.decls.setParents ⟨45⟩ [Builtin.object.type] }
  let w := { w with decls := (w.decls.register { kind := .typeParam, name := "T", owner := ⟨45⟩, info := ⟨14⟩ }).2 }
  { w with decls := (w.decls.register { kind := .value, name := "v", owner := ⟨44⟩, info := Builtin.int.type }).2 }

/-- The value takes no alias and no parents, and owns nothing; the class that it is a member of owns a class. -/
theorem owners_are_classes_nested :
    (declareAlias ⟨47⟩ "A" Builtin.int.type nestedWorld = .ok (.error (.badSymbol ⟨47⟩), nestedWorld) ∧
      setParents ⟨47⟩ [] nestedWorld = .ok (.error (.badSymbol ⟨47⟩), nestedWorld)) ∧
    (nestedWorld.decls.isClass ⟨45⟩ ∧ nestedWorld.decls.owner ⟨45⟩ = ⟨44⟩ ∧
      nestedWorld.decls.kind? ⟨47⟩ = some .value ∧ nestedWorld.decls.owner ⟨47⟩ = ⟨44⟩) ∧
    nestedWorld.decls.LooselyOwned ∧ nestedWorld.decls.Owned := by
  let register (w : World) (d : Declaration) : World := { w with decls := (w.decls.register d).2 }
  let setParents (w : World) (s : Symbol) : World := { w with decls := w.decls.setParents s [Builtin.object.type] }
  let w₁ := setParents (register .initial { kind := .cls, name := "K", owner := .absent, flags := { static := true } }) ⟨44⟩
  let w₂ := setParents (register w₁ { kind := .cls, name := "L", owner := ⟨44⟩ }) ⟨45⟩
  let w₃ := register w₂ { kind := .typeParam, name := "T", owner := ⟨45⟩, info := ⟨14⟩ }
  have hk : HousedStep .initial ⟨w₁, []⟩ := .request (r := .cls .absent "K" {})
    (fun owner ⟨_, _, h⟩ => .inl (Request.cls.inj h).1.symm) rfl
  have hl : HousedStep ⟨w₁, []⟩ ⟨w₂, []⟩ := .request (r := .cls ⟨44⟩ "L" {})
    (fun owner ⟨_, _, h⟩ => (Request.cls.inj h).1 ▸ .inr (by decide)) rfl
  have ht : HousedStep ⟨w₂, []⟩ ⟨w₃, []⟩ := .request (r := .typeParam ⟨45⟩ "T" .invariant ⟨14⟩) nofun rfl
  have hv : HousedStep ⟨w₃, []⟩ ⟨nestedWorld, []⟩ := .request (r := .value ⟨44⟩ "v" Builtin.int.type {}) nofun rfl
  have hrun : HousedRun .initial ⟨nestedWorld, []⟩ := .head hk (.head hl (.head ht (.single hv)))
  obtain ⟨hloose, howned⟩ := owners_are_classes (s := ⟨nestedWorld, []⟩) hrun.run
  exact ⟨⟨rfl, rfl⟩, by decide, hloose, howned hrun⟩

/-- A class is declared under a value without being refused, and entered into it. -/
theorem class_under_value : ∃ s, Run .initial s ∧ s.world.decls.kind? ⟨44⟩ = some .value ∧
    s.world.decls.isClass ⟨45⟩ ∧ s.world.decls.owner ⟨45⟩ = ⟨44⟩ ∧
      s.world.decls.member? ⟨44⟩ "C" .type = some ⟨45⟩ ∧ ¬ s.world.decls.Owned := by
  let w₁ : World := { World.initial with decls := (World.initial.decls.register
    { kind := .value, name := "v", owner := .absent, flags := { static := true }, info := Builtin.int.type }).2 }
  let w₂ : World := { w₁ with decls := (w₁.decls.register { kind := .cls, name := "C", owner := ⟨44⟩ }).2 }
  let w₃ : World := { w₂ with decls := w₂.decls.setParents ⟨45⟩ [Builtin.object.type] }
  have hv : Step .initial ⟨w₁, []⟩ := .call (.request (.value .absent "v" Builtin.int.type {})) rfl
  have hc : Step ⟨w₁, []⟩ ⟨w₃, []⟩ := .call (.request (.cls ⟨44⟩ "C" {})) rfl
  have hclass : w₃.decls.isClass ⟨45⟩ := by decide
  have howner : w₃.decls.owner ⟨45⟩ = ⟨44⟩ := by decide
  refine ⟨⟨w₃, []⟩, .head hv (.single hc), by decide, hclass, howner, by decide, fun howned => ?_⟩
  obtain ⟨d, hd, -⟩ := Declarations.exists_of_isClass hclass
  have hhoused : w₃.decls.Houses ⟨44⟩ := howner ▸ Declarations.owner_of_get? hd ▸ howned.owner hd
  exact absurd hhoused (by decide)

end Session

end Conformance
