import Conformance.Proofs.Owners

/-!
# Declarations are local, and the last one of a name counts

A call that declares either answers with an error and leaves all that is declared alone, or it adds one symbol and
enters it into its owner (`Declarations.Adds`), or it replaces the parents of a class (`Declarations.Reparents`); no
other field of any symbol is touched (`Request.lands`). So what is on record under a class can be read off the list
of all symbols: its type parameters are the type parameters declared under it, and a name stands for the symbol that was
declared last under it, in each of the two spaces of names (`Declarations.Recorded`).

Only a symbol that was declared before its owner is passed over, which can happen to classes alone
(`Declarations.OwnersFirst`, `class_before_owner`).
-/

namespace Conformance

/-- The space in which a symbol of this kind is entered. -/
def DeclKind.space : DeclKind → MemberSpace
  | .value => .term
  | _ => .type

/-- Nothing has been declared under the declaration. -/
structure Declaration.Childless (d : Declaration) : Prop where
  typeParams : d.typeParams = []
  members : ∀ space, d.members space = {}

namespace Declaration

variable (d : Declaration) (kind : DeclKind) (name : String) (s : Symbol)

theorem Bare.childless {d : Declaration} (h : d.Bare) : d.Childless where
  typeParams := h.typeParams
  members
    | .type => h.typeMembers
    | .term => h.termMembers

theorem typeParams_enroll :
    (d.enroll kind name s).typeParams = d.typeParams ++ if kind = .typeParam then [s] else [] := by
  cases kind with
  | typeParam => rfl
  | _ => exact (List.append_nil _).symm

theorem find?_members_enroll (n : String) (space : MemberSpace) :
    ((d.enroll kind name s).members space).find? n =
      if kind.space = space ∧ n = name then some s else (d.members space).find? n := by
  cases kind <;> cases space <;> simp [enroll, members, DeclKind.space]

end Declaration

namespace Declarations

variable {ds ds' : Declarations} {c : Symbol}

/-! ## What one call does -/

/-- `ds'` has `d` as one more symbol, entered into its owner, and is `ds` otherwise. -/
structure Adds (ds : Declarations) (d : Declaration) (ds' : Declarations) : Prop where
  size : ds'.size = ds.size + 1
  /-- A class may be declared as its own owner. -/
  next : ds'.get? ⟨ds.size + 1⟩ = some (if d.owner = ⟨ds.size + 1⟩ then d.enroll d.kind d.name ⟨ds.size + 1⟩ else d)
  owner : d.owner ≠ ⟨ds.size + 1⟩ →
    ds'.get? d.owner = (ds.get? d.owner).map (·.enroll d.kind d.name ⟨ds.size + 1⟩)
  others : ∀ s, s ≠ ⟨ds.size + 1⟩ → s ≠ d.owner → ds'.get? s = ds.get? s

/-- `ds'` has `ps` for the parents of the class `c`, and is `ds` otherwise. -/
structure Reparents (ds : Declarations) (c : Symbol) (ps : List Ty) (ds' : Declarations) : Prop where
  isClass : ds.isClass c
  size : ds'.size = ds.size
  parents : ds'.get? c = (ds.get? c).map ({ · with parents := ps })
  others : ∀ s, s ≠ c → ds'.get? s = ds.get? s

theorem size_update (s : Symbol) (f : Declaration → Declaration) : (ds.update s f).size = ds.size := by
  obtain ⟨_ | n⟩ := s
  · rfl
  · exact Array.size_modify

theorem size_register (d : Declaration) : (ds.register d).2.size = ds.size + 1 :=
  (size_update d.owner _).trans (Array.size_push d)

theorem get?_register_eq (d : Declaration) (s : Symbol) : (ds.register d).2.get? s =
    if s = d.owner then (get? ⟨ds.entries.push d⟩ s).map (·.enroll d.kind d.name ⟨ds.size + 1⟩)
    else get? ⟨ds.entries.push d⟩ s :=
  get?_update _ _ s _

theorem adds_register (d : Declaration) : ds.Adds d (ds.register d).2 where
  size := size_register d
  next := by
    rw [get?_register_eq, get?_push_eq, if_pos rfl]
    simp only [eq_comm (a := d.owner), Option.map_some]
    split <;> rfl
  owner hne := by rw [get?_register_eq, if_pos rfl, get?_push_eq, if_neg hne]
  others s hnew howner := by rw [get?_register_eq, if_neg howner, get?_push_eq, if_neg hnew]

theorem reparents_setParents (hc : ds.isClass c) (ps : List Ty) : ds.Reparents c ps (ds.setParents c ps) where
  isClass := hc
  size := size_update c _
  parents := by rw [setParents, get?_update, if_pos rfl]
  others s hs := by rw [setParents, get?_update, if_neg hs]

theorem ext_get? (h : ∀ s, ds.get? s = ds'.get? s) : ds = ds' :=
  congrArg Declarations.mk (Array.ext_getElem? fun n => h ⟨n + 1⟩)

/-- Parents that are given to the new symbol may as well be declared with it. -/
theorem setParents_register (d : Declaration) (ps : List Ty) :
    (ds.register d).2.setParents ⟨ds.size + 1⟩ ps = (ds.register { d with parents := ps }).2 := by
  have henroll : ∀ e : Declaration, { e.enroll d.kind d.name ⟨ds.size + 1⟩ with parents := ps } =
      Declaration.enroll { e with parents := ps } d.kind d.name ⟨ds.size + 1⟩ := fun e => by cases d.kind <;> rfl
  refine ext_get? fun s => ?_
  rw [setParents, get?_update, get?_register_eq, get?_register_eq, get?_push_eq, get?_push_eq]
  by_cases hs : s = ⟨ds.size + 1⟩
  · rw [if_pos hs, if_pos hs, if_pos hs]
    split
    · exact congrArg some (henroll d)
    · rfl
  · rw [if_neg hs, if_neg hs, if_neg hs]

end Declarations

namespace Request

/-- What the request declares. -/
def declaration? : Request → Option Declaration
  | .cls owner name flags =>
    some { kind := .cls, name, owner, flags := flags.under owner, parents := [Builtin.object.type] }
  | .typeParam owner name variance bounds => some { kind := .typeParam, name, owner, variance, info := bounds }
  | .abstractType owner name bounds =>
    some { kind := .abstractType, name, owner, flags := DeclFlags.under {} owner, info := bounds }
  | .synonym owner name aliased =>
    some { kind := .synonym, name, owner, flags := DeclFlags.under {} owner, info := aliased }
  | .value owner name t flags => some { kind := .value, name, owner, flags := flags.under owner, info := t }
  | .parents _ _ => none

/-- The call of a request, with the symbol that it gives out. -/
def give : Request → BuildM (Option Symbol)
  | .cls owner name flags => return some (← declareClass owner name flags)
  | .typeParam owner name variance bounds => return some (← declareTypeParam owner name variance bounds)
  | .abstractType owner name bounds => return some (← declareAbstractType owner name bounds)
  | .synonym owner name aliased => return some (← declareAlias owner name aliased)
  | .value owner name t flags => return some (← declareValue owner name t flags)
  | .parents s ps => do
    setParents s ps
    return none

/-- What a request does that is not refused: the symbol that it gives out, and the declarations before and after. -/
inductive Does (ds : Declarations) : Request → Option Symbol → Declarations → Prop
  | declares {r : Request} {d : Declaration} {ds' : Declarations} (hd : r.declaration? = some d) (h : ds.Adds d ds') :
    Does ds r (some ⟨ds.size + 1⟩) ds'
  | reparents {c : Symbol} {ps : List Ty} {ds' : Declarations} (h : ds.Reparents c (effectiveParents c ps) ds') :
    Does ds (.parents c ps) none ds'

/-- The call answers: it is refused and no declaration has changed, or it has done what it is there for. -/
def Lands (r : Request) (w : World) : Prop := ∃ answer w', r.give w = .ok (answer, w') ∧
  (∀ e, answer = .error e → w'.decls = w.decls) ∧ ∀ given, answer = .ok given → r.Does w.decls given w'.decls

variable {r : Request} {w : World}

theorem give_of_run {α : Type} {m : BuildM α} {f : α → Option Symbol} {answer : Except BuildError α} {w' : World}
    (hgive : r.give = m >>= fun a => pure (f a)) (hm : m w = .ok (answer, w')) : r.give w = .ok (answer.map f, w') := by
  rw [hgive]
  show Except.bind (m w) _ = _
  rw [hm]
  cases answer <;> rfl

/-- A call that registers its declaration after its checks. -/
theorem lands_of_checks {m : BuildM Symbol} {d : Declaration} (hgive : r.give = m >>= fun s => pure (some s))
    (hd : r.declaration? = some d)
    (hm : m w = (liftM (WorldM.register d) : BuildM Symbol) w ∨ ∃ e, m w = .ok (.error e, w)) : r.Lands w := by
  obtain hm | ⟨e, hm⟩ := hm
  · refine ⟨_, _, give_of_run hgive (hm.trans rfl), nofun, fun given hgiven => ?_⟩
    cases hgiven
    exact .declares hd (Declarations.adds_register d)
  · exact ⟨_, _, give_of_run hgive hm, fun _ _ => rfl, nofun⟩

/-- The search for a cycle comes to an end in every world. -/
theorem checkParents_answers (c : Symbol) (ps : List Ty) (w : World) :
    ∃ answer w', (ps.forM (checkParent c) : BuildM Unit) w = .ok (answer, w') ∧ w ≤ w' := by
  induction ps generalizing w with
  | nil => exact ⟨_, w, rfl, le_rfl⟩
  | cons t ps ih =>
    obtain ⟨base, v, hbase, hle⟩ := (grows_baseType t c).total w
    rw [checkParents_cons, checkParent_run hbase]
    by_cases hpresent : base.present
    · rw [if_pos hpresent]
      exact ⟨_, v, rfl, hle⟩
    · rw [if_neg hpresent]
      obtain ⟨answer, w', hrun, hle'⟩ := ih v
      exact ⟨answer, w', hrun, hle.trans hle'⟩

/-- **One call is atomic and local**, in every world and for all arguments. -/
theorem lands (r : Request) (w : World) : r.Lands w := by
  cases r with
  | cls owner name flags =>
    refine ⟨_, _, rfl, nofun, fun given hgiven => ?_⟩
    cases hgiven
    refine .declares rfl ?_
    show w.decls.Adds _ ((w.decls.register _).2.setParents ⟨w.decls.size + 1⟩ _)
    rw [Declarations.setParents_register]
    exact Declarations.adds_register _
  | typeParam owner name variance bounds =>
    exact lands_of_checks rfl rfl ((checks_expectClass owner).bind_run₂ (checks_expectBounds bounds) _ w)
  | abstractType owner name bounds =>
    exact lands_of_checks rfl rfl ((checks_expectOwner owner).bind_run₂ (checks_expectBounds bounds) _ w)
  | synonym owner name aliased => exact lands_of_checks rfl rfl ((checks_expectOwner owner).bind_run _ w)
  | value owner name t flags => exact lands_of_checks rfl rfl ((checks_expectOwner owner).bind_run _ w)
  | parents c ps =>
    by_cases hc : w.decls.isClass c
    · obtain ⟨answer, v, hrun, hle⟩ := checkParents_answers c (effectiveParents c ps) w
      have hset := setParents_of_isClass hc ps
      rw [hrun] at hset
      cases answer with
      | error e => exact ⟨_, v, give_of_run rfl hset, fun _ _ => hle.decls, nofun⟩
      | ok _ =>
        refine ⟨_, _, give_of_run rfl hset, nofun, fun given hgiven => ?_⟩
        cases hgiven
        refine .reparents ?_
        show w.decls.Reparents c _ (v.decls.setParents c _)
        rw [hle.decls]
        exact Declarations.reparents_setParents hc _
    · exact ⟨_, w, give_of_run rfl (setParents_badSymbol hc ps), fun _ _ => rfl, nofun⟩

end Request

namespace Declarations

variable {ds ds' : Declarations} {d : Declaration} {s c : Symbol} {P : Symbol → Prop}

/-! ## What was declared under a symbol -/

/-- The symbols declared under `c` whose kind and name pass `q`, in the order of declaration. -/
def declaredUnder (ds : Declarations) (c : Symbol) (q : DeclKind → String → Bool) : List Symbol :=
  ((List.range ds.size).map fun n => ⟨n + 1⟩).filter fun s => (ds.get? s).any fun d => d.owner = c ∧ q d.kind d.name

/-- Those of them that were declared once `c` was there. -/
def enteredUnder (ds : Declarations) (c : Symbol) (q : DeclKind → String → Bool) : List Symbol :=
  (ds.declaredUnder c q).filter fun s => c.id ≤ s.id

theorem get?_eq_none_iff : ds.get? s = none ↔ s = .absent ∨ ds.size < s.id := by
  obtain ⟨_ | n⟩ := s
  · exact ⟨fun _ => .inl rfl, fun _ => rfl⟩
  · refine Array.getElem?_eq_none_iff.trans ?_
    simp only [Symbol.absent, Symbol.mk.injEq, Nat.add_one_ne_zero, false_or]
    exact Nat.lt_succ_iff.symm

theorem le_size_of_get? (hs : ds.get? s = some d) : s.id ≤ ds.size := by
  by_contra hlt
  cases hs.symm.trans (get?_eq_none_iff.2 (.inr (Nat.lt_of_not_le hlt)))

theorem any_eq_of_map_eq {o o' : Option Declaration} {p : Declaration → Bool} (h : o.map p = o'.map p) :
    o.any p = o'.any p := by
  have hany := congrArg (Option.any id) h
  rwa [Option.any_map, Option.any_map] at hany

theorem declaredUnder_register (d : Declaration) (c : Symbol) (q : DeclKind → String → Bool) :
    (ds.register d).2.declaredUnder c q =
      ds.declaredUnder c q ++ if d.owner = c ∧ q d.kind d.name then [⟨ds.size + 1⟩] else [] := by
  have hany : ∀ s, ((ds.register d).2.get? s).any (fun e => e.owner = c ∧ q e.kind e.name) =
      (if s = ⟨ds.size + 1⟩ then some d else ds.get? s).any fun e => e.owner = c ∧ q e.kind e.name := fun s =>
    any_eq_of_map_eq <| by
      rw [map_register _ fun e k _ _ => by cases k <;> rfl]
      split <;> rfl
  have hold : ∀ s ∈ (List.range ds.size).map fun n => (⟨n + 1⟩ : Symbol), s ≠ ⟨ds.size + 1⟩ := by
    intro s hs
    obtain ⟨n, hn, rfl⟩ := List.mem_map.1 hs
    exact fun hlast => Nat.ne_of_lt (List.mem_range.1 hn) (Nat.succ.inj (Symbol.mk.inj hlast))
  rw [declaredUnder, declaredUnder, size_register, List.range_succ, List.map_append, List.filter_append]
  congr 1
  · exact List.filter_congr fun s hs => by rw [hany, if_neg (hold s hs)]
  · rw [List.map_singleton, List.filter_singleton, hany, if_pos rfl]
    simp

theorem declaredUnder_setParents (c : Symbol) (ps : List Ty) (c' : Symbol) (q : DeclKind → String → Bool) :
    (ds.setParents c ps).declaredUnder c' q = ds.declaredUnder c' q := by
  rw [declaredUnder, declaredUnder, setParents, size_update]
  exact List.filter_congr fun s _ => any_eq_of_map_eq (map_setParents _ (fun _ _ => rfl) ds c ps s)

theorem enteredUnder_register (d : Declaration) (c : Symbol) (q : DeclKind → String → Bool) :
    (ds.register d).2.enteredUnder c q = ds.enteredUnder c q ++
      if d.owner = c ∧ c.id ≤ ds.size + 1 then if q d.kind d.name then [⟨ds.size + 1⟩] else [] else [] := by
  rw [enteredUnder, declaredUnder_register, List.filter_append]
  congr 1
  by_cases howner : d.owner = c <;> by_cases hq : q d.kind d.name <;> by_cases hle : c.id ≤ ds.size + 1 <;>
    simp [howner, hq, hle]

/-! ## What is on record under a symbol -/

/-- A registration changes what is read under the owner of the new symbol, if that is there. -/
theorem read_register {β : Type} (ds : Declarations) (g : Declaration → β) {z : β} (up : β → β) (hd : g d = z)
    (hup : ∀ e, g (e.enroll d.kind d.name ⟨ds.size + 1⟩) = up (g e)) (hc : c ≠ .absent) :
    (((ds.register d).2.get? c).map g).getD z =
      if d.owner = c ∧ c.id ≤ ds.size + 1 then up (((ds.get? c).map g).getD z) else ((ds.get? c).map g).getD z := by
  have hpush : ((get? ⟨ds.entries.push d⟩ c).map g).getD z = ((ds.get? c).map g).getD z := by
    rw [get?_push_eq]
    split
    · next hnew =>
      rw [get?_eq_none_iff.2 (.inr (hnew ▸ Nat.lt_succ_self _))]
      exact hd
    · rfl
  have hunknown : get? ⟨ds.entries.push d⟩ c = none ↔ ¬ c.id ≤ ds.size + 1 := by
    rw [get?_eq_none_iff, or_iff_right hc, Nat.not_le]
    exact iff_of_eq (congrArg (· < c.id) (Array.size_push d))
  rw [get?_register_eq, ← hpush]
  by_cases howner : c = d.owner
  · rw [if_pos howner]
    cases hget : get? ⟨ds.entries.push d⟩ c with
    | none => exact (if_neg fun h => hunknown.1 hget h.2).symm
    | some e =>
      have hle : c.id ≤ ds.size + 1 := by
        by_contra hlt
        cases hget.symm.trans (hunknown.2 hlt)
      exact (hup e).trans (if_pos ⟨howner.symm, hle⟩).symm
  · rw [if_neg howner, if_neg fun h => howner h.1.symm]

theorem member?_eq (name : String) (space : MemberSpace) :
    ds.member? c name space = ((ds.get? c).map fun d => (d.members space).find? name).getD none := by
  rw [member?]
  cases ds.get? c <;> rfl

/-- Under every symbol stands what was declared under it once it was there: its type parameters are all on record, and
the last symbol of each name. -/
structure Recorded (ds : Declarations) : Prop where
  typeParams : ∀ {c}, c ≠ .absent → ds.typeParams c = ds.enteredUnder c fun kind _ => kind = .typeParam
  member? : ∀ {c}, c ≠ .absent → ∀ name space,
    ds.member? c name space = (ds.enteredUnder c fun kind n => kind.space = space ∧ n = name).getLast?

namespace Recorded

theorem empty : Recorded {} where
  typeParams {c} _ := by obtain ⟨_ | n⟩ := c <;> rfl
  member? {c} _ _ _ := by obtain ⟨_ | n⟩ := c <;> rfl

/-- **One more symbol** comes last under its owner. -/
theorem register (h : ds.Recorded) (hd : d.Childless) : (ds.register d).2.Recorded where
  typeParams {c} hc := by
    have hread : (ds.register d).2.typeParams c = if d.owner = c ∧ c.id ≤ ds.size + 1 then
        ds.typeParams c ++ (if d.kind = .typeParam then [⟨ds.size + 1⟩] else []) else ds.typeParams c :=
      read_register ds (·.typeParams) (· ++ if d.kind = .typeParam then [(ds.register d).1] else []) hd.typeParams
        (fun e => e.typeParams_enroll _ _ _) hc
    rw [hread, enteredUnder_register, h.typeParams hc]
    split <;> simp
  member? {c} hc name space := by
    have hread : (ds.register d).2.member? c name space = if d.owner = c ∧ c.id ≤ ds.size + 1 then
        (if d.kind.space = space ∧ name = d.name then some ⟨ds.size + 1⟩ else ds.member? c name space)
        else ds.member? c name space := by
      rw [member?_eq, member?_eq]
      exact read_register ds (fun e => (e.members space).find? name)
        (fun old => if d.kind.space = space ∧ name = d.name then some ⟨ds.size + 1⟩ else old)
        (congrArg (·.find? name) (hd.members space)) (fun e => e.find?_members_enroll _ _ _ _ _) hc
    rw [hread, enteredUnder_register, h.member? hc]
    simp only [eq_comm (a := name), decide_eq_true_eq]
    split
    · split <;> simp
    · simp

theorem setParents (h : ds.Recorded) (c : Symbol) (ps : List Ty) : (ds.setParents c ps).Recorded where
  typeParams {c'} hc := by
    have hread := congrArg (·.getD []) (map_setParents (·.typeParams) (fun _ _ => rfl) ds c ps c')
    rw [enteredUnder, declaredUnder_setParents]
    exact hread.trans (h.typeParams hc)
  member? {c'} hc name space := by
    have hread := congrArg (·.getD none) (map_setParents (fun d => (d.members space).find? name)
      (fun _ _ => by cases space <;> rfl) ds c ps c')
    rw [enteredUnder, declaredUnder_setParents, member?_eq]
    exact hread.trans ((member?_eq name space).symm.trans (h.member? hc name space))

/-- **One call** keeps the records in order. -/
theorem change (h : ds.Recorded) (hchange : ds.Change P ds') : ds'.Recorded := by
  cases hchange with
  | same => exact h
  | register hd => exact h.register hd.childless
  | registerClass hd => exact (h.register hd.childless).setParents _ _
  | setParents ps => exact h.setParents _ ps

end Recorded

/-- A trait and its parameters are registered one after the other. -/
theorem Recorded.declareTrait (h : ds.Recorded) (free : Ty) (vs : List Variance) :
    (Builtin.declareTrait free vs ds).Recorded := by
  simp only [Builtin.declareTrait]
  exact List.foldlRecOn _ _ (h.register ⟨rfl, fun space => by cases space <;> rfl⟩) fun _ h' _ _ =>
    h'.register ⟨rfl, fun space => by cases space <;> rfl⟩

theorem recorded_initial : World.initial.decls.Recorded := by
  have hclasses : (Builtin.all.foldl (fun w b => Builtin.declare b w) { types := .fixed } : World).decls.Recorded :=
    List.foldlRecOn _ _ (motive := fun w : World => w.decls.Recorded) .empty fun w hw b _ =>
      hw.register (d := Builtin.declaration b) ⟨rfl, fun space => by cases space <;> rfl⟩
  exact List.foldlRecOn _ _ (motive := Recorded) hclasses fun _ h t _ => h.declareTrait _ t.1

/-! ## Owners come first -/

/-- What is of a kind in `K` was declared after its owner. -/
def OwnersFirst (K : DeclKind → Prop) (ds : Declarations) : Prop :=
  ∀ s k, ds.kind? s = some k → K k → (ds.owner s).id < s.id

theorem Houses.le_size {o : Symbol} (h : ds.Houses o) : o.id ≤ ds.size := by
  obtain rfl | h := h
  · exact Nat.zero_le _
  · obtain ⟨e, he, -⟩ := exists_of_isClass h
    exact le_size_of_get? he

theorem exists_of_mem_declaredUnder {q : DeclKind → String → Bool} (hs : s ∈ ds.declaredUnder c q) :
    ∃ d, ds.get? s = some d ∧ d.owner = c ∧ q d.kind d.name := by
  obtain ⟨d, hd, hq⟩ := (Option.any_eq_true _ _).1 (List.mem_filter.1 hs).2
  exact ⟨d, hd, of_decide_eq_true hq⟩

namespace OwnersFirst

variable {K : DeclKind → Prop}

theorem initial : World.initial.decls.OwnersFirst K := by
  have hall : ∀ n < World.initial.decls.size, (World.initial.decls.owner ⟨n + 1⟩).id < n + 1 := by
    decide
  rintro ⟨_ | n⟩ k hs -
  · cases hs
  · obtain ⟨d, hd, -⟩ := Option.map_eq_some_iff.1 hs
    exact hall n (le_size_of_get? hd)

theorem register (h : ds.OwnersFirst K) (howner : K d.kind → d.owner.id ≤ ds.size) :
    (ds.register d).2.OwnersFirst K := by
  intro s k hs hk
  rw [kind?_register] at hs
  rw [owner_register]
  split at hs
  · next hnew =>
    cases hs
    rw [if_pos hnew, hnew]
    exact Nat.lt_succ_of_le (howner hk)
  · next hnew =>
    rw [if_neg hnew]
    exact h s k hs hk

theorem setParents (h : ds.OwnersFirst K) (c : Symbol) (ps : List Ty) : (ds.setParents c ps).OwnersFirst K := by
  intro s k hs hk
  rw [kind?_setParents] at hs
  rw [owner_setParents]
  exact h s k hs hk

/-- The calls that check an owner look for a class that is there. -/
theorem change (h : ds.OwnersFirst K) (hchange : ds.Change P ds') (hP : K .cls → ∀ o, P o → o.id ≤ ds.size) :
    ds'.OwnersFirst K := by
  cases hchange with
  | same => exact h
  | register _ _ howner => exact h.register fun _ => howner.le_size
  | registerClass _ hkind howner => exact (h.register fun hk => hP (hkind ▸ hk) _ howner).setParents _ _
  | setParents ps => exact h.setParents _ ps

theorem lt_of_mem (h : ds.OwnersFirst K) {q : DeclKind → String → Bool} (hs : s ∈ ds.declaredUnder c q)
    (hK : ∀ k, ds.kind? s = some k → K k) : c.id < s.id := by
  obtain ⟨d, hd, rfl, -⟩ := exists_of_mem_declaredUnder hs
  have hkind : ds.kind? s = some d.kind := congrArg (Option.map _) hd
  rw [← owner_of_get? hd]
  exact h s _ hkind (hK _ hkind)

/-- What is declared after its owner is entered into it. -/
theorem enteredUnder_eq (h : ds.OwnersFirst K) {q : DeclKind → String → Bool} (hq : ∀ k n, q k n → K k) :
    ds.enteredUnder c q = ds.declaredUnder c q :=
  List.filter_eq_self.2 fun s hs => decide_eq_true <| Nat.le_of_lt <| h.lt_of_mem hs fun k hk => by
    obtain ⟨d, hd, -, hpass⟩ := exists_of_mem_declaredUnder hs
    cases (congrArg (Option.map Declaration.kind) hd).symm.trans hk
    exact hq _ _ hpass

/-- If all but classes are declared after their owners, classes alone are not entered into theirs. -/
theorem enteredUnder_eq_filter (h : ds.OwnersFirst (· ≠ .cls)) (c : Symbol) (q : DeclKind → String → Bool) :
    ds.enteredUnder c q = (ds.declaredUnder c q).filter fun s => ds.isClass s → c.id ≤ s.id :=
  List.filter_congr fun s hs => by
    by_cases hclass : ds.isClass s
    · simp [hclass]
    · have hlt := h.lt_of_mem hs fun k hk hcls => hclass (decide_eq_true (hk.trans (congrArg some hcls)))
      simp [hclass, Nat.le_of_lt hlt]

end OwnersFirst

end Declarations

/-! ## Sessions -/

namespace Session

open Declarations

variable {s : Session}

theorem Run.recorded (h : Run .initial s) : s.world.decls.Recorded := by
  induction h with
  | refl => exact recorded_initial
  | tail _ hstep ih => exact ih.change hstep.change

/-- Whatever calls are made, only classes are declared before what owns them. -/
theorem Run.ownersFirst (h : Run .initial s) : s.world.decls.OwnersFirst (· ≠ .cls) := by
  induction h with
  | refl => exact .initial
  | tail _ hstep ih => exact ih.change hstep.change fun hcls => (hcls rfl).elim

theorem HousedRun.ownersFirst (h : HousedRun .initial s) : s.world.decls.OwnersFirst fun _ => True := by
  induction h with
  | refl => exact .initial
  | tail _ hstep ih => exact ih.change hstep.change fun _ _ howner => howner.le_size

/-- **Declarations are atomic and local, and the last one of a name counts.** In every world and for all arguments a
call that declares, or that sets parents, answers; if it is refused, no declaration has changed, and if not, it has
added one symbol and entered it into its owner, or replaced the parents of its class. After any calls the type parameters
of a class are the type parameters declared under it, in the order of declaration, and what it holds under a name is the
symbol declared last under it with that name: a value, or a type, of which the classes that were declared before it are
passed over. If classes are declared at top level or under classes that are registered, there are none of these. -/
theorem declarations_are_local (r : Request) (w : World) :
    r.Lands w ∧ ∀ {opened}, Run .initial ⟨w, opened⟩ → ∀ {c : Symbol}, c ≠ .absent →
      w.decls.typeParams c = (w.decls.declaredUnder c fun kind _ => kind = .typeParam) ∧
      (∀ name, w.decls.member? c name .term =
        (w.decls.declaredUnder c fun kind n => kind.space = .term ∧ n = name).getLast?) ∧
      (∀ name, w.decls.member? c name .type =
        ((w.decls.declaredUnder c fun kind n => kind.space = .type ∧ n = name).filter fun s =>
          w.decls.isClass s → c.id ≤ s.id).getLast?) ∧
      (HousedRun .initial ⟨w, opened⟩ → ∀ name, w.decls.member? c name .type =
        (w.decls.declaredUnder c fun kind n => kind.space = .type ∧ n = name).getLast?) := by
  refine ⟨r.lands w, fun {_} hrun {c} hc => ?_⟩
  have hrecorded : w.decls.Recorded := hrun.recorded
  have howners : w.decls.OwnersFirst (· ≠ .cls) := hrun.ownersFirst
  refine ⟨?_, fun name => ?_, fun name => ?_, fun hhoused name => ?_⟩
  · rw [hrecorded.typeParams hc]
    exact howners.enteredUnder_eq fun k n hk => by simp_all
  · rw [hrecorded.member? hc]
    exact congrArg List.getLast? <| howners.enteredUnder_eq fun k n hk hcls => by simp_all [DeclKind.space]
  · rw [hrecorded.member? hc, howners.enteredUnder_eq_filter]
  · rw [hrecorded.member? hc]
    exact congrArg List.getLast? <| hhoused.ownersFirst.enteredUnder_eq fun _ _ _ => trivial

/-- A class `K`, at `44`, with a type parameter `T` that is declared twice, at `45` and `46`, and a value `T`, at `47`. -/
def redeclaredWorld : World :=
  let register (w : World) (d : Declaration) : World := { w with decls := (w.decls.register d).2 }
  let w := register .initial { kind := .cls, name := "K", owner := .absent, flags := { static := true } }
  let w := { w with decls := w.decls.setParents ⟨44⟩ [Builtin.object.type] }
  let w := register w { kind := .typeParam, name := "T", owner := ⟨44⟩, info := ⟨14⟩ }
  let w := register w { kind := .typeParam, name := "T", owner := ⟨44⟩, variance := .covariant, info := ⟨14⟩ }
  register w { kind := .value, name := "T", owner := ⟨44⟩, info := Builtin.int.type }

/-- Both type parameters are listed, `T` stands for the second one and for the value, which is given no parents. -/
theorem declarations_are_local_redeclared :
    redeclaredWorld.decls.typeParams ⟨44⟩ = [⟨45⟩, ⟨46⟩] ∧
    redeclaredWorld.decls.member? ⟨44⟩ "T" .type = some ⟨46⟩ ∧
    redeclaredWorld.decls.member? ⟨44⟩ "T" .term = some ⟨47⟩ ∧
    ∃ w, (Request.parents ⟨47⟩ []).give redeclaredWorld = .ok (.error (.badSymbol ⟨47⟩), w) ∧
      w.decls = redeclaredWorld.decls := by
  let register (w : World) (d : Declaration) : World := { w with decls := (w.decls.register d).2 }
  let w := register .initial { kind := .cls, name := "K", owner := .absent, flags := { static := true } }
  let w₁ := { w with decls := w.decls.setParents ⟨44⟩ [Builtin.object.type] }
  let w₂ := register w₁ { kind := .typeParam, name := "T", owner := ⟨44⟩, info := ⟨14⟩ }
  let w₃ := register w₂ { kind := .typeParam, name := "T", owner := ⟨44⟩, variance := .covariant, info := ⟨14⟩ }
  have hk : HousedStep .initial ⟨w₁, []⟩ := .request (r := .cls .absent "K" {})
    (fun owner ⟨_, _, h⟩ => .inl (Request.cls.inj h).1.symm) rfl
  have ht : HousedStep ⟨w₁, []⟩ ⟨w₂, []⟩ := .request (r := .typeParam ⟨44⟩ "T" .invariant ⟨14⟩) nofun rfl
  have ht' : HousedStep ⟨w₂, []⟩ ⟨w₃, []⟩ := .request (r := .typeParam ⟨44⟩ "T" .covariant ⟨14⟩) nofun rfl
  have hv : HousedStep ⟨w₃, []⟩ ⟨redeclaredWorld, []⟩ :=
    .request (r := .value ⟨44⟩ "T" Builtin.int.type {}) nofun rfl
  have hrun : HousedRun .initial ⟨redeclaredWorld, []⟩ := .head hk (.head ht (.head ht' (.single hv)))
  obtain ⟨⟨answer, w', hgive, hrefused, -⟩, hread⟩ := declarations_are_local (.parents ⟨47⟩ []) redeclaredWorld
  obtain ⟨hparams, hterm, -, htype⟩ := hread hrun.run (c := ⟨44⟩) (by decide)
  have hanswer : (Request.parents ⟨47⟩ []).give redeclaredWorld =
      .ok (.error (.badSymbol ⟨47⟩), redeclaredWorld) :=
    Request.give_of_run rfl (setParents_badSymbol (by decide) [])
  cases hanswer.symm.trans hgive
  exact ⟨hparams.trans (by decide), (htype hrun _).trans (by decide),
    (hterm _).trans (by decide), _, hgive, hrefused _ rfl⟩

/-- A class `C` is declared under `45`, which is given to the class `D` after that: `C` has `D` for its owner, and no
other type of that name does, but `D` holds nothing under it. -/
theorem class_before_owner : ∃ s, Run .initial s ∧ s.world.decls.isClass ⟨45⟩ ∧
    (s.world.decls.declaredUnder ⟨45⟩ fun kind n => kind.space = .type ∧ n = "C") = [⟨44⟩] ∧
      s.world.decls.member? ⟨45⟩ "C" .type = none := by
  let w : World := { World.initial with decls := (World.initial.decls.register
    { kind := .cls, name := "C", owner := ⟨45⟩ }).2 }
  let w₁ : World := { w with decls := w.decls.setParents ⟨44⟩ [Builtin.object.type] }
  let w₂ : World := { w₁ with decls := (w₁.decls.register
    { kind := .cls, name := "D", owner := .absent, flags := { static := true } }).2 }
  let w₃ : World := { w₂ with decls := w₂.decls.setParents ⟨45⟩ [Builtin.object.type] }
  have hc : Step .initial ⟨w₁, []⟩ := .call (.request (.cls ⟨45⟩ "C" {})) rfl
  have hd : Step ⟨w₁, []⟩ ⟨w₃, []⟩ := .call (.request (.cls .absent "D" {})) rfl
  exact ⟨⟨w₃, []⟩, .head hc (.single hd), by decide, by decide, by decide⟩

end Session

end Conformance
