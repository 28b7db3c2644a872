import Conformance.Proofs.Thorough

/-!
# Inheritance stays acyclic

A world that is declared call by call from the initial one (`World.Declared`), each call with handles from earlier ones,
keeps its inheritance in order: parents were given out, they name nothing that is still to be declared, and no class is
its own ancestor (`World.Ordered`), as long as the searches that look for a cycle meet no limit (`Request.Searched`).
New symbols come without descendants, and setting parents that lead back to the class is refused. A search that meets a
limit answers as if there were no cycle: a chain of 65 classes can be closed (`chain_closed`).
-/

namespace Conformance

open Relation

/-! ## What is stored by the updates -/

namespace Declarations

variable {ds : Declarations} {s t : Symbol} {d : Declaration}

theorem get?_push_eq (ds : Declarations) (d : Declaration) (s : Symbol) :
    get? ⟨ds.entries.push d⟩ s = if s = ⟨ds.size + 1⟩ then some d else ds.get? s := by
  obtain ⟨_ | n⟩ := s
  · simp [get?]
  · simp [get?, size, Array.getElem?_push]

/-- What registering does not change about a declaration can be read off the declaration it was given. -/
theorem map_register {β : Type} (f : Declaration → β) (hf : ∀ d k name s, f (d.enroll k name s) = f d) (s : Symbol) :
    ((ds.register d).2.get? s).map f = if s = ⟨ds.size + 1⟩ then some (f d) else (ds.get? s).map f := by
  have henroll : ∀ x : Option Declaration,
      (x.map (·.enroll d.kind d.name ⟨ds.entries.size + 1⟩)).map f = x.map f := by
    intro x
    cases x <;> simp [hf]
  have hpush : (get? ⟨ds.entries.push d⟩ s).map f =
      if s = ⟨ds.size + 1⟩ then some (f d) else (ds.get? s).map f := by
    rw [get?_push_eq]
    split <;> rfl
  rw [← hpush]
  simp only [register, get?_update]
  split
  · exact henroll _
  · rfl

/-- What setting parents does not change about a declaration can be read off the declaration as it was. -/
theorem map_setParents {β : Type} (f : Declaration → β) (hf : ∀ (d : Declaration) ps, f { d with parents := ps } = f d)
    (ds : Declarations) (s : Symbol) (ps : List Ty) (t : Symbol) :
    ((ds.setParents s ps).get? t).map f = (ds.get? t).map f := by
  rw [setParents, get?_update]
  split
  · rw [Option.map_map]
    exact Option.map_congr fun d _ => hf d ps
  · rfl

theorem parents_register (s : Symbol) :
    (ds.register d).2.parents s = if s = ⟨ds.size + 1⟩ then d.parents else ds.parents s := by
  have hmap : ((ds.register d).2.get? s).map (·.parents) = if s = ⟨ds.size + 1⟩ then some d.parents else _ :=
    map_register (·.parents) (fun d k _ _ => by cases k <;> rfl) s
  rw [parents, hmap]
  split <;> rfl

theorem kind?_register (s : Symbol) :
    (ds.register d).2.kind? s = if s = ⟨ds.size + 1⟩ then some d.kind else ds.kind? s :=
  map_register (·.kind) (fun d k _ _ => by cases k <;> rfl) s

theorem kind?_setParents (ps : List Ty) (t : Symbol) : (ds.setParents s ps).kind? t = ds.kind? t :=
  map_setParents (·.kind) (fun _ _ => rfl) ds s ps t

theorem parents_setParents (ps : List Ty) (h : (ds.kind? s).isSome) (t : Symbol) :
    (ds.setParents s ps).parents t = if t = s then ps else ds.parents t := by
  rw [parents, setParents, get?_update]
  split
  · next ht =>
    subst ht
    obtain ⟨k, hk⟩ := Option.isSome_iff_exists.1 h
    obtain ⟨d, hd, -⟩ := Option.map_eq_some_iff.1 hk
    rw [hd]
    rfl
  · rfl

/-- The next symbol is not in use. -/
theorem kind?_next (ds : Declarations) : ds.kind? ⟨ds.size + 1⟩ = none := by
  simp [kind?, get?, size]

end Declarations

/-! ## Inheritance in order -/

/-- A relation that differs from an acyclic one only in what it relates `c` to is acyclic, if nothing of that leads back
to `c`. -/
theorem acyclic_of_redirect {α : Type} {R S : α → α → Prop} {c : α} (hR : ∀ a, ¬ TransGen R a a)
    (hS : ∀ {a b}, S a b → a ≠ c → R a b) (hback : ∀ {b}, S c b → ¬ ReflTransGen R b c) (a : α) : ¬ TransGen S a a := by
  -- a way that is none of the old relation passes `c`
  have hway : ∀ {a b}, ReflTransGen S a b →
      ReflTransGen R a b ∨ (ReflTransGen R a c ∧ ReflTransGen S a c ∧ ReflTransGen S c b) := by
    intro a b hab
    induction hab using ReflTransGen.head_induction_on with
    | refl => exact .inl .refl
    | @head a d had hdb ih =>
      by_cases hac : a = c
      · subst hac
        exact .inr ⟨.refl, .refl, .head had hdb⟩
      · rcases ih with ih | ⟨ih, ih', hb⟩
        · exact .inl (.head (hS had hac) ih)
        · exact .inr ⟨.head (hS had hac) ih, .head had ih', hb⟩
  have hcycle : ¬ TransGen S c c := by
    intro hc
    obtain ⟨b, hcb, hbc⟩ := TransGen.head'_iff.1 hc
    rcases hway hbc with hbc | ⟨hbc, -⟩ <;> exact hback hcb hbc
  intro ha
  obtain ⟨b, hab, hba⟩ := TransGen.head'_iff.1 ha
  by_cases hac : a = c
  · exact hcycle (hac ▸ ha)
  · rcases hway hba with hba | ⟨-, hbc, hca⟩
    · exact hR a (.head' (hS hab hac) hba)
    · exact hcycle (TransGen.trans_right hca (.head' hab hbc))

namespace World

variable {w v : World} {cls s s' : Symbol} {ps : List Ty}

theorem kind?_of_isClass (h : w.decls.isClass s) : (w.decls.kind? s).isSome := by
  rw [show w.decls.kind? s = some .cls by simpa [Declarations.isClass] using h]
  rfl

/-- The type was given out and, if it is a reference, so was the symbol that it refers to. -/
def knows (w : World) (t : Ty) : Bool :=
  match w.shape? t with
  | none => false
  | some (.named _ s) => (w.decls.kind? s).isSome
  | some _ => true

theorem has_of_knows {t : Ty} (h : w.knows t) : w.Has t := by
  unfold knows at h
  unfold Has
  split at h
  · cases h
  all_goals next hshape => simp [hshape]

theorem kind?_of_knows {t pre : Ty} (h : w.knows t) (ht : w.shape? t = some (.named pre s)) :
    (w.decls.kind? s).isSome := by
  simpa only [knows, ht] using h

theorem knows_builtin (hw : w.Standard) (b : Builtin) : w.knows b.type := by
  simp only [knows, hw.shape b]
  exact kind?_of_isClass (hw.isClass b)

/-- Inheritance is in order: what the parents of a class refer to was declared, and nothing is its own ancestor. -/
structure Ordered (w : World) : Prop where
  standard : w.Standard
  has : ∀ {s t}, t ∈ w.decls.parents s → w.Has t
  declared : ∀ {s s'}, w.Parent s s' → (w.decls.kind? s').isSome
  isClass : ∀ {s s'}, w.Parent s s' → w.decls.isClass s
  acyclic : ∀ s, ¬ TransGen w.Parent s s

namespace Ordered

/-- Types that are added do not make new parents. -/
theorem build (h : w.Ordered) (hshape : ∀ t d, w.shape? t = some d → v.shape? t = some d) (hdecls : v.decls = w.decls) :
    v.Ordered := by
  have hparent : ∀ {s s'}, v.Parent s s' → w.Parent s s' := by
    rintro s s' ⟨t, ht, pre, hpre⟩
    rw [hdecls] at ht
    obtain ⟨d, hd⟩ := Option.isSome_iff_exists.1 (h.has ht)
    exact ⟨t, ht, pre, hd.trans ((hshape t d hd).symm.trans hpre)⟩
  refine ⟨⟨hshape _ _ h.standard.absent, fun b => hshape _ _ (h.standard.shape b), ?_⟩, fun {s t} ht => ?_, ?_, ?_, ?_⟩
  · rw [hdecls]
    exact h.standard.declared
  · rw [hdecls] at ht
    obtain ⟨d, hd⟩ := Option.isSome_iff_exists.1 (h.has ht)
    exact Option.isSome_iff_exists.2 ⟨d, hshape t d hd⟩
  · intro s s' hs
    rw [hdecls]
    exact h.declared (hparent hs)
  · intro s s' hs
    rw [hdecls]
    exact h.isClass (hparent hs)
  · exact fun s hs => h.acyclic s (TransGen.mono (fun _ _ => hparent) s s hs)

/-- A new symbol, which nothing has for a parent, is on no cycle. -/
theorem add (h : w.Ordered) {ds : Declarations} {new : Symbol} {k : DeclKind} (hstd : Standard { w with decls := ds })
    (hnew : w.decls.kind? new = none) (hkind : ∀ s, ds.kind? s = if s = new then some k else w.decls.kind? s)
    (hparents : ∀ s, ds.parents s = if s = new then ps else w.decls.parents s)
    (hps : ∀ t ∈ ps, k = .cls ∧ t = Builtin.object.type) : Ordered { w with decls := ds } := by
  let v : World := { w with decls := ds }
  have hne : ∀ {s}, (w.decls.kind? s).isSome → s ≠ new := by
    rintro _ hs rfl
    rw [hnew] at hs
    cases hs
  have hobject := h.standard.shape .object
  have hparent : ∀ {s s'}, v.Parent s s' →
      (s = new ∧ s' = Builtin.object.symbol ∧ k = .cls) ∨ (s ≠ new ∧ w.Parent s s') := by
    rintro s s' ⟨t, ht, pre, hpre⟩
    rw [hparents] at ht
    split at ht
    · next hs =>
      obtain ⟨hk, rfl⟩ := hps t ht
      cases hobject.symm.trans hpre
      exact .inl ⟨hs, rfl, hk⟩
    · next hs => exact .inr ⟨hs, t, ht, pre, hpre⟩
  have hold : ∀ {s s'}, v.Parent s s' → (w.decls.kind? s').isSome := by
    intro s s' hs
    rcases hparent hs with ⟨-, rfl, -⟩ | ⟨-, hs⟩
    · exact kind?_of_isClass (h.standard.isClass .object)
    · exact h.declared hs
  refine ⟨hstd, fun {s t} ht => ?_, fun {s s'} hs => ?_, fun {s s'} hs => ?_, fun s hs => ?_⟩
  · rw [hparents] at ht
    split at ht
    · rw [(hps t ht).2]
      exact Option.isSome_iff_exists.2 ⟨_, hobject⟩
    · exact h.has ht
  · rw [hkind, if_neg (hne (hold hs))]
    exact hold hs
  · rw [Declarations.isClass, hkind]
    rcases hparent hs with ⟨rfl, -, hcls⟩ | ⟨hs', hs⟩
    · simp [hcls]
    · rw [if_neg hs']
      exact h.isClass hs
  · refine acyclic_of_redirect h.acyclic (fun hp hne => ((hparent hp).resolve_left fun hp => hne hp.1).2) ?_ s hs
    -- what leads to the new symbol is the symbol itself
    intro b hb hback
    have hnone : ∀ {a}, ¬ w.Parent a new := fun ha => hne (h.declared ha) rfl
    rcases hback.cases_tail with heq | ⟨_, -, hlast⟩
    · exact hne (hold hb) heq.symm
    · exact hnone hlast

theorem register (h : w.Ordered) {d : Declaration} (hd : d.parents = []) :
    Ordered { w with decls := (w.decls.register d).2 } := by
  refine h.add (h.standard.register d) w.decls.kind?_next Declarations.kind?_register
    Declarations.parents_register fun t ht => ?_
  rw [hd] at ht
  cases ht

/-- A class that is declared starts out under the root class. -/
theorem registerClass (h : w.Ordered) {d : Declaration} (hd : d.kind = .cls) :
    Ordered { w with decls := (w.decls.register d).2.setParents (w.decls.register d).1 [Builtin.object.type] } := by
  have hclass : ((w.decls.register d).2.kind? (w.decls.register d).1).isSome := by
    rw [Declarations.kind?_register, Declarations.register_fst, if_pos rfl]
    rfl
  have hobject : ∀ t ∈ [Builtin.object.type], d.kind = .cls ∧ t = Builtin.object.type :=
    fun t ht => ⟨hd, List.mem_singleton.1 ht⟩
  refine h.add ((h.standard.register d).setParents _ _) w.decls.kind?_next
    (fun s => (Declarations.kind?_setParents _ s).trans (Declarations.kind?_register s)) (fun s => ?_) hobject
  rw [Declarations.parents_setParents _ hclass, Declarations.parents_register, Declarations.register_fst]
  split <;> rfl

/-- Parents that do not lead back to the class leave nothing its own ancestor. -/
theorem setParents (h : w.Ordered) (hcls : w.decls.isClass cls)
    (hps : ∀ t ∈ ps, w.knows t)
    (hback : ∀ t ∈ ps, ∀ {pre s}, w.shape? t = some (.named pre s) → ¬ w.Derives s cls) :
    Ordered { w with decls := w.decls.setParents cls ps } := by
  let v : World := { w with decls := w.decls.setParents cls ps }
  have hparents : ∀ s, v.decls.parents s = if s = cls then ps else w.decls.parents s :=
    Declarations.parents_setParents ps (kind?_of_isClass hcls)
  have hkind : ∀ s, v.decls.kind? s = w.decls.kind? s := Declarations.kind?_setParents ps
  have hparent : ∀ {s s'}, v.Parent s s' →
      (s = cls ∧ ∃ t ∈ ps, ∃ pre, w.shape? t = some (.named pre s')) ∨ (s ≠ cls ∧ w.Parent s s') := by
    rintro s s' ⟨t, ht, pre, hpre⟩
    rw [hparents] at ht
    split at ht
    · next hs => exact .inl ⟨hs, t, ht, pre, hpre⟩
    · next hs => exact .inr ⟨hs, t, ht, pre, hpre⟩
  refine ⟨h.standard.setParents cls ps, fun {s t} ht => ?_, fun {s s'} hs => ?_, fun {s s'} hs => ?_, fun s hs => ?_⟩
  · rw [hparents] at ht
    split at ht
    · exact has_of_knows (w := w) (hps t ht)
    · exact h.has ht
  · rw [hkind]
    rcases hparent hs with ⟨-, t, ht, pre, hpre⟩ | ⟨-, hs⟩
    · exact kind?_of_knows (hps t ht) hpre
    · exact h.declared hs
  · rw [Declarations.isClass, hkind]
    rcases hparent hs with ⟨rfl, -⟩ | ⟨-, hs⟩
    · exact hcls
    · exact h.isClass hs
  · refine acyclic_of_redirect h.acyclic (fun hp hne => ((hparent hp).resolve_left fun hp => hne hp.1).2) ?_ s hs
    intro b hb hleads
    rcases hparent hb with ⟨-, t, ht, pre, hpre⟩ | ⟨hne, -⟩
    · exact hback t ht hpre hleads
    · exact hne rfl

end Ordered

end World

/-! ## Calls -/

/-- A call that declares a symbol or sets the parents of a class. -/
inductive Request where
  | cls (owner : Symbol) (name : String) (flags : DeclFlags)
  | typeParam (owner : Symbol) (name : String) (variance : Variance) (bounds : Ty)
  | abstractType (owner : Symbol) (name : String) (bounds : Ty)
  | synonym (owner : Symbol) (name : String) (aliased : Ty)
  | value (owner : Symbol) (name : String) (t : Ty) (flags : DeclFlags)
  | parents (s : Symbol) (ps : List Ty)

namespace Request

/-- What the call does; the symbol that it gives out is the next one. -/
def run : Request → BuildM Unit
  | .cls owner name flags => do let _ ← declareClass owner name flags
  | .typeParam owner name variance bounds => do let _ ← declareTypeParam owner name variance bounds
  | .abstractType owner name bounds => do let _ ← declareAbstractType owner name bounds
  | .synonym owner name aliased => do let _ ← declareAlias owner name aliased
  | .value owner name t flags => do let _ ← declareValue owner name t flags
  | .parents s ps => setParents s ps

/-- The parents that the call is given come from earlier calls, and so do the symbols that they refer to. -/
def Known (w : World) : Request → Prop
  | .parents _ ps => ∀ t ∈ ps, w.knows t
  | _ => True

/-- The searches for the class among its new ancestors meet no limit. -/
def Searched (w : World) : Request → Prop
  | .parents s ps => World.searchesFully s (effectiveParents s ps) w = true
  | _ => True

instance (w : World) : DecidablePred (Known w)
  | .parents _ _ => inferInstanceAs (Decidable (∀ t ∈ _, _))
  | .cls .. | .typeParam .. | .abstractType .. | .synonym .. | .value .. => inferInstanceAs (Decidable True)

instance (w : World) : DecidablePred (Searched w)
  | .parents _ _ => inferInstanceAs (Decidable (_ = true))
  | .cls .. | .typeParam .. | .abstractType .. | .synonym .. | .value .. => inferInstanceAs (Decidable True)

end Request

section Runs

variable {w v : World} {α : Type}

/-- A check passes or refuses, and changes nothing. -/
def Checks (x : BuildM Unit) : Prop := ∀ w, x w = .ok (.ok ⟨⟩, w) ∨ ∃ e, x w = .ok (.error e, w)

theorem checks_of_refusal (p : World → Prop) [DecidablePred p] (e : BuildError) :
    Checks (do if p (← get) then throw e) := by
  intro w
  show (if p w then throw e else pure ⟨⟩ : BuildM Unit) w = _ ∨
    ∃ e', (if p w then throw e else pure ⟨⟩ : BuildM Unit) w = _
  split
  · exact .inr ⟨e, rfl⟩
  · exact .inl rfl

theorem checks_expectOwner (owner : Symbol) : Checks owner.expectOwner :=
  checks_of_refusal (fun w => owner ≠ .absent ∧ !w.decls.isClass owner) _

theorem checks_expectClass (cls : Symbol) : Checks cls.expectClass :=
  checks_of_refusal (fun w => !w.decls.isClass cls) _

theorem checks_expectBounds (t : Ty) : Checks t.expectBounds :=
  checks_of_refusal (fun w => (w.boundsParts? t).isNone) _

/-- After a check comes the rest, or a refusal. -/
theorem Checks.bind_run {x : BuildM Unit} (hx : Checks x) (m : BuildM α) (w : World) :
    (x >>= fun _ => m) w = m w ∨ ∃ e, (x >>= fun _ => m) w = .ok (.error e, w) := by
  rcases hx w with h | ⟨e, h⟩
  · refine .inl ?_
    show Except.bind (x w) _ = _
    rw [h]
    rfl
  · refine .inr ⟨e, ?_⟩
    show Except.bind (x w) _ = _
    rw [h]
    rfl

theorem Checks.bind_run₂ {x y : BuildM Unit} (hx : Checks x) (hy : Checks y) (m : BuildM α) (w : World) :
    (do x; y; m) w = m w ∨ ∃ e, (do x; y; m) w = .ok (.error e, w) := by
  rcases hx.bind_run (do y; m) w with h | h
  · rw [h]
    exact hy.bind_run m w
  · exact .inr h

end Runs

namespace World

variable {w v : World} {r : Request} {a : Except BuildError Unit}

/-- A call that registers a declaration without parents after its checks keeps inheritance in order. -/
theorem Ordered.of_checks (h : w.Ordered) {m : BuildM Symbol} {d : Declaration} (hd : d.parents = [])
    (hm : m w = (liftM (WorldM.register d) : BuildM Symbol) w ∨ ∃ e, m w = .ok (.error e, w))
    (hr : (do let _ ← m : BuildM Unit) w = .ok (a, v)) : v.Ordered := by
  change Except.bind (m w) _ = _ at hr
  rcases hm with hm | ⟨e, hm⟩
  · rw [hm] at hr
    cases hr
    exact h.register hd
  · rw [hm] at hr
    cases hr
    exact h

/-- With no parents given the class is under the root class. -/
theorem Ordered.known_effectiveParents {s : Symbol} {ps : List Ty} (h : w.Ordered)
    (hknown : (Request.parents s ps).Known w) : (Request.parents s (effectiveParents s ps)).Known w := by
  unfold effectiveParents
  split
  · intro t ht
    obtain rfl := List.mem_singleton.1 ht
    exact knows_builtin h.standard .object
  · exact hknown

/-- **One call keeps inheritance in order.** -/
theorem Ordered.request (h : w.Ordered) (hknown : r.Known w) (hsearched : r.Searched w) (hr : r.run w = .ok (a, v)) :
    v.Ordered := by
  cases r with
  | cls owner name flags =>
    cases hr
    exact h.registerClass rfl
  | typeParam owner name variance bounds =>
    have hrun := (checks_expectClass owner).bind_run₂ (checks_expectBounds bounds)
      (liftM (WorldM.register { kind := .typeParam, name, owner, variance, info := bounds })) w
    exact h.of_checks rfl hrun hr
  | abstractType owner name bounds =>
    have hrun := (checks_expectOwner owner).bind_run₂ (checks_expectBounds bounds)
      (liftM (WorldM.register
        { kind := .abstractType, name, owner, flags := DeclFlags.under {} owner, info := bounds })) w
    exact h.of_checks rfl hrun hr
  | synonym owner name aliased =>
    have hrun := (checks_expectOwner owner).bind_run
      (liftM (WorldM.register { kind := .synonym, name, owner, flags := DeclFlags.under {} owner, info := aliased })) w
    exact h.of_checks rfl hrun hr
  | value owner name t flags =>
    have hrun := (checks_expectOwner owner).bind_run
      (liftM (WorldM.register { kind := .value, name, owner, flags := flags.under owner, info := t })) w
    exact h.of_checks rfl hrun hr
  | parents s ps =>
    change Conformance.setParents s ps w = _ at hr
    by_cases hcls : w.decls.isClass s
    · obtain ⟨u, hu, hrun | ⟨hrun, hback⟩⟩ := setParents_run h.standard hcls ps
      · cases hr.symm.trans hrun
        exact h.build (fun _ _ => hu.shape) hu.decls
      · cases hr.symm.trans hrun
        have hordered := h.setParents hcls (h.known_effectiveParents hknown)
          fun t ht _ _ hshape hderives => hback hsearched t ht (.of_derives h.isClass hderives hshape)
        exact hordered.build (fun _ _ => hu.shape) (by rw [hu.decls])
    · cases hr.symm.trans (setParents_badSymbol hcls ps)
      exact h

/-- Worlds that are declared call by call from the initial one. Types may be built at any time; the parents that a call
is given come from earlier ones, and `P` holds of it where it is made. -/
inductive Declared (P : World → Request → Prop) : World → Prop
  | initial : Declared P .initial
  | build {w v : World} (h : Declared P w) (hshape : ∀ t d, w.shape? t = some d → v.shape? t = some d)
    (hdecls : v.decls = w.decls) : Declared P v
  | request {w v : World} {r : Request} {a : Except BuildError Unit} (h : Declared P w) (hknown : r.Known w)
    (hP : P w r) (hr : r.run w = .ok (a, v)) : Declared P v

/-- At the start every parent is a class that was declared before. -/
theorem ordered_initial : initial.Ordered := by
  have hall : ∀ n < initial.decls.size, ∀ t ∈ initial.decls.parents ⟨n + 1⟩, ∃ i < n + 1,
      initial.shape? t = some (.named .noPrefix ⟨i⟩) ∧ (initial.decls.kind? ⟨i⟩).isSome ∧
        initial.decls.isClass ⟨n + 1⟩ := by
    decide
  have hparent : ∀ {s t}, t ∈ initial.decls.parents s → ∃ s', initial.shape? t = some (.named .noPrefix s') ∧
      s'.id < s.id ∧ (initial.decls.kind? s').isSome ∧ initial.decls.isClass s := by
    rintro ⟨_ | n⟩ t ht
    · cases ht
    · have hn : n < initial.decls.size := by
        by_contra hn
        have hnone : initial.decls.get? ⟨n + 1⟩ = none := Array.getElem?_eq_none (Nat.le_of_not_lt hn)
        rw [Declarations.parents, hnone] at ht
        cases ht
      obtain ⟨i, hi, hshape, h⟩ := hall n hn t ht
      exact ⟨⟨i⟩, hshape, hi, h⟩
  have hdown : ∀ {s s'}, initial.Parent s s' →
      s'.id < s.id ∧ (initial.decls.kind? s').isSome ∧ initial.decls.isClass s := by
    rintro s s' ⟨t, ht, pre, hshape⟩
    obtain ⟨s'', hshape', h⟩ := hparent ht
    cases hshape.symm.trans hshape'
    exact h
  refine ⟨standard_initial, fun {s t} ht => ?_, fun hs => (hdown hs).2.1, fun hs => (hdown hs).2.2, fun s hs => ?_⟩
  · obtain ⟨s', hshape, -⟩ := hparent ht
    exact Option.isSome_iff_exists.2 ⟨_, hshape⟩
  · have hlt : ∀ {a b}, TransGen initial.Parent a b → b.id < a.id := by
      intro a b hab
      induction hab with
      | single hab => exact (hdown hab).1
      | tail _ hbc ih => exact Nat.lt_trans (hdown hbc).1 ih
    exact Nat.lt_irrefl _ (hlt hs)

/-- Calls whose searches meet no limit keep inheritance in order. -/
theorem Declared.ordered (h : w.Declared fun w r => r.Searched w) : w.Ordered := by
  induction h with
  | initial => exact ordered_initial
  | build _ hshape hdecls ih => exact ih.build hshape hdecls
  | request _ hknown hsearched hr ih => exact ih.request hknown hsearched hr

/-! ### Calls one after the other -/

variable {P : World → Request → Prop}

/-- The world with references to the symbols. -/
def referring (w : World) (ss : List Symbol) : World :=
  ss.foldl (fun w s => { w with types := (w.types.intern (.named .noPrefix s)).2 }) w

theorem Declared.referring (h : w.Declared P) (ss : List Symbol) : (w.referring ss).Declared P := by
  induction ss generalizing w with
  | nil => exact h
  | cons s ss ih =>
    exact ih (.build h (fun _ _ => TypeTable.shape?_intern_of_shape? _) rfl)

variable [∀ w r, Decidable (P w r)]

/-- The world after calls that are known, pass `P` and are not refused. -/
def after (P : World → Request → Prop) [∀ w r, Decidable (P w r)] : World → List Request → Option World
  | w, [] => some w
  | w, r :: rs =>
    match r.run w with
    | .ok (.ok _, v) => if r.Known w ∧ P w r then after P v rs else none
    | _ => none

theorem Declared.after {rs : List Request} (h : w.Declared P) (hv : w.after P rs = some v) : v.Declared P := by
  induction rs generalizing w with
  | nil =>
    cases hv
    exact h
  | cons r rs ih =>
    simp only [World.after] at hv
    split at hv
    · next hr =>
      split at hv
      · next hknown => exact ih (.request h hknown.1 hknown.2 hr) hv
      · cases hv
    · cases hv

/-! ### Chains -/

/-- The class at place `i` of a chain. -/
def link (i : Nat) : Symbol := ⟨44 + i⟩

/-- The reference to that class. -/
def linkRef (i : Nat) : Ty := ⟨15 + i⟩

/-- The world with `n + 1` classes, each of them but the first under the one before. -/
def chained (P : World → Request → Prop) [∀ w r, Decidable (P w r)] (n : Nat) : Option World := do
  let w ← initial.after P ((List.range (n + 1)).map fun i => .cls .absent ("C" ++ toString i) {})
  let w := w.referring ((List.range (n + 1)).map link)
  w.after P ((List.range n).reverse.map fun i => .parents (link (i + 1)) [linkRef i])

/-- Each class of the chain but the first is under the one before. -/
def isChain (n : Nat) (w : World) : Bool :=
  ((List.range n).all fun i => w.decls.parents (link (i + 1)) = [linkRef i]) &&
    (List.range (n + 1)).all fun i => w.shape? (linkRef i) = some (.named .noPrefix (link i))

/-- The first class of the chain is under the last one as well. -/
def isClosed (n : Nat) (w : World) : Bool := isChain n w && w.decls.parents (link 0) = [linkRef n]

theorem Declared.chained {n : Nat} (h : World.chained P n = some w) : w.Declared P := by
  simp only [World.chained, Option.bind_eq_bind, Option.bind_eq_some_iff] at h
  obtain ⟨v, hv, hw⟩ := h
  exact ((Declared.initial.after hv).referring _).after hw

theorem shape_linkRef {n i : Nat} (h : isChain n w) (hi : i ≤ n) :
    w.shape? (linkRef i) = some (.named .noPrefix (link i)) := by
  simp only [isChain, List.all_eq_true, List.mem_range, Bool.and_eq_true, decide_eq_true_eq] at h
  exact h.2 i (Nat.lt_succ_of_le hi)

theorem derives_of_isChain {n i : Nat} (h : isChain n w) (hi : i ≤ n) : w.Derives (link i) (link 0) := by
  induction i with
  | zero => exact .refl
  | succ i ih =>
    have hshape := shape_linkRef h (Nat.le_of_succ_le hi)
    simp only [isChain, List.all_eq_true, List.mem_range, Bool.and_eq_true, decide_eq_true_eq] at h
    have hparents := h.1 i hi
    exact .head ⟨_, by rw [hparents]; exact List.mem_singleton_self _, _, hshape⟩ (ih (Nat.le_of_succ_le hi))

theorem cycle_of_isClosed {n : Nat} (h : isClosed n w) : TransGen w.Parent (link 0) (link 0) := by
  simp only [isClosed, Bool.and_eq_true, decide_eq_true_eq] at h
  obtain ⟨hchain, hfirst⟩ := h
  have hshape := shape_linkRef hchain (Nat.le_refl n)
  exact .head' ⟨_, by rw [hfirst]; exact List.mem_singleton_self _, _, hshape⟩
    (derives_of_isChain hchain (Nat.le_refl n))

/-- The value that passes a test. -/
def passing {α : Type} {o : Option α} {p : α → Bool} (h : o.any p = true) : { a : α // o = some a ∧ p a = true } :=
  match o, h with
  | some a, h => ⟨a, rfl, h⟩

theorem exists_of_any {o : Option World} {p : World → Bool} (h : o.any p = true) : ∃ w, o = some w ∧ p w = true :=
  ⟨(passing h).1, (passing h).2⟩

/-- **Inheritance stays acyclic.** In a world that is declared by calls whose searches meet no limit nothing is its own
ancestor, and parents that would make something so, and whose searches meet no limit, are refused with no declaration
changed. -/
theorem inheritance_acyclic (h : w.Declared fun w r => r.Searched w) :
    (∀ s, ¬ TransGen w.Parent s s) ∧
      ∀ cls ps, w.decls.isClass cls → (Request.parents cls ps).Known w → (Request.parents cls ps).Searched w →
        (∃ s, TransGen (World.Parent { w with decls := w.decls.setParents cls (effectiveParents cls ps) }) s s) →
          ∃ v, Conformance.setParents cls ps w = .ok (.error (.cyclicInheritance cls), v) ∧ v.decls = w.decls := by
  have hw := h.ordered
  refine ⟨hw.acyclic, fun cls ps hcls hknown hsearched ⟨s, hs⟩ => ?_⟩
  obtain ⟨v, hv, hrun | ⟨-, hback⟩⟩ := setParents_run hw.standard hcls ps
  · exact ⟨v, hrun, hv.decls⟩
  · have hordered := hw.setParents hcls (hw.known_effectiveParents hknown)
      fun t ht _ _ hshape hderives => hback hsearched t ht (.of_derives hw.isClass hderives hshape)
    exact absurd hs (hordered.acyclic s)

/-- Two classes: with the second one under the first one, the first one is not put under the second one. -/
theorem inheritance_acyclic_pair : ∃ w : World, w.Declared (fun w r => r.Searched w) ∧
    ∃ v, Conformance.setParents (link 0) [linkRef 1] w = .ok (.error (.cyclicInheritance (link 0)), v) ∧
      v.decls = w.decls := by
  have hcheck : (chained (fun w r => r.Searched w) 1).any (fun w => decide (w.decls.isClass (link 0) ∧
      (Request.parents (link 0) [linkRef 1]).Known w ∧ (Request.parents (link 0) [linkRef 1]).Searched w) &&
      isClosed 1 { w with decls := w.decls.setParents (link 0) (effectiveParents (link 0) [linkRef 1]) }) = true := by
    decide
  obtain ⟨w, hw, hcheck⟩ := exists_of_any hcheck
  simp only [Bool.and_eq_true, decide_eq_true_eq] at hcheck
  obtain ⟨⟨hcls, hknown, hsearched⟩, hclosed⟩ := hcheck
  have hdeclared := Declared.chained hw
  exact ⟨w, hdeclared, (inheritance_acyclic hdeclared).2 _ _ hcls hknown hsearched ⟨_, cycle_of_isClosed hclosed⟩⟩

/-- A chain of 65 classes, with the parents that close it. -/
def closedChain : { w : World //
    (chained (fun _ _ => True) 64).bind (·.after (fun _ _ => True) [.parents (link 0) [linkRef 64]]) = some w ∧
      isClosed 64 w = true } :=
  passing (by decide +kernel)

/-- A chain of 65 classes can be closed: the search from the last class to the first one is cut one level short. -/
theorem chain_closed : ∃ w : World, w.Declared (fun _ _ => True) ∧ ∃ s, TransGen w.Parent s s := by
  obtain ⟨w, hw, hclosed⟩ := closedChain
  obtain ⟨v, hv, hw⟩ := Option.bind_eq_some_iff.1 hw
  exact ⟨w, (Declared.chained hv).after hw, _, cycle_of_isClosed hclosed⟩

end World

end Conformance
