import Conformance.Proofs.Ascent
import Conformance.Proofs.Hierarchy

/-!
# Lineages

A lineage is a region of references to classes, bare or under refinements, in which nothing lies above itself. There the
search for a base type goes up: it finds the reference at the end of the first chain that ends at the class, under
refinements from that chain (`Lineage.baseType_run`).
-/

namespace Conformance

open Relation CompareM

namespace World

variable {w v : World} {t u base : Ty} {cls s : Symbol} {k : Nat}

/-- What a search goes on to from `t`: the parents of the class that `t` refers to, or what `t` refines. -/
def above (w : World) (t : Ty) : List Ty :=
  match w.shape t with
  | .named _ s => w.decls.parents s
  | .refined parent _ _ => [parent]
  | _ => []

theorem above_named {pre : Ty} (ht : w.shape? t = some (.named pre s)) : w.above t = w.decls.parents s := by
  rw [above, shape_of_shape? ht]

theorem above_refined {parent info : Ty} {name : String} (ht : w.shape? t = some (.refined parent name info)) :
    w.above t = [parent] := by
  rw [above, shape_of_shape? ht]

/-- The types in `D` are references to classes, bare or under refinements, and so is all above them; nothing lies above
itself. -/
structure Lineage (w : World) (D : Ty → Prop) : Prop where
  shape : ∀ {t}, D t → (∃ pre s, w.shape? t = some (.named pre s) ∧ w.decls.isClass s) ∨
    ∃ parent name info, w.shape? t = some (.refined parent name info)
  closed : ∀ {t u}, D t → u ∈ w.above t → D u
  acyclic : ∀ {t}, D t → ¬ TransGen (fun a b => b ∈ w.above a) t t

/-- Whether `t` is a bare reference to `cls`. -/
def refersTo (w : World) (cls : Symbol) (t : Ty) : Bool :=
  match w.shape t with
  | .named _ s => s = cls
  | _ => false

theorem refersTo_named {pre : Ty} (ht : w.shape? t = some (.named pre s)) : w.refersTo cls t = decide (s = cls) := by
  rw [refersTo, shape_of_shape? ht]

theorem refersTo_refined {parent info : Ty} {name : String} (ht : w.shape? t = some (.refined parent name info)) :
    w.refersTo cls t = false := by
  rw [refersTo, shape_of_shape? ht]

/-- The type is `u` under `k` refinements of types that `cls` declares. -/
inductive Dressed (w : World) (cls : Symbol) (u : Ty) : Nat → Ty → Prop
  | bare : Dressed w cls u 0 u
  | refined {k : Nat} {t base info : Ty} {name : String} (h : Dressed w cls u k base)
    (ht : w.shape? t = some (.refined base name info)) (hname : w.declaresType cls name) : Dressed w cls u (k + 1) t

theorem Dressed.grow (h : w.Dressed cls u k t) (hv : w ≤ v) : v.Dressed cls u k t := by
  induction h with
  | bare => exact .bare
  | refined _ ht hname ih =>
    refine .refined ih (hv.shape ht) ?_
    rw [declaresType, hv.decls]
    exact hname

/-- Whether the type is refined. -/
def isRefined (w : World) (t : Ty) : Bool :=
  match w.shape t with
  | .refined .. => true
  | _ => false

/-- What the search for the base type at `cls` makes of a chain: the end of the chain, which refers to the class, under
refinements of types on the chain. -/
def Based (w : World) (cls : Symbol) (c : List Ty) (base : Ty) (v : World) : Prop :=
  ∃ u pre k, c.getLast? = some u ∧ w.shape? u = some (.named pre cls) ∧ k ≤ c.countP w.isRefined ∧
    v.Dressed cls u k base

theorem Based.cons {c : List Ty} (h : w.Based cls c base v) (t : Ty) : w.Based cls (t :: c) base v := by
  obtain ⟨u, pre, k, hu, hpre, hk, hbase⟩ := h
  refine ⟨u, pre, k, by rw [List.getLast?_cons, hu]; rfl, hpre, Nat.le_trans hk ?_, hbase⟩
  rw [List.countP_cons]
  exact Nat.le_add_right _ _

/-- At a chain that starts with a refinement there is room for one more. -/
theorem Based.refined {c : List Ty} {parent info base' : Ty} {name : String} {v' : World} (h : w.Based cls c base v)
    (hv : v ≤ v') (ht : w.shape? t = some (.refined parent name info))
    (hbase : v'.shape? base' = some (.refined base name info)) (hname : v'.declaresType cls name) :
    w.Based cls (t :: c) base' v' := by
  obtain ⟨u, pre, k, hu, hpre, hk, hdressed⟩ := h
  have hrefined : w.isRefined t = true := by rw [isRefined, shape_of_shape? ht]
  refine ⟨u, pre, k + 1, by rw [List.getLast?_cons, hu]; rfl, hpre, ?_, .refined (hdressed.grow hv) hbase hname⟩
  rw [List.countP_cons_of_pos hrefined]
  exact Nat.succ_le_succ hk

/-! ## Base types -/

section

variable {next : Ty → WalkM Ty} {g : Guard Ty} {pre parent info : Ty} {name : String}

theorem baseType_step_named (ht : w.shape? t = some (.named pre s)) (hs : w.decls.isClass s) :
    BaseType.step cls next t g w =
      (if s = cls then return t else Walk.firstPresent next (w.decls.parents s) : WalkM Ty) g w := by
  rw [BaseType.step, Walk.run_world_bind, shape_of_shape? ht]
  dsimp only
  rw [if_pos hs]

theorem baseType_step_refined (ht : w.shape? t = some (.refined parent name info)) :
    BaseType.step cls next t g w = (do
      let base ← next parent
      if base.present && w.declaresType cls name then Ty.refined base name info else return base : WalkM Ty) g w := by
  rw [BaseType.step, Walk.run_world_bind, shape_of_shape? ht]

/-- What is found above a refinement is refined, if the class declares the name. -/
theorem searches_refined {ks : List Ty} {e : Nat} {l : List (List Ty)} (hw : w.Standard) (hv : w ≤ v)
    (ht : w.shape? t = some (.refined parent name info))
    (h : Searches (w.refersTo cls) (w.Based cls) ks e l v (next parent)) :
    Searches (w.refersTo cls) (fun c => w.Based cls (t :: c)) ks e l v (BaseType.step cls next t) := by
  have hwrap : Searches (w.refersTo cls) (fun c => w.Based cls (t :: c)) ks e l v (do
      let base ← next parent
      if base.present && v.declaresType cls name then Ty.refined base name info else return base) := by
    refine h.bind (fun _ _ => rfl) fun c base g v' hv' hpresent hbase => ?_
    rw [hpresent, Bool.true_and]
    by_cases hname : v.declaresType cls name
    · rw [if_pos hname]
      let v'' : World := { v' with types := (v'.types.intern (.refined base name info)).2 }
      have hle : v' ≤ v'' := le_intern _ v'
      have hintern : v''.shape? (v'.types.intern (.refined base name info)).1 = some (.refined base name info) :=
        TypeTable.shape?_intern v'.types _
      have hname' : v''.declaresType cls name := by
        rw [declaresType, hle.decls, hv'.decls]
        exact hname
      exact ⟨_, v'', rfl, hle, (hw.grow (hv.trans (hv'.trans hle))).present hintern (by simp),
        hbase.refined hle ht hintern hname'⟩
    · rw [if_neg hname]
      exact ⟨base, v', rfl, le_rfl, hpresent, hbase.cons t⟩
  intro g hg
  rw [baseType_step_refined (hv.shape ht)]
  exact hwrap g hg

end

namespace Lineage

variable {D : Ty → Prop}

/-- The search for a base type goes up. -/
theorem ascends_baseType (hw : w.Standard) (h : w.Lineage D) (cls : Symbol) :
    Ascends w (BaseType.step cls) w.above (w.refersTo cls) D (w.Based cls) where
  closed := h.closed
  acyclic := h.acyclic
  answers := by
    intro t ht hhit next g v hv
    rcases h.shape ht with ⟨pre, s, hshape, hcls⟩ | ⟨parent, name, info, hshape⟩
    · rw [refersTo_named hshape, decide_eq_true_eq] at hhit
      subst hhit
      refine ⟨t, v, ?_, le_rfl, hw.present hshape (by simp), t, pre, 0, rfl, hshape, Nat.zero_le _, .bare⟩
      rw [baseType_step_named (hv.shape hshape) (hv.decls ▸ hcls), if_pos rfl]
      rfl
    · rw [refersTo_refined hshape] at hhit
      cases hhit
  goesOn := by
    intro t ht hhit next ks L hnext e v hv
    rcases h.shape ht with ⟨pre, s, hshape, hcls⟩ | ⟨parent, name, info, hshape⟩
    · rw [refersTo_named hshape, decide_eq_false_iff_not] at hhit
      have hfirst := (searches_firstPresent hnext e v hv).mono fun c a v h => Based.cons h t
      intro g hg
      rw [baseType_step_named (hv.shape hshape) (hv.decls ▸ hcls), if_neg hhit, hv.decls, ← above_named hshape]
      exact hfirst g hg
    · rw [above_refined hshape] at hnext ⊢
      have hparent := hnext parent (List.mem_singleton_self parent) e v hv
      rw [List.flatMap_singleton]
      exact searches_refined hw hv hshape hparent

/-- **The search for the base type at `cls` finds the end of the first chain that ends there.** -/
theorem baseType_run (hw : w.Standard) (h : w.Lineage D) (ht : D t) (cls : Symbol) (hv : w ≤ v) :
    ∃ base v', t.baseType cls v = .ok (base, v') ∧ v ≤ v' ∧
      match firstHit (w.refersTo cls) 64 ((ascents w.above 65 t).take 100000) with
      | some c => base.present ∧ w.Based cls c base v'
      | none => base = .noType :=
  (h.ascends_baseType hw cls).run ht hv

end Lineage

/-! ## Limits -/

/-- The search for `cls` comes from `t` to a reference to it before it meets a limit. -/
def InReach (w : World) (t : Ty) (cls : Symbol) : Prop :=
  ∃ c ∈ (ascents w.above 65 t).take 100000, c.length ≤ 64 ∧ c.getLast?.any (w.refersTo cls)

instance (w : World) (t : Ty) (cls : Symbol) : Decidable (w.InReach t cls) :=
  inferInstanceAs (Decidable
    (∃ c ∈ (ascents w.above 65 t).take 100000, c.length ≤ 64 ∧ c.getLast?.any (w.refersTo cls)))

theorem inReach_iff :
    w.InReach t cls ↔ ∃ c, firstHit (w.refersTo cls) 64 ((ascents w.above 65 t).take 100000) = some c := by
  rw [← Option.isSome_iff_exists, firstHit, List.find?_isSome]
  simp only [InReach, Bool.and_eq_true, decide_eq_true_eq]

/-- No search from `t` meets a limit: all chains are short enough, and there are few enough of them. -/
structure Shallow (w : World) (t : Ty) : Prop where
  levels : ∀ c ∈ ascents w.above 65 t, c.length ≤ 64
  entries : (ascents w.above 65 t).length ≤ 100000

/-- So nothing from `t` on lies above itself. -/
theorem Shallow.acyclic (h : w.Shallow t) (htu : ReflTransGen (fun a b => b ∈ w.above a) t u) :
    ¬ TransGen (fun a b => b ∈ w.above a) u u := by
  intro hcycle
  obtain ⟨c, hc, hlength⟩ := exists_ascent_of_cycle (n := 64) htu hcycle
  have := h.levels c hc
  omega

/-- Within the limits the search for `cls` comes to it wherever it lies above. -/
theorem Shallow.inReach_iff (h : w.Shallow t) :
    w.InReach t cls ↔ ∃ u, ReflTransGen (fun a b => b ∈ w.above a) t u ∧ w.refersTo cls u := by
  constructor
  · rintro ⟨c, hc, -, hhit⟩
    obtain ⟨u, hu, htu⟩ := reaches_of_mem_ascents (List.mem_of_mem_take hc)
    rw [hu] at hhit
    exact ⟨u, htu, hhit⟩
  · rintro ⟨u, htu, hhit⟩
    obtain ⟨c, hc, hu⟩ := exists_mem_ascents htu h.levels
    refine ⟨c, ?_, h.levels c hc, ?_⟩
    · rwa [List.take_of_length_le h.entries]
    · rwa [hu]

end World

end Conformance
