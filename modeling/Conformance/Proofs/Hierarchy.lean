import Mathlib.Logic.Relation
import Conformance.Proofs.Evaluation
import Conformance.Proofs.Repetition

/-!
# Class hierarchies

Classes whose parents are plain references to classes (`World.Hierarchy`), and what looks for an ancestor finds among
them: the base type of a reference is a reference to the ancestor, and there is one exactly if the class derives from
it (`World.Hierarchy.baseType_run`).
-/

namespace Conformance

open CompareM

/-! ## What the answers of a walk have in common -/

section Walks

variable {α β : Type} {w : World} {A : α → Prop} {B : β → Prop}

/-- Wherever above `w` the walk starts, `A` holds of what it answers. -/
def Ensures (w : World) (m : WalkM α) (A : α → Prop) : Prop :=
  ∀ g v a g' v', w ≤ v → m g v = .ok ((a, g'), v') → w ≤ v' ∧ A a

theorem Ensures.pure {a : α} (h : A a) : Ensures w (pure a) A := by
  intro g v a' g' v' hv hr
  cases hr
  exact ⟨hv, h⟩

theorem Ensures.bind {m : WalkM α} {f : α → WalkM β} (hm : Ensures w m A) (hf : ∀ a, A a → Ensures w (f a) B) :
    Ensures w (m >>= f) B := by
  intro g v b g'' v'' hv hr
  obtain ⟨a, g', v', hm', hr⟩ := run_bind_ok hr
  obtain ⟨hv', ha⟩ := hm g v a g' v' hv hm'
  exact hf a ha g' v' b g'' v'' hv' hr

theorem Ensures.mono {A' : α → Prop} {m : WalkM α} (hm : Ensures w m A) (hA : ∀ a, A a → A' a) : Ensures w m A' :=
  fun g v a g' v' hv hr => ⟨(hm g v a g' v' hv hr).1, hA a (hm g v a g' v' hv hr).2⟩

theorem Ensures.ite {p : Prop} [Decidable p] {m₁ m₂ : WalkM α} (h₁ : p → Ensures w m₁ A) (h₂ : ¬ p → Ensures w m₂ A) :
    Ensures w (if p then m₁ else m₂) A := by
  split
  · next h => exact h₁ h
  · next h => exact h₂ h

theorem Ensures.world_bind {f : World → WalkM β} (hf : ∀ v, w ≤ v → Ensures w (f v) B) :
    Ensures w (Walk.world >>= f) B :=
  fun g v b g' v' hv hr => hf v hv g v b g' v' hv hr

theorem Ensures.lift {m : WorldM α} (hm : Grows True m) (h : ∀ v a v', w ≤ v → m v = .ok (a, v') → A a) :
    Ensures w (liftM m) A := by
  intro g v a g' v' hv hr
  obtain ⟨hm', rfl⟩ := run_lift_ok hr
  exact ⟨hv.trans (hm.le_of_ok hm'), h v _ _ hv hm'⟩

theorem Ensures.orElse {x y : WalkM Bool} {P Q : Prop} (hx : Ensures w x fun b => b = true → P)
    (hy : Ensures w y fun b => b = true → Q) : Ensures w (x <||> y) fun b => b = true → P ∨ Q := by
  refine .bind hx fun b hb => ?_
  cases b with
  | true => exact .pure fun _ => .inl (hb rfl)
  | false => exact hy.mono fun _ h hb => .inr (h hb)

theorem Ensures.andThen {x y : WalkM Bool} {P Q : Prop} (hx : Ensures w x fun b => b = true → P)
    (hy : Ensures w y fun b => b = true → Q) : Ensures w (x <&&> y) fun b => b = true → P ∧ Q := by
  refine .bind hx fun b hb => ?_
  cases b with
  | true => exact hy.mono fun _ h hb' => ⟨hb rfl, h hb'⟩
  | false => exact .pure nofun

/-- The first present answer along a list is an answer for one of its members. -/
theorem ensures_firstPresent {next : Ty → WalkM Ty} {P : Ty → Ty → Prop} (ts : List Ty)
    (h : ∀ t ∈ ts, Ensures w (next t) fun a => a.present → P t a) :
    Ensures w (Walk.firstPresent next ts) fun a => a.present → ∃ t ∈ ts, P t a := by
  induction ts with
  | nil => exact .pure nofun
  | cons t ts ih =>
    refine .bind (h t List.mem_cons_self) fun a ha => .ite (fun hpresent => ?_) fun _ => ?_
    · exact .pure fun _ => ⟨t, List.mem_cons_self, ha hpresent⟩
    · refine (ih fun u hu => h u (List.mem_cons_of_mem t hu)).mono fun b hb hpresent => ?_
      obtain ⟨u, hu, hP⟩ := hb hpresent
      exact ⟨u, List.mem_cons_of_mem t hu, hP⟩

theorem Ensures.lift_bind {m : WorldM α} {f : α → WalkM β} (hm : Grows True m)
    (hf : ∀ a v v', w ≤ v → m v = .ok (a, v') → Ensures v' (f a) B) : Ensures w (liftM m >>= f) B := by
  intro g v b g' v' hv hr
  obtain ⟨a, g₁, v₁, hm', hr⟩ := run_bind_ok hr
  obtain ⟨hlift, -⟩ := run_lift_ok hm'
  obtain ⟨hv', hb⟩ := hf a v v₁ hv hlift g₁ v₁ b g' v' le_rfl hr
  exact ⟨hv.trans ((hm.le_of_ok hlift).trans hv'), hb⟩

theorem ensures_inside {refused : α} {t : Ty} {body : WalkM α} (hrefused : A refused) (hbody : Ensures w body A) :
    Ensures w (Walk.inside refused t body) A := by
  intro g v a g' v' hv hr
  rcases inside_run hr with ⟨g₁, g₂, -, hb, -⟩ | ⟨e, -, -, rfl, rfl⟩
  · exact hbody g₁ v a g₂ v' hv hb
  · exact ⟨hv, hrefused⟩

/-- What each level of a walk ensures, given that the levels below it do, the walk ensures. -/
theorem ensures_descend {refused : α} {step : (Ty → WalkM α) → Ty → WalkM α} {D : Ty → Prop} {P : Ty → α → Prop}
    (hrefused : ∀ t, P t refused)
    (hstep : ∀ next t, D t → (∀ u, D u → Ensures w (next u) (P u)) → Ensures w (step next t) (P t)) (n : Nat) :
    ∀ t, D t → Ensures w (Walk.descend refused step n t) (P t) := by
  induction n with
  | zero => intro t _ g v a g' v' _ hr; cases hr
  | succ n ih => exact fun t ht => ensures_inside (hrefused t) (hstep _ t ht ih)

theorem ensures_run {refused : α} {step : (Ty → WalkM α) → Ty → WalkM α} {t : Ty} {a : α} {v v' : World}
    (h : Ensures w (Walk.descend refused step (Limits.walkDepth.toNat + 1) t) A) (hv : w ≤ v)
    (hr : Walk.run refused step t v = .ok (a, v')) : A a := by
  obtain ⟨g, hm⟩ := descend_of_run hr
  exact (h _ v _ g _ hv hm).2

end Walks

/-! ## Hierarchies -/

namespace World

/-- A parent of the class `s` is a reference to `s'`. -/
def Parent (w : World) (s s' : Symbol) : Prop := ∃ t ∈ w.decls.parents s, ∃ pre, w.shape? t = some (.named pre s')

/-- The class `s` is `s'` or inherits from it. -/
def Derives (w : World) : Symbol → Symbol → Prop := Relation.ReflTransGen w.Parent

/-- The references `refs`, each with the class it names, are to static classes of different names whose parents are such
references again. They lie between `Nothing` and `Any`, base types find all ancestors among them, and none is a class
with a rule of its own. -/
structure Hierarchy (w : World) (refs : Ty → Symbol → Prop) : Prop where
  shape : ∀ {t s}, refs t s → ∃ pre, w.shape? t = some (.named pre s)
  isClass : ∀ {t s}, refs t s → w.decls.isClass s
  isStatic : ∀ {t s}, refs t s → w.decls.isStatic s
  name : ∀ {t s t' s'}, refs t s → refs t' s' → w.decls.name s = w.decls.name s' → s = s'
  parents : ∀ {t s}, refs t s → ∀ t' ∈ w.decls.parents s, ∃ s', refs t' s'
  any : ∀ {t s}, refs t s → s ≠ Builtin.nothing.symbol → w.Derives s Builtin.any.symbol
  nothing : ∀ {t s}, refs t s → s ≠ Builtin.nothing.symbol → ¬ w.Derives s Builtin.nothing.symbol
  found : ∀ {t s s'}, refs t s → w.Derives s s' → w.Inherits t s'
  null : ∀ {t s}, refs t s → s ≠ Builtin.null.symbol
  markers : ∀ {t s}, refs t s → s ≠ Builtin.singleton.symbol ∧ s ≠ Builtin.notNull.symbol
  traits : ∀ {t s}, refs t s → Builtin.isTrait s = false

namespace Hierarchy

variable {w v : World} {refs : Ty → Symbol → Prop} {t : Ty} {s s' : Symbol}

theorem unique (h : w.Hierarchy refs) (ht : refs t s) (ht' : refs t s') : s = s' := by
  obtain ⟨q, hs⟩ := h.shape ht
  obtain ⟨q', hs'⟩ := h.shape ht'
  cases hs.symm.trans hs'
  rfl

theorem has (h : w.Hierarchy refs) (ht : refs t s) : w.Has t := by
  obtain ⟨q, hs⟩ := h.shape ht
  exact Option.isSome_iff_exists.2 ⟨_, hs⟩

/-- A base type that is found at `cls` is a reference to it, and `cls` is an ancestor. -/
theorem ensures_baseType (h : w.Hierarchy refs) (cls : Symbol) (n : Nat) (ht : refs t s) :
    Ensures w (Walk.descend .noType (BaseType.step cls) n t) fun base =>
      base.present → ∀ s, refs t s → refs base cls ∧ w.Derives s cls := by
  have href : ∃ s, refs t s := ⟨s, ht⟩
  clear ht
  refine ensures_descend (D := fun t => ∃ s, refs t s)
    (P := fun t base => base.present → ∀ s, refs t s → refs base cls ∧ w.Derives s cls) (fun _ h => ?_) ?_ n t href
  · cases h
  rintro next t ⟨s, ht⟩ hnext
  obtain ⟨q, hshape⟩ := h.shape ht
  refine .world_bind fun v hv => ?_
  rw [World.shape_of_shape? (hv.shape hshape)]
  refine .ite (fun hs => ?_) fun hs => ?_
  · subst hs
    refine .pure fun _ s' ht' => ?_
    rw [h.unique ht' ht]
    exact ⟨ht, .refl⟩
  · rw [hv.decls, if_pos (h.isClass ht)]
    refine (ensures_firstPresent _ fun t' ht' => hnext t' (h.parents ht t' ht')).mono
      fun base hbase hpresent s' hs' => ?_
    obtain ⟨t', ht', hbase⟩ := hbase hpresent
    obtain ⟨c, hc⟩ := h.parents ht t' ht'
    obtain ⟨q', hshape'⟩ := h.shape hc
    obtain ⟨href, hderives⟩ := hbase c hc
    rw [h.unique hs' ht]
    exact ⟨href, .head ⟨t', ht', q', hshape'⟩ hderives⟩

/-- The base type of a reference at a class is a reference to that class, and there is one for the ancestors only. -/
theorem baseType_run (h : w.Hierarchy refs) (hw : w.Closed) (ht : refs t s) (cls : Symbol) (hv : w ≤ v) :
    ∃ base v', t.baseType cls v = .ok (base, v') ∧ (base.present ↔ w.Derives s cls) ∧
      (base.present → refs base cls) := by
  obtain ⟨base, v', hr, -, hpresent⟩ := hw.baseType_run (h.has ht) cls hv
  have hbase := ensures_run (h.ensures_baseType cls _ ht) hv hr
  exact ⟨base, v', hr, ⟨fun hb => (hbase hb s ht).2, fun hs => hpresent.2 (h.found ht hs)⟩, fun hb => (hbase hb s ht).1⟩

/-- In a later world the classes have the ancestors that they had. -/
theorem derives_grow_iff (h : w.Hierarchy refs) (ht : refs t s) (hv : w ≤ v) : v.Derives s s' ↔ w.Derives s s' := by
  constructor
  · intro hs
    induction hs using Relation.ReflTransGen.head_induction_on generalizing t with
    | refl => exact .refl
    | @head a c hac _ ih =>
      obtain ⟨u, hu, q, hq⟩ := hac
      rw [hv.decls] at hu
      obtain ⟨c', hc'⟩ := h.parents ht u hu
      obtain ⟨q', hq'⟩ := h.shape hc'
      obtain rfl : c' = c := by
        cases (hv.shape hq').symm.trans hq
        rfl
      exact .head ⟨u, hu, q', hq'⟩ (ih hc')
  · intro hs
    refine Relation.ReflTransGen.mono ?_ s s' hs
    rintro a c ⟨u, hu, q, hq⟩
    exact ⟨u, hv.decls ▸ hu, q, hv.shape hq⟩

theorem grow (h : w.Hierarchy refs) (hw : w.Closed) (hv : w ≤ v) : v.Hierarchy refs where
  shape ht := (h.shape ht).imp fun _ => hv.shape
  isClass ht := by rw [hv.decls]; exact h.isClass ht
  isStatic ht := by rw [hv.decls]; exact h.isStatic ht
  name ht ht' hname := by rw [hv.decls] at hname; exact h.name ht ht' hname
  parents ht := by rw [hv.decls]; exact h.parents ht
  any ht hs := (h.derives_grow_iff ht hv).2 (h.any ht hs)
  nothing ht hs hderives := h.nothing ht hs ((h.derives_grow_iff ht hv).1 hderives)
  found ht hderives := by
    obtain ⟨base, v', hr, -, hpresent⟩ := hw.baseType_run (h.has ht) _ hv
    exact ⟨base, v', hr, hpresent.2 (h.found ht ((h.derives_grow_iff ht hv).1 hderives))⟩
  null := h.null
  markers := h.markers
  traits := h.traits

end Hierarchy

/-! ### The built-in classes -/

/-- The references to the built-in classes, less the null class and the markers. -/
def BuiltinRef (t : Ty) (s : Symbol) : Prop :=
  ∃ b : Builtin, b ∉ [.null, .singleton, .notNull] ∧ t = b.type ∧ s = b.symbol

/-- A built-in class and its ancestors. -/
def lineage : Builtin → List Builtin
  | .any => [.any]
  | .nothing => [.nothing]
  | .anyVal => [.anyVal, .any]
  | .object => [.object, .any]
  | .null => [.null, .object, .any]
  | .int => [.int, .anyVal, .any]
  | .boolean => [.boolean, .anyVal, .any]
  | .string => [.string, .object, .any]
  | .singleton => [.singleton, .any]
  | .notNull => [.notNull, .any]

theorem mem_builtins (b : Builtin) : b ∈ Builtin.all := by cases b <;> decide

theorem parents_initial (b : Builtin) : initial.decls.parents b.symbol = b.parent?.toList.map Builtin.type := by
  have hall : ∀ b ∈ Builtin.all, initial.decls.parents b.symbol = b.parent?.toList.map Builtin.type := by
    decide
  exact hall b (mem_builtins b)

theorem parent_initial_iff {b : Builtin} {s : Symbol} :
    initial.Parent b.symbol s ↔ ∃ b', b.parent? = some b' ∧ s = b'.symbol := by
  simp only [Parent, parents_initial, List.mem_map, Option.mem_toList]
  constructor
  · rintro ⟨_, ⟨b', hb', rfl⟩, q, hq⟩
    cases (standard_initial.shape b').symm.trans hq
    exact ⟨b', hb', rfl⟩
  · rintro ⟨b', hb', rfl⟩
    exact ⟨b'.type, ⟨b', hb', rfl⟩, _, standard_initial.shape b'⟩

theorem derives_initial_iff {b : Builtin} {s : Symbol} :
    initial.Derives b.symbol s ↔ ∃ b' ∈ lineage b, s = b'.symbol := by
  constructor
  · intro h
    induction h with
    | refl => exact ⟨b, by cases b <;> decide, rfl⟩
    | tail _ hlast ih =>
      obtain ⟨b', hb', rfl⟩ := ih
      obtain ⟨b'', hb'', rfl⟩ := parent_initial_iff.1 hlast
      exact ⟨b'', by revert hb' hb''; cases b <;> cases b' <;> cases b'' <;> decide, rfl⟩
  · rintro ⟨b', hb', rfl⟩
    have hparent : ∀ {b b' : Builtin}, b.parent? = some b' → initial.Parent b.symbol b'.symbol :=
      fun h => parent_initial_iff.2 ⟨_, h, rfl⟩
    cases b <;> simp only [lineage, List.mem_cons, List.not_mem_nil, or_false] at hb' <;>
      rcases hb' with rfl | rfl | rfl
    all_goals first
      | exact .refl
      | exact .single (hparent rfl)
      | exact .head (hparent rfl) (.single (hparent rfl))

/-- The built-in classes form a hierarchy. -/
theorem hierarchy_initial : initial.Hierarchy BuiltinRef where
  shape := by
    rintro _ _ ⟨b, -, rfl, rfl⟩
    exact ⟨_, standard_initial.shape b⟩
  isClass := by
    rintro _ _ ⟨b, -, rfl, rfl⟩
    exact standard_initial.isClass b
  isStatic := by
    rintro _ _ ⟨b, -, rfl, rfl⟩
    have hall : ∀ b ∈ Builtin.all, initial.decls.isStatic b.symbol := by decide
    exact hall b (mem_builtins b)
  name := by
    rintro _ _ _ _ ⟨b, -, rfl, rfl⟩ ⟨b', -, rfl, rfl⟩ h
    rw [standard_initial.name, standard_initial.name] at h
    revert h
    cases b <;> cases b' <;> decide
  parents := by
    rintro _ _ ⟨b, hb, rfl, rfl⟩ t ht
    rw [parents_initial, List.mem_map] at ht
    obtain ⟨b', hb', rfl⟩ := ht
    refine ⟨_, b', ?_, rfl, rfl⟩
    revert hb'
    cases b <;> cases b' <;> decide
  any := by
    rintro _ _ ⟨b, hb, rfl, rfl⟩ hs
    refine derives_initial_iff.2 ⟨.any, ?_, rfl⟩
    revert hs
    cases b <;> decide
  nothing := by
    rintro _ _ ⟨b, -, rfl, rfl⟩ hs h
    obtain ⟨b', hb', h⟩ := derives_initial_iff.1 h
    revert hs hb' h
    cases b <;> cases b' <;> decide
  found := by
    rintro _ _ _ ⟨b, -, rfl, rfl⟩ h
    obtain ⟨b', hb', rfl⟩ := derives_initial_iff.1 h
    have hall : ∀ b ∈ Builtin.all, ∀ b' ∈ lineage b,
        ((b.type.baseType b'.symbol initial).toOption.map (·.1.present)) = some true := by
      decide
    have hrun := hall b (mem_builtins b) b' hb'
    match hr : b.type.baseType b'.symbol initial with
    | .error _ => rw [hr] at hrun; cases hrun
    | .ok (base, v) =>
      rw [hr] at hrun
      exact ⟨base, v, hr, Option.some.inj hrun⟩
  null := by
    rintro _ _ ⟨b, hb, -, rfl⟩ h
    revert hb h
    cases b <;> decide
  markers := by
    rintro _ _ ⟨b, hb, -, rfl⟩
    revert hb
    cases b <;> decide
  traits := by
    rintro _ _ ⟨b, -, -, rfl⟩
    have hall : ∀ b ∈ Builtin.all, Builtin.isTrait b.symbol = false := by decide
    exact hall b (mem_builtins b)

end World

end Conformance
