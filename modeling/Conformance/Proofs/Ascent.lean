import Mathlib.Logic.Relation
import Conformance.Proofs.Evaluation

/-!
# What a search with limits finds

A search goes up from a type, depth first, until it comes to a type that settles what is looked for. It is cut where it
is as many levels deep as the guard allows, and altogether after as many attempts as the guard allows. Where the ways up
do not come round, its attempts are known beforehand: each one stands at the end of a chain that goes up from the start
(`ascents`), and what the search finds is the end of the first chain that is let in and settles the matter
(`Ascends.run`).
-/

namespace Conformance

open Relation

/-! ## Chains -/

section Chains

variable {α : Type} (up : α → List α)

/-- The chains of at most `n` elements that go up from `a`, in the order in which a search depth first comes to their
ends. -/
def ascents : Nat → α → List (List α)
  | 0, _ => []
  | n + 1, a => [a] :: ((up a).flatMap (ascents n)).map (a :: ·)

/-- The first chain of at most `n` elements whose end settles what is looked for. -/
def firstHit (hit : α → Bool) (n : Nat) (l : List (List α)) : Option (List α) :=
  l.find? fun c => decide (c.length ≤ n) && c.getLast?.any hit

variable {up} {hit : α → Bool} {n : Nat}

theorem firstHit_append (l l' : List (List α)) : firstHit hit n (l ++ l') = (firstHit hit n l).or (firstHit hit n l') :=
  List.find?_append

/-- Chains that go on from an element that does not settle the matter. -/
theorem firstHit_map_cons {a : α} (ha : hit a = false) (l : List (List α)) :
    firstHit hit (n + 1) (l.map (a :: ·)) = (firstHit hit n l).map (a :: ·) := by
  simp only [firstHit, List.find?_map]
  congr 2
  funext c
  cases c with
  | nil => simp [ha]
  | cons b c => simp [List.getLast?_cons_cons]

/-- A chain leads from its start to its end. -/
theorem reaches_of_mem_ascents {a : α} {c : List α} (h : c ∈ ascents up n a) :
    ∃ b, c.getLast? = some b ∧ ReflTransGen (fun a b => b ∈ up a) a b := by
  induction n generalizing a c with
  | zero => cases h
  | succ n ih =>
    rcases List.mem_cons.1 h with rfl | h
    · exact ⟨a, rfl, .refl⟩
    · obtain ⟨c, hc, rfl⟩ := List.mem_map.1 h
      obtain ⟨b, hb, hc⟩ := List.mem_flatMap.1 hc
      obtain ⟨d, hd, hbd⟩ := ih hc
      exact ⟨d, by rw [List.getLast?_cons, hd]; rfl, .head hb hbd⟩

theorem cons_mem_ascents {a b : α} {c : List α} (hb : b ∈ up a) (hc : c ∈ ascents up n b) :
    a :: c ∈ ascents up (n + 1) a :=
  List.mem_cons_of_mem _ (List.mem_map.2 ⟨c, List.mem_flatMap.2 ⟨b, hb, hc⟩, rfl⟩)

/-- What holds at the start and is passed upwards holds along a chain. -/
theorem forall_mem_of_mem_ascents {P : α → Prop} (hP : ∀ {a b}, P a → b ∈ up a → P b) {a : α} {c : List α}
    (h : c ∈ ascents up n a) (ha : P a) : ∀ x ∈ c, P x := by
  induction n generalizing a c with
  | zero => cases h
  | succ n ih =>
    rcases List.mem_cons.1 h with rfl | h
    · simpa using ha
    · obtain ⟨c, hc, rfl⟩ := List.mem_map.1 h
      obtain ⟨b, hb, hc⟩ := List.mem_flatMap.1 hc
      intro x hx
      rcases List.mem_cons.1 hx with rfl | hx
      · exact ha
      · exact ih hc (hP ha hb) x hx

/-- Where no chain comes to the limit, every element above is the end of one. -/
theorem exists_mem_ascents {a b : α} (h : ReflTransGen (fun a b => b ∈ up a) a b)
    (hshort : ∀ c ∈ ascents up (n + 1) a, c.length ≤ n) : ∃ c ∈ ascents up (n + 1) a, c.getLast? = some b := by
  induction h using ReflTransGen.head_induction_on generalizing n with
  | refl => exact ⟨[b], List.mem_cons_self, rfl⟩
  | @head a d hd _ ih =>
    have hpos : [a].length ≤ n := hshort [a] List.mem_cons_self
    obtain ⟨n, rfl⟩ := Nat.exists_eq_add_of_le' hpos
    obtain ⟨c, hc, hb⟩ := ih fun c hc => Nat.le_of_succ_le_succ (hshort (a :: c) (cons_mem_ascents hd hc))
    exact ⟨a :: c, cons_mem_ascents hd hc, by rw [List.getLast?_cons, hb]; rfl⟩

/-- Chains of every length go up from an element that lies above itself, and from what lies below it. -/
theorem exists_ascent_of_cycle {a b : α} (hab : ReflTransGen (fun a b => b ∈ up a) a b)
    (hb : TransGen (fun a b => b ∈ up a) b b) : ∃ c ∈ ascents up (n + 1) a, c.length = n + 1 := by
  induction n generalizing a with
  | zero => exact ⟨[a], List.mem_cons_self, rfl⟩
  | succ n ih =>
    obtain ⟨d, hd, hdb⟩ : ∃ d, d ∈ up a ∧ ReflTransGen (fun a b => b ∈ up a) d b := by
      rcases ReflTransGen.cases_head hab with rfl | h
      · exact TransGen.head'_iff.1 hb
      · exact h
    obtain ⟨c, hc, hlength⟩ := ih hdb
    exact ⟨a :: c, cons_mem_ascents hd hc, congrArg (· + 1) hlength⟩

theorem ascents_sublist {up' : α → List α} (h : ∀ a, (up' a).Sublist (up a)) (n : Nat) (a : α) :
    (ascents up' n a).Sublist (ascents up n a) := by
  induction n generalizing a with
  | zero => exact .slnil
  | succ n ih =>
    have hflat : ∀ {l l' : List α}, l.Sublist l' → (l.flatMap (ascents up' n)).Sublist (l'.flatMap (ascents up n)) := by
      intro l l' hl
      induction hl with
      | slnil => exact .slnil
      | cons b _ ihl => exact ihl.trans (List.sublist_append_right ..)
      | cons_cons b _ ihl => exact (ih b).append ihl
    exact ((hflat (h a)).map _).cons_cons _

/-! ### The first chain -/

theorem firstHit_cons {a : α} (ha : hit a) (l : List (List α)) : firstHit hit (n + 1) ([a] :: l) = some [a] := by
  simp [firstHit, ha]

/-- An element that does not settle the matter leaves it to those above. -/
theorem firstHit_cons_map {a : α} (ha : hit a = false) (l : List (List α)) :
    firstHit hit (n + 1) ([a] :: l.map (a :: ·)) = (firstHit hit n l).map (a :: ·) := by
  rw [← firstHit_map_cons ha]
  simp [firstHit, ha]

theorem firstHit_ascents {a : α} (ha : hit a = false) (m : Nat) : firstHit hit (n + 1) (ascents up (m + 1) a) =
    (firstHit hit n ((up a).flatMap (ascents up m))).map (a :: ·) :=
  firstHit_cons_map ha _

theorem firstHit_eq_none {l : List (List α)} (h : ∀ c ∈ l, ∀ a, c.getLast? = some a → hit a = false) :
    firstHit hit n l = none := by
  refine List.find?_eq_none.2 fun c hc => ?_
  cases hlast : c.getLast? with
  | none => simp
  | some a => simp [h c hc a hlast]

end Chains

/-! ## Guards that are counted up to their limit -/

section Searches

variable {ks : List Ty} {e n : Nat} {g : Guard Ty} {t : Ty} {w v : World}

/-- The guard of a walk with the types `ks` open; `e` of the entries that it may attempt are used up. -/
structure Counted (ks : List Ty) (e : Nat) (g : Guard Ty) : Prop where
  bounds : g.bounds = .walk
  openKeys : g.openKeys = ks
  depth : g.depth = ks.length
  entries : min g.entries 100000 = e

theorem Counted.le (hg : Counted ks e g) : e ≤ 100000 := hg.entries ▸ Nat.min_le_right _ _

theorem Counted.inside (hg : Counted ks e g) (he : e < 100000) : Inside ks e g :=
  ⟨hg.bounds, hg.openKeys, hg.depth, by have := hg.entries; omega⟩

theorem Inside.counted (hg : Inside ks e g) (he : e ≤ 100000) : Counted ks e g :=
  ⟨hg.bounds, hg.openKeys, hg.depth, by rw [hg.entries, Nat.min_eq_left he]⟩

theorem Counted.enter (hg : Counted ks e g) (ht : t ∉ ks) (hks : ks.length < 64) (he : e < 100000) :
    ∃ g', g.enter t = (.entered, g') ∧ Counted (t :: ks) (e + 1) g' := by
  obtain ⟨g', h, hg'⟩ := (hg.inside he).enter ht hks he
  exact ⟨g', h, hg'.counted he⟩

/-- With all entries used up, or no level left, nothing is let in. -/
theorem Counted.refuse (hg : Counted ks e g) (h : e = 100000 ∨ ks.length = 64) :
    ∃ entry g', g.enter t = (entry, g') ∧ entry.isEntered = false ∧ Counted ks (min (e + 1) 100000) g' := by
  obtain ⟨hb, hk, hd, hn⟩ := hg
  have htally : Limits.tally g.entries = min (g.entries + 1) 4294967295 := rfl
  have hverdict : { g with entries := Limits.tally g.entries }.verdict t = .entriesExceeded ∨
      { g with entries := Limits.tally g.entries }.verdict t = .depthExceeded := by
    have hentries : Guard.Bounds.walk.entries.toNat = 100000 := rfl
    have hdepth : Guard.Bounds.walk.depth.toNat = 64 := rfl
    simp only [Guard.verdict, hb, hd, hentries, hdepth]
    by_cases hpast : 100000 < Limits.tally g.entries
    · rw [if_pos hpast]
      exact .inl rfl
    · rw [if_neg hpast, if_pos (by omega)]
      exact .inr rfl
  have hused : min (Limits.tally g.entries) 100000 = min (e + 1) 100000 := by omega
  unfold Guard.enter
  dsimp only
  rcases hverdict with hverdict | hverdict
  · rw [hverdict]
    exact ⟨_, _, rfl, rfl, hb, hk, hd, hused⟩
  · rw [hverdict]
    exact ⟨_, _, rfl, rfl, hb, hk, hd, hused⟩

theorem Counted.leave (hg : Counted (t :: ks) e g) : ∃ g', g.leave t = .ok g' ∧ Counted ks e g' := by
  obtain ⟨hb, hk, hd, hn⟩ := hg
  refine ⟨{ g with openKeys := ks, depth := ks.length }, ?_, hb, rfl, rfl, hn⟩
  simp [Guard.leave, Guard.isOpen, hk, hd]

/-! ## Searches -/

variable {hit : Ty → Bool} {A B : List Ty → Ty → World → Prop} {l : List (List Ty)} {m : WalkM Ty}

/-- The search comes to the ends of the chains in `l`, as far as the levels and entries left allow, and answers what `A`
says of the first one that settles the matter, or else that there is nothing. -/
def Searches (hit : Ty → Bool) (A : List Ty → Ty → World → Prop) (ks : List Ty) (e : Nat) (l : List (List Ty))
    (w : World) (m : WalkM Ty) : Prop :=
  ∀ g, Counted ks e g → ∃ a g' v e', m g w = .ok ((a, g'), v) ∧ w ≤ v ∧ Counted ks e' g' ∧
    match firstHit hit (64 - ks.length) (l.take (100000 - e)) with
    | some c => a.present ∧ A c a v
    | none => a = .noType ∧ e' = min (e + l.length) 100000

theorem searches_nothing : Searches hit A ks e [] w (return .noType) := by
  intro g hg
  refine ⟨_, g, w, e, rfl, le_rfl, hg, ?_⟩
  simp [firstHit, hg.le]

theorem Searches.mono (h : Searches hit A ks e l w m) (hAB : ∀ c a v, A c a v → B c a v) :
    Searches hit B ks e l w m := by
  intro g hg
  obtain ⟨a, g', v, e', hr, hle, hg', hanswer⟩ := h g hg
  refine ⟨a, g', v, e', hr, hle, hg', ?_⟩
  split at hanswer
  · exact ⟨hanswer.1, hAB _ _ _ hanswer.2⟩
  · exact hanswer

/-- A search of some chains and then, if that finds nothing, of others. -/
theorem Searches.orElse {l' : List (List Ty)} {m' : WalkM Ty} (h : Searches hit A ks e l w m)
    (h' : ∀ e v, w ≤ v → Searches hit A ks e l' v m') :
    Searches hit A ks e (l ++ l') w (do
      let answer ← m
      if answer.present then return answer else m') := by
  intro g hg
  obtain ⟨a, g', v, e', hr, hle, hg', hanswer⟩ := h g hg
  have hrun : (do
      let answer ← m
      if answer.present then return answer else m' : WalkM Ty) g w =
        (if a.present then return a else m' : WalkM Ty) g' v := run_bind hr
  rw [List.take_append, firstHit_append]
  cases hfirst : firstHit hit (64 - ks.length) (l.take (100000 - e)) with
  | some c =>
    rw [hfirst] at hanswer
    rw [if_pos hanswer.1] at hrun
    exact ⟨a, g', v, e', hrun, hle, hg', hanswer⟩
  | none =>
    rw [hfirst] at hanswer
    obtain ⟨rfl, rfl⟩ := hanswer
    rw [if_neg (by simp [Ty.present])] at hrun
    obtain ⟨a', g'', v', e'', hr', hle', hg'', hanswer'⟩ := h' _ v hle g' hg'
    refine ⟨a', g'', v', e'', hrun.trans hr', hle.trans hle', hg'', ?_⟩
    rw [Option.none_or, List.length_append]
    rw [show 100000 - e - l.length = 100000 - min (e + l.length) 100000 by omega]
    split at hanswer'
    · exact hanswer'
    · exact ⟨hanswer'.1, by rw [hanswer'.2]; omega⟩

theorem searches_firstPresent {next : Ty → WalkM Ty} {L : Ty → List (List Ty)} {ts : List Ty}
    (h : ∀ t ∈ ts, ∀ e v, w ≤ v → Searches hit A ks e (L t) v (next t)) :
    ∀ e v, w ≤ v → Searches hit A ks e (ts.flatMap L) v (Walk.firstPresent next ts) := by
  induction ts with
  | nil => exact fun _ _ _ => searches_nothing
  | cons t ts ih =>
    intro e v hv
    rw [List.flatMap_cons]
    refine (h t List.mem_cons_self e v hv).orElse fun e v' hv' => ?_
    exact ih (fun u hu => h u (List.mem_cons_of_mem t hu)) e v' (hv.trans hv')

/-- What was found is passed on; `f` stands for what is made of it. -/
theorem Searches.bind {f : Ty → WalkM Ty} (h : Searches hit A ks e l w m)
    (hnone : ∀ g v, f .noType g v = .ok ((.noType, g), v))
    (hf : ∀ c a g v, w ≤ v → a.present → A c a v →
      ∃ b v', f a g v = .ok ((b, g), v') ∧ v ≤ v' ∧ b.present ∧ B c b v') : Searches hit B ks e l w (m >>= f) := by
  intro g hg
  obtain ⟨a, g', v, e', hr, hle, hg', hanswer⟩ := h g hg
  have hrun : (m >>= f) g w = f a g' v := run_bind hr
  cases hfirst : firstHit hit (64 - ks.length) (l.take (100000 - e)) with
  | some c =>
    rw [hfirst] at hanswer
    obtain ⟨b, v', hb, hle', hanswer'⟩ := hf c a g' v hle hanswer.1 hanswer.2
    exact ⟨b, g', v', e', hrun.trans hb, hle.trans hle', hg', hanswer'⟩
  | none =>
    rw [hfirst] at hanswer
    obtain ⟨rfl, rfl⟩ := hanswer
    exact ⟨_, g', v, _, hrun.trans (hnone g' v), hle, hg', rfl, rfl⟩

/-- An attempt that is not let in. -/
theorem searches_refused {body : WalkM Ty} (h : e = 100000 ∨ ks.length = 64 ∧ l = []) :
    Searches hit A ks e ([t] :: l.map (t :: ·)) w (Walk.inside .noType t body) := by
  intro g hg
  have hle := hg.le
  obtain ⟨entry, g', he, hne, hg'⟩ := hg.refuse (t := t) (h.imp_right And.left)
  refine ⟨_, g', w, _, inside_refused he hne, le_rfl, hg', ?_⟩
  rcases h with rfl | ⟨hfull, rfl⟩
  · simp [firstHit]
  · have hskip : firstHit hit (64 - ks.length) (List.take (100000 - e) [[t]]) = none := by
      rw [hfull]
      cases 100000 - e <;> simp [firstHit]
    rw [List.map_nil, hskip]
    exact ⟨rfl, rfl⟩

/-- An attempt that is let in, and what the search comes to from there. -/
theorem searches_entered {body : WalkM Ty} (ht : t ∉ ks) (hks : ks.length < 64) (he : e < 100000)
    (hhit : hit t → ∀ g, ∃ a v, body g w = .ok ((a, g), v) ∧ w ≤ v ∧ a.present ∧ A [t] a v)
    (hbody : hit t = false → Searches hit (fun c => A (t :: c)) (t :: ks) (e + 1) l w body) :
    Searches hit A ks e ([t] :: l.map (t :: ·)) w (Walk.inside .noType t body) := by
  intro g hg
  obtain ⟨g₁, hentered, hg₁⟩ := hg.enter ht hks he
  have htake : ([t] :: l.map (t :: ·)).take (100000 - e) = [t] :: (l.take (100000 - (e + 1))).map (t :: ·) := by
    rw [show 100000 - e = (100000 - (e + 1)) + 1 by omega, List.take_succ_cons, List.map_take]
  have hlevels : 64 - ks.length = 64 - (t :: ks).length + 1 := by
    rw [List.length_cons]
    omega
  rw [htake, hlevels]
  cases hh : hit t with
  | true =>
    obtain ⟨a, v, hr, hv, hfound⟩ := hhit hh g₁
    obtain ⟨g₂, hl, hg₂⟩ := hg₁.leave
    refine ⟨a, g₂, v, _, inside_entered hentered hr hl, hv, hg₂, ?_⟩
    rw [firstHit_cons hh]
    exact hfound
  | false =>
    obtain ⟨a, g₂, v, e', hr, hv, hg₂, hanswer⟩ := hbody hh g₁ hg₁
    obtain ⟨g₃, hl, hg₃⟩ := hg₂.leave
    refine ⟨a, g₃, v, e', inside_entered hentered hr hl, hv, hg₃, ?_⟩
    rw [firstHit_cons_map hh]
    cases hfirst : firstHit hit (64 - (t :: ks).length) (l.take (100000 - (e + 1))) with
    | some c =>
      rw [hfirst] at hanswer
      exact hanswer
    | none =>
      rw [hfirst] at hanswer
      exact ⟨hanswer.1, by rw [hanswer.2, List.length_cons, List.length_map]; omega⟩

/-- An attempt to enter `t`, with `n` levels left. -/
theorem searches_inside {body : WalkM Ty} {n : Nat} (ht : t ∉ ks) (hn : n + ks.length = 64) (hempty : n = 0 → l = [])
    (hhit : hit t → ∀ g, ∃ a v, body g w = .ok ((a, g), v) ∧ w ≤ v ∧ a.present ∧ A [t] a v)
    (hbody : 0 < n → hit t = false → ∀ e, Searches hit (fun c => A (t :: c)) (t :: ks) e l w body) :
    Searches hit A ks e ([t] :: l.map (t :: ·)) w (Walk.inside .noType t body) := by
  intro g hg
  rcases Nat.eq_zero_or_pos n with rfl | hpos
  · exact searches_refused (.inr ⟨by omega, hempty rfl⟩) g hg
  · rcases Nat.eq_or_lt_of_le hg.le with he | he
    · exact searches_refused (.inl he) g hg
    · exact searches_entered ht (by omega) he hhit (fun hh => hbody hpos hh (e + 1)) g hg

end Searches

/-! ## Searches that go up -/

/-- From the types in `D`, none of which lies above itself, the steps of the search go up: a type that settles the
matter is answered with what `A` says, and at any other one the types above it are searched in order. -/
structure Ascends (w : World) (step : (Ty → WalkM Ty) → Ty → WalkM Ty) (up : Ty → List Ty) (hit : Ty → Bool)
    (D : Ty → Prop) (A : List Ty → Ty → World → Prop) : Prop where
  closed : ∀ {t u}, D t → u ∈ up t → D u
  acyclic : ∀ {t}, D t → ¬ TransGen (fun a b => b ∈ up a) t t
  answers : ∀ {t}, D t → hit t → ∀ next g v, w ≤ v →
    ∃ a v', step next t g v = .ok ((a, g), v') ∧ v ≤ v' ∧ a.present ∧ A [t] a v'
  goesOn : ∀ {t}, D t → hit t = false → ∀ next ks L,
    (∀ u ∈ up t, ∀ e v, w ≤ v → Searches hit A ks e (L u) v (next u)) →
      ∀ e v, w ≤ v → Searches hit (fun c => A (t :: c)) ks e ((up t).flatMap L) v (step next t)

namespace Ascends

variable {w v : World} {step : (Ty → WalkM Ty) → Ty → WalkM Ty} {up : Ty → List Ty} {hit : Ty → Bool} {D : Ty → Prop}
  {A : List Ty → Ty → World → Prop} {t : Ty}

/-- What is open lies below, so nothing that lies above is open. The induction is on the levels left. -/
theorem descend (h : Ascends w step up hit D A) (n : Nat) : ∀ {ks : List Ty} {t : Ty} {e : Nat} {v : World}, D t →
    (∀ k ∈ ks, TransGen (fun a b => b ∈ up a) k t) → n + ks.length = 64 → w ≤ v →
      Searches hit A ks e (ascents up (n + 1) t) v (Walk.descend .noType step (n + 1) t) := by
  induction n with
  | zero =>
    intro ks t e v ht hks hn hv
    have hnew : t ∉ ks := fun hmem => h.acyclic ht (hks t hmem)
    have hempty : (up t).flatMap (ascents up 0) = [] := List.flatMap_eq_nil_iff.2 fun _ _ => rfl
    exact searches_inside hnew hn (fun _ => hempty) (fun hh g => h.answers ht hh _ g v hv) fun hpos =>
      absurd hpos (by decide)
  | succ n ih =>
    intro ks t e v ht hks hn hv
    have hnew : t ∉ ks := fun hmem => h.acyclic ht (hks t hmem)
    refine searches_inside hnew hn (fun hzero => absurd hzero (Nat.succ_ne_zero n))
      (fun hh g => h.answers ht hh _ g v hv) fun _ hh e => ?_
    refine h.goesOn ht hh _ _ _ (fun u hu e v' hv' => ih (h.closed ht hu) ?_ ?_ hv') e v hv
    · intro k hk
      rcases List.mem_cons.1 hk with rfl | hk
      · exact .single hu
      · exact .tail (hks k hk) hu
    · rw [List.length_cons]
      omega

/-- **A search finds the end of the first chain that is let in and settles the matter.** -/
theorem run (h : Ascends w step up hit D A) (ht : D t) (hv : w ≤ v) :
    ∃ a v', Walk.run .noType step t v = .ok (a, v') ∧ v ≤ v' ∧
      match firstHit hit 64 ((ascents up 65 t).take 100000) with
      | some c => a.present ∧ A c a v'
      | none => a = .noType := by
  have hsearch : Searches hit A [] 0 (ascents up 65 t) v (Walk.descend .noType step 65 t) :=
    h.descend 64 ht (fun _ hk => nomatch hk) rfl hv
  obtain ⟨a, g, v', e', hr, hle, -, hanswer⟩ := hsearch { bounds := .walk } ⟨rfl, rfl, rfl, rfl⟩
  refine ⟨a, v', run_of_descend hr, hle, ?_⟩
  rw [show 64 - ([] : List Ty).length = 64 from rfl, Nat.sub_zero] at hanswer
  cases hfirst : firstHit hit 64 ((ascents up 65 t).take 100000) with
  | some c =>
    rw [hfirst] at hanswer
    exact hanswer
  | none =>
    rw [hfirst] at hanswer
    exact hanswer.1

end Ascends

end Conformance
