import Mathlib.Data.Finset.Card
import Mathlib.Algebra.BigOperators.Fin
import Mathlib.Data.Fintype.BigOperators
import Conformance.NamePool

/-!
# Pooled names

A pool is filled by calls that take strings in. What it then holds is said by a set of strings (`NamePool.Holds`): the
empty string in the first place of shard zero, and each string of the set once, in its own shard. Taking in one more
string keeps this as long as its shard has room (`Holds.intern`), and no string ever moves (`Extends`), so that strings
and atoms correspond for good (`interning_is_bijective`), whatever the function that spreads strings over the shards.
-/

namespace Conformance

namespace Atom

variable (place : Nat) (i : Fin NamePool.shardCount)

@[simp] theorem shard_ofPlace : (ofPlace place i).shard = i := by
  obtain ⟨i, hi⟩ := i
  refine Fin.ext ?_
  change (place * 64 + i) % 64 = i
  have : i < 64 := hi
  omega

@[simp] theorem place_ofPlace : (ofPlace place i).place = place := by
  obtain ⟨i, hi⟩ := i
  change (place * 64 + i) / 64 = place
  have : i < 64 := hi
  omega

/-- An atom is the place it points to. -/
theorem ofPlace_place (a : Atom) : ofPlace a.place a.shard = a := by
  obtain ⟨n⟩ := a
  refine congrArg Atom.mk ?_
  change n / 64 * 64 + n % 64 = n
  omega

/-- The places of a shard are those whose atoms fit a word. -/
theorem raw_ofPlace_lt {place : Nat} (h : place ≤ NamePool.maxPlace) : (ofPlace place i).raw < 2 ^ 32 := by
  obtain ⟨i, hi⟩ := i
  change place ≤ 67108863 at h
  change place * 64 + i < 2 ^ 32
  have : i < 64 := hi
  omega

end Atom

namespace NamePool

variable {pool pool' pool'' : NamePool} {seen : Finset String} {shardOf : String → Fin shardCount} {s t : String}
  {a b : Atom} {i j : Fin shardCount}

/-! ## Strings stay in place -/

/-- The strings of one shard in the order in which they came. -/
def strings (pool : NamePool) (i : Fin shardCount) : List String := pool.shards[i].toList

theorem resolve?_eq : pool.resolve? a = (pool.strings a.shard)[a.place]? := Array.getElem?_toList.symm

theorem resolve?_ofPlace {place : Nat} : pool.resolve? (.ofPlace place i) = (pool.strings i)[place]? := by
  rw [resolve?_eq, Atom.shard_ofPlace, Atom.place_ofPlace]

theorem resolve_of_resolve? (h : pool.resolve? a = some s) : pool.resolve a = s := by rw [resolve, h, Option.getD_some]

/-- Every atom keeps the string it has. -/
def Extends (pool pool' : NamePool) : Prop := ∀ ⦃a s⦄, pool.resolve? a = some s → pool'.resolve? a = some s

theorem Extends.refl (pool : NamePool) : pool.Extends pool := fun _ _ h => h

theorem Extends.trans (h : pool.Extends pool') (h' : pool'.Extends pool'') : pool.Extends pool'' :=
  fun _ _ hs => h' (h hs)

/-- The pool with one more string at the end of a shard. -/
def append (pool : NamePool) (i : Fin shardCount) (s : String) : NamePool :=
  ⟨pool.shards.set i (pool.shards[i].push s)⟩

theorem strings_append (pool : NamePool) (i j : Fin shardCount) (s : String) :
    (pool.append i s).strings j = if j = i then pool.strings i ++ [s] else pool.strings j := by
  simp only [strings, append, Fin.getElem_fin, Vector.getElem_set]
  by_cases h : j = i
  · rw [if_pos h, if_pos (congrArg Fin.val h.symm), Array.toList_push]
  · rw [if_neg h, if_neg (fun e => h (Fin.ext e.symm))]

theorem extends_append (pool : NamePool) (i : Fin shardCount) (s : String) : pool.Extends (pool.append i s) := by
  intro a t ht
  rw [resolve?_eq] at ht ⊢
  rw [strings_append]
  split
  · next h =>
    subst h
    exact (List.getElem?_append_left (List.getElem?_eq_some_iff.mp ht).1).trans ht
  · exact ht

/-- Interning finds the string in its shard, or puts it there if there is a place left. -/
theorem intern_cases (pool : NamePool) (shardOf : String → Fin shardCount) (hs : s ≠ "") :
    (∃ place, (pool.strings (shardOf s))[place]? = some s ∧
      pool.intern shardOf s = (.ofPlace place (shardOf s), pool)) ∨
    (s ∉ pool.strings (shardOf s) ∧ ((pool.strings (shardOf s)).length ≤ maxPlace → pool.intern shardOf s =
      (.ofPlace (pool.strings (shardOf s)).length (shardOf s), pool.append (shardOf s) s))) := by
  have hsearch : pool.shards[shardOf s].idxOf? s = (pool.strings (shardOf s)).idxOf? s := by
    rw [strings, ← List.idxOf?_toArray, Array.toArray_toList]
  cases hidx : (pool.strings (shardOf s)).idxOf? s with
  | some place =>
    obtain ⟨hlt, hget, -⟩ := List.idxOf?_eq_some_iff.mp hidx
    refine .inl ⟨place, List.getElem?_eq_some_iff.mpr ⟨hlt, hget⟩, ?_⟩
    simp only [intern, if_neg hs, hsearch, hidx]
  | none =>
    refine .inr ⟨List.idxOf?_eq_none_iff.mp hidx, fun hroom => ?_⟩
    simp only [intern, if_neg hs, hsearch, hidx]
    exact if_neg (Nat.not_lt.mpr hroom)

/-! ## What a pool holds -/

/-- The pool holds the empty string in the first place of shard zero and each string of `seen` once, in its shard. -/
structure Holds (shardOf : String → Fin shardCount) (pool : NamePool) (seen : Finset String) : Prop where
  nodup : ∀ i, (pool.strings i).Nodup
  mem_iff : ∀ i s, s ∈ pool.strings i ↔ (i = 0 ∧ s = "") ∨ (s ∈ seen ∧ shardOf s = i)
  first : pool.resolve? .none = some ""
  nonempty : "" ∉ seen

theorem strings_empty (i : Fin shardCount) : empty.strings i = if i = 0 then [""] else [] := by
  simp only [strings, empty, Fin.getElem_fin, Vector.getElem_set, Vector.getElem_replicate]
  by_cases h : i = 0
  · subst h
    rfl
  · rw [if_neg h, if_neg (fun e => h (Fin.ext e.symm))]

theorem holds_empty (shardOf : String → Fin shardCount) : Holds shardOf empty ∅ where
  nodup i := by
    rw [strings_empty]
    split <;> simp
  mem_iff i s := by
    rw [strings_empty]
    split <;> simp_all
  first := by
    rw [resolve?_eq, strings_empty]
    rfl
  nonempty := Finset.notMem_empty _

/-- Number of strings of `seen` that belong into one shard. -/
def load (shardOf : String → Fin shardCount) (seen : Finset String) (i : Fin shardCount) : Nat :=
  (seen.filter (shardOf · = i)).card

theorem load_mono {more : Finset String} (h : seen ⊆ more) (i : Fin shardCount) :
    load shardOf seen i ≤ load shardOf more i :=
  Finset.card_le_card (Finset.filter_subset_filter _ h)

/-- One string more weighs on its own shard. -/
theorem load_insert (hs : s ∉ seen) :
    load shardOf (insert s seen) (shardOf s) = load shardOf seen (shardOf s) + 1 := by
  rw [load, Finset.filter_insert, if_pos rfl]
  exact Finset.card_insert_of_notMem (fun h => hs (Finset.mem_of_mem_filter s h))

namespace Holds

/-- The strings of a shard are as many as belong into it, with the empty string in shard zero. -/
theorem length_strings (h : Holds shardOf pool seen) (i : Fin shardCount) :
    (pool.strings i).length = (if i = 0 then 1 else 0) + load shardOf seen i := by
  have hcontent : (pool.strings i).toFinset = (if i = 0 then {""} else ∅) ∪ seen.filter (shardOf · = i) := by
    ext s
    rw [List.mem_toFinset, h.mem_iff i s, Finset.mem_union, Finset.mem_filter]
    split <;> simp_all
  have hdisjoint : Disjoint (if i = 0 then {""} else ∅) (seen.filter (shardOf · = i)) := by
    split
    · exact Finset.disjoint_singleton_left.mpr (fun hmem => h.nonempty (Finset.mem_of_mem_filter _ hmem))
    · exact Finset.disjoint_empty_left _
  rw [← List.toFinset_card_of_nodup (h.nodup i), hcontent, Finset.card_union_of_disjoint hdisjoint, load]
  congr 1
  split <;> rfl

/-- No string has two atoms. -/
theorem atom_eq (h : Holds shardOf pool seen) (ha : pool.resolve? a = some s) (hb : pool.resolve? b = some s) :
    a = b := by
  rw [resolve?_eq] at ha hb
  have hshard : a.shard = b.shard := by
    rcases (h.mem_iff _ s).mp (List.mem_of_getElem? ha) with ⟨hzero, rfl⟩ | ⟨hseen, hshard⟩
    · rcases (h.mem_iff _ "").mp (List.mem_of_getElem? hb) with ⟨hzero', -⟩ | ⟨hseen, -⟩
      · exact hzero.trans hzero'.symm
      · exact absurd hseen h.nonempty
    · rcases (h.mem_iff _ s).mp (List.mem_of_getElem? hb) with ⟨-, rfl⟩ | ⟨-, hshard'⟩
      · exact absurd hseen h.nonempty
      · exact hshard.symm.trans hshard'
  rw [← hshard] at hb
  obtain ⟨hltA, hgetA⟩ := List.getElem?_eq_some_iff.mp ha
  obtain ⟨hltB, hgetB⟩ := List.getElem?_eq_some_iff.mp hb
  have hplace : a.place = b.place := (h.nodup a.shard).getElem_inj_iff.mp (hgetA.trans hgetB.symm)
  rw [← Atom.ofPlace_place a, ← Atom.ofPlace_place b, hshard, hplace]

/-- Every atom with a string fits a word if no shard is overfull. -/
theorem raw_lt (h : Holds shardOf pool seen) (hfits : ∀ i, load shardOf seen i ≤ maxPlace)
    (ha : pool.resolve? a = some s) : a.raw < 2 ^ 32 := by
  rw [resolve?_eq] at ha
  obtain ⟨hlt, -⟩ := List.getElem?_eq_some_iff.mp ha
  rw [h.length_strings] at hlt
  have hload := hfits a.shard
  rw [← Atom.ofPlace_place a]
  exact Atom.raw_ofPlace_lt _ (by split at hlt <;> omega)

/-- Only the empty string has the empty atom. -/
theorem ne_none (h : Holds shardOf pool seen) (ha : pool.resolve? a = some s) (hs : s ≠ "") : a ≠ .none := by
  rintro rfl
  exact hs (Option.some.inj (ha.symm.trans h.first))

/-- A string put at the end of its shard. -/
theorem append (h : Holds shardOf pool seen) (hs : s ≠ "") (hnew : s ∉ pool.strings (shardOf s)) :
    Holds shardOf (pool.append (shardOf s) s) (insert s seen) where
  nodup i := by
    rw [strings_append]
    split
    · exact List.concat_eq_append ▸ (h.nodup _).concat hnew
    · exact h.nodup i
  mem_iff i t := by
    rw [strings_append, Finset.mem_insert, or_and_right]
    split
    · next hi =>
      subst hi
      rw [List.mem_append, List.mem_singleton, h.mem_iff]
      grind
    · next hi =>
      rw [h.mem_iff]
      grind
  first := extends_append pool _ s h.first
  nonempty hmem := by
    rcases Finset.mem_insert.mp hmem with hempty | hseen
    · exact hs hempty.symm
    · exact h.nonempty hseen

/-- Taking in a string keeps what a pool holds and gives the atom at which the string is found. -/
theorem intern (h : Holds shardOf pool seen) (hs : s ≠ "")
    (hfits : load shardOf (insert s seen) (shardOf s) ≤ maxPlace) :
    Holds shardOf (pool.intern shardOf s).2 (insert s seen) ∧ pool.Extends (pool.intern shardOf s).2 ∧
    (pool.intern shardOf s).2.resolve? (pool.intern shardOf s).1 = some s := by
  rcases intern_cases pool shardOf hs with ⟨place, hplace, hintern⟩ | ⟨hnew, hintern⟩
  · have hseen : s ∈ seen := by
      rcases (h.mem_iff _ s).mp (List.mem_of_getElem? hplace) with ⟨-, hempty⟩ | ⟨hseen, -⟩
      · exact absurd hempty hs
      · exact hseen
    rw [hintern, Finset.insert_eq_of_mem hseen, resolve?_ofPlace]
    exact ⟨h, .refl pool, hplace⟩
  · have hunseen : s ∉ seen := fun hseen => hnew ((h.mem_iff _ s).mpr (.inr ⟨hseen, rfl⟩))
    have hroom : (pool.strings (shardOf s)).length ≤ maxPlace := by
      rw [load_insert hunseen] at hfits
      rw [h.length_strings]
      split <;> omega
    rw [hintern hroom, resolve?_ofPlace, strings_append, if_pos rfl]
    exact ⟨h.append hs hnew, extends_append pool _ s, List.getElem?_concat_length⟩

end Holds

/-- The strings of a pool are those of its shards. -/
theorem size_eq_sum (pool : NamePool) : pool.size = ∑ i, (pool.strings i).length := by
  have hshards : pool.shards.toList = List.ofFn (fun i : Fin shardCount => pool.shards[i]) :=
    List.ext_getElem (by simp only [Vector.length_toList, List.length_ofFn]) (fun n _ _ => by
      rw [List.getElem_ofFn, Vector.getElem_toList]
      rfl)
  calc pool.size = (pool.shards.toList.map Array.size).sum := by
        rw [size, ← Vector.foldl_toList, List.sum_eq_foldl, List.foldl_map]
    _ = ∑ i : Fin shardCount, pool.shards[i].size := by rw [hshards, List.map_ofFn, List.sum_ofFn]; rfl

theorem Holds.size_eq (h : Holds shardOf pool seen) : pool.size = 1 + seen.card := by
  calc pool.size = ∑ i, ((if i = 0 then 1 else 0) + load shardOf seen i) := by
        rw [size_eq_sum]
        exact Finset.sum_congr rfl (fun i _ => h.length_strings i)
    _ = 1 + ∑ i, load shardOf seen i := by rw [Finset.sum_add_distrib, Finset.sum_ite_eq', if_pos (Finset.mem_univ _)]
    _ = 1 + seen.card := by
        rw [Finset.card_eq_sum_card_fiberwise (f := shardOf) (t := Finset.univ) (fun _ _ => Finset.mem_univ _)]
        rfl

/-! ## Calls -/

/-- A call that takes strings into a pool. -/
inductive Call where
  | intern (s : String)
  | internCommon

namespace Call

/-- The strings that a call takes in. -/
def strings : Call → List String
  | .intern s => [s]
  | .internCommon => commonNames

/-- The pool after a call. -/
def run (shardOf : String → Fin shardCount) (pool : NamePool) : Call → NamePool
  | .intern s => (pool.intern shardOf s).2
  | .internCommon => pool.internCommon shardOf

end Call

/-- The pool after calls, the empty pool being the first. -/
def after (shardOf : String → Fin shardCount) (calls : List Call) : NamePool := calls.foldl (Call.run shardOf) empty

/-- The distinct strings that calls take in, the empty one left out. -/
def taken (calls : List Call) : Finset String := (calls.flatMap Call.strings).toFinset.erase ""

/-- Fewer than 2²⁶ strings go into each shard. -/
def Fits (shardOf : String → Fin shardCount) (calls : List Call) : Prop :=
  ∀ i, ((taken calls).filter (shardOf · = i)).card < 2 ^ 26

/-- One of the calls has interned `s` and was given `a` for it. -/
def Handed (shardOf : String → Fin shardCount) (calls : List Call) (s : String) (a : Atom) : Prop :=
  ∃ before later, calls = before ++ .intern s :: later ∧ ((after shardOf before).intern shardOf s).1 = a

/-! ## What the calls leave -/

/-- The pool with strings taken in one after the other. -/
def takeIn (shardOf : String → Fin shardCount) (pool : NamePool) (ss : List String) : NamePool :=
  ss.foldl (fun p s => (p.intern shardOf s).2) pool

theorem takeIn_append (ss ts : List String) :
    takeIn shardOf pool (ss ++ ts) = takeIn shardOf (takeIn shardOf pool ss) ts :=
  List.foldl_append

theorem after_eq (shardOf : String → Fin shardCount) (calls : List Call) :
    after shardOf calls = takeIn shardOf empty (calls.flatMap Call.strings) := by
  have hrun : ∀ pool, calls.foldl (Call.run shardOf) pool = takeIn shardOf pool (calls.flatMap Call.strings) := by
    induction calls with
    | nil => exact fun pool => rfl
    | cons call calls ih =>
      intro pool
      rw [List.foldl_cons, ih, List.flatMap_cons, takeIn_append]
      cases call <;> rfl
  exact hrun empty

/-- Strings that fit are held afterwards, and what was there has not moved. -/
theorem Holds.takeIn (h : Holds shardOf pool seen) (ss : List String)
    (hfits : ∀ i, load shardOf (seen ∪ ss.toFinset.erase "") i ≤ maxPlace) :
    Holds shardOf (pool.takeIn shardOf ss) (seen ∪ ss.toFinset.erase "") ∧ pool.Extends (pool.takeIn shardOf ss) := by
  induction ss generalizing pool seen with
  | nil =>
    rw [List.toFinset_nil, Finset.erase_empty, Finset.union_empty]
    exact ⟨h, .refl pool⟩
  | cons s ss ih =>
    by_cases hs : s = ""
    · subst hs
      have hsame : ("" :: ss).toFinset.erase "" = ss.toFinset.erase "" := by
        rw [List.toFinset_cons, Finset.erase_insert_eq_erase]
      rw [hsame] at hfits ⊢
      exact ih h hfits
    · have hmore : seen ∪ (s :: ss).toFinset.erase "" = insert s seen ∪ ss.toFinset.erase "" := by
        rw [List.toFinset_cons, Finset.erase_insert_of_ne hs, Finset.union_insert, Finset.insert_union]
      rw [hmore] at hfits ⊢
      have hload : load shardOf (insert s seen) (shardOf s) ≤ maxPlace :=
        (load_mono Finset.subset_union_left _).trans (hfits _)
      obtain ⟨hholds, hext, -⟩ := h.intern hs hload
      obtain ⟨hlater, hext'⟩ := ih hholds hfits
      exact ⟨hlater, hext.trans hext'⟩

section
variable {calls before later : List Call}

theorem taken_append : taken (before ++ later) = taken before ∪ (later.flatMap Call.strings).toFinset.erase "" := by
  rw [taken, taken, List.flatMap_append, List.toFinset_append, Finset.erase_union_distrib]

theorem taken_concat (hs : s ≠ "") : taken (before ++ [.intern s]) = insert s (taken before) := by
  have hnew : ([Call.intern s].flatMap Call.strings).toFinset.erase "" = {s} :=
    Finset.erase_eq_of_notMem (fun h => hs (Finset.mem_singleton.mp h).symm)
  rw [taken_append, hnew, Finset.union_comm, ← Finset.insert_eq]

/-- Calls that fit have fitted from the beginning. -/
theorem Fits.of_append (h : Fits shardOf (before ++ later)) : Fits shardOf before := fun i =>
  (load_mono (taken_append ▸ Finset.subset_union_left) i).trans_lt (h i)

theorem Fits.load_le (h : Fits shardOf calls) (i : Fin shardCount) : load shardOf (taken calls) i ≤ maxPlace :=
  Nat.le_of_lt_succ (h i)

/-- Calls that fit fill the pool with the strings they take in. -/
theorem holds_after (h : Fits shardOf calls) : Holds shardOf (after shardOf calls) (taken calls) := by
  have hholds := (holds_empty shardOf).takeIn (calls.flatMap Call.strings) (by
    rw [Finset.empty_union]
    exact h.load_le)
  rw [Finset.empty_union] at hholds
  rw [after_eq]
  exact hholds.1

/-- Later calls move no string. -/
theorem extends_after (h : Fits shardOf (before ++ later)) :
    (after shardOf before).Extends (after shardOf (before ++ later)) := by
  have hext := ((holds_after h.of_append).takeIn (later.flatMap Call.strings) (taken_append ▸ h.load_le)).2
  rw [after_eq shardOf before] at hext ⊢
  rwa [after_eq, List.flatMap_append, takeIn_append]

/-- A string that was interned is found at the atom that was given for it. -/
theorem Handed.resolve? (h : Fits shardOf calls) (hs : Handed shardOf calls s a) :
    (after shardOf calls).resolve? a = some s := by
  obtain ⟨before, later, rfl, rfl⟩ := hs
  rw [List.append_cons] at h ⊢
  refine extends_after h ?_
  have hafter : after shardOf (before ++ [.intern s]) = ((after shardOf before).intern shardOf s).2 :=
    List.foldl_concat _ _ _ _
  rw [hafter]
  by_cases hempty : s = ""
  · subst hempty
    exact (holds_after h.of_append.of_append).first
  · have hload : load shardOf (insert s (taken before)) (shardOf s) ≤ maxPlace :=
      taken_concat hempty ▸ h.of_append.load_le _
    exact ((holds_after h.of_append.of_append).intern hempty hload).2.2

end

/-- **Strings and atoms correspond, whatever function spreads the strings over the shards.** As long as fewer than 2²⁶
strings go into each shard, an atom that was given for a string resolves to it from then on, after any calls; it is the
empty atom for the empty string only, and fits a word. Two calls give the same atom if and only if they intern the same
string, and the pool has one string more than there were distinct strings other than the empty one. -/
theorem interning_is_bijective (shardOf : String → Fin shardCount) (calls : List Call) (hfits : Fits shardOf calls) :
    (∀ sofar, sofar <+: calls → ∀ s a, Handed shardOf sofar s a →
      (after shardOf sofar).resolve? a = some s ∧ (after shardOf sofar).resolve a = s ∧
      (s ≠ "" → a ≠ .none) ∧ a.raw < 2 ^ 32) ∧
    (∀ s a t b, Handed shardOf calls s a → Handed shardOf calls t b → (a = b ↔ s = t)) ∧
    (after shardOf calls).size = 1 + (taken calls).card := by
  refine ⟨?_, ?_, (holds_after hfits).size_eq⟩
  · rintro sofar ⟨later, rfl⟩ s a hs
    have hresolve := hs.resolve? hfits.of_append
    have hholds := holds_after hfits.of_append
    exact ⟨hresolve, resolve_of_resolve? hresolve, hholds.ne_none hresolve,
      hholds.raw_lt hfits.of_append.load_le hresolve⟩
  · intro s a t b hs ht
    have hresolveS := hs.resolve? hfits
    have hresolveT := ht.resolve? hfits
    constructor
    · rintro rfl
      exact Option.some.inj (hresolveS.symm.trans hresolveT)
    · rintro rfl
      exact (holds_after hfits).atom_eq hresolveS hresolveT

/-- Calls whose strings all go into the shard of the empty string. -/
def crowd : List Call := [.intern "x", .intern "", .internCommon, .intern "Any", .intern "x"]

theorem interning_is_bijective_crowd :
    Fits (fun _ => 0) crowd ∧ (after (fun _ => 0) crowd).resolve ⟨64⟩ = "x" ∧
    (after (fun _ => 0) crowd).resolve ⟨128⟩ = "Any" ∧ (after (fun _ => 0) crowd).size = 18 := by
  have hfits : Fits (fun _ => 0) crowd := fun i => (Finset.card_filter_le _ _).trans_lt (by decide)
  have hx : Handed (fun _ => 0) crowd "x" ⟨64⟩ := ⟨[], _, rfl, by decide +kernel⟩
  have hany : Handed (fun _ => 0) crowd "Any" ⟨128⟩ :=
    ⟨[.intern "x", .intern "", .internCommon], _, rfl, by decide +kernel⟩
  obtain ⟨hresolve, -, hsize⟩ := interning_is_bijective (fun _ => 0) crowd hfits
  exact ⟨hfits, (hresolve crowd (List.prefix_refl _) _ _ hx).2.1, (hresolve crowd (List.prefix_refl _) _ _ hany).2.1,
    hsize.trans (by decide)⟩

end NamePool

end Conformance
