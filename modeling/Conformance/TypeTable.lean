import Std.Data.TreeMap
import Conformance.Shape

/-!
# The table of types

Every shape is kept once, so equal shapes have equal handles. The table is the list of shapes in the order in which
they came, with an index from the code of a shape to its place; `index_eq` ties the two together. Taking in a shape
that is present changes nothing (`intern_of_shape?`), and never changes what a handle given out before stands for
(`shape?_intern_of_shape?`).
-/

namespace Conformance

/-- All types: the shape of each handle, and the place of each shape. -/
structure TypeTable where
  shapes : Array Shape
  index : Std.TreeMap (List Nat) Nat
  index_eq : ∀ (d : Shape) (i : Nat), index[d.code]? = some i ↔ shapes[i]? = some d

namespace TypeTable

/-- The table that holds nothing. -/
def empty : TypeTable := ⟨#[], ∅, fun d i => by simp⟩

/-- The shape of `t`, if the handle was given out. -/
def shape? (tbl : TypeTable) (t : Ty) : Option Shape := tbl.shapes[t.id]?

/-- The shape of `t`; a handle never given out reads as the absent type. -/
def shape (tbl : TypeTable) (t : Ty) : Shape := (tbl.shape? t).getD (.fixed .noType)

/-- The handle of a shape that is present. -/
def find? (tbl : TypeTable) (d : Shape) : Option Ty := (tbl.index[d.code]?).map Ty.mk

/-- Number of types. -/
def size (tbl : TypeTable) : Nat := tbl.shapes.size

/-- The handle of `d`, which is taken in if it is new. -/
def intern (tbl : TypeTable) (d : Shape) : Ty × TypeTable :=
  match tbl with
  | ⟨shapes, index, index_eq⟩ =>
    match h : index[d.code]? with
    | some i => (⟨i⟩, ⟨shapes, index, index_eq⟩)
    | none =>
      let i := shapes.size
      (⟨i⟩, ⟨shapes.push d, index.insert d.code i, fun e j => by
        rw [Std.TreeMap.getElem?_insert, Array.getElem?_push]
        by_cases he : d = e
        · subst he
          have hj : shapes[j]? ≠ some d := fun hc => by simp [(index_eq d j).2 hc] at h
          by_cases hs : j = shapes.size
          · subst hs; simp [i]
          · simpa [hs, hj, i] using Ne.symm hs
        · have hc : compare d.code e.code ≠ .eq := by simpa using he
          by_cases hs : j = shapes.size
          · subst hs; simp [hc, he, index_eq]
          · simp [hc, hs, index_eq]⟩)

/-! ## What the table holds after taking in a shape -/

theorem find?_eq_some_iff {tbl : TypeTable} {d : Shape} {t : Ty} : tbl.find? d = some t ↔ tbl.shape? t = some d := by
  obtain ⟨i⟩ := t
  simp [find?, shape?, ← tbl.index_eq d i]

/-- Different handles have different shapes. -/
theorem shape?_injective {tbl : TypeTable} {s t : Ty} {d : Shape} (hs : tbl.shape? s = some d)
    (ht : tbl.shape? t = some d) : s = t := by
  have := find?_eq_some_iff.2 hs
  rw [find?_eq_some_iff.2 ht] at this
  exact (Option.some.inj this).symm

/-- Taking in a shape that is present gives its handle and changes nothing. -/
theorem intern_of_shape? {tbl : TypeTable} {t : Ty} {d : Shape} (h : tbl.shape? t = some d) :
    tbl.intern d = (t, tbl) := by
  obtain ⟨shapes, index, index_eq⟩ := tbl
  have hi : index[d.code]? = some t.id := (index_eq d t.id).2 h
  simp only [intern]
  split
  · next i hd => rw [hi] at hd; obtain rfl := Option.some.inj hd; rfl
  · next hd => rw [hi] at hd; cases hd

/-- Taking in a new shape appends it. -/
theorem intern_of_find?_none {tbl : TypeTable} {d : Shape} (h : tbl.find? d = none) :
    (tbl.intern d).1 = ⟨tbl.size⟩ ∧ (tbl.intern d).2.shapes = tbl.shapes.push d := by
  obtain ⟨shapes, index, index_eq⟩ := tbl
  have hi : index[d.code]? = none := by simpa [find?] using h
  simp only [intern]
  split
  · next i hd => rw [hi] at hd; cases hd
  · exact ⟨rfl, rfl⟩

/-- The handle that comes back stands for the shape that was taken in. -/
theorem shape?_intern (tbl : TypeTable) (d : Shape) : (tbl.intern d).2.shape? (tbl.intern d).1 = some d := by
  cases h : tbl.find? d with
  | some t => rw [intern_of_shape? (find?_eq_some_iff.1 h)]; exact find?_eq_some_iff.1 h
  | none => obtain ⟨h1, h2⟩ := intern_of_find?_none h; simp [shape?, h1, h2, size]

/-- A handle given out keeps its shape. -/
theorem shape?_intern_of_shape? {tbl : TypeTable} {t : Ty} {e : Shape} (d : Shape) (h : tbl.shape? t = some e) :
    (tbl.intern d).2.shape? t = some e := by
  cases hf : tbl.find? d with
  | some s => rw [intern_of_shape? (find?_eq_some_iff.1 hf)]; exact h
  | none =>
    have hlt : t.id < tbl.shapes.size := (Array.getElem?_eq_some_iff.1 h).1
    simpa [shape?, (intern_of_find?_none hf).2, Array.getElem?_push, Nat.ne_of_lt hlt] using h

end TypeTable

end Conformance
