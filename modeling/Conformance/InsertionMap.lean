/-!
# Maps in insertion order

A finite map that remembers the order in which its keys first came: a key that comes again keeps its place and takes
the new value. The view of a map is `find?`; `find?_insert` and `find?_erase` say what the two updates do to it.
-/

namespace Conformance

/-- A finite map, its entries in the order in which their keys first came. -/
structure InsertionMap (α β : Type) where
  entries : List (α × β) := []

namespace InsertionMap

variable {α β : Type} [DecidableEq α]

/-- Sets the value of `k` in a list of entries. -/
def put (k : α) (v : β) : List (α × β) → List (α × β)
  | [] => [(k, v)]
  | e :: rest => if e.1 = k then (k, v) :: rest else e :: put k v rest

/-- The value of `k`. -/
def find? (m : InsertionMap α β) (k : α) : Option β := m.entries.lookup k

/-- Whether `k` has a value. -/
def contains (m : InsertionMap α β) (k : α) : Bool := (m.find? k).isSome

/-- Gives `k` the value `v`. -/
def insert (m : InsertionMap α β) (k : α) (v : β) : InsertionMap α β := ⟨put k v m.entries⟩

/-- Takes `k` out. -/
def erase (m : InsertionMap α β) (k : α) : InsertionMap α β := ⟨m.entries.filter (·.1 ≠ k)⟩

/-- The keys in order. -/
def keys (m : InsertionMap α β) : List α := m.entries.map (·.1)

/-- Number of entries. -/
def size (m : InsertionMap α β) : Nat := m.entries.length

def isEmpty (m : InsertionMap α β) : Bool := m.entries.isEmpty

@[simp] theorem find?_empty (k : α) : (⟨[]⟩ : InsertionMap α β).find? k = none := rfl

theorem lookup_put (k : α) (v : β) (l : List (α × β)) (x : α) :
    (put k v l).lookup x = if x = k then some v else l.lookup x := by
  induction l with
  | nil => by_cases h : x = k <;> simp [put, h, List.lookup_cons, beq_false_of_ne]
  | cons e rest ih =>
    obtain ⟨a, b⟩ := e
    by_cases ha : a = k
    · subst ha; by_cases h : x = a <;> simp [put, List.lookup_cons, h, beq_false_of_ne]
    · by_cases hx : x = a
      · subst hx; simp [put, ha]
      · simp only [put, ha, if_false, List.lookup_cons, beq_false_of_ne hx, ih]

/-- An insertion changes the value of its key only. -/
@[simp] theorem find?_insert (m : InsertionMap α β) (k : α) (v : β) (x : α) :
    (m.insert k v).find? x = if x = k then some v else m.find? x := lookup_put k v m.entries x

/-- An entry after an insertion is the new one or was there before. -/
theorem mem_put {k : α} {v : β} {e : α × β} {l : List (α × β)} (h : e ∈ put k v l) : e = (k, v) ∨ e ∈ l := by
  induction l with
  | nil => exact .inl (List.mem_singleton.1 h)
  | cons a l ih =>
    rw [put] at h
    split at h
    · exact (List.mem_cons.1 h).imp_right (List.mem_cons_of_mem a)
    · rcases List.mem_cons.1 h with rfl | h
      · exact .inr List.mem_cons_self
      · exact (ih h).imp_right (List.mem_cons_of_mem a)

theorem mem_of_find? {m : InsertionMap α β} {k : α} {v : β} (h : m.find? k = some v) : (k, v) ∈ m.entries := by
  obtain ⟨l₁, l₂, hl, -⟩ := List.lookup_eq_some_iff.1 h
  rw [hl]
  exact List.mem_append_right _ List.mem_cons_self

theorem lookup_filter_ne (k : α) (l : List (α × β)) (x : α) :
    (l.filter (·.1 ≠ k)).lookup x = if x = k then none else l.lookup x := by
  induction l with
  | nil => simp
  | cons e rest ih =>
    obtain ⟨a, b⟩ := e
    by_cases ha : a = k
    · subst ha
      by_cases hx : x = a
      · subst hx; simpa using ih
      · have hb : (x == a) = false := by simpa using hx
        simpa [List.lookup_cons, hx, hb] using ih
    · by_cases hx : x = a
      · subst hx; simp [ha]
      · have hb : (x == a) = false := by simpa using hx
        simpa [List.lookup_cons, ha, hb] using ih

/-- An erasure changes the value of its key only. -/
@[simp] theorem find?_erase (m : InsertionMap α β) (k x : α) :
    (m.erase k).find? x = if x = k then none else m.find? x := lookup_filter_ne k m.entries x

end InsertionMap

end Conformance
