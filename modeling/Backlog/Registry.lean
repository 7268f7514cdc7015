/-!
# Numbered objects

A registry knows objects by number, in the order they were made. `size` is the number that
the next one gets. A number that nothing was put under reads as the default, so that reading
never fails and writing always takes.
-/

namespace Backlog

structure Registry (α : Type) [Inhabited α] where
  cells : Array α := #[]

namespace Registry

variable {α : Type} [Inhabited α]

instance : Inhabited (Registry α) := ⟨{}⟩

def size (m : Registry α) : Nat := m.cells.size

def get (m : Registry α) (i : Nat) : α := m.cells.getD i default

/-- Numbers below `i` that nothing was put under get the default. -/
def put (m : Registry α) (i : Nat) (x : α) : Registry α :=
  if h : i < m.cells.size then ⟨m.cells.set i x h⟩
  else ⟨(m.cells ++ Array.replicate (i - m.cells.size) default).push x⟩

/-- The object gets the first unused number. -/
def add (m : Registry α) (x : α) : Registry α := m.put m.size x

def modify (m : Registry α) (i : Nat) (f : α → α) : Registry α := m.put i (f (m.get i))

theorem get_of_size_le {m : Registry α} {i : Nat} (h : m.size ≤ i) : m.get i = default := by
  simp only [get, size] at *
  simp [Array.getD_eq_getD_getElem?, Array.getElem?_eq_none h]

theorem get_put (m : Registry α) (i j : Nat) (x : α) :
    (m.put i x).get j = if j = i then x else m.get j := by
  unfold put
  split
  · rename_i h
    simp only [get, Array.getD_eq_getD_getElem?, Array.getElem?_set]
    by_cases hj : j = i
    · simp [hj]
    · simp [hj, Ne.symm hj]
  · rename_i h
    simp only [get, Array.getD_eq_getD_getElem?, Array.getElem?_push, Array.getElem?_append,
      Array.size_append, Array.size_replicate, Array.getElem?_replicate]
    by_cases hj : j = i
    · simp [hj, show m.cells.size + (i - m.cells.size) = i by omega]
    · by_cases hs : j < m.cells.size
      · have : j ≠ m.cells.size + (i - m.cells.size) := by omega
        simp [hj, hs, this]
      · have : j ≠ m.cells.size + (i - m.cells.size) := by omega
        simp only [hj, hs, this, ↓reduceIte, Array.getElem?_eq_none (Nat.le_of_not_lt hs)]
        split <;> rfl

@[simp] theorem get_put_same (m : Registry α) (i : Nat) (x : α) : (m.put i x).get i = x := by
  simp [get_put]

@[simp] theorem get_put_other (m : Registry α) {i j : Nat} (x : α) (h : j ≠ i) :
    (m.put i x).get j = m.get j := by
  simp [get_put, h]

theorem size_put (m : Registry α) (i : Nat) (x : α) : (m.put i x).size = max m.size (i + 1) := by
  unfold put
  split <;> simp [size] <;> omega

@[simp] theorem size_add (m : Registry α) (x : α) : (m.add x).size = m.size + 1 := by
  simp only [add, size_put]; omega

theorem get_add (m : Registry α) (x : α) (j : Nat) :
    (m.add x).get j = if j = m.size then x else m.get j := get_put ..

theorem get_modify (m : Registry α) (i j : Nat) (f : α → α) :
    (m.modify i f).get j = if j = i then f (m.get i) else m.get j := get_put ..

theorem size_modify (m : Registry α) (i : Nat) (f : α → α) :
    (m.modify i f).size = max m.size (i + 1) := size_put ..

/-- Registries of one size that read alike are the same. -/
theorem ext_get {m n : Registry α} (hs : m.size = n.size) (h : ∀ i, m.get i = n.get i) :
    m = n := by
  obtain ⟨a⟩ := m
  obtain ⟨b⟩ := n
  refine congrArg mk (Array.ext hs fun i hi hj => ?_)
  simpa [get, Array.getD_eq_getD_getElem?, hi, hj] using h i

end Registry

end Backlog
