/-!
# Tables

A table holds at most one value under each key.
-/

namespace Backlog

structure Table (κ α : Type) where
  entries : List (κ × α) := []
  nodup : (entries.map Prod.fst).Nodup := by simp

namespace Table

variable {κ α : Type}

theorem nodup_filter (p : κ × α → Bool) {l : List (κ × α)} (h : (l.map Prod.fst).Nodup) :
    ((l.filter p).map Prod.fst).Nodup :=
  h.sublist (List.filter_sublist.map _)

variable [DecidableEq κ]

def empty : Table κ α := {}

instance : Inhabited (Table κ α) := ⟨empty⟩

def size (t : Table κ α) : Nat := t.entries.length

def find? (t : Table κ α) (k : κ) : Option α := t.entries.lookup k

def contains (t : Table κ α) (k : κ) : Bool := (t.find? k).isSome

def erase (t : Table κ α) (k : κ) : Table κ α where
  entries := t.entries.filter (·.1 ≠ k)
  nodup := nodup_filter _ t.nodup

/-- A value that was under the key is replaced. -/
def insert (t : Table κ α) (k : κ) (a : α) : Table κ α where
  entries := (k, a) :: (t.erase k).entries
  nodup := by
    have := (t.erase k).nodup
    simp_all [erase]

theorem lookup_filter (l : List (κ × α)) (k j : κ) :
    (l.filter (·.1 ≠ k)).lookup j = if j = k then none else l.lookup j := by
  induction l with
  | nil => simp
  | cons e l ih =>
    obtain ⟨i, a⟩ := e
    by_cases hi : i = k <;> by_cases hj : j = i <;> simp_all [List.lookup_cons]
    all_goals grind

@[simp] theorem find?_empty (k : κ) : (empty : Table κ α).find? k = none := rfl

theorem find?_erase (t : Table κ α) (k j : κ) :
    (t.erase k).find? j = if j = k then none else t.find? j := lookup_filter ..

theorem find?_insert (t : Table κ α) (k j : κ) (a : α) :
    (t.insert k a).find? j = if j = k then some a else t.find? j := by
  by_cases h : j = k
  · simp [find?, insert, h]
  · have hb : (j == k) = false := by simpa using h
    rw [if_neg h, ← show (t.erase k).find? j = t.find? j by simp [find?_erase, h]]
    simp [find?, insert, List.lookup_cons, hb]

@[simp] theorem find?_insert_same (t : Table κ α) (k : κ) (a : α) :
    (t.insert k a).find? k = some a := by simp [find?_insert]

theorem contains_iff (t : Table κ α) (k : κ) : t.contains k ↔ ∃ a, t.find? k = some a := by
  simp [contains, Option.isSome_iff_exists]

@[simp] theorem contains_insert (t : Table κ α) (k j : κ) (a : α) :
    (t.insert k a).contains j = (j == k || t.contains j) := by
  by_cases h : j = k <;> simp [contains, find?_insert, h]

@[simp] theorem contains_erase (t : Table κ α) (k j : κ) :
    (t.erase k).contains j = (j != k && t.contains j) := by
  by_cases h : j = k <;> simp [contains, find?_erase, h]

@[simp] theorem find?_erase_same (t : Table κ α) (k : κ) : (t.erase k).find? k = none := by
  simp [find?_erase]

end Table

end Backlog
