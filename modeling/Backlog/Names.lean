import Backlog.Insertion

/-!
# Sets of names

A set of strings, kept as an ascending list. Strings ascend by code point.
-/

namespace Backlog

structure Names where
  toList : List String := []
  ascending : toList.Pairwise (fun a b => compare a b = .lt) := by simp
  deriving DecidableEq

namespace Names

def empty : Names := {}

instance : Inhabited Names := ⟨empty⟩

def contains (s : Names) (x : String) : Bool := x ∈ s.toList

def isEmpty (s : Names) : Bool := s.toList.isEmpty

theorem pairwise_insertOrdered {x : String} {l : List String}
    (h : l.Pairwise (fun a b => compare a b = .lt)) :
    (insertOrdered compare x l).Pairwise (fun a b => compare a b = .lt) :=
  Backlog.pairwise_insertOrdered (fun hab hbc => Std.TransCmp.lt_trans hab hbc) (fun _ _ h => h)
    (fun _ _ h => Std.OrientedCmp.lt_of_gt h) h

def insert (s : Names) (x : String) : Names where
  toList := insertOrdered compare x s.toList
  ascending := pairwise_insertOrdered s.ascending

def erase (s : Names) (x : String) : Names where
  toList := s.toList.filter (· ≠ x)
  ascending := s.ascending.sublist List.filter_sublist

@[simp] theorem contains_empty (x : String) : empty.contains x = false := rfl

@[simp] theorem contains_insert (s : Names) (x y : String) :
    (s.insert x).contains y = (y == x || s.contains y) := by
  have h : y ∈ insertOrdered compare x s.toList ↔ y = x ∨ y ∈ s.toList :=
    mem_insertOrdered_iff fun _ => Std.LawfulEqCmp.eq_of_compare
  by_cases hx : y = x <;> simp_all [contains, insert]

@[simp] theorem contains_erase (s : Names) (x y : String) :
    (s.erase x).contains y = (y != x && s.contains y) := by
  by_cases hx : y = x <;> simp [contains, erase, hx]

def ofList (l : List String) : Names := l.foldl insert empty

end Names

end Backlog
