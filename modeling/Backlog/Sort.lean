/-!
# Sorting by a comparison that may fail

A stable sort. Each half of the list is cut into runs of seven; the runs are sorted by
insertion and merged in pairs, round after round, and at last the halves are merged. The
first comparison that fails ends it, so the order in which pairs are compared is part of the
result.
-/

namespace Backlog.Sort

variable {α ε : Type}

/-- Takes from `ys` where `test` says so, else from `xs`. -/
def merge (test : α → α → Except ε Bool) : List α → List α → Except ε (List α)
  | [], ys => .ok ys
  | xs, [] => .ok xs
  | x :: xs, y :: ys => do
    if ← test x y then return y :: (← merge test (x :: xs) ys)
    else return x :: (← merge test xs (y :: ys))
termination_by xs ys => xs.length + ys.length

/-- The elements of a descending list, with `x` where it comes before no later one. -/
def place (before : α → α → Except ε Bool) (x : α) : List α → Except ε (List α)
  | [] => .ok [x]
  | y :: ys => do
    if ← before x y then return y :: (← place before x ys)
    else return x :: y :: ys

/-- An element that comes before all others needs one comparison. -/
def insert (before : α → α → Except ε Bool) (desc : List α) (x : α) : Except ε (List α) := do
  match desc.getLast? with
  | none => return [x]
  | some least => if ← before x least then return desc ++ [x] else place before x desc

/-- A run sorted by insertion. -/
def insertion (before : α → α → Except ε Bool) (xs : List α) : Except ε (List α) :=
  return (← xs.foldlM (insert before) []).reverse

/-- The list in runs of seven; the last may be shorter. -/
def runs : List α → List (List α)
  | [] => []
  | x :: xs => (x :: xs.take 6) :: runs (xs.drop 6)
termination_by xs => xs.length
decreasing_by simp only [List.length_drop, List.length_cons]; omega

/-- One round: each run is merged with its neighbour. -/
def pairs (before : α → α → Except ε Bool) : List (List α) → Except ε (List (List α))
  | xs :: ys :: rest =>
    return (← merge (fun x y => before y x) xs ys) :: (← pairs before rest)
  | rest => .ok rest

/-- As many rounds as there are runs at first leave one run at most. -/
def rounds (before : α → α → Except ε Bool) : Nat → List (List α) → Except ε (List (List α))
  | 0, rs => .ok rs
  | n + 1, rs => do rounds before n (← pairs before rs)

/-- A half, sorted by rounds until it is one run. -/
def half (before : α → α → Except ε Bool) (xs : List α) : Except ε (List α) := do
  let sorted ← (runs xs).mapM (insertion before)
  return (← rounds before sorted.length sorted).flatten

/-- The last merge begins at the front unless the first half is the longer one. -/
def sort (before : α → α → Except ε Bool) (xs : List α) : Except ε (List α) := do
  let middle := (xs.length + 1) / 2
  let first ← half before (xs.take middle)
  let second ← half before (xs.drop middle)
  if first.length ≤ second.length then merge (fun x y => before y x) first second
  else return (← merge before second.reverse first.reverse).reverse

end Backlog.Sort
