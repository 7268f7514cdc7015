/-!
# Insertion into a sorted list

A sorted list without duplicates is kept by putting every new element in its place. The place
is found by comparison, from the front of the list.
-/

namespace Backlog

/-- A list that ascends along `cmp`, with `x` at its place. A member that compares equal keeps
its place and `x` stays out. -/
def insertOrdered {α : Type} (cmp : α → α → Ordering) (x : α) : List α → List α
  | [] => [x]
  | y :: ys =>
    match cmp x y with
    | .lt => x :: y :: ys
    | .eq => y :: ys
    | .gt => y :: insertOrdered cmp x ys

variable {α : Type} {cmp cmp' : α → α → Ordering} {x y a : α} {l k : List α}

/-- An element is put in its place or stays out, and the others stay. -/
theorem insertOrdered_cases (cmp : α → α → Ordering) (x : α) (l : List α) :
    insertOrdered cmp x l = l ∨ (insertOrdered cmp x l).Perm (x :: l) := by
  induction l with
  | nil => exact .inr (.refl _)
  | cons y ys ih =>
    simp only [insertOrdered]
    split
    · exact .inr (.refl _)
    · exact .inl rfl
    · exact ih.imp (congrArg (y :: ·)) fun h => (h.cons y).trans (.swap x y ys)

/-- An element that compares equal to none is put in its place. -/
theorem insertOrdered_perm (h : ∀ y ∈ l, cmp x y ≠ .eq) : (insertOrdered cmp x l).Perm (x :: l) := by
  induction l with
  | nil => exact .refl _
  | cons y ys ih =>
    simp only [insertOrdered]
    split
    · exact .refl _
    · rename_i hxy
      exact absurd hxy (h y List.mem_cons_self)
    · have hys := ih fun z hz => h z (List.mem_cons_of_mem y hz)
      exact (hys.cons y).trans (.swap x y ys)

theorem sublist_insertOrdered (cmp : α → α → Ordering) (x : α) (l : List α) :
    l.Sublist (insertOrdered cmp x l) := by
  induction l with
  | nil => exact List.nil_sublist _
  | cons y ys ih =>
    simp only [insertOrdered]
    split
    · exact List.sublist_cons_self ..
    · exact .refl _
    · exact ih.cons_cons y

theorem mem_insertOrdered (h : a ∈ insertOrdered cmp x l) : a = x ∨ a ∈ l := by
  rcases insertOrdered_cases cmp x l with he | hp
  · exact .inr (he ▸ h)
  · exact List.mem_cons.mp (hp.mem_iff.mp h)

/-- Nothing stays out if only equal members compare equal. -/
theorem mem_insertOrdered_iff (eq : ∀ y, cmp x y = .eq → x = y) :
    a ∈ insertOrdered cmp x l ↔ a = x ∨ a ∈ l := by
  refine ⟨mem_insertOrdered, fun h => ?_⟩
  by_cases he : ∃ y ∈ l, cmp x y = .eq
  · obtain ⟨y, hy, he⟩ := he
    obtain rfl := eq y he
    apply (sublist_insertOrdered cmp x l).subset
    rcases h with rfl | h
    · exact hy
    · exact h
  · exact (insertOrdered_perm fun y hy hc => he ⟨y, hy, hc⟩).mem_iff.mpr (List.mem_cons.mpr h)

/-- An element that is put in its place leaves the list in order. -/
theorem pairwise_insertOrdered {R : α → α → Prop} (trans : ∀ {a b c}, R a b → R b c → R a c)
    (lt : ∀ y ∈ l, cmp x y = .lt → R x y) (gt : ∀ y ∈ l, cmp x y = .gt → R y x)
    (h : l.Pairwise R) : (insertOrdered cmp x l).Pairwise R := by
  induction l with
  | nil => simp [insertOrdered]
  | cons y ys ih =>
    have hy := List.pairwise_cons.mp h
    simp only [insertOrdered]
    split
    · rename_i hxy
      have hxy := lt y List.mem_cons_self hxy
      refine List.pairwise_cons.mpr ⟨fun b hb => ?_, h⟩
      rcases List.mem_cons.mp hb with rfl | hb
      · exact hxy
      · exact trans hxy (hy.1 b hb)
    · exact h
    · rename_i hxy
      refine List.pairwise_cons.mpr ⟨fun b hb => ?_, ih
        (fun z hz => lt z (List.mem_cons_of_mem y hz))
        (fun z hz => gt z (List.mem_cons_of_mem y hz)) hy.2⟩
      rcases mem_insertOrdered hb with rfl | hb
      · exact gt y List.mem_cons_self hxy
      · exact hy.1 b hb

/-- The place of an element that comes before `y` is before `y`. -/
theorem insertOrdered_append_of_lt (h : cmp x y = .lt) :
    insertOrdered cmp x (l ++ y :: k) = insertOrdered cmp x l ++ y :: k := by
  induction l with
  | nil => simp [insertOrdered, h]
  | cons z l ih =>
    simp only [List.cons_append, insertOrdered, ih]
    split <;> rfl

/-- An element that comes after all of `l` has its place in what follows. -/
theorem insertOrdered_append_of_gt (h : ∀ y ∈ l, cmp x y = .gt) :
    insertOrdered cmp x (l ++ k) = l ++ insertOrdered cmp x k := by
  induction l with
  | nil => rfl
  | cons z l ih =>
    simp only [List.cons_append, insertOrdered, h z List.mem_cons_self]
    rw [ih fun y hy => h y (List.mem_cons_of_mem z hy)]

theorem insertOrdered_congr (h : ∀ y ∈ l, cmp x y = cmp' x y) :
    insertOrdered cmp x l = insertOrdered cmp' x l := by
  induction l with
  | nil => rfl
  | cons z l ih =>
    rw [insertOrdered, insertOrdered, h z List.mem_cons_self,
      ih fun y hy => h y (List.mem_cons_of_mem z hy)]

theorem insertOrdered_comm_of_lt [Std.TransCmp cmp] (h : cmp x y = .lt) (l : List α) :
    insertOrdered cmp x (insertOrdered cmp y l) = insertOrdered cmp y (insertOrdered cmp x l) := by
  have hgt : cmp y x = .gt := Std.OrientedCmp.gt_of_lt h
  induction l with
  | nil => simp [insertOrdered, h, hgt]
  | cons z l ih =>
    -- where the greater one stops, the lesser one stops too
    have hlt : cmp y z = .lt → cmp x z = .lt := Std.TransCmp.lt_trans h
    have heq : cmp y z = .eq → cmp x z = .lt := fun he => (Std.TransCmp.congr_right he).symm.trans h
    cases hy : cmp y z <;> cases hx : cmp x z <;> simp_all [insertOrdered]

/-- Two elements that differ are put in their places one after the other, in either order. The list
need not be sorted. -/
theorem insertOrdered_comm [Std.TransCmp cmp] (h : cmp x y ≠ .eq) (l : List α) :
    insertOrdered cmp x (insertOrdered cmp y l) = insertOrdered cmp y (insertOrdered cmp x l) := by
  cases hxy : cmp x y with
  | lt => exact insertOrdered_comm_of_lt hxy l
  | eq => exact absurd hxy h
  | gt => exact (insertOrdered_comm_of_lt (Std.OrientedCmp.lt_of_gt hxy) l).symm

end Backlog
