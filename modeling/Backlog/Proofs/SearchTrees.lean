import Backlog.Proofs.RunOrder

/-!
# Orders that are searched

A set that is searched by comparison is a tree, and an element is sought in it from the root down.
Whom the search meets on its way depends on the shape of the tree, and the shape on all that ever
entered and left. In a list that stands in order the shape makes no difference: what an element does
to the tree is what it does to the list. Where the keys of members have changed so that the list
does not stand in order any more, a member may be missed.
-/

namespace Backlog

/-- A binary tree of any shape. -/
inductive SearchTree (α : Type) where
  | leaf
  | node (left : SearchTree α) (root : α) (right : SearchTree α)

namespace SearchTree

variable {α : Type} {cmp : α → α → Ordering} {x : α} {t : SearchTree α}

def toList : SearchTree α → List α
  | leaf => []
  | node left y right => left.toList ++ y :: right.toList

/-- `x` becomes a leaf where the search for it ends. A member that it meets and that compares equal
keeps it out. -/
def insert (cmp : α → α → Ordering) (x : α) : SearchTree α → SearchTree α
  | leaf => node leaf x leaf
  | node left y right =>
    match cmp x y with
    | .lt => node (left.insert cmp x) y right
    | .eq => node left y right
    | .gt => node left y (right.insert cmp x)

/-- One tree after the other. -/
def append : SearchTree α → SearchTree α → SearchTree α
  | leaf, t => t
  | node left y right, t => node left y (right.append t)

/-- The first member that the search for `x` meets and that compares equal leaves. -/
def erase (cmp : α → α → Ordering) (x : α) : SearchTree α → SearchTree α
  | leaf => leaf
  | node left y right =>
    match cmp x y with
    | .lt => node (left.erase cmp x) y right
    | .eq => left.append right
    | .gt => node left y (right.erase cmp x)

@[simp] theorem toList_leaf : (leaf : SearchTree α).toList = [] := rfl

@[simp] theorem toList_node (left right : SearchTree α) (y : α) :
    (node left y right).toList = left.toList ++ y :: right.toList := rfl

@[simp] theorem toList_append (t u : SearchTree α) : (t.append u).toList = t.toList ++ u.toList := by
  induction t with
  | leaf => rfl
  | node left y right _ ih => simp only [append, toList_node, ih, List.append_assoc, List.cons_append]

end SearchTree

/-- Wherever `x` does not come after a member of the list, it comes before all that follow. So at
most one member compares equal. -/
def Cuts {α : Type} (cmp : α → α → Ordering) (x : α) (l : List α) : Prop :=
  l.Pairwise fun y z => cmp x y ≠ .gt → cmp x z = .lt

section

variable {α : Type} {cmp : α → α → Ordering} {x y : α} {l k : List α}

theorem Cuts.left (h : Cuts cmp x (l ++ y :: k)) : Cuts cmp x l :=
  (List.pairwise_append.mp h).1

theorem Cuts.right (h : Cuts cmp x (l ++ y :: k)) : Cuts cmp x k :=
  (List.pairwise_cons.mp (List.pairwise_append.mp h).2.1).2

/-- What follows a member that `x` does not come after. -/
theorem Cuts.after (h : Cuts cmp x (l ++ y :: k)) (hy : cmp x y ≠ .gt) : ∀ z ∈ k, cmp x z = .lt :=
  fun z hz => (List.pairwise_cons.mp (List.pairwise_append.mp h).2.1).1 z hz hy

/-- What precedes a member that `x` does not come before. -/
theorem Cuts.before (h : Cuts cmp x (l ++ y :: k)) (hy : cmp x y ≠ .lt) :
    ∀ z ∈ l, cmp x z = .gt := by
  intro z hz
  cases hc : cmp x z with
  | gt => rfl
  | _ =>
    have hzy := (List.pairwise_append.mp h).2.2 z hz y List.mem_cons_self
    exact absurd (hzy (by simp [hc])) hy

end

namespace SearchTree

variable {α : Type} {cmp : α → α → Ordering} {x : α} {t : SearchTree α}

/-- In a list that `x` cuts, every search for its place finds the same. -/
theorem toList_insert (h : Cuts cmp x t.toList) :
    (t.insert cmp x).toList = insertOrdered cmp x t.toList := by
  induction t with
  | leaf => rfl
  | node left y right ihl ihr =>
    simp only [insert, toList_node] at h ⊢
    cases hc : cmp x y with
    | lt => rw [insertOrdered_append_of_lt hc, toList_node, ihl h.left]
    | eq => rw [insertOrdered_append_of_gt (h.before (by simp [hc])), toList_node, insertOrdered, hc]
    | gt =>
      rw [insertOrdered_append_of_gt (h.before (by simp [hc])), toList_node, insertOrdered, hc,
        ihr h.right]

/-- In a list that `x` cuts, no search misses what compares equal. -/
theorem toList_erase (h : Cuts cmp x t.toList) :
    (t.erase cmp x).toList = t.toList.filter fun y => cmp x y ≠ .eq := by
  have keep {l : List α} {o : Ordering} (hl : ∀ y ∈ l, cmp x y = o) (ho : o ≠ .eq) :
      l.filter (fun y => cmp x y ≠ .eq) = l :=
    List.filter_eq_self.mpr fun y hy => by simp [hl y hy, ho]
  induction t with
  | leaf => rfl
  | node left y right ihl ihr =>
    simp only [erase, toList_node] at h ⊢
    rw [List.filter_append, List.filter_cons]
    cases hc : cmp x y with
    | lt =>
      rw [keep (h.after (by simp [hc])) nofun]
      simp [ihl h.left]
    | eq =>
      rw [keep (h.before (by simp [hc])) nofun, keep (h.after (by simp [hc])) nofun]
      simp
    | gt =>
      rw [keep (h.before (by simp [hc])) nofun]
      simp [ihr h.right]

end SearchTree

namespace Queue

variable {q : Queue} {ticket : Nat → Ticket} {t : Nat} {tree : SearchTree Nat}

/-- A ticket with a stamp cuts an order that stands. -/
theorem Ordered.cuts (h : q.Ordered ticket) (ht : (ticket t).stamp.isSome = true) :
    Cuts (rank ticket) t q.order := by
  refine h.sorted.imp_of_mem fun {u v} hu hv huv hne => ?_
  refine (Ticket.queueOrder_eq_lt ht (h.stamped v hv)).mpr ?_
  cases hc : (ticket t).queueOrder (ticket u) with
  | lt => exact (Ticket.precedes_of_lt ht (h.stamped u hu) hc).trans huv
  | eq => exact (Ticket.precedes_congr (Ticket.place_of_eq ht (h.stamped u hu) hc) rfl).mpr huv
  | gt => exact absurd hc hne

/-- Whatever tree keeps an order that stands, a search for the place of a ticket does in it what the
queue does: it puts the ticket where the queue puts it, and takes out what removal takes out. -/
theorem Ordered.searched (h : q.Ordered ticket) (ht : (ticket t).stamp.isSome = true)
    (hd : tree.toList = q.order) :
    (tree.insert (rank ticket) t).toList = (q.insert ticket t).order ∧
      ∀ id q', q.remove ticket id = some (t, q') →
        (tree.erase (rank ticket) t).toList = q'.order := by
  have hc : Cuts (rank ticket) t tree.toList := hd ▸ h.cuts ht
  refine ⟨by rw [SearchTree.toList_insert hc, hd]; rfl, fun id q' hr => ?_⟩
  obtain ⟨-, rfl⟩ := remove_eq_some.mp hr
  rw [SearchTree.toList_erase hc, hd]
  refine List.filter_congr fun u hu => ?_
  rw [decide_eq_decide]
  exact not_congr (Ticket.queueOrder_eq_comm ht (h.stamped u hu))

/-- A ticket to the left of `b` that is `c` by now is sought to the right. -/
example : ((SearchTree.node (.node .leaf 1 .leaf) 0 .leaf).erase (rank fun t =>
    { id := if t = 0 then "b" else "c", stamp := some 7 }) 1).toList = [1, 0] := by decide

end Queue

end Backlog
