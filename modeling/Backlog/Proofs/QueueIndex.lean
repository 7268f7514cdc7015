import Backlog.Queue

/-!
# The two halves of a queue

The order and the index of a queue hold the same tickets as long as no queued ticket changes
its id. Then the ids in the queue are distinct, and a ticket that enters or leaves does so in
both halves.
-/

namespace Backlog

theorem Ticket.queueOrder_self (k : Ticket) : k.queueOrder k = .eq := by
  simp only [queueOrder, order, ne_eq, not_true_eq_false, ↓reduceIte]
  cases k.stamp <;> simp

/-- Only tickets of one id share a place in the order. -/
theorem Ticket.id_eq_of_queueOrder {a b : Ticket} (h : a.queueOrder b = .eq) : a.id = b.id := by
  simp only [queueOrder] at h
  split at h
  · cases h
  · cases h
  · exact Std.LawfulEqCmp.eq_of_compare h

namespace Table

variable {κ α : Type} [DecidableEq κ] {t : Table κ α} {k j : κ} {a b : α}

theorem find?_of_erase (h : (t.erase k).find? j = some a) : t.find? j = some a := by
  rw [find?_erase] at h
  split at h
  · cases h
  · exact h

theorem find?_of_insert (h : (t.insert k a).find? j = some b) :
    (j = k ∧ b = a) ∨ t.find? j = some b := by
  rw [find?_insert] at h
  split at h
  · rename_i hj
    exact .inl ⟨hj, (Option.some.inj h).symm⟩
  · exact .inr h

theorem find?_erase_none (h : t.find? j = none) (k : κ) : (t.erase k).find? j = none := by
  rw [find?_erase]
  split
  · rfl
  · exact h

end Table

namespace Queue

/-- The index holds the tickets of the order, each under its id. -/
structure Indexed (q : Queue) (ticket : Nat → Ticket) : Prop where
  nodup : q.order.Nodup
  find : ∀ id t, q.find? id = some t ↔ t ∈ q.order ∧ (ticket t).id = id

variable {q : Queue} {ticket ticket' : Nat → Ticket} {id : String} {t u : Nat}

theorem indexed_empty (ticket : Nat → Ticket) : ({} : Queue).Indexed ticket where
  nodup := .nil
  find id t := by simp [find?]

theorem Indexed.unique (h : q.Indexed ticket) (ht : t ∈ q.order) (hu : u ∈ q.order)
    (he : (ticket t).id = (ticket u).id) : t = u := by
  have h₁ := (h.find _ t).mpr ⟨ht, he⟩
  have h₂ := (h.find _ u).mpr ⟨hu, rfl⟩
  exact Option.some.inj (h₁.symm.trans h₂)

theorem Indexed.contains (h : q.Indexed ticket) :
    q.index.contains id = true ↔ ∃ t ∈ q.order, (ticket t).id = id := by
  rw [Table.contains_iff]
  exact exists_congr fun t => h.find id t

theorem Indexed.distinct (h : q.Indexed ticket) : (q.order.map fun t => (ticket t).id).Nodup := by
  refine List.pairwise_map.mpr (h.nodup.imp_of_mem ?_)
  intro t u ht hu hne he
  exact hne (h.unique ht hu he)

/-- Only the ids of the queued tickets matter. -/
theorem Indexed.congr (h : q.Indexed ticket) (hid : ∀ t ∈ q.order, (ticket' t).id = (ticket t).id) :
    q.Indexed ticket' where
  nodup := h.nodup
  find id t := by
    rw [h.find]
    exact and_congr_right fun ht => by rw [hid t ht]

theorem Indexed.close (h : q.Indexed ticket) : q.close.Indexed ticket := ⟨h.nodup, h.find⟩

/-- A ticket whose id is new takes its place in the order. -/
theorem Indexed.insert_perm (h : q.Indexed ticket) (hn : q.index.contains (ticket t).id = false) :
    (q.insert ticket t).order.Perm (t :: q.order) := by
  apply insertOrdered_perm
  intro u hu he
  have hc := h.contains.mpr ⟨u, hu, (Ticket.id_eq_of_queueOrder he).symm⟩
  simp [hn] at hc

theorem Indexed.insert (h : q.Indexed ticket) (hn : q.index.contains (ticket t).id = false) :
    (q.insert ticket t).Indexed ticket := by
  have hp := h.insert_perm hn
  have ht : t ∉ q.order := fun ht => by simp [h.contains.mpr ⟨t, ht, rfl⟩] at hn
  refine ⟨hp.nodup_iff.mpr (List.nodup_cons.mpr ⟨ht, h.nodup⟩), fun id u => ?_⟩
  rw [hp.mem_iff, List.mem_cons]
  change (q.index.insert (ticket t).id t).find? id = some u ↔ _
  rw [Table.find?_insert]
  by_cases hid : id = (ticket t).id
  · rw [if_pos hid, Option.some.injEq]
    refine ⟨fun he => ⟨.inl he.symm, by rw [← he, hid]⟩, fun ⟨hu, he⟩ => ?_⟩
    rcases hu with hu | hu
    · exact hu.symm
    · simp [h.contains.mpr ⟨u, hu, he.trans hid⟩] at hn
  · rw [if_neg hid]
    refine (h.find id u).trans ⟨fun hu => ⟨.inr hu.1, hu.2⟩, fun ⟨hu, he⟩ => ⟨?_, he⟩⟩
    rcases hu with rfl | hu
    · exact absurd he.symm hid
    · exact hu

theorem Indexed.size_insert (h : q.Indexed ticket) (hn : q.index.contains (ticket t).id = false) :
    (q.insert ticket t).size = q.size + 1 := (h.insert_perm hn).length_eq

/-- A ticket leaves both halves. -/
theorem Indexed.leave (h : q.Indexed ticket) (ht : t ∈ q.order) (closed : Bool) :
    ({ order := q.order.erase t, index := q.index.erase (ticket t).id, closed } : Queue).Indexed
      ticket := by
  refine ⟨h.nodup.erase t, fun id u => ?_⟩
  change (q.index.erase (ticket t).id).find? id = some u ↔ _
  rw [Table.find?_erase, h.nodup.mem_erase_iff]
  split
  · rename_i hid
    constructor
    · intro hu
      cases hu
    · rintro ⟨⟨hne, hu⟩, he⟩
      exact absurd (h.unique hu ht (he.trans hid)) hne
  · rename_i hid
    apply (h.find id u).trans
    constructor
    · rintro ⟨hu, he⟩
      refine ⟨⟨?_, hu⟩, he⟩
      rintro rfl
      exact hid he.symm
    · rintro ⟨⟨-, hu⟩, he⟩
      exact ⟨hu, he⟩

/-- To drop the tickets that share a place is to drop one. -/
theorem Indexed.filter_rank (h : q.Indexed ticket) (ht : t ∈ q.order) :
    q.order.filter (fun u => rank ticket u t ≠ .eq) = q.order.erase t := by
  rw [h.nodup.erase_eq_filter]
  apply List.filter_congr
  intro u hu
  by_cases he : u = t
  · subst he
    simp [rank, Ticket.queueOrder_self]
  · have hr : rank ticket u t ≠ .eq := fun hr => he (h.unique hu ht (Ticket.id_eq_of_queueOrder hr))
    simp [hr, he]

/-- What removal of an id takes out. -/
theorem Indexed.remove (h : q.Indexed ticket) {q' : Queue} (hr : q.remove ticket id = some (t, q')) :
    t ∈ q.order ∧ (ticket t).id = id ∧
      q' = { q with order := q.order.erase t, index := q.index.erase id } := by
  obtain ⟨hu, rfl⟩ := remove_eq_some.mp hr
  obtain ⟨hm, hid⟩ := (h.find id t).mp hu
  exact ⟨hm, hid, by rw [← h.filter_rank hm]⟩

theorem find?_of_remove {q' : Queue} (h : q.remove ticket id = some (t, q')) :
    q.find? id = some t := (remove_eq_some.mp h).1

theorem remove_sublist {q' : Queue} (h : q.remove ticket id = some (t, q')) :
    q'.order.Sublist q.order := by
  obtain ⟨-, rfl⟩ := remove_eq_some.mp h
  exact List.filter_sublist

/-- A ticket that is in the index under the id can be removed by it. -/
theorem remove_of_find? (ticket : Nat → Ticket) (h : q.find? id = some t) :
    ∃ q', q.remove ticket id = some (t, q') := ⟨_, remove_eq_some.mpr ⟨h, rfl⟩⟩

theorem remove_eq_none (q : Queue) (ticket : Nat → Ticket) (id : String) :
    q.remove ticket id = none ↔ q.find? id = none := by
  simp only [Queue.remove]
  split <;> simp_all

end Queue

end Backlog
