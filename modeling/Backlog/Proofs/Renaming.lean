import Backlog.Proofs.Admissions
import Backlog.Proofs.Departures
import Backlog.Proofs.Queues

/-!
# Queued tickets that get another id

The index of a queue has a ticket under the id that it was pushed with, whatever becomes of that
id later. To be removed, the ticket has to be asked for under this id. To be handed out by its
turn, it has to have this id again, or the queue goes on finding a ticket that it has handed out. A
queue that takes in no ticket which it has, and lets go by its turn only of tickets that have their
ids again, hands out every ticket once. Another id may also put a ticket out of order, if it shares
its stamp with others. So the queue must not be searched for a place while its order does not stand.
-/

namespace Backlog

namespace Queue

/-- The queue has the ticket, in one half or the other. -/
def holds (q : Queue) (t : Nat) : Prop := t ∈ q.order ∨ ∃ id, q.find? id = some t

/-- A ticket in the order is in the index, and no ticket is in the index under two ids. -/
structure Keyed (q : Queue) : Prop where
  nodup : q.order.Nodup
  keyed : ∀ t ∈ q.order, ∃ id, q.find? id = some t
  single : ∀ t i k, q.find? i = some t → q.find? k = some t → i = k

variable {q q' : Queue} {ticket : Nat → Ticket} {t u : Nat} {id i : String}

theorem keyed_empty : ({} : Queue).Keyed := ⟨.nil, nofun, nofun⟩

theorem find?_insert_ne (hc : q.index.contains (ticket t).id = false) (h : q.find? i = some u) :
    (q.insert ticket t).find? i = some u := by
  rw [Store.find?_insert, if_neg, h]
  rintro rfl
  rw [(Table.contains_iff ..).mpr ⟨u, h⟩] at hc
  cases hc

theorem holds_of_insert (h : (q.insert ticket t).holds u) : q.holds u ∨ u = t := by
  rcases h with h | ⟨i, h⟩
  · exact (mem_insertOrdered h).symm.imp_left .inl
  · exact (Table.find?_of_insert h).symm.imp (fun h => .inr ⟨i, h⟩) And.right

/-- A ticket that the queue has not is pushed. -/
theorem Keyed.insert (h : q.Keyed) (hn : ¬q.holds t)
    (hc : q.index.contains (ticket t).id = false) : (q.insert ticket t).Keyed := by
  have hkey : (q.insert ticket t).find? (ticket t).id = some t := by
    rw [Store.find?_insert, if_pos rfl]
  have hold {i : String} {u : Nat} (hi : (q.insert ticket t).find? i = some u) :
      i = (ticket t).id ∧ u = t ∨ q.find? i = some u := Table.find?_of_insert hi
  refine ⟨?_, fun u hu => ?_, fun u i k hi hk => ?_⟩
  · rcases insertOrdered_cases (rank ticket) t q.order with ho | ho
    · rw [show (q.insert ticket t).order = q.order from ho]
      exact h.nodup
    · exact ho.nodup_iff.mpr (List.nodup_cons.mpr ⟨fun ht => hn (.inl ht), h.nodup⟩)
  · rcases mem_insertOrdered hu with rfl | hu
    · exact ⟨_, hkey⟩
    · obtain ⟨i, hi⟩ := h.keyed u hu
      exact ⟨i, find?_insert_ne hc hi⟩
  · rcases hold hi with ⟨hi, hu⟩ | hi <;> rcases hold hk with ⟨hk, hu'⟩ | hk
    · exact hi.trans hk.symm
    · exact absurd (.inr ⟨k, hu ▸ hk⟩) hn
    · exact absurd (.inr ⟨i, hu' ▸ hi⟩) hn
    · exact h.single u i k hi hk

/-- A ticket leaves both halves together with the entry that it has in the index. -/
theorem Keyed.leave (h : q.Keyed) (hk : q.find? id = some t) {order : List Nat}
    (hs : order.Sublist q.order) (ht : t ∉ order) (closed : Bool) :
    ({ order, index := q.index.erase id, closed } : Queue).Keyed ∧
      ¬({ order, index := q.index.erase id, closed } : Queue).holds t := by
  refine ⟨⟨h.nodup.sublist hs, fun u hu => ?_, fun u i k hi hk' => ?_⟩, ?_⟩
  · obtain ⟨i, hi⟩ := h.keyed u (hs.subset hu)
    refine ⟨i, (Table.find?_erase ..).trans ((if_neg ?_).trans hi)⟩
    rintro rfl
    obtain rfl := Option.some.inj (hk.symm.trans hi)
    exact ht hu
  · exact h.single u i k (Table.find?_of_erase hi) (Table.find?_of_erase hk')
  · rintro (hm | ⟨i, hi⟩)
    · exact ht hm
    · obtain rfl := h.single t i id (Table.find?_of_erase hi) hk
      exact absurd ((Table.find?_erase_same ..).symm.trans hi) nofun

/-- What removal takes out is out of the order. -/
theorem remove_eq (hr : q.remove ticket id = some (t, q')) : q.find? id = some t ∧
    ∃ order, order.Sublist q.order ∧ t ∉ order ∧
      q' = { q with order, index := q.index.erase id } := by
  obtain ⟨hk, rfl⟩ := remove_eq_some.mp hr
  refine ⟨hk, _, List.filter_sublist, fun ht => ?_, rfl⟩
  simpa [rank, Ticket.queueOrder_self] using (List.mem_filter.mp ht).2

end Queue

namespace Store

variable {s s' : Store} {m q t : Nat}

/-- The operation pushes no ticket that queue `q` has and would accept, and hands out by its turn
only a ticket that the queue finds under its present id. For what it puts in its place or takes out
of it, the order of the queue stands. -/
def faithful (s : Store) (q : Nat) : QueueCall → Prop
  | .push (some t) => (s.queue q).accepts (s.ticket t).id = true →
    ¬(s.queue q).holds t ∧ (s.queue q).Ordered s.ticket
  | .next now network busy => ∀ t, (s.queue q).ready? s.ticket now network busy = some t →
    (s.queue q).find? (s.ticket t).id = some t
  | .remove id => ∀ t, (s.queue q).find? id = some t → (s.queue q).Ordered s.ticket
  | _ => True

/-- Queue `q` has taken in and handed out these tickets and no others. -/
structure Passes (q : Nat) (taken handed : Option Nat) (s s' : Store) : Prop where
  keyed : (s'.queue q).Keyed
  left : ∀ t, handed = some t → (s.queue q).holds t ∧ ¬(s'.queue q).holds t
  gained : ∀ t, (s'.queue q).holds t → (s.queue q).holds t ∨ taken = some t
  entered : ∀ t, taken = some t → (s'.queue q).find? (s.ticket t).id = some t
  stayed : ∀ t id, (s.queue q).find? id = some t → handed ≠ some t →
    (s'.queue q).find? id = some t

theorem Passes.still (h : (s.queue q).Keyed) (hq : s'.queue q = s.queue q) :
    Passes q none none s s' where
  keyed := hq ▸ h
  left := nofun
  gained _ ht := .inl (hq ▸ ht)
  entered := nofun
  stayed _ _ ht _ := hq ▸ ht

/-- A ticket has left the queue with its entry. -/
theorem Passes.leave (h : (s.queue q).Keyed) {id : String} (hk : (s.queue q).find? id = some t)
    {order : List Nat} (hs : order.Sublist (s.queue q).order) (ht : t ∉ order)
    (hq : s'.queue q = { s.queue q with order, index := (s.queue q).index.erase id }) :
    Passes q none (some t) s s' := by
  obtain ⟨hkeyed, hn⟩ := h.leave hk hs ht (s.queue q).closed
  refine ⟨hq ▸ hkeyed, fun u hu => ?_, fun u hu => .inl ?_, nofun, fun u i hi hne => ?_⟩
  · obtain rfl := Option.some.inj hu
    exact ⟨.inr ⟨id, hk⟩, hq ▸ hn⟩
  · rw [hq] at hu
    exact hu.imp (fun hu => hs.subset hu) fun ⟨i, hi⟩ => ⟨i, Table.find?_of_erase hi⟩
  · rw [hq]
    refine (Table.find?_erase ..).trans ((if_neg ?_).trans hi)
    rintro rfl
    exact hne (hk.symm.trans hi)

/-- What a queue takes in has been pushed. -/
theorem callQueue_taken {c : QueueCall} (h : c.taken (s.callQueue q c).2 = some t) :
    c = .push (some t) ∧ ∃ p, s.push (s.queue q) t = some p ∧
      (s.callQueue q c).1 = p.1.setQueue q p.2 := by
  cases c with
  | push u =>
    cases u with
    | none => cases h
    | some u =>
      simp only [callQueue] at h ⊢
      cases hp : s.push (s.queue q) u with
      | none =>
        rw [hp] at h
        cases h
      | some p =>
        rw [hp] at h
        obtain rfl := Option.some.inj h
        exact ⟨rfl, p, hp, rfl⟩
  | _ => cases h

theorem passes_callQueue (h : (s.queue q).Keyed) {c : QueueCall} (hc : s.faithful q c) :
    Passes q (c.taken (s.callQueue q c).2) (c.handed (s.callQueue q c).2) s
      (s.callQueue q c).1 := by
  cases c with
  | push t =>
    cases t with
    | none => exact .still h rfl
    | some t =>
      simp only [Store.callQueue]
      cases hp : s.push (s.queue q) t with
      | none => exact .still h rfl
      | some p =>
        obtain ⟨s', queue⟩ := p
        obtain ⟨ha, rfl, rfl⟩ := push_eq_some.mp hp
        have hn := (hc ha).1
        have hid : ((s.stampTicket t).ticket t).id = (s.ticket t).id := by
          obtain ⟨stamp, hst⟩ := ticket_stampTicket s t t
          rw [hst]
        have hi : (s.queue q).index.contains ((s.stampTicket t).ticket t).id = false := by
          simp only [Queue.accepts, Bool.and_eq_true, Bool.not_eq_true'] at ha
          rw [hid]
          exact ha.2
        refine ⟨?_, (fun _ h => by cases h), fun u hu => ?_, fun u hu => ?_, fun u i hu _ => ?_⟩ <;>
          dsimp only at * <;> rw [queue_setQueue_same] at *
        · exact h.insert hn hi
        · exact (Queue.holds_of_insert hu).imp_right fun he => congrArg some he.symm
        · obtain rfl := Option.some.inj hu
          rw [find?_insert, if_pos hid.symm]
        · exact Queue.find?_insert_ne hi hu
  | next now network busy =>
    simp only [Store.callQueue]
    cases hr : (s.queue q).ready? s.ticket now network busy with
    | none => exact .still h rfl
    | some t =>
      exact .leave h (hc t hr) List.erase_sublist (h.nodup.not_mem_erase) (queue_setQueue_same ..)
  | remove id =>
    simp only [Store.callQueue]
    cases hr : (s.queue q).remove s.ticket id with
    | none => exact .still h rfl
    | some p =>
      obtain ⟨t, queue⟩ := p
      obtain ⟨hk, order, hs, ht, rfl⟩ := Queue.remove_eq hr
      exact .leave h hk hs ht (queue_setQueue_same ..)
  | delayGroup group d => exact .still h rfl
  | close =>
    have hq : ((s.callQueue q .close).1.queue q) = (s.queue q).close := queue_setQueue_same ..
    refine ⟨hq ▸ ⟨h.nodup, h.keyed, h.single⟩, fun t ht => ?_, fun t ht => .inl (hq ▸ ht :),
      fun t ht => ?_, fun t id ht _ => hq ▸ ht⟩ <;> cases ht

end Store

namespace World

variable {w : World} {q t : Nat} {mv : Move} {moves : List Move}

/-- What the client asks of queue `q` is faithful to the ids that its tickets were pushed with, and
to the order in which they stand. -/
def retraces (q : Nat) (w : World) : Move → Prop
  | .call (.queue i c) => i = q → w.faithful q c
  | _ => True

theorem passes_step (h : (w.queue q).Keyed) (hf : w.Founded) (hr : w.retraces q mv) :
    Store.Passes q (w.accepted q mv) (w.handed q mv) w.toStore (w.step mv).toStore := by
  rcases queue_step hf q mv with ⟨c, rfl, hc⟩ | ⟨hq, ha, hh⟩
  · obtain ⟨hs, hv⟩ := step_queue hc
    rw [hs]
    simp only [accepted, handed, if_pos, hv, Option.bind_some]
    exact Store.passes_callQueue h (hr rfl)
  · rw [ha, hh]
    exact .still h hq

/-- A world whose queue `q` is keyed. -/
structure Traced (q : Nat) (w : World) : Prop where
  founded : w.Founded
  keyed : (w.queue q).Keyed

theorem Traced.start (q : Nat) (now : Int) : (start now).Traced q :=
  ⟨.start now, Queue.keyed_empty⟩

theorem Traced.step (h : w.Traced q) (hr : w.retraces q mv) : (w.step mv).Traced q :=
  ⟨h.founded.step mv, (passes_step h.keyed h.founded hr).keyed⟩

theorem ReachableBy.traced (h : ReachableBy (retraces q) w) : w.Traced q :=
  h.induction (Traced.start q) fun _ _ h hr => h.step hr

/-- A ticket that the queue has not stays out of it until it is pushed. -/
theorem gone_run (h : w.Traced q) (ht : ¬(w.queue q).holds t)
    (ha : w.Along (fun v mv => v.retraces q mv ∧ v.accepted q mv ≠ some t) moves) :
    w.Along (fun v mv => v.handed q mv ≠ some t) moves ∧
      ¬((w.run moves).queue q).holds t := by
  induction moves generalizing w with
  | nil => exact ⟨trivial, ht⟩
  | cons mv moves ih =>
    obtain ⟨⟨hr, hn⟩, ha⟩ := ha
    have hp := passes_step h.keyed h.founded hr
    obtain ⟨hrest, hend⟩ := ih (h.step hr) (fun hh => (hp.gained t hh).elim ht hn) ha
    exact ⟨⟨fun hh => ht (hp.left t hh).1, hrest⟩, hend⟩

/-- A queued ticket keeps its entry in the index until it is handed out. -/
theorem entry_run {id : String} (h : w.Traced q) (ht : (w.queue q).find? id = some t)
    (ha : w.Along (fun v mv => v.retraces q mv ∧ v.handed q mv ≠ some t) moves) :
    ((w.run moves).queue q).find? id = some t :=
  (ha.run (I := fun v => v.Traced q ∧ (v.queue q).find? id = some t) (fun _ _ h hp =>
    ⟨h.1.step hp.1, (passes_step h.1.keyed h.1.founded hp.1).stayed t id h.2 hp.2⟩) ⟨h, ht⟩).2

end World

end Backlog
