import Backlog.Proofs.Runs
import Mathlib.Data.List.Find

/-!
# Waking in time

The next time of a queue is read off the tickets that wait for their deadline alone. What
runs is read off the tickets that wait for nothing. As time goes on, a ticket passes from the
first to the second when its deadline comes, and nothing else changes between them. So a
worker that sleeps until the next time misses nothing, and finds a ticket when it wakes.
-/

namespace Backlog

namespace Ticket

variable {k : Ticket} {now u : Int} {network : Bool} {busy : Names}

theorem early_iff : k.early now = true ↔ ∃ d, k.notBefore = some d ∧ now < d := by
  cases hk : k.notBefore <;> simp [early, hk]

/-- A deadline that has come stays so. -/
theorem not_early_of_le (hu : now ≤ u) (h : k.early now = false) : k.early u = false := by
  rw [Bool.eq_false_iff, ne_eq, early_iff] at h ⊢
  rintro ⟨d, hd, hlt⟩
  exact h ⟨d, hd, by omega⟩

theorem runnable_of_le (hu : now ≤ u) (h : k.runnable now network busy = true) :
    k.runnable u network busy = true := by
  simp only [runnable, Bool.and_eq_true, Bool.not_eq_true'] at h ⊢
  exact ⟨⟨not_early_of_le hu h.1.1, h.1.2⟩, h.2⟩

/-- What runs later on runs now or waits for its deadline alone. -/
theorem runnable_or_waits (h : k.runnable u network busy = true) :
    k.runnable now network busy = true ∨ Queue.waits k now network busy = true := by
  simp only [runnable, Queue.waits, Bool.and_eq_true] at h ⊢
  cases he : k.early now with
  | false => exact .inl ⟨⟨rfl, h.1.2⟩, h.2⟩
  | true => exact .inr ⟨⟨rfl, h.1.2⟩, h.2⟩

end Ticket

namespace Queue

variable {q : Queue} {ticket : Nat → Ticket} {now u d : Int} {network : Bool} {busy : Names}

/-- A ticket that waits for its deadline alone runs once it has come. -/
theorem runnable_of_waits {k : Ticket} (h : waits k now network busy = true)
    (hd : k.notBefore = some d) (hu : d ≤ u) : k.runnable u network busy = true := by
  simp only [waits, Ticket.runnable, Bool.and_eq_true, Bool.not_eq_true'] at h ⊢
  refine ⟨⟨?_, h.1.2⟩, h.2⟩
  rw [Bool.eq_false_iff, ne_eq, Ticket.early_iff]
  rintro ⟨e, he, hlt⟩
  rw [hd, Option.some.injEq] at he
  omega

/-- A ticket that waits has a deadline, and it is still to come. -/
theorem deadline_of_waits {k : Ticket} (h : waits k now network busy = true) :
    ∃ d, k.notBefore = some d ∧ now < d := by
  simp only [waits, Bool.and_eq_true] at h
  exact Ticket.early_iff.mp h.1.1

/-- The deadlines that the next time is the least of. -/
theorem mem_deadlines :
    d ∈ ((q.order.map ticket).filter fun k => waits k now network busy).filterMap (·.notBefore) ↔
      ∃ t ∈ q.order, waits (ticket t) now network busy = true ∧ (ticket t).notBefore = some d := by
  simp only [List.mem_filterMap, List.mem_filter, List.mem_map]
  constructor
  · rintro ⟨_, ⟨⟨t, ht, rfl⟩, hw⟩, hd⟩
    exact ⟨t, ht, hw, hd⟩
  · rintro ⟨t, ht, hw, hd⟩
    exact ⟨ticket t, ⟨⟨t, ht, rfl⟩, hw⟩, hd⟩

/-- Until the next time, every ticket that waits for its deadline alone goes on waiting. -/
theorem nextTime_le {t : Nat} (h : q.nextTime ticket now network busy = some d) (ht : t ∈ q.order)
    (hw : waits (ticket t) now network busy = true) :
    ∃ e, (ticket t).notBefore = some e ∧ d ≤ e := by
  obtain ⟨e, he, -⟩ := deadline_of_waits hw
  exact ⟨e, he, (List.min?_eq_some_iff.mp h).2 e (mem_deadlines.mpr ⟨t, ht, hw, he⟩)⟩

/-- With no next time, no ticket waits for its deadline alone. -/
theorem not_waits_of_nextTime {t : Nat} (h : q.nextTime ticket now network busy = none)
    (ht : t ∈ q.order) : waits (ticket t) now network busy = false := by
  rw [Bool.eq_false_iff]
  intro hw
  obtain ⟨e, he, -⟩ := deadline_of_waits hw
  have hmem := mem_deadlines.mpr ⟨t, ht, hw, he⟩
  rw [List.min?_eq_none_iff.mp h] at hmem
  cases hmem

/-- What runs later on is what runs now, as long as no deadline has come in between. -/
theorem ready?_of_le (hu : now ≤ u)
    (h : ∀ t ∈ q.order, waits (ticket t) now network busy = true → (ticket t).early u = true) :
    q.ready? ticket u network busy = q.ready? ticket now network busy := by
  refine List.find?_congr fun t ht => ?_
  rw [Bool.eq_iff_iff]
  refine ⟨fun hr => ?_, Ticket.runnable_of_le hu⟩
  rcases Ticket.runnable_or_waits hr with hn | hw
  · exact hn
  · simp [Ticket.runnable, h t ht hw] at hr

theorem ready?_of_lt_nextTime (h : q.nextTime ticket now network busy = some d) (hu : now ≤ u)
    (hd : u < d) : q.ready? ticket u network busy = q.ready? ticket now network busy := by
  refine ready?_of_le hu fun t ht hw => ?_
  obtain ⟨e, he, hle⟩ := nextTime_le h ht hw
  exact Ticket.early_iff.mpr ⟨e, he, by omega⟩

theorem ready?_of_nextTime_none (h : q.nextTime ticket now network busy = none) (hu : now ≤ u) :
    q.ready? ticket u network busy = q.ready? ticket now network busy := by
  refine ready?_of_le hu fun t ht hw => ?_
  rw [not_waits_of_nextTime h ht] at hw
  cases hw

theorem lt_nextTime (h : q.nextTime ticket now network busy = some d) : now < d := by
  obtain ⟨t, -, hw, hd⟩ := mem_deadlines.mp (List.min?_eq_some_iff.mp h).1
  obtain ⟨e, he, hlt⟩ := deadline_of_waits hw
  rw [hd, Option.some.injEq] at he
  omega

/-- From the next time on some ticket runs. -/
theorem ready?_of_nextTime_le (h : q.nextTime ticket now network busy = some d) (hu : d ≤ u) :
    ∃ t, q.ready? ticket u network busy = some t := by
  obtain ⟨t, ht, hw, hd⟩ := mem_deadlines.mp (List.min?_eq_some_iff.mp h).1
  exact Option.isSome_iff_exists.mp
    (List.find?_isSome.mpr ⟨t, ht, runnable_of_waits hw hd hu⟩)

/-- Before the next time the same ticket runs as now, or none does; at that time one does. With
no next time this never changes. -/
theorem ready_until_nextTime (q : Queue) (ticket : Nat → Ticket) (now : Int) (network : Bool)
    (busy : Names) :
    (∀ t, q.nextTime ticket now network busy = some t →
      now < t ∧
      (∀ u, now ≤ u → u < t →
        q.ready? ticket u network busy = q.ready? ticket now network busy) ∧
      ∃ r, q.ready? ticket t network busy = some r) ∧
    (q.nextTime ticket now network busy = none →
      ∀ u, now ≤ u → q.ready? ticket u network busy = q.ready? ticket now network busy) := by
  refine ⟨fun t h => ⟨lt_nextTime h, fun u => ready?_of_lt_nextTime h, ?_⟩,
    fun h u => ready?_of_nextTime_none h⟩
  exact ready?_of_nextTime_le h (Int.le_refl t)

/-- Ticket 0 waits until 5 for nothing else, and ticket 1 until 3 and for the network. -/
theorem ready_until_nextTime_offline :
    let ticket := fun t : Nat =>
      if t = 0 then { notBefore := some 5 } else { notBefore := some 3, needsNetwork := true }
    let q : Queue := { order := [0, 1] }
    q.nextTime ticket 2 false .empty = some 5 ∧
      q.ready? ticket 4 false .empty = q.ready? ticket 2 false .empty ∧
      ∃ r, q.ready? ticket 5 false .empty = some r := by
  intro ticket q
  have ht : q.nextTime ticket 2 false .empty = some 5 := by decide
  have h := (ready_until_nextTime q ticket 2 false .empty).1 5 ht
  exact ⟨ht, h.2.1 4 (by decide) (by decide), h.2.2⟩

end Queue

namespace World

/-- Nothing happens but that time changes. -/
def asleep (_ : World) : Move → Prop
  | .clock _ | .elapse _ => True
  | _ => False

variable {w : World} {moves : List Move} {m : Nat} {d : Int}

/-- While a worker sleeps, its manager and the tickets stay as they are. -/
theorem Along.asleep (h : w.Along asleep moves) :
    (w.run moves).managers = w.managers ∧ (w.run moves).tickets = w.tickets := by
  refine h.run (I := fun v => v.managers = w.managers ∧ v.tickets = w.tickets) ?_ ⟨rfl, rfl⟩
  intro v mv hv hmv
  cases mv with
  | clock now => exact hv
  | elapse nanos => exact hv
  | call c => exact hmv.elim
  | reply a r => exact hmv.elim

/-- A worker may sleep until the next time of its manager, and finds a ticket from then on. -/
theorem ready?_asleep (h : w.Along asleep moves)
    (hd : (w.manager m).nextTime w.ticket (w.time m) = some d)
    (hu : w.time m ≤ (w.run moves).time m) :
    let v := w.run moves
    (v.time m < d →
      (v.manager m).ready? v.ticket (v.time m) = (w.manager m).ready? w.ticket (w.time m)) ∧
    (d ≤ v.time m → ∃ t, (v.manager m).ready? v.ticket (v.time m) = some t) := by
  have hm : (w.run moves).manager m = w.manager m :=
    congrArg (fun r => Registry.get r m) h.asleep.1
  have ht : (w.run moves).ticket = w.ticket :=
    congrArg Registry.get h.asleep.2
  intro v
  rw [hm, ht]
  exact ⟨Queue.ready?_of_lt_nextTime hd hu, Queue.ready?_of_nextTime_le hd⟩

end World

end Backlog
