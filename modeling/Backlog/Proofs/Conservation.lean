import Backlog.Proofs.Balance

/-!
# What holds of every manager

Whatever the client, the jobs and the other managers do, and however operations overlap, a
manager keeps its balance and each id in one place. So it never loses a ticket to its own queue.
-/

namespace Backlog

namespace Store

variable {s : Store} {m t : Nat}

/-- The queue takes a new ticket for a job that passed the test for duplicates. -/
theorem enlist_isSome (h : Custody (s.manager m) s.ticket s.tickets.size) {j : Nat}
    (accepting : (s.manager m).accepting = true)
    (free : (s.manager m).free (s.job j).id = true) : (s.enlist m j).isSome = true := by
  have hq := h.accepts accepting (Manager.free_iff.mp free).2
  simp only [enlist]
  rw [if_neg (by simp [accepting, free])]
  obtain ⟨k, hk⟩ : ∃ k : Ticket, k = {
      job := j, priority := (s.job j).priority, group := (s.job j).group, created := s.time m
      notBefore := deadline (s.time m) (s.job j).delay, session := (s.manager m).session } :=
    ⟨_, rfl⟩
  have hid : ((s.wrap k).ticket s.tickets.size).id = (s.job j).id := by simp [hk]
  rw [← hk, push_eq_some.mpr ⟨by rwa [hid], rfl, rfl⟩]
  rfl

/-- The queue takes a ticket of another session that passed the test for duplicates. -/
theorem reclaim_requeued (h : Custody (s.manager m) s.ticket s.tickets.size)
    (accepting : (s.manager m).accepting = true)
    (free : (s.manager m).free (s.ticket t).id = true) (live : (s.ticket t).cancelled = false)
    (foreign : (s.ticket t).session ≠ (s.manager m).session) :
    (s.reclaim m t).2 = .requeued (s.ticket t).session := by
  rw [reclaim_stale live foreign h.opened, accepting, free]
  rfl

/-- The queue takes the ticket that carries on a failed work. -/
theorem settle_retried (h : Custody (s.manager m) s.ticket s.tickets.size) (hs : s.Founded)
    (made : t < s.tickets.size) (runs : (s.manager m).running.find? (s.ticket t).id = some t)
    (counted : 0 ≤ (s.ticket t).runs)
    (accepting : (s.manager m).accepting = true) (live : (s.ticket t).cancelled = false)
    {o : Outcome} (ho : s.retries t o) : ∃ delay, (s.settle m t o).2 = .ok (.retried delay) := by
  have hq := h.accepts accepting (h.apart _ t runs)
  rw [hs.named t made] at hq
  have hv : verdict.again s m t = none := by simp [verdict.again, live, accepting, hq]
  have hn : s.verdict m t o = none := by
    rcases ho with rfl | ⟨rfl, hp⟩
    · exact hv
    · rw [verdict, if_neg (by simp [hp]), hv]
  rcases settle_spec (m := m) made o with ⟨status, tell, hs, -⟩ | ⟨-, hd, -⟩ | ⟨hr, -⟩
  · rw [hn] at hs
    cases hs
  · exact hd
  · exact absurd counted (Int.not_le.mpr hr)

end Store

namespace World

variable {w : World} {m : Nat}

/-- Every work that came to a manager has ended or is queued or running. -/
theorem jobs_conserved (h : ReachableBy (fun w mv => lawful m w mv ∧ counted mv) w) :
    (w.manager m).counts.added + (w.manager m).counts.recovered =
      (w.manager m).counts.succeeded + (w.manager m).counts.failed +
        (w.manager m).counts.cancelled + (w.manager m).queue.size + (w.manager m).running.size := by
  have hb := h.inBalance.balanced
  simp only [Manager.Balanced, Counts.Leaves] at hb
  omega

/-- While the body of one job runs, a second job is added and the first one is cancelled. -/
def overlap : List Move :=
  [.call (.makeJob { id := "a" }), .call (.makeJob { id := "b", custom := true }),
    .call (.makeManager {}), .call (.manager 0 (.add (some 0))), .reply 3 .done,
    .call (.manager 0 .runUntilIdle), .call (.manager 0 (.add (some 1))),
    .call (.manager 0 (.cancel "a"))]

theorem along_overlap : (start 0).Along (fun w mv => lawful 0 w mv ∧ counted mv) overlap := by
  simp only [overlap, Along, lawful, counted, and_self]

theorem jobs_conserved_overlap :
    (((start 0).run overlap).manager 0).counts.added = 2 ∧
      (((start 0).run overlap).manager 0).queue.size = 1 ∧
      (((start 0).run overlap).manager 0).running.size = 1 ∧
      (((start 0).run overlap).manager 0).counts.added +
          (((start 0).run overlap).manager 0).counts.recovered =
        (((start 0).run overlap).manager 0).counts.succeeded +
          (((start 0).run overlap).manager 0).counts.failed +
          (((start 0).run overlap).manager 0).counts.cancelled +
          (((start 0).run overlap).manager 0).queue.size +
          (((start 0).run overlap).manager 0).running.size :=
  ⟨by decide, by decide, by decide, jobs_conserved ⟨0, overlap, along_overlap, rfl⟩⟩

/-- Each id is queued, running or finished, and only one of these; no ticket that passed the
tests of an accepting manager is refused by its queue. -/
theorem one_place_per_id (h : ReachableBy (fun w mv => lawful m w mv ∧ counted mv) w) :
    (∀ id, ((w.manager m).running.contains id = true →
        (w.manager m).queue.find? id = none ∧ (w.manager m).finished.find? id = none) ∧
      ((w.manager m).queue.index.contains id = true → (w.manager m).finished.find? id = none)) ∧
    ((w.manager m).queue.order.map fun t => (w.ticket t).id).Nodup ∧
    (∀ id t, (w.manager m).queue.find? id = some t ↔
      t ∈ (w.manager m).queue.order ∧ (w.ticket t).id = id) ∧
    (∀ id t, (w.manager m).running.find? id = some t → (w.ticket t).id = id) ∧
    ((w.manager m).accepting = true →
      (∀ j, (w.manager m).free (w.job j).id = true → (w.enlist m j).isSome = true) ∧
      -- in the midst of a recovery, after the tickets `ts`
      (∀ ts s t, (Call.manager m (.recover ts)).inScope w.toStore = true →
        s = w.manage m (.recover ts) → (s.manager m).free (s.ticket t).id = true →
        (s.ticket t).cancelled = false → (s.ticket t).session ≠ (s.manager m).session →
        (s.reclaim m t).2 = .requeued (s.ticket t).session) ∧
      -- at the end of an attempt, whatever jobs have planned by then
      (∀ a t jobs s o, w.Works a m t → s = { w.toStore with jobs } →
        Store.Keeps none w.toStore s → (s.ticket t).cancelled = false → s.retries t o →
        ∃ delay, (s.settle m t o).2 = .ok (.retried delay))) := by
  have hs := h.inBalance.sound
  have hc := hs.custody
  have unfinished {id : String} (hf : ¬(w.manager m).free id = true) :
      (w.manager m).finished.find? id = none :=
    Option.eq_none_iff_forall_ne_some.mpr fun status hd =>
      hf (hc.ended id ((Table.contains_iff ..).mpr ⟨status, hd⟩))
  refine ⟨fun id => ⟨fun hr => ?_, fun hq => ?_⟩, hc.queue.distinct, hc.queue.find, hc.own,
    fun ha => ⟨fun j hf => Store.enlist_isSome hc ha hf, ?_, ?_⟩⟩
  · obtain ⟨t, ht⟩ := (Table.contains_iff ..).mp hr
    refine ⟨hc.apart id t ht, unfinished fun hf => ?_⟩
    rw [(Manager.free_iff.mp hf).1] at ht
    cases ht
  · apply unfinished
    intro hf
    rw [Table.contains, show (w.manager m).queue.index.find? id = none from
      (Manager.free_iff.mp hf).2] at hq
    cases hq
  · rintro ts s t hscope rfl hf hl hn
    exact Store.reclaim_requeued (Store.custody_manage hc hscope)
      ((Store.accepting_call hscope (by intro hc; cases hc)).trans ha) hf hl hn
  · rintro a t jobs s o hw rfl hk hl ho
    exact Store.settle_retried (s := { w.toStore with jobs }) hc
      (hs.founded.store.keepSame hk rfl rfl rfl)
      (hs.founded.works a m t hw) (hs.tended.runs a t hw) (h.inBalance.counted t) ha hl ho

theorem one_place_per_id_overlap :
    (((start 0).run overlap).manager 0).running.contains "a" = true ∧
      (((start 0).run overlap).manager 0).queue.find? "a" = none ∧
      (((start 0).run overlap).manager 0).queue.index.contains "b" = true ∧
      (((start 0).run overlap).manager 0).finished.find? "b" = none :=
  have h := one_place_per_id ⟨0, overlap, along_overlap, rfl⟩
  ⟨by decide, ((h.1 "a").1 (by decide)).1, by decide, (h.1 "b").2 (by decide)⟩

end World

end Backlog
