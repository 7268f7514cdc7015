import Backlog.Proofs.Draining
import Backlog.Proofs.Refusals
import Backlog.Proofs.Selection
import Backlog.Proofs.Statuses

/-!
# Readiness and selection

What a waiting ticket reads as is decided by its deadline and by its need of the network alone,
while a manager passes over tickets whose group has an attempt in progress. So what reads ready is
what the manager would run next, except for such tickets.
-/

namespace Backlog

/-- While nothing runs, the deadline and the network decide. -/
theorem Ticket.mayRun_empty {k : Ticket} {now : Int} {network : Bool} :
    k.MayRun now network .empty ↔ (k.early now || k.offline network) = false := by
  have hblocked : k.blocked .empty = false := by
    cases hk : k.group <;> simp [blocked, hk]
  rw [← runnable_iff, runnable, hblocked, Bool.or_eq_false_iff]
  simp

namespace World

variable {w : World} {a m t : Nat} {id : String}

/-- An attempt of the ticket's group is in progress. -/
def Hindered (m t : Nat) (w : World) : Prop :=
  ∃ g a u, (w.ticket t).group = some g ∧ w.Works a m u ∧ (w.ticket u).group = some g

/-- A manager passes over a ticket that is hindered, and over no other that has come to be due. -/
theorem Serial.mayRun_iff (h : w.Serial m) {now : Int} {network : Bool} :
    (w.ticket t).MayRun now network (w.manager m).busy ↔
      (w.ticket t).MayRun now network .empty ∧ ¬w.Hindered m t := by
  constructor
  · intro hmay
    refine ⟨⟨hmay.due, hmay.online, fun _ _ => rfl⟩, ?_⟩
    rintro ⟨g, a, u, ht, ha, hu⟩
    have hfree := hmay.apart g ht
    rw [(h.served.busy g).mpr ⟨a, u, ha, hu⟩] at hfree
    cases hfree
  · rintro ⟨hmay, hn⟩
    refine ⟨hmay.due, hmay.online, fun g ht => Bool.eq_false_iff.mpr fun hg => hn ?_⟩
    obtain ⟨a, u, ha, hu⟩ := (h.served.busy g).mp hg
    exact ⟨g, a, u, ht, ha, hu⟩

/-- What is queued reads ready if it might run while nothing else does. -/
theorem status_of_queued (hr : (w.manager m).running.find? id = none)
    (hq : (w.manager m).queue.find? id = some t) :
    w.status m id =
      if (w.ticket t).MayRun (w.time m) (w.manager m).network .empty then .waitingReady
      else .waitingNotReady := by
  rw [status, Manager.status_queued hr hq]
  simp only [Ticket.mayRun_empty]
  cases (w.ticket t).early (w.time m) || (w.ticket t).offline (w.manager m).network <;> rfl

/-- A manager that has claimed a ticket begins the attempt. -/
theorem next_departs (ha : w.Active a) {s : Store} (hc : w.claim m = some (s, t))
    (tally : Option Nat) : w.Departs m a t (w.next a m tally) := by
  obtain ⟨x, hx, -, hnext⟩ := next_claimed hc a tally
  obtain ⟨ls, es, he, rfl⟩ := hx
  -- the line that says so comes between the claim and the attempt
  have hw : Wrote a w { w with loggers := ls, history := es ++ w.history } := ⟨ls, es, he, rfl⟩
  have hd := departs_depart (hw.active ha) (Store.claim_logging hc ls) tally
  rw [hnext]
  exact hd.wrote hw (.refl a _)

theorem step_runNext (hm : m < w.managers.size) : w.step (.call (.manager m .runNext)) =
    World.next { w with calls := w.calls + 1 } w.calls m none := by
  have hc : (Call.manager m .runNext).inScope w.toStore = true := by simp [Call.inScope, hm]
  exact if_pos hc

/-- A manager that has nothing to run says so. -/
theorem runNext_idle (hm : m < w.managers.size) (hc : w.claim m = none) :
    w.departures m (.call (.manager m .runNext)) = [] ∧
      w.returned (.call (.manager m .runNext)) = some (.outcome none) := by
  have hh : (w.step (.call (.manager m .runNext))).history =
      [.returned w.calls (.outcome none)] ++ w.history := by
    rw [step_runNext hm]
    simp only [next, hc]
    rfl
  constructor
  · rw [departures, news_eq hh]
    rfl
  · rw [returned, news_eq hh]
    rfl

/-- Else it begins an attempt of a ticket that it may run. -/
theorem runNext_departs (hf : w.Founded) (hm : m < w.managers.size) {s : Store}
    (hc : w.claim m = some (s, t)) :
    ∃ u, w.departures m (.call (.manager m .runNext)) = [u] ∧
      u ∈ (w.manager m).queue.order ∧
      (w.ticket u).MayRun (w.time m) (w.manager m).network (w.manager m).busy := by
  have heff : (w.effect (.call (.manager m .runNext))).toStore = w.toStore :=
    toStore_manage (by simp [Call.inScope, hm])
  rcases step_departs hf m (.call (.manager m .runNext)) with ⟨-, hsame⟩ | ⟨u, hu, hd⟩
  · -- the ticket that is claimed has left the queue
    have hactive : World.Active { w with calls := w.calls + 1 } w.calls :=
      ⟨Nat.lt_succ_self _, Option.eq_none_iff_forall_ne_some.mpr fun f hp =>
        Nat.lt_irrefl _ (hf.numbered _ f hp)⟩
    have hbegins := (next_departs (m := m) hactive hc none).begins
    rw [← step_runNext hm] at hbegins
    obtain ⟨counts, -, hman⟩ := hbegins.manager
    rw [heff] at hsame
    have horder : (w.manager m).queue.order.erase t = (w.manager m).queue.order :=
      congrArg (·.queue.order) (hman.symm.trans hsame)
    have hlen := List.length_erase_of_mem hbegins.queued
    have hpos := List.length_pos_of_mem hbegins.queued
    change ((w.manager m).queue.order.erase t).length = (w.manager m).queue.order.length - 1 at hlen
    change 0 < (w.manager m).queue.order.length at hpos
    rw [horder] at hlen
    omega
  · have hb := hd.begins
    rw [heff] at hb
    exact ⟨u, hu, hb.queued, Ticket.runnable_iff.mp hb.runnable⟩

/-- The id is queued and reads ready, and no attempt of its group is in progress. -/
structure Offered (m : Nat) (id : String) (t : Nat) (w : World) : Prop where
  queued : (w.manager m).queue.find? id = some t
  ready : w.status m id = .waitingReady
  free : ¬w.Hindered m t

/-- As long as the client gives no ticket of a manager another id, a queued id reads ready exactly if
the manager may run its ticket, and not ready otherwise, unless an attempt of its group is in
progress. In that case the ticket may not run, but the id reads as if the attempt were not there.
The next attempt is one of those that read ready and are not hindered like this, and if there is
none then none begins. -/
theorem ready_unless_hindered (h : ReachableBy (lawful m) w) (hm : m < w.managers.size) :
    (∀ id t, (w.manager m).queue.find? id = some t →
      (¬w.Hindered m t → w.status m id =
        if (w.ticket t).MayRun (w.time m) (w.manager m).network (w.manager m).busy
        then .waitingReady else .waitingNotReady) ∧
      (w.Hindered m t →
        ¬(w.ticket t).MayRun (w.time m) (w.manager m).network (w.manager m).busy ∧
        w.status m id =
          if (w.ticket t).MayRun (w.time m) (w.manager m).network .empty
          then .waitingReady else .waitingNotReady)) ∧
    ((∃ id t, w.Offered m id t) →
      ∃ id t, w.Offered m id t ∧ w.departures m (.call (.manager m .runNext)) = [t]) ∧
    ((¬∃ id t, w.Offered m id t) →
      w.departures m (.call (.manager m .runNext)) = [] ∧
        w.returned (.call (.manager m .runNext)) = some (.outcome none)) := by
  have hw := h.sound
  have hserial := h.reachable.serial m
  have hstatus {id : String} {t : Nat} (hq : (w.manager m).queue.find? id = some t) :=
    status_of_queued (hw.custody.queued_apart hq) hq
  -- the tickets that may run are those that are offered
  have offered {t : Nat} (ht : t ∈ (w.manager m).queue.order)
      (hmay : (w.ticket t).MayRun (w.time m) (w.manager m).network (w.manager m).busy) :
      w.Offered m (w.ticket t).id t := by
    have hq := (hw.custody.queue.find _ t).mpr ⟨ht, rfl⟩
    obtain ⟨hmay, hfree⟩ := hserial.mayRun_iff.mp hmay
    exact ⟨hq, by rw [hstatus hq, if_pos hmay], hfree⟩
  have mayRun {id : String} {t : Nat} (ho : w.Offered m id t) :
      t ∈ (w.manager m).queue.order ∧
        (w.ticket t).MayRun (w.time m) (w.manager m).network (w.manager m).busy := by
    have hready := ho.ready
    rw [hstatus ho.queued] at hready
    split at hready
    · rename_i hmay
      exact ⟨((hw.custody.queue.find id t).mp ho.queued).1, hserial.mayRun_iff.mpr ⟨hmay, ho.free⟩⟩
    · cases hready
  refine ⟨fun id t hq => ⟨fun hfree => ?_, fun hhin => ⟨fun hmay => ?_, hstatus hq⟩⟩,
    fun hsome => ?_, fun hnone => ?_⟩
  · rw [hstatus hq]
    simp only [hserial.mayRun_iff, hfree, not_false_iff, and_true]
  · exact (hserial.mayRun_iff.mp hmay).2 hhin
  · cases hc : w.claim m with
    | none =>
      obtain ⟨id, t, ho⟩ := hsome
      have hn := Store.claim_eq_none.mp hc t (mayRun ho).1
      rw [Ticket.runnable_iff.mpr (mayRun ho).2] at hn
      cases hn
    | some p =>
      obtain ⟨t, hd, ht, hmay⟩ := runNext_departs hw.founded hm hc
      exact ⟨_, t, offered ht hmay, hd⟩
  · cases hc : w.claim m with
    | none => exact runNext_idle hm hc
    | some p =>
      obtain ⟨t, -, ht, hmay⟩ := runNext_departs hw.founded hm hc
      exact absurd ⟨_, t, offered ht hmay⟩ hnone

/-- One of two tickets of a group runs, and a third ticket waits that is of no group. -/
def mates : List Move :=
  [.call (.makeJob { id := "a", group := some "g" }),
    .call (.makeJob { id := "b", group := some "g" }), .call (.makeJob { id := "c" }),
    .call (.makeManager {}), .call (.manager 0 (.add (some 0))),
    .call (.manager 0 (.add (some 1))), .call (.manager 0 (.add (some 2))),
    .call (.manager 0 .runNext)]

theorem ready_unless_hindered_mates :
    (¬((start 0).run mates).Hindered 0 2 ∧ ((start 0).run mates).status 0 "c" = .waitingReady) ∧
    (((start 0).run mates).Hindered 0 1 ∧
      ((start 0).run mates).status 0 "b" = .waitingReady) ∧
    ((start 0).run mates).departures 0 (.call (.manager 0 .runNext)) = [2] := by
  have h : ReachableBy (lawful 0) ((start 0).run mates) :=
    ⟨0, mates, by simp [mates, Along, lawful], rfl⟩
  obtain ⟨reads, begins, -⟩ := ready_unless_hindered h (by decide +kernel)
  have hb : ((start 0).run mates).Hindered 0 1 :=
    ⟨"g", 7, 0, by decide +kernel, by decide +kernel, by decide +kernel⟩
  have hc : ¬((start 0).run mates).Hindered 0 2 := by
    rintro ⟨g, a, u, hg, -⟩
    rw [show (((start 0).run mates).ticket 2).group = none by decide +kernel] at hg
    cases hg
  have hready : ((start 0).run mates).status 0 "c" = .waitingReady := by
    rw [(reads "c" 2 (by decide +kernel)).1 hc]
    decide +kernel
  refine ⟨⟨hc, hready⟩, ⟨hb, ?_⟩, ?_⟩
  · rw [((reads "b" 1 (by decide +kernel)).2 hb).2]
    decide +kernel
  · obtain ⟨id, t, ho, hd⟩ := begins ⟨"c", 2, by decide +kernel, hready, hc⟩
    have ht := ((h.sound.custody.queue.find id t).mp ho.queued).1
    rw [show (((start 0).run mates).manager 0).queue.order = [1, 2] by decide +kernel] at ht
    rcases List.mem_cons.mp ht with rfl | ht
    · exact absurd hb ho.free
    · rwa [List.mem_singleton.mp ht] at hd

/-- Of two tickets of a group one runs. -/
def kin : List Move :=
  [.call (.makeJob { id := "a", group := some "g" }),
    .call (.makeJob { id := "b", group := some "g" }), .call (.makeManager {}),
    .call (.manager 0 (.add (some 0))), .call (.manager 0 (.add (some 1))),
    .call (.manager 0 .runNext)]

/-- The other one reads ready, but it may not run, and nothing can begin. -/
theorem ready_though_hindered :
    ReachableBy (lawful 0) ((start 0).run kin) ∧
    (((start 0).run kin).manager 0).queue.find? "b" = some 1 ∧
    ((start 0).run kin).status 0 "b" = .waitingReady ∧
    ¬(((start 0).run kin).ticket 1).MayRun (((start 0).run kin).time 0)
      (((start 0).run kin).manager 0).network (((start 0).run kin).manager 0).busy ∧
    ((start 0).run kin).departures 0 (.call (.manager 0 .runNext)) = [] ∧
    ((start 0).run kin).returned (.call (.manager 0 .runNext)) = some (.outcome none) :=
  ⟨⟨0, kin, by simp [kin, Along, lawful], rfl⟩, by decide +kernel, by decide +kernel,
    by decide +kernel, by decide +kernel, by decide +kernel⟩

end World

end Backlog
