import Backlog.Proofs.Deferral
import Backlog.Proofs.Departures
import Backlog.Proofs.Rulings
import Backlog.Proofs.Selection
import Backlog.Proofs.Standing
import Backlog.Proofs.Groups
import Backlog.Proofs.Waking

/-!
# No job starts early

A manager begins an attempt when the deadline of the ticket has come by its clock, and a
ticket keeps its deadline until the client takes it back. So no attempt of the ticket begins
before the deadline that an addition, a retry or the delay of its group has set, whichever
way the clock moves.
-/

namespace Backlog

namespace Store

variable {s s' : Store} {m t : Nat}

/-- To claim a ticket takes no time. -/
theorem time_claim (h : s.claim m = some (s', t)) : s'.time m = s.time m := by
  simp only [claim] at h
  split at h
  · cases h
  · obtain ⟨rfl, -⟩ := Prod.mk.inj (Option.some.inj h)
    simp only [time, manager_onManager, ↓reduceIte]
    rfl

end Store

namespace World

variable {w w' v : World} {a m t : Nat} {d : Int} {mv : Move} {moves : List Move}

/-- The ticket whose deadline the client sets. -/
def rescheduled : Move → Option Nat
  | .call c => Store.rescheduled c
  | _ => none

/-- The client sets no deadline of ticket `t`. -/
def leavesDeadline (t : Nat) (_ : World) (mv : Move) : Prop := rescheduled mv ≠ some t

theorem defers_effect (w : World) (mv : Move) :
    Store.Defers (rescheduled mv) w.toStore (w.effect mv).toStore := by
  refine (reaches_effect w mv).defers fun t ht => ?_
  cases mv with
  | call c => exact Eq.symm ht
  | _ => cases ht

theorem defers_sequels {x : Option Nat} (hs : Sequels a w w') :
    Store.Defers x w.toStore w'.toStore := by
  induction hs with
  | refl => exact .refl ..
  | tail _ hs ih =>
    apply ih.trans
    cases hs with
    | wrote ls es he => exact Store.defers_of_eq rfl
    | told j t next ha ht hn =>
      exact Store.defers_onTicket _ t (f := ({ · with notified := true })) fun _ h => h.congr rfl
    | welcomed j t ha => exact Store.defers_of_eq rfl
    | departed i t s tally ha hc =>
      rw [toStore_depart]
      exact (Store.claim_begins hc).defers

/-- A ticket goes on waiting in every run in which the client sets no deadline of it. -/
theorem awaits_run (h : w.Founded) (hd : (w.ticket t).Awaits d)
    (hr : w.Along (leavesDeadline t) moves) :
    ((w.run moves).ticket t).Awaits d := by
  refine (hr.run (I := fun w => w.Founded ∧ (w.ticket t).Awaits d) ?_ ⟨h, hd⟩).2
  intro w mv ⟨hf, hd⟩ hmv
  exact ⟨hf.step mv, (defers_sequels (step_sequels hf mv)).awaits t (Option.some_ne_none t) d
    ((defers_effect w mv).awaits t (Ne.symm hmv) d hd)⟩

theorem Departs.time (h : w.Departs m a t w') : w'.time m = w.time m := by
  obtain ⟨s, ls, hc, hs⟩ := h.claimed
  have ht := Store.time_claim hc
  rw [hs]
  exact ht

/-- An attempt begins when the deadline of its ticket has come. -/
theorem Departs.le_time (h : w.Departs m a t w') (hd : (w.ticket t).Awaits d) :
    d ≤ w'.time m := by
  obtain ⟨e, he, hle⟩ := hd
  have hr := h.begins.runnable
  simp only [Ticket.runnable, Bool.and_eq_true, Bool.not_eq_true', Bool.eq_false_iff, ne_eq,
    Ticket.early_iff] at hr
  have hn : ¬w.time m < e := fun hlt => hr.1.1 ⟨e, he, hlt⟩
  rw [h.time]
  omega

/-- Every manager that begins an attempt of ticket `t` in the step does so at `d` or later. -/
def heldBack (t : Nat) (d : Int) (w : World) (mv : Move) : Prop :=
  ∀ m, t ∈ w.departures m mv → d ≤ (w.step mv).time m

/-- What the effect of a move makes wait is held back in that step already. -/
theorem heldBack_step (h : w.Founded) (hd : ((w.effect mv).ticket t).Awaits d) :
    heldBack t d w mv ∧ ((w.step mv).ticket t).Awaits d := by
  have hs : Store.Defers none _ _ := defers_sequels (step_sequels h mv)
  refine ⟨fun m ht => ?_, hs.awaits t (Option.some_ne_none t) d hd⟩
  rcases step_departs h m mv with ⟨hn, -⟩ | ⟨u, hu, hdep⟩
  · rw [hn] at ht
    cases ht
  · rw [hu, List.mem_singleton] at ht
    exact hdep.le_time (ht ▸ hd)

theorem heldBack_run (h : w.Founded) (hd : (w.ticket t).Awaits d)
    (hr : w.Along (leavesDeadline t) moves) : w.Along (heldBack t d) moves := by
  induction moves generalizing w with
  | nil => trivial
  | cons mv moves ih =>
    obtain ⟨hb, hd'⟩ := heldBack_step h ((defers_effect w mv).awaits t (Ne.symm hr.1) d hd)
    exact ⟨hb, ih (h.step mv) hd' hr.2⟩

theorem heldBack_from (h : w.Founded) (hd : ((w.effect mv).ticket t).Awaits d)
    (hr : (w.step mv).Along (leavesDeadline t) moves) :
    w.Along (heldBack t d) (mv :: moves) :=
  have hs := heldBack_step h hd
  ⟨hs.1, heldBack_run (h.step mv) hs.2 hr⟩

/-- The ticket of an attempt that operation `a` has just begun in manager `m` was due, and every
queued ticket ahead of it waits for its deadline, for the network, or for another attempt of
its group. -/
structure InTurn (a m t : Nat) (w : World) : Prop where
  due : ∀ d, (w.ticket t).notBefore = some d → d ≤ w.time m
  online : (w.ticket t).needsNetwork = true → (w.manager m).network = true
  ahead : ∀ u ∈ (w.manager m).queue.order, (w.ticket u).Precedes (w.ticket t) →
    (w.ticket u).early (w.time m) = true ∨ (w.ticket u).offline (w.manager m).network = true ∨
      ∃ g b x, (w.ticket u).group = some g ∧ b ≠ a ∧ w.Works b m x ∧ (w.ticket x).group = some g

/-- The tickets ahead of the one that is claimed cannot run. -/
theorem not_runnable_of_claim {s : Store} (hw : w.Standing m) (hc : w.claim m = some (s, t))
    {u : Nat} (hu : u ∈ (w.manager m).queue.order) (hp : (w.ticket u).Precedes (w.ticket t)) :
    (w.ticket u).runnable (w.time m) (w.manager m).network (w.manager m).busy = false := by
  have hr := Store.ready?_eq_claim w.toStore m
  rw [hc] at hr
  rw [Bool.eq_false_iff, ne_eq, Ticket.runnable_iff]
  exact hw.ordered.ahead_not_mayRun hr hu hp

theorem Departs.inTurn (h : w.Departs m a t w') (hw : w.Standing m) (hs : w.Serial m) :
    w'.InTurn a m t := by
  have hb := h.begins
  obtain ⟨s, ls, hc, hws⟩ := h.claimed
  obtain ⟨f, -, hpend⟩ := h.waits
  obtain ⟨counts, -, hm⟩ := hb.manager
  have hrun := hb.runnable
  simp only [Ticket.runnable, Bool.and_eq_true, Bool.not_eq_true'] at hrun
  refine ⟨fun d hd => ?_, fun hn => ?_, fun u hu hp => ?_⟩
  · refine h.le_time (Ticket.awaits_of_eq ?_)
    rw [← hd, hb.ticket]
  · have ho : (w.ticket t).needsNetwork = true → (w.manager m).network = true := by
      simpa [Ticket.offline] using hrun.1.2
    rw [hb.ticket] at hn
    rw [hm]
    exact ho hn
  have hne : u ≠ t := by
    rintro rfl
    exact Ticket.not_precedes_self _ hp
  rw [hm] at hu
  have hu : u ∈ (w.manager m).queue.order := List.mem_of_mem_erase hu
  have hut : w'.ticket u = w.ticket u := hb.others u hne
  have hn := not_runnable_of_claim hw hc hu
    ((Ticket.precedes_congr (by rw [hut]) (hb.place t)).mp hp)
  rw [hut, h.time]
  simp only [Ticket.runnable, Bool.and_eq_false_iff, Bool.not_eq_false'] at hn
  rcases hn with (hn | hn) | hn
  · exact .inl hn
  · refine .inr (.inl ?_)
    rw [hm]
    exact hn
  · -- what blocks it is an attempt in progress, and not the one that has just begun
    simp only [Ticket.blocked] at hn
    split at hn
    · cases hn
    rename_i g hg
    obtain ⟨b, x, hx, hxg⟩ := (hs.served.busy g).mp hn
    have hba : b ≠ a := by
      rintro rfl
      exact not_works h.active.2 hx
    have hxw : w'.Works b m x := by
      rw [Works, hpend, Table.find?_insert, if_neg hba]
      exact hx
    refine .inr (.inr ⟨g, b, x, hg, hba, hxw, ?_⟩)
    by_cases hxt : x = t
    · rw [hxt, hb.ticket, ← hxg, hxt]
    · rw [hb.others x hxt, hxg]

/-- A ticket that waits for a deadline never comes to wait for an earlier one. What a manager
begins was due and in turn. So a ticket that was added, retried, or held up with its group
begins no attempt before the deadline that this has set. -/
theorem never_early (h : ReachableBy (fun w mv => unmoved (w.manager m).queue.order mv) w) :
    (∀ t d moves, (w.ticket t).notBefore = some d → w.Along (leavesDeadline t) moves →
      ∃ e, ((w.run moves).ticket t).notBefore = some e ∧ d ≤ e) ∧
    (∀ mv t, unmoved (w.manager m).queue.order mv → t ∈ w.departures m mv →
      (w.step mv).InTurn (w.acting mv) m t) ∧
    (∀ i j s d mv moves, mv = .call (.manager i (.add (some j))) → i < w.managers.size →
      j < w.jobs.size → w.enlist i j = some s →
      deadline (w.time i) (w.job j).delay = some d →
      (w.step mv).Along (leavesDeadline w.tickets.size) moves →
      w.Along (heldBack w.tickets.size d) (mv :: moves)) ∧
    ∀ a f r v k o i t delay d, w.pending.find? a = some f → w.Rules f r v k o →
      k.work = some (i, t) → (v.settle i t o).2 = .ok (.retried delay) →
      deadline (w.time i) delay = some d →
      ∀ u moves, u = w.tickets.size ∨ (u ∈ (w.manager i).queue.order ∧
        ∃ p g, v.plan t = some p ∧ p.wholeGroup = true ∧ (w.ticket t).group = some g ∧
          (w.ticket u).group = some g) →
      (w.step (.reply a r)).Along (leavesDeadline u) moves →
      w.Along (heldBack u d) (.reply a r :: moves) := by
  have hserial : w.Serial m := by
    obtain ⟨now, ms, -, rfl⟩ := h
    exact Reachable.serial ⟨now, ms, rfl⟩ m
  have hf := hserial.founded
  refine ⟨fun t d moves hd hr => awaits_run hf (Ticket.awaits_of_eq hd) hr, ?_, ?_, ?_⟩
  · intro mv t hu ht
    rcases step_departs hf m mv with ⟨hn, -⟩ | ⟨u, hd, hdep⟩
    · rw [hn] at ht
      cases ht
    · rw [hd, List.mem_singleton] at ht
      exact ht ▸ hdep.inTurn (standing_effect h.standing hf hu) (hserial.effect mv)
  · rintro i j s d _ moves rfl hi hj hs hd hr
    refine heldBack_from hf (Ticket.awaits_of_eq ?_) hr
    rw [toStore_manage (by simp [Call.inScope, hi, hj]), ← hd, ← Store.enlist_deadline hs]
    change (((w.enlist i j).getD w.toStore).ticket _).notBefore = _
    rw [hs]
    rfl
  · intro a f r v k o i t delay d hfr hv hk hret hd u moves hu hr
    obtain ⟨n, since, tally, rfl⟩ := Caller.eq_of_work hk
    refine heldBack_from hf ?_ hr
    rw [effect_rules hfr hv]
    obtain ⟨jobs, rfl, -⟩ := hv.replanned
    have hheld := Store.settle_held hret hd
    rcases hu with rfl | ⟨hq, p, g, hp, hwhole, ht, hug⟩
    · exact hheld.new
    · exact hheld.group p g hp hwhole ht u hq hug

/-- Two jobs of one group are queued, and the body of the first fails. -/
def siblings : List Move :=
  [.call (.makeJob { id := "a", group := some "g", asksPlan := true }),
    .call (.makeJob { id := "b", group := some "g" }), .call (.makeManager {}),
    .call (.manager 0 (.add (some 0))), .call (.manager 0 (.add (some 1))),
    .call (.manager 0 .runNext), .reply 5 (.failed "late")]

/-- The first job makes the whole group wait for 5 ms. The second begins after that. -/
theorem never_early_siblings :
    ((start 0).run siblings).Along (heldBack 1 5000000)
        [.reply 5 (.plan ⟨true, some 5, none, true⟩), .call (.manager 0 .runNext),
          .elapse 5000000, .call (.manager 0 .runNext)] ∧
      departures (((start 0).run siblings).run [.reply 5 (.plan ⟨true, some 5, none, true⟩),
        .call (.manager 0 .runNext), .elapse 5000000]) 0 (.call (.manager 0 .runNext)) = [1] := by
  have h : ReachableBy (fun w mv => unmoved (w.manager 0).queue.order mv)
      ((start 0).run siblings) :=
    ⟨0, siblings, by simp only [siblings, Along, unmoved, and_self], rfl⟩
  have hf : ((start 0).run siblings).pending.find? 5 =
      some (.plan 0 0 1 "late" (.manager 0 0 1 0 none)) := by decide +kernel
  refine ⟨?_, by decide +kernel⟩
  refine (never_early h).2.2.2 5 _ _ _ _ _ 0 0 5 5000000 hf
    (.planned 0 0 1 "late" _ ⟨true, some 5, none, true⟩ _ (.inl rfl)) rfl ?_ ?_ 1 _ ?_ ?_
  · decide +kernel
  · decide +kernel
  · refine .inr ⟨by decide +kernel, ⟨true, some 5, none, true⟩, "g", ?_, rfl, ?_, ?_⟩ <;>
      decide +kernel
  · simp only [Along, leavesDeadline, rescheduled, Store.rescheduled, ne_eq, reduceCtorEq,
      not_false_eq_true, and_self]

end World

end Backlog
