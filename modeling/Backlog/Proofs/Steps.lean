import Backlog.Proofs.Effects

/-!
# Steps are effects with sequels

Loggers matter to no operation of custody, so that an operation which writes lines between two
of them does to the store what they do one after the other.
-/

namespace Backlog

namespace Store

/-- The store with other loggers. -/
def logging (s : Store) (ls : Registry Logger) : Store := { s with loggers := ls }

variable {s s' : Store} {m t : Nat}

theorem build_logging (s : Store) (ls : Registry Logger) (d : Draft) :
    (s.logging ls).build d = (s.build d).map (·.logging ls) := by
  simp only [build]
  cases d.job <;> cases d.priority <;> cases d.session <;> cases d.created <;> try rfl
  dsimp only [bind, Except.bind, pure, Except.pure]
  split <;> rfl

theorem stampTicket_logging (s : Store) (ls : Registry Logger) (t : Nat) :
    (s.logging ls).stampTicket t = (s.stampTicket t).logging ls := by
  have hk : (s.logging ls).ticket t = s.ticket t := rfl
  simp only [stampTicket]
  rw [hk]
  cases (s.ticket t).stamp <;> rfl

theorem push_logging (s : Store) (ls : Registry Logger) (q : Queue) (t : Nat) :
    (s.logging ls).push q t = (s.push q t).map fun p => (p.1.logging ls, p.2) := by
  have hk : (s.logging ls).ticket t = s.ticket t := rfl
  simp only [push]
  rw [hk, stampTicket_logging]
  cases q.accepts (s.ticket t).id <;> rfl

theorem claim_logging (h : s.claim m = some (s', t)) (ls : Registry Logger) :
    (s.logging ls).claim m = some (s'.logging ls, t) := by
  have hr : ((s.logging ls).manager m).ready? (s.logging ls).ticket ((s.logging ls).time m) =
    (s.manager m).ready? s.ticket (s.time m) := rfl
  simp only [claim] at h ⊢
  rw [hr]
  cases hu : (s.manager m).ready? s.ticket (s.time m) with
  | none => rw [hu] at h; cases h
  | some u =>
    rw [hu] at h
    obtain ⟨rfl, rfl⟩ := Prod.mk.inj (Option.some.inj h)
    rfl

theorem reclaim_logging (s : Store) (ls : Registry Logger) (m t : Nat) :
    (s.logging ls).reclaim m t = ((s.reclaim m t).1.logging ls, (s.reclaim m t).2) := by
  have hg : (s.logging ls).manager m = s.manager m := rfl
  have hk : (s.logging ls).ticket t = s.ticket t := rfl
  obtain ⟨w, hw⟩ : ∃ w, w = s.onTicket t ({ · with session := (s.manager m).session }) := ⟨_, rfl⟩
  have hl : (s.logging ls).onTicket t ({ · with session := (s.manager m).session }) =
      w.logging ls := by rw [hw]; rfl
  simp only [reclaim]
  rw [hg, hk, hl, ← hw, push_logging]
  split
  · rfl
  split
  · rfl
  cases w.push (s.manager m).queue t <;> rfl

/-- A ticket that is not queued again is left as it is. -/
theorem reclaim_eq_self (h : ∀ stale, (s.reclaim m t).2 ≠ .requeued stale) :
    (s.reclaim m t).1 = s := by
  rcases reclaim_eq s m t with ⟨hs, -⟩ | ⟨-, w, next, -, -, hs⟩
  · exact hs
  · rw [hs] at h
    exact absurd rfl (h _)

theorem spread_logging (s : Store) (ls : Registry Logger) (m t : Nat) (p : Option RetryPlan) :
    (s.logging ls).spread m t p = (s.spread m t p).logging ls := by
  have hk : (s.logging ls).ticket t = s.ticket t := rfl
  simp only [spread]
  rw [hk]
  split
  · split <;> rfl
  · rfl

theorem retry_logging (s : Store) (ls : Registry Logger) (m t : Nat) :
    (s.logging ls).retry m t = ((s.retry m t).1.logging ls, (s.retry m t).2) := by
  have hr : (s.logging ls).renew m t = (s.renew m t).map (·.logging ls) := by
    simp only [renew]
    exact build_logging s ls _
  have hg : (s.logging ls).manager m = s.manager m := rfl
  have hz : (s.logging ls).tickets = s.tickets := rfl
  simp only [retry]
  rw [hr, hg, hz]
  cases s.renew m t with
  | error f => rfl
  | ok new =>
    dsimp only [Except.map]
    cases (s.manager m).accepting with
    | false => rfl
    | true =>
      simp only [↓reduceIte, push_logging]
      cases new.push (s.manager m).queue s.tickets.size with
      | none => rfl
      | some p =>
        exact Prod.ext (spread_logging (p.1.onManager m ({ · with queue := p.2 })) ls _ _ _) rfl

theorem settle_logging (s : Store) (ls : Registry Logger) (m t : Nat) (o : Outcome) :
    (s.logging ls).settle m t o = ((s.settle m t o).1.logging ls, (s.settle m t o).2) := by
  obtain ⟨w, hw⟩ : ∃ w, w = s.onManager m (·.release (s.ticket t)) := ⟨_, rfl⟩
  have hl : (s.logging ls).onManager m (·.release ((s.logging ls).ticket t)) = w.logging ls := by
    rw [hw]; rfl
  have hk : (w.logging ls).ticket t = w.ticket t := rfl
  have hp : (w.logging ls).plan t = w.plan t := rfl
  simp only [settle]
  rw [hl, ← hw, hk, hp, retry_logging]
  cases o with
  | success => rfl
  | cancelled => rfl
  | runLimit => rfl
  | other code => rfl
  | again => dsimp only; split <;> rfl
  | declined =>
    dsimp only
    split
    · rfl
    · split <;> rfl

theorem recover_logging (s : Store) (ls : Registry Logger) (m : Nat) (ts : List (Option Nat)) :
    (s.logging ls).manage m (.recover ts) = (s.manage m (.recover ts)).logging ls := by
  induction ts generalizing s with
  | nil => rfl
  | cons t ts ih =>
    cases t with
    | none => exact ih s
    | some t =>
      refine .trans ?_ (ih (s.reclaim m t).1)
      exact congrArg (fun r : Store × Recovery => r.1.manage m (.recover ts))
        (reclaim_logging s ls m t)

theorem close_logging (s : Store) (ls : Registry Logger) (k : Caller) (o : Outcome) :
    (s.logging ls).close k o = (s.close k o).logging ls := by
  cases k with
  | client => rfl
  | manager m t n since tally => exact congrArg Prod.fst (settle_logging s ls m t o)

end Store

namespace World

variable {w w' : World} {a m t : Nat}

/-- A manager that begins an attempt writes about it first. -/
theorem sequels_next (ha : w.Active a) (m : Nat) (tally : Option Nat) :
    Sequels a w (w.next a m tally) := by
  unfold next
  split
  · exact (wrote_give ..).sequels
  · rename_i s t hc
    obtain ⟨ls, es, he, hw⟩ := wrote_note { w with toStore := s } m .info (s.ticket t).id
      (if 1 < (s.ticket t).runs then "retrying" else "starting")
      [("event", "job_start"), ("attempt", toString (s.ticket t).runs),
        ("priority", toString (s.ticket t).priority)]
    have hd := Sequel.departed { w with loggers := ls, history := es ++ w.history } m t
      (s.logging ls) tally ha (Store.claim_logging hc ls)
    dsimp only
    change Sequels a w (World.enter (({ w with toStore := s } : World).note ..) ..)
    rw [hw]
    exact .tail (.single (.wrote w ls es he)) hd

theorem sequels_proceed (ha : w.Active a) (m : Nat) (o : Outcome) (tally : Option Nat) :
    Sequels a w (w.proceed a m o tally) := by
  cases tally with
  | none => exact (wrote_give ..).sequels
  | some n => exact sequels_next ha m _

theorem sequels_resumeNext (ha : w.Active a) (next : Next) :
    Sequels a w (w.resumeNext a next) := by
  cases next with
  | give v => exact (wrote_give ..).sequels
  | proceed m o tally => exact sequels_proceed ha m o tally

theorem sequels_tell (ha : w.Active a) (ht : t < w.tickets.size) (next : Next) :
    Sequels a w (w.tell a t next) := by
  simp only [tell]
  split
  · exact sequels_resumeNext ha next
  · rename_i hn
    exact .single (.told w _ t next ha ht (by simpa using hn))

/-- Settling comes first when an attempt has its outcome. -/
theorem sequels_conclude (ha : w.Active a) {k : Caller}
    (hk : ∀ m t, k.work = some (m, t) → t < w.tickets.size) (o : Outcome) :
    Sequels a (w.close k o) (w.conclude a k o) := by
  cases k with
  | client => exact (wrote_give ..).sequels
  | manager m t n since tally =>
    simp only [conclude, close, Store.close]
    split
    · exact (wrote_raise ..).sequels
    · rename_i e _
      have hr := wrote_report (a := a) { w with toStore := (w.settle m t o).1 } m t n since o e
      have ha' := hr.active ha
      have ht := Nat.lt_of_lt_of_le (hk m t rfl)
        (Store.keeps_settle (x := none) w.toStore m t o).tickets
      split
      · refine hr.sequels.trans (sequels_tell ha' ?_ _)
        obtain ⟨ls, es, -, hr⟩ := hr
        rw [hr]
        exact ht
      · exact hr.sequels.trans (sequels_proceed ha' m o tally)

/-- The job writes why the attempt failed before anything is settled, but what it writes does
not matter to that. -/
theorem sequels_conclusion (ha : w.Active a) (j t : Nat) (n : Int) (reason : String)
    {k : Caller} (hk : ∀ m t, k.work = some (m, t) → t < w.tickets.size) :
    Sequels a (w.closeFailed j t n k) (w.conclusion a j t n reason k) := by
  obtain ⟨_, ⟨ls, es, he, rfl⟩, hw⟩ := conclusion_eq w a j t n reason k
  rw [hw]
  have hc : ({ w with loggers := ls, history := es ++ w.history } : World).close k
      (w.failureOutcome j t n) =
      { w.closeFailed j t n k with loggers := ls, history := es ++ w.history } := by
    unfold close
    rw [show ({ w with loggers := ls, history := es ++ w.history } : World).toStore =
      w.toStore.logging ls from rfl, Store.close_logging]
    rfl
  have hs := sequels_conclude (w := { w with loggers := ls, history := es ++ w.history }) ha hk
    (w.failureOutcome j t n)
  rw [hc] at hs
  have hl : (w.closeFailed j t n k).Logged _ := ⟨ls, es, he, rfl⟩
  exact (hl.wrote a).sequels.trans hs

theorem sequels_planned (ha : w.Active a) (j t : Nat) (n : Int) (reason : String) {k : Caller}
    (hk : ∀ m t, k.work = some (m, t) → t < w.tickets.size) (p : RetryPlan) :
    Sequels a ((w.intend j (some p)).closeFailed j t n k) (w.planned a j t n reason k p) :=
  sequels_conclusion (w := w.intend j (some p)) ha j t n reason hk

theorem sequels_failed (ha : w.Active a) (j t : Nat) (n : Int) (reason : String) {k : Caller}
    (hk : ∀ m t, k.work = some (m, t) → t < w.tickets.size) :
    Sequels a (w.falter a j t n reason k) (w.failed a j t n reason k) := by
  refine falter_cases (P := Sequels a) (fun _ _ => .refl) (fun _ _ _ => ?_) fun _ => ?_
  · exact sequels_planned (w := w.intend j none) ha j t n reason hk .again
  · exact sequels_conclusion (w := w.intend j none) ha j t n reason hk

/-- A reply does its work before the operation goes on. -/
theorem sequels_resume (ha : w.Active a) {f : Frame} {r : Reply} (ht : f.takes r = true)
    (hf : ∀ m t, f.work = some (m, t) → t < w.tickets.size) :
    Sequels a (w.hear a f r) (w.resume a f r) := by
  cases f with
  | told next =>
    cases r with
    | done => exact sequels_resumeNext ha next
    | threw x => exact (wrote_raise ..).sequels
    | _ => cases ht
  | attempt k =>
    cases r with
    | outcome o => exact sequels_conclude ha hf o
    | _ => cases ht
  | body j u n k =>
    cases r with
    | succeeded => exact sequels_conclude ha hf .success
    | failed reason => exact sequels_failed ha j u n reason hf
    | threw x => exact sequels_failed ha j u n (thrownReason x) hf
    | _ => cases ht
  | plan j u n reason k =>
    cases r with
    | plan p => exact sequels_planned ha j u n reason hf p
    | threw x => exact sequels_planned ha j u n (unplannedReason reason x) hf .never
    | _ => cases ht

theorem sequels_add (ha : w.Active a) (m : Nat) (j : Option Nat) :
    Sequels a { w with toStore := w.manage m (.add j) } (w.add a m j) := by
  cases j with
  | none => exact (wrote_raise ..).sequels
  | some j =>
    rw [show w.manage m (.add (some j)) = (w.enlist m j).getD w.toStore from rfl]
    simp only [add]
    cases w.enlist m j with
    | none => exact (wrote_give ..).sequels
    | some s =>
      have hn := wrote_note (a := a) { w with toStore := s } m .info (w.job j).id "added"
        [("event", "job_added"), ("priority", toString (w.job j).priority),
          ("group", (w.job j).group.getD ""), ("delay_ms", toString (w.job j).delay)]
      exact hn.sequels.tail (.welcomed _ j _ (hn.active ha))

theorem sequels_cancel (ha : w.Active a) (hm : ∀ t, (w.manager m).knows t → t < w.tickets.size)
    (id : String) :
    Sequels a { w with toStore := w.manage m (.cancel id) } (w.cancel a m id) := by
  rw [show w.manage m (.cancel id) = ((w.withdraw m id).map Prod.fst).getD w.toStore from rfl]
  simp only [cancel]
  cases hw : w.withdraw m id with
  | none => exact (wrote_give ..).sequels
  | some v =>
    obtain ⟨s, v⟩ := v
    cases v with
    | marked t =>
      exact (wrote_note { w with toStore := s } m .warn id "cancel requested"
        [("event", "job_cancel"), ("state", "Running")]).trans (wrote_give ..) |>.sequels
    | dropped t =>
      obtain ⟨hd, hz⟩ := Store.withdraw_dropped hw
      have hn := wrote_note (a := a) { w with toStore := s } m .warn id "cancelled"
        [("event", "job_cancel"), ("state", "Queued")]
      refine hn.sequels.trans (sequels_tell (hn.active ha) ?_ _)
      obtain ⟨ls, es, -, hn⟩ := hn
      rw [hn]
      exact Nat.lt_of_lt_of_le (hm t hd) hz

theorem wrote_recoverOne (a m : Nat) (w : World) (n : Nat) (t : Option Nat) :
    ∃ k w', recoverOne m (w, n) t = (w', k) ∧
      Wrote a { w with toStore := t.elim w.toStore fun t => (w.reclaim m t).1 } w' := by
  cases t with
  | none => exact ⟨n, w, rfl, .refl a w⟩
  | some t =>
    dsimp only [Option.elim]
    simp only [recoverOne]
    cases hr : w.reclaim m t with
    | mk s v =>
      have hs : (∀ stale, v ≠ .requeued stale) → s = w.toStore := fun h => by
        have := Store.reclaim_eq_self (s := w.toStore) (m := m) (t := t) (by rwa [hr])
        rwa [hr] at this
      cases v with
      | ignored =>
        obtain rfl := hs nofun
        exact ⟨n, w, rfl, .refl a w⟩
      | refused =>
        obtain rfl := hs nofun
        refine ⟨n, _, rfl, ?_⟩
        exact wrote_note ..
      | requeued stale =>
        refine ⟨n + 1, _, rfl, ?_⟩
        exact wrote_note ..

/-- What recovery writes about one ticket does not matter to the next. -/
theorem wrote_recover (a m : Nat) (ts : List (Option Nat)) (w : World) (n : Nat) :
    Wrote a { w with toStore := w.manage m (.recover ts) } (ts.foldl (recoverOne m) (w, n)).1 := by
  induction ts generalizing w n with
  | nil => exact .refl a w
  | cons t ts ih =>
    obtain ⟨k, w', ho, ls, es, he, rfl⟩ := wrote_recoverOne a m w n t
    rw [List.foldl_cons, ho]
    obtain ⟨s, hs⟩ : ∃ s, s = t.elim w.toStore fun t => (w.reclaim m t).1 := ⟨_, rfl⟩
    have hm : w.manage m (.recover (t :: ts)) = s.manage m (.recover ts) := by rw [hs]; rfl
    rw [← hs, hm]
    refine .trans ?_ (ih { w with toStore := s.logging ls, history := es ++ w.history } k)
    exact ⟨ls, es, he, congrArg (fun s => ({ w with toStore := s, history := es ++ w.history } : World))
      (Store.recover_logging s ls m ts)⟩

theorem wrote_recovered (w : World) (a m : Nat) (ts : List (Option Nat)) :
    Wrote a { w with toStore := w.manage m (.recover ts) } (w.recover a m ts) :=
  (wrote_recover a m ts w 0).trans (wrote_give ..)

theorem wrote_setNetwork (w : World) (a m : Nat) (up : Bool) :
    Wrote a { w with toStore := w.manage m (.network up) } (w.setNetwork a m up) := by
  simp only [setNetwork]
  split
  · exact wrote_give ..
  · exact (wrote_announce ..).trans (wrote_give ..)

theorem wrote_stop (w : World) (a m : Nat) :
    Wrote a { w with toStore := w.manage m .stop } (w.stop a m) := by
  simp only [stop, Store.manage]
  split
  · exact (wrote_announce ..).trans (wrote_give ..)
  · exact wrote_give ..

theorem sequels_manage (ha : w.Active a) (hm : ∀ t, (w.manager m).knows t → t < w.tickets.size)
    (c : ManagerCall) :
    Sequels a { w with toStore := w.manage m c } (w.callManager a m c) := by
  cases c with
  | add j => exact sequels_add ha m j
  | runNext => exact sequels_next ha m none
  | runUntilIdle => exact sequels_next ha m (some 0)
  | cancel id => exact sequels_cancel ha hm id
  | recover ts => exact (wrote_recovered ..).sequels
  | network up => exact (wrote_setNetwork ..).sequels
  | stop => exact (wrote_stop ..).sequels

theorem sequels_commit (w : World) (a : Nat) (v : Value) (r : Except Fault Store) :
    Sequels a { w with toStore := w.after r } (w.commit a v r) := by
  cases r with
  | ok s => exact (wrote_give ..).sequels
  | error f => exact (wrote_raise ..).sequels

theorem wrote_callLogger (w : World) (a l : Nat) (c : LoggerCall) :
    Wrote a w (w.callLogger a l c) := by
  cases c with
  | threshold rank => exact ⟨_, [.returned a .unit], by simp [Event.isNote], rfl⟩
  | json on => exact ⟨_, [.returned a .unit], by simp [Event.isNote], rfl⟩
  | line line => exact (wrote_log ..).trans (wrote_give ..)

theorem sequels_perform (ha : w.Active a) (hw : w.Founded) {c : Call}
    (hc : c.inScope w.toStore = true) : Sequels a (w.begin a c) (w.perform a c) := by
  cases c with
  | makeJob p => exact sequels_commit ..
  | editJob j e => exact (wrote_give ..).sequels
  | build d => exact sequels_commit ..
  | editTicket t e => exact sequels_commit ..
  | tell t => exact sequels_tell ha (by simpa [Call.inScope] using hc) _
  | run t n => exact .refl
  | attempt t n => exact .refl
  | makeQueue => exact (wrote_give ..).sequels
  | queue q c => exact (wrote_give ..).sequels
  | makeManager c => exact ((wrote_announce ..).trans (wrote_give ..)).sequels
  | manager m c => exact sequels_manage ha (hw.store.known m) c
  | makeLogger => exact (wrote_give ..).sequels
  | logger l c => exact (wrote_callLogger ..).sequels

/-- What a step does beyond the effect of its move. -/
theorem step_sequels (h : w.Founded) (mv : Move) :
    Sequels (w.acting mv) (w.effect mv) (w.step mv) := by
  cases mv with
  | call c =>
    simp only [effect, step]
    split
    · rename_i hc
      refine sequels_perform (w := { w with calls := w.calls + 1 }) ⟨Nat.lt_succ_self _, ?_⟩
        ⟨h.store, fun a f hf => Nat.lt_succ_of_lt (h.numbered a f hf), h.coherent, h.works⟩ hc
      exact Option.eq_none_iff_forall_ne_some.mpr fun f hf => Nat.lt_irrefl _ (h.numbered _ f hf)
    · exact .refl
  | reply a r =>
    simp only [effect, step]
    cases hf : w.pending.find? a with
    | none => exact .refl
    | some f =>
      dsimp only
      split
      · rename_i ht
        exact sequels_resume (w := { w with pending := w.pending.erase a })
          ⟨h.numbered a f hf, Table.find?_erase_same ..⟩ ht fun m t hw => h.works a m t (by
            rw [Works, hf]; exact hw)
      · exact .refl
  | clock now => exact .refl
  | elapse nanos => exact .refl

end World

end Backlog
