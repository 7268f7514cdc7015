import Backlog.Proofs.Ageing
import Backlog.Proofs.Groups

/-!
# Managers and their sessions

Only making a manager adds one, and no operation gives a manager another session. A new session
is past all others, whatever the clock shows, so sessions grow in the order managers are made.
-/

namespace Backlog

/-- The queue of a manager that accepts is open. -/
def Manager.Open (g : Manager) : Prop := g.accepting = true → g.queue.closed = false

theorem Queue.closed_remove {ticket : Nat → Ticket} {q q' : Queue} {id : String} {t : Nat}
    (h : q.remove ticket id = some (t, q')) : q'.closed = q.closed := by
  obtain ⟨-, rfl⟩ := remove_eq_some.mp h
  rfl

namespace Store

/-- The managers are the same ones, with the same sessions, and what was open is open. -/
structure SameCrew (s s' : Store) : Prop where
  size : s'.managers.size = s.managers.size
  last : s'.lastSession = s.lastSession
  session : ∀ m, (s'.manager m).session = (s.manager m).session
  opened : ∀ m, (s.manager m).Open → (s'.manager m).Open

variable {s s' s'' : Store} {m t : Nat}

theorem sameCrew_of_eq (hm : s'.managers = s.managers) (hl : s'.lastSession = s.lastSession) :
    SameCrew s s' where
  size := congrArg Registry.size hm
  last := hl
  session i := by rw [manager, manager, hm]
  opened i h := by rwa [manager, hm]

theorem SameCrew.refl (s : Store) : SameCrew s s := sameCrew_of_eq rfl rfl

theorem SameCrew.trans (h : SameCrew s s') (h' : SameCrew s' s'') : SameCrew s s'' where
  size := h'.size.trans h.size
  last := h'.last.trans h.last
  session m := (h'.session m).trans (h.session m)
  opened m ho := h'.opened m (h.opened m ho)

theorem sameCrew_onManager (hm : m < s.managers.size) {f : Manager → Manager}
    (hs : ∀ g, (f g).session = g.session)
    (ho : (s.manager m).Open → (f (s.manager m)).Open) :
    SameCrew s (s.onManager m f) where
  size := by
    rw [onManager, Registry.size_modify]
    omega
  last := rfl
  session i := by
    rw [manager_onManager]
    split
    · rename_i h; subst h; exact hs _
    · rfl
  opened i h := by
    rw [manager_onManager]
    split
    · rename_i he; subst he; exact ho h
    · exact h

theorem sameCrew_finish (hm : m < s.managers.size) (t : Nat) (status : Status) (tell : Bool) :
    SameCrew s (s.finish m t status tell).1 :=
  sameCrew_onManager hm (fun _ => rfl) fun h => h

theorem sameCrew_setContext (s : Store) (t : Nat) (logger : Option Nat) (session : Int) :
    SameCrew s (s.setContext t logger session) :=
  sameCrew_of_eq rfl rfl

theorem sameCrew_stampTicket (s : Store) (t : Nat) : SameCrew s (s.stampTicket t) := by
  simp only [stampTicket]
  split <;> exact sameCrew_of_eq rfl rfl

theorem sameCrew_spread (s : Store) (m t : Nat) (plan : Option RetryPlan) :
    SameCrew s (s.spread m t plan) := by
  simp only [spread]
  split
  · split <;> exact sameCrew_of_eq rfl rfl
  · exact .refl s

theorem sameCrew_retry (hm : m < s.managers.size) (t : Nat) : SameCrew s (s.retry m t).1 := by
  rcases retry_cases s m t with ⟨f, h⟩ | ⟨k, -, -, h | ⟨next, d, rfl, h⟩⟩ <;> rw [h]
  · exact .refl s
  · have hw : SameCrew s (s.wrap k) := sameCrew_of_eq rfl rfl
    exact hw.trans (sameCrew_finish (hw.size ▸ hm) ..)
  · have hw : SameCrew s (s.wrap k) := sameCrew_of_eq rfl rfl
    have hs := hw.trans (sameCrew_stampTicket _ s.tickets.size)
    refine hs.trans (.trans (sameCrew_onManager (hs.size ▸ hm) ?_ ?_) (sameCrew_spread ..))
    · exact fun _ => rfl
    · rw [manager_stampTicket]
      exact fun h => h

theorem sameCrew_settle (hm : m < s.managers.size) (t : Nat) (o : Outcome) :
    SameCrew s (s.settle m t o).1 := by
  obtain ⟨w, hw⟩ : ∃ w, w = s.onManager m (·.release (s.ticket t)) := ⟨_, rfl⟩
  have hs : SameCrew s w := hw ▸ sameCrew_onManager hm (fun _ => rfl) fun h => h
  have hm := hs.size ▸ hm
  refine hs.trans ?_
  apply settle_induction (P := fun r => SameCrew w r.1) hw
  · have ht : SameCrew w (w.onTicket t ({ · with successful := true })) := sameCrew_of_eq rfl rfl
    exact ht.trans (sameCrew_finish (ht.size ▸ hm) ..)
  · intro status tell _
    exact sameCrew_finish hm ..
  · exact sameCrew_retry hm t

theorem sameCrew_enlist {j : Nat} (hm : m < s.managers.size) (h : s.enlist m j = some s') :
    SameCrew s s' := by
  obtain ⟨-, k, next, -, rfl, rfl⟩ := enlist_eq_some h
  have hw : SameCrew s (s.wrap k) := sameCrew_of_eq rfl rfl
  have hs := hw.trans (sameCrew_stampTicket _ s.tickets.size)
  have hc := hs.trans (sameCrew_setContext _ s.tickets.size (some (s.manager m).logger)
    (s.manager m).session)
  refine hc.trans (sameCrew_onManager (hc.size ▸ hm) (fun _ => rfl) ?_)
  rw [manager_setContext, manager_stampTicket]
  exact fun h => h

theorem sameCrew_reclaim (hm : m < s.managers.size) (t : Nat) : SameCrew s (s.reclaim m t).1 := by
  rcases reclaim_eq s m t with ⟨h, -⟩ | ⟨-, w, next, rfl, rfl, h⟩ <;> rw [h]
  · exact .refl s
  · have hw : SameCrew s (s.onTicket t ({ · with session := (s.manager m).session })) :=
      sameCrew_of_eq rfl rfl
    have hs := hw.trans ((sameCrew_stampTicket _ t).trans
      (sameCrew_setContext _ t (some (s.manager m).logger) (s.manager m).session))
    refine hs.trans (sameCrew_onManager (hs.size ▸ hm) (fun _ => rfl) ?_)
    rw [manager_setContext, manager_stampTicket]
    exact fun h => h

theorem sameCrew_recover (hm : m < s.managers.size) (ts : List (Option Nat)) :
    SameCrew s (s.manage m (.recover ts)) := by
  induction ts generalizing s with
  | nil => exact .refl s
  | cons t ts ih =>
    cases t with
    | none => exact ih hm
    | some t =>
      have hr := sameCrew_reclaim hm t
      exact hr.trans (ih (hr.size ▸ hm))

theorem sameCrew_withdraw (hm : m < s.managers.size) {id : String} {v : Withdrawal}
    (h : s.withdraw m id = some (s', v)) : SameCrew s s' := by
  rcases withdraw_cases h with ⟨t, -, rfl, -⟩ | ⟨-, t, queue, hq, rfl, -⟩
  · exact sameCrew_of_eq rfl rfl
  · have hc : SameCrew s (s.cancelTicket t) := sameCrew_of_eq rfl rfl
    refine hc.trans (sameCrew_onManager (s := s.cancelTicket t) hm (fun _ => rfl) fun ho ha => ?_)
    exact (Queue.closed_remove hq).trans (ho ha)

theorem sameCrew_manage (hm : m < s.managers.size) (c : ManagerCall) :
    SameCrew s (s.manage m c) := by
  cases c with
  | add j =>
    cases j with
    | none => exact .refl s
    | some j =>
      change SameCrew s ((s.enlist m j).getD s)
      cases he : s.enlist m j with
      | none => exact .refl s
      | some s' => exact sameCrew_enlist hm he
  | runNext => exact .refl s
  | runUntilIdle => exact .refl s
  | cancel id =>
    change SameCrew s (((s.withdraw m id).map Prod.fst).getD s)
    cases hw : s.withdraw m id with
    | none => exact .refl s
    | some p => exact sameCrew_withdraw hm hw
  | recover ts => exact sameCrew_recover hm ts
  | network up => exact sameCrew_onManager hm (fun _ => rfl) fun h => h
  | stop =>
    change SameCrew s (if (s.manager m).accepting then s.onManager m (·.stop) else s)
    split
    · exact sameCrew_onManager hm (fun _ => rfl) fun _ => nofun
    · exact .refl s

theorem sameCrew_callQueue (s : Store) (q : Nat) (c : QueueCall) :
    SameCrew s (s.callQueue q c).1 := by
  refine sameCrew_of_eq (managers_callQueue s q c) ?_
  cases c with
  | push t =>
    cases t with
    | none => rfl
    | some t =>
      simp only [callQueue]
      split
      · rfl
      · rename_i hp
        obtain ⟨-, rfl, -⟩ := push_eq_some.mp hp
        exact (sameCrew_stampTicket s t).last
  | next | remove =>
    simp only [callQueue]
    split <;> rfl
  | delayGroup | close => rfl

theorem sameCrew_editTicket (s : Store) (t : Nat) (e : TicketEdit) :
    SameCrew s (s.after (s.editTicket t e)) := by
  refine sameCrew_of_eq (managers_editTicket s t e) ?_
  cases e with
  | stamp n =>
    simp only [editTicket]
    split <;> rfl
  | job j => cases j <;> rfl
  | _ => rfl

/-- A call leaves the managers the same ones unless it makes one. -/
theorem sameCrew_call {c : Call} (hc : c.inScope s = true) :
    SameCrew s (s.call c) ∨ ∃ config, c = .makeManager config := by
  cases c with
  | makeManager config => exact .inr ⟨config, rfl⟩
  | makeJob p =>
    left
    rw [call]
    cases Job.make p <;> exact sameCrew_of_eq rfl rfl
  | build d =>
    left
    rw [call]
    cases hd : s.build d with
    | error f => exact .refl s
    | ok s' =>
      obtain ⟨k, rfl, -⟩ := build_eq_ok hd
      exact sameCrew_of_eq rfl rfl
  | editTicket t e => exact .inl (sameCrew_editTicket s t e)
  | queue q c => exact .inl (sameCrew_callQueue s q c)
  | manager m c =>
    simp only [Call.inScope, Bool.and_eq_true, decide_eq_true_eq] at hc
    exact .inl (sameCrew_manage hc.1 c)
  | _ => exact .inl (sameCrew_of_eq rfl rfl)

theorem Begins.sameCrew (h : Begins m t s s') (hz : s'.managers.size = s.managers.size)
    (hl : s'.lastSession = s.lastSession) : SameCrew s s' where
  size := hz
  last := hl
  session i := by
    by_cases hi : i = m
    · obtain ⟨counts, -, hm⟩ := h.manager
      rw [hi, hm]
      rfl
    · rw [h.other i hi]
  opened i ho := by
    by_cases hi : i = m
    · subst hi
      obtain ⟨counts, -, hm⟩ := h.manager
      rw [hm]
      exact ho
    · rwa [h.other i hi]

/-- A manager that was never made has no tickets. -/
theorem made_of_knows (h : (s.manager m).knows t) : m < s.managers.size := by
  apply Nat.lt_of_not_le
  intro hm
  rw [show s.manager m = default from Registry.get_of_size_le hm] at h
  exact Manager.knows_default h

theorem made_of_claim (h : s.claim m = some (s', t)) : m < s.managers.size :=
  made_of_knows (.inl (claim_begins h).queued)

theorem sameCrew_claim (h : s.claim m = some (s', t)) : SameCrew s s' := by
  have hm := made_of_claim h
  refine (claim_begins h).sameCrew ?_ ?_ <;> simp only [claim] at h <;> split at h
  · cases h
  · obtain ⟨rfl, -⟩ := Prod.mk.inj (Option.some.inj h)
    rw [onManager, Registry.size_modify]
    exact Nat.max_eq_left hm
  · cases h
  · obtain ⟨rfl, -⟩ := Prod.mk.inj (Option.some.inj h)
    rfl

end Store

namespace World

variable {w w' : World} {a m t : Nat} {mv : Move}

/-- Sessions grow in the order that managers were made, and whoever has an attempt under way is
a manager that was made. -/
structure Manned (w : World) : Prop where
  founded : w.Founded
  served : ∀ a m t, w.Works a m t → m < w.managers.size
  last : 0 ≤ w.lastSession
  within : ∀ m < w.managers.size,
    1 ≤ (w.manager m).session ∧ (w.manager m).session ≤ w.lastSession
  ascending : ∀ i j, i < j → j < w.managers.size → (w.manager i).session < (w.manager j).session
  opened : ∀ m, (w.manager m).Open

namespace Manned

theorem start (now : Int) : (start now).Manned where
  founded := .start now
  served := nofun
  last := Int.le_refl 0
  within := nofun
  ascending := nofun
  opened _ _ := rfl

/-- The managers are still the same. -/
theorem congr (h : w.Manned) (hf : w'.Founded) (hc : Store.SameCrew w.toStore w'.toStore)
    (hw : ∀ a m t, w'.Works a m t → m < w.managers.size) : w'.Manned where
  founded := hf
  served a m t ht := hc.size ▸ hw a m t ht
  last := hc.last ▸ h.last
  within m hm := by
    rw [hc.session, hc.last]
    exact h.within m (hc.size ▸ hm)
  ascending i j hij hj := by
    rw [hc.session, hc.session]
    exact h.ascending i j hij (hc.size ▸ hj)
  opened m := hc.opened m (h.opened m)

/-- A new manager gets a session past all others. -/
theorem establish (h : w.Manned) (hf : w'.Founded) {c : Config}
    (hs : w'.toStore = w.establish c) (hw : ∀ a m t, w'.Works a m t → w.Works a m t) :
    w'.Manned := by
  have hz : w'.managers.size = w.managers.size + 1 := by
    rw [hs]
    exact Registry.size_add ..
  have hl : w'.lastSession = max (w.read c.clock) (w.lastSession + 1) := by rw [hs]; rfl
  have hnew : w'.manager w.managers.size = {
      config := c, logger := w.loggers.size, network := c.network
      session := max (w.read c.clock) (w.lastSession + 1) } := by
    rw [hs]
    exact Store.manager_establish w.toStore c rfl
  have hold (m : Nat) (hm : m ≠ w.managers.size) : w'.manager m = w.manager m := by
    rw [hs, Store.manager_establish_of_ne _ _ hm]
  have hlast := h.last
  have hcases (m : Nat) (hm : m < w'.managers.size) :
      m < w.managers.size ∨ m = w.managers.size := by omega
  refine ⟨hf, fun a m t ht => ?_, by omega, fun m hm => ?_, fun i j hij hj => ?_, fun m => ?_⟩
  · have := h.served a m t (hw a m t ht)
    omega
  · rcases hcases m hm with hm | rfl
    · rw [hold m (by omega)]
      have := h.within m hm
      omega
    · rw [hnew]
      dsimp only
      omega
  · rcases hcases j hj with hj | rfl
    · rw [hold i (by omega), hold j (by omega)]
      exact h.ascending i j hij hj
    · rw [hold i (by omega), hnew]
      have := h.within i hij
      dsimp only
      omega
  · by_cases hm : m = w.managers.size
    · rw [hm, hnew]
      exact fun _ => rfl
    · rw [hold m hm]
      exact h.opened m

end Manned

/-- A move leaves the managers the same ones unless it makes one. -/
theorem crew_effect (h : w.Manned) (mv : Move) : Store.SameCrew w.toStore (w.effect mv).toStore ∨
    ∃ c, mv = .call (.makeManager c) ∧ (w.effect mv).toStore = w.establish c := by
  cases mv with
  | call c =>
    rcases effect_call w c with ⟨hc, he⟩ | he <;> rw [he]
    · rcases Store.sameCrew_call hc with hs | ⟨config, rfl⟩
      · exact .inl hs
      · exact .inr ⟨config, rfl, rfl⟩
    · exact .inl (.refl _)
  | reply a r =>
    left
    have hr := replied w a r
    generalize (w.effect (.reply a r)).toStore = s at hr ⊢
    cases hr with
    | planned jobs hj => exact Store.sameCrew_of_eq rfl rfl
    | settled jobs hj m t o hw =>
      have hc : Store.SameCrew w.toStore { w.toStore with jobs } := Store.sameCrew_of_eq rfl rfl
      exact hc.trans (Store.sameCrew_settle (s := { w.toStore with jobs }) (h.served a m t hw) t o)
  | clock now => exact .inl (Store.sameCrew_of_eq rfl rfl)
  | elapse nanos => exact .inl (Store.sameCrew_of_eq rfl rfl)

/-- No attempt of a manager begins in the effect of a move. -/
theorem works_effect (h : w.Founded) (hw : (w.effect mv).Works a m t) : w.Works a m t := by
  cases mv with
  | call c => exact (works_call h c).mp hw
  | reply b r =>
    obtain ⟨-, -, ⟨-, -, -, -, -, hb⟩ | ⟨-, hb⟩⟩ := works_reply w b r
    · exact ((hb a m t).mp hw).2
    · exact (hb a m t).mp hw
  | _ => exact hw

theorem crew_sequel (hs : Sequel a w w') : Store.SameCrew w.toStore w'.toStore := by
  cases hs with
  | wrote ls es h => exact Store.sameCrew_of_eq rfl rfl
  | told j t next ha ht hn => exact Store.sameCrew_of_eq rfl rfl
  | welcomed j t ha => exact .refl _
  | departed m t s tally ha h =>
    rw [toStore_depart]
    exact Store.sameCrew_claim h

theorem crew_sequels (hs : Sequels a w w') : Store.SameCrew w.toStore w'.toStore := by
  induction hs with
  | refl => exact .refl _
  | tail _ hs ih => exact ih.trans (crew_sequel hs)

/-- The managers that were made are there still, with the same sessions. -/
theorem crew_step (h : w.Manned) (mv : Move) :
    w.managers.size ≤ (w.step mv).managers.size ∧ ∀ m < w.managers.size,
      ((w.step mv).manager m).session = (w.manager m).session := by
  have hs := crew_sequels (step_sequels h.founded mv)
  rw [hs.size]
  simp only [hs.session]
  rcases crew_effect h mv with hc | ⟨c, rfl, he⟩
  · exact ⟨Nat.le_of_eq hc.size.symm, fun m _ => hc.session m⟩
  · rw [he]
    refine ⟨?_, fun m hm => ?_⟩
    · rw [Store.establish, Registry.size_add]
      exact Nat.le_succ _
    · rw [Store.manager_establish_of_ne _ _ (Nat.ne_of_lt hm)]

namespace Manned

theorem effect (h : w.Manned) (mv : Move) : (w.effect mv).Manned := by
  have hf := h.founded.effect mv
  rcases crew_effect h mv with hc | ⟨c, rfl, hs⟩
  · exact h.congr hf hc fun a m t ht => h.served a m t (works_effect h.founded ht)
  · exact h.establish hf hs fun a m t ht => works_effect h.founded ht

theorem sequel (h : w.Manned) (hs : Sequel a w w') : w'.Manned := by
  refine h.congr (h.founded.sequel hs) (crew_sequel hs) fun b m t hb => ?_
  cases hs with
  | wrote ls es he => exact h.served b m t hb
  | told j u next ha hu hn =>
    rcases works_ask.mp hb with ⟨-, hb⟩ | ⟨-, hb⟩
    · cases hb
    · exact h.served b m t hb
  | welcomed j u ha =>
    rcases works_ask.mp hb with ⟨-, hb⟩ | ⟨-, hb⟩
    · cases hb
    · exact h.served b m t hb
  | departed i u s tally ha hc =>
    rcases works_enter.mp hb with ⟨-, hb⟩ | ⟨-, hb⟩
    · cases hb
      exact Store.made_of_claim hc
    · exact h.served b m t hb

theorem sequels (h : w.Manned) (hs : Sequels a w w') : w'.Manned := by
  induction hs with
  | refl => exact h
  | tail _ hs ih => exact ih.sequel hs

theorem step (h : w.Manned) (mv : Move) : (w.step mv).Manned :=
  (h.effect mv).sequels (step_sequels h.founded mv)

end Manned

theorem Reachable.manned (h : w.Reachable) : w.Manned :=
  h.induction Manned.start fun _ mv h => h.step mv

end World

end Backlog
