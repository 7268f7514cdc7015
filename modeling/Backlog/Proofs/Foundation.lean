import Backlog.Proofs.Transfers

/-!
# Tickets in order

Every ticket wraps a job that exists and has its id. A manager only knows tickets that exist.
Whatever managers do keeps this up.
-/

namespace Backlog

namespace Manager

/-- The manager has the number of the ticket somewhere. -/
def knows (g : Manager) (t : Nat) : Prop :=
  t ∈ g.queue.order ∨ (∃ id, g.queue.find? id = some t) ∨ ∃ id, g.running.find? id = some t

variable {g : Manager} {t u : Nat}

theorem knows_default : ¬(default : Manager).knows t := by
  rintro (h | ⟨id, h⟩ | ⟨id, h⟩) <;> cases h

/-- Only the queue and the running tickets matter. -/
theorem knows_congr {g' : Manager} (hq : g'.queue.order = g.queue.order)
    (hi : g'.queue.index = g.queue.index) (hr : g'.running = g.running) :
    g'.knows t ↔ g.knows t := by
  simp only [knows, Queue.find?, hq, hi, hr]

theorem knows_of_release {k : Ticket} (h : (g.release k).knows u) : g.knows u :=
  h.imp_right (.imp_right fun ⟨id, h⟩ => ⟨id, Table.find?_of_erase h⟩)

/-- A ticket that begins was in the queue. -/
theorem knows_of_begin {ticket : Nat → Ticket} {k : Ticket} {counts : Counts}
    (ht : t ∈ g.queue.order)
    (h : Manager.knows { g.begin k t with queue := g.queue.take ticket t, counts } u) :
    g.knows u := by
  rcases h with h | ⟨id, h⟩ | ⟨id, h⟩
  · exact .inl (List.mem_of_mem_erase h)
  · exact .inr (.inl ⟨id, Table.find?_of_erase h⟩)
  · rcases Table.find?_of_insert h with ⟨-, rfl⟩ | h
    · exact .inl ht
    · exact .inr (.inr ⟨id, h⟩)

theorem knows_of_insert {ticket : Nat → Ticket} {finished : Table String Status} {counts : Counts}
    (h : Manager.knows { g with queue := g.queue.insert ticket t, finished, counts } u) :
    g.knows u ∨ u = t := by
  rcases h with h | ⟨id, h⟩ | ⟨id, h⟩
  · exact (mem_insertOrdered h).symm.imp_left .inl
  · rcases Table.find?_of_insert h with ⟨-, rfl⟩ | h
    · exact .inr rfl
    · exact .inl (.inr (.inl ⟨id, h⟩))
  · exact .inl (.inr (.inr ⟨id, h⟩))

theorem knows_of_remove {ticket : Nat → Ticket} {id : String} {queue : Queue}
    {finished : Table String Status} {counts : Counts}
    (hr : g.queue.remove ticket id = some (t, queue))
    (h : Manager.knows { g with queue, finished, counts } u) : g.knows u := by
  obtain ⟨-, rfl⟩ := Queue.remove_eq_some.mp hr
  rcases h with h | ⟨i, h⟩ | h
  · exact .inl ((List.mem_filter.mp h).1)
  · exact .inr (.inl ⟨i, Table.find?_of_erase h⟩)
  · exact .inr (.inr h)

theorem knows_of_removed {ticket : Nat → Ticket} {id : String} {queue : Queue}
    (hr : g.queue.remove ticket id = some (t, queue)) : g.knows t :=
  .inr (.inl ⟨id, Queue.find?_of_remove hr⟩)

end Manager

namespace Store

/-- Managers come to know no tickets but those that `Q` says. -/
def Gains (s s' : Store) (Q : Nat → Nat → Prop) : Prop :=
  ∀ i t, (s'.manager i).knows t → (s.manager i).knows t ∨ Q i t

variable {s s' : Store} {m t : Nat}

theorem gains_of_other {Q : Nat → Nat → Prop} (ho : ∀ i, i ≠ m → s'.manager i = s.manager i)
    (hm : ∀ u, (s'.manager m).knows u → (s.manager m).knows u ∨ Q m u) : s.Gains s' Q := by
  intro i u hu
  by_cases hi : i = m
  · subst hi
    exact hm u hu
  · rw [ho i hi] at hu
    exact .inl hu

theorem TakesIn.gains (h : TakesIn m t s s') : s.Gains s' fun i u => i = m ∧ u = t := by
  obtain ⟨counts, -, hm⟩ := h.manager
  apply gains_of_other h.other
  intro u hu
  rw [hm] at hu
  exact (Manager.knows_of_insert (g := s.manager m) hu).imp_right fun hu => ⟨rfl, hu⟩

theorem Begins.gains (h : Begins m t s s') : s.Gains s' fun _ _ => False := by
  obtain ⟨counts, -, hm⟩ := h.manager
  apply gains_of_other h.other
  intro u hu
  rw [hm] at hu
  exact .inl (Manager.knows_of_begin h.queued hu)

theorem Ends.gains {status : Status} (h : Ends m t status s s') :
    s.Gains s' fun _ _ => False := by
  apply gains_of_other h.other
  intro u hu
  rw [h.manager] at hu
  exact .inl (Manager.knows_of_release hu)

theorem Renews.gains (h : Renews m t s s') :
    s.Gains s' fun i u => i = m ∧ u = s.tickets.size := by
  obtain ⟨f, -, hm⟩ := h.manager
  apply gains_of_other h.other
  intro u hu
  rw [hm] at hu
  exact (Manager.knows_of_insert hu).imp Manager.knows_of_release fun hu => ⟨rfl, hu⟩

theorem Loses.gains (h : Loses m t s s') : s.Gains s' fun _ _ => False := by
  apply gains_of_other h.other
  intro u hu
  rw [h.manager] at hu
  exact .inl (Manager.knows_of_release hu)

theorem withdraw_gains {id : String} {v : Withdrawal} (h : s.withdraw m id = some (s', v)) :
    s.Gains s' fun _ _ => False := by
  rcases withdraw_cases h with ⟨u, -, rfl, -⟩ | ⟨-, u, queue, hq, rfl, -⟩
  · exact fun i v hv => .inl hv
  · refine gains_of_other (m := m) (fun i hi => by simp [hi]) fun v hv => .inl ?_
    rw [manager_onManager, if_pos rfl, manager_cancelTicket] at hv
    exact Manager.knows_of_remove hq hv

/-- The ticket that a cancellation drops was known. -/
theorem withdraw_dropped {id : String} (h : s.withdraw m id = some (s', .dropped t)) :
    (s.manager m).knows t ∧ s.tickets.size ≤ s'.tickets.size := by
  rcases withdraw_cases h with ⟨u, -, -, hv⟩ | ⟨-, u, queue, hq, rfl, hv⟩
  · cases hv
  · cases hv
    exact ⟨Manager.knows_of_removed hq, (keeps_cancelTicket s t).tickets⟩

/-- Tickets are in order, and those that managers know exist. -/
structure Founded (s : Store) : Prop where
  job : ∀ t < s.tickets.size, (s.ticket t).job < s.jobs.size
  named : ∀ t < s.tickets.size, (s.ticket t).id = (s.job (s.ticket t).job).id
  known : ∀ i t, (s.manager i).knows t → t < s.tickets.size
  queued : ∀ q, ∀ t ∈ (s.queue q).order, t < s.tickets.size

theorem size_onTicket {f : Ticket → Ticket} (ht : t < s.tickets.size) :
    (s.onTicket t f).tickets.size = s.tickets.size := by
  simp only [onTicket, Registry.size_modify]
  omega

theorem size_wrap (s : Store) (k : Ticket) : (s.wrap k).tickets.size = s.tickets.size + 1 :=
  Registry.size_add ..

theorem lt_size_wrap (s : Store) (k : Ticket) : s.tickets.size < (s.wrap k).tickets.size :=
  Nat.lt_of_lt_of_eq (Nat.lt_succ_self _) (size_wrap s k).symm

theorem size_stampTicket (ht : t < s.tickets.size) :
    (s.stampTicket t).tickets.size = s.tickets.size := by
  simp only [stampTicket]
  split
  · rfl
  · exact size_onTicket ht

/-- To hold up tickets that exist makes no other. -/
theorem size_delayGroup {q : Queue} {tickets : Registry Ticket}
    (hq : ∀ t ∈ q.order, t < tickets.size) (group : String) (d : Option Int) :
    (q.delayGroup tickets group d).size = tickets.size := by
  simp only [Queue.delayGroup]
  generalize q.order = order at hq
  induction order generalizing tickets with
  | nil => rfl
  | cons t order ih =>
    have hz : (tickets.modify t (Queue.delayMember group d)).size = tickets.size := by
      have := hq t List.mem_cons_self
      rw [Registry.size_modify]
      omega
    rw [List.foldl_cons, ih fun u hu => hz.symm ▸ hq u (List.mem_cons_of_mem t hu), hz]

namespace Founded

/-- What lasts of tickets and jobs is all that matters. -/
theorem keep (h : s.Founded) (hk : Keeps none s s') (hz : s'.tickets.size = s.tickets.size)
    (hm : ∀ i t, (s'.manager i).knows t → t < s.tickets.size)
    (hq : ∀ q, ∀ t ∈ (s'.queue q).order, t < s.tickets.size) : s'.Founded := by
  have hl (t : Nat) (ht : t < s'.tickets.size) : t < s.tickets.size ∧
      (s'.ticket t).lasting = (s.ticket t).lasting :=
    ⟨hz ▸ ht, hk.lasting (hz ▸ ht)⟩
  refine ⟨fun t ht => ?_, fun t ht => ?_, fun i t ht => hz ▸ hm i t ht,
    fun q t ht => hz ▸ hq q t ht⟩
  · rw [Ticket.job_of_lasting (hl t ht).2]
    exact Nat.lt_of_lt_of_le (h.job t (hl t ht).1) hk.jobs
  · rw [Ticket.job_of_lasting (hl t ht).2, Ticket.id_of_lasting (hl t ht).2,
      h.named t (hl t ht).1]
    exact (Job.id_of_lasting (hk.job _ (h.job t (hl t ht).1))).symm

/-- Managers and queues do not change. -/
theorem keepSame (h : s.Founded) (hk : Keeps none s s') (hz : s'.tickets.size = s.tickets.size)
    (hm : s'.managers = s.managers) (hq : s'.queues = s.queues) : s'.Founded := by
  refine h.keep hk hz (fun i t ht => h.known i t ?_) fun q t ht => h.queued q t ?_
  · rwa [manager, hm] at ht
  · rwa [queue, hq] at ht

theorem onManager (h : s.Founded) {f : Manager → Manager}
    (hf : ∀ t, (f (s.manager m)).knows t → t < s.tickets.size) : (s.onManager m f).Founded := by
  refine h.keep (keeps_onManager ..) rfl (fun i t ht => ?_) h.queued
  rw [manager_onManager] at ht
  split at ht
  · exact hf t ht
  · exact h.known i t ht

theorem onTicket (h : s.Founded) (ht : t < s.tickets.size) {f : Ticket → Ticket}
    (hj : (f (s.ticket t)).job < s.jobs.size)
    (hi : (f (s.ticket t)).id = (s.job (f (s.ticket t)).job).id) : (s.onTicket t f).Founded := by
  have hz : (s.onTicket t f).tickets.size = s.tickets.size := size_onTicket ht
  refine ⟨fun u hu => ?_, fun u hu => ?_, fun i u hu => hz ▸ h.known i u hu,
    fun q u hu => hz ▸ h.queued q u hu⟩ <;> rw [ticket_onTicket] <;> split
  · exact hj
  · exact h.job u (hz ▸ hu)
  · exact hi
  · exact h.named u (hz ▸ hu)

theorem wrap (h : s.Founded) (k : Ticket) : (s.wrap k).Founded := by
  have hz := size_wrap s k
  have hj : s.jobs.size ≤ (s.wrap k).jobs.size := by
    simp only [Store.wrap, Registry.size_put]
    omega
  have hold (u : Nat) (hu : u < (s.wrap k).tickets.size) (hn : u ≠ s.tickets.size) :
      u < s.tickets.size := by omega
  have hid (j : Nat) : ((s.wrap k).job j).id = (s.job j).id := by
    simp only [Store.wrap, Store.job, Registry.get_put]
    split
    · rename_i hj; rw [hj]
    · rfl
  refine ⟨fun u hu => ?_, fun u hu => ?_,
    fun i u hu => hz ▸ Nat.lt_succ_of_lt (h.known i u hu),
    fun q u hu => hz ▸ Nat.lt_succ_of_lt (h.queued q u hu)⟩
  · rw [ticket_wrap]
    split
    · simp only [Store.wrap, Registry.size_put]; omega
    · rename_i hn; exact Nat.lt_of_lt_of_le (h.job u (hold u hu hn)) hj
  · rw [ticket_wrap]
    split
    · exact (hid _).symm
    · rename_i hn; rw [hid]; exact h.named u (hold u hu hn)

theorem build (h : s.Founded) {d : Draft} (hb : s.build d = .ok s') : s'.Founded := by
  obtain ⟨k, rfl, -⟩ := build_eq_ok hb
  exact h.wrap k

theorem stampTicket (h : s.Founded) (ht : t < s.tickets.size) : (s.stampTicket t).Founded := by
  refine h.keepSame (keeps_stampTicket s t) (size_stampTicket ht) ?_ ?_ <;>
    unfold Store.stampTicket <;> split <;> rfl

theorem setContext (h : s.Founded) (t : Nat) (logger : Option Nat) (session : Int) :
    (s.setContext t logger session).Founded :=
  h.keepSame (keeps_setContext ..) rfl rfl rfl

theorem delayGroup (h : s.Founded) {q : Queue} (hq : ∀ t ∈ q.order, t < s.tickets.size)
    (group : String) (d : Option Int) :
    Founded { s with tickets := q.delayGroup s.tickets group d } :=
  h.keepSame (keeps_delayGroup ..) (size_delayGroup hq group d) rfl rfl

theorem cancelTicket (h : s.Founded) (ht : t < s.tickets.size) : (s.cancelTicket t).Founded :=
  (h.onTicket ht (h.job t ht) (h.named t ht)).keepSame
    (keeps_onJob _ _ fun _ => rfl) rfl rfl rfl

/-- The manager that changes last may come to know tickets that exist by then. -/
theorem gain {w : Store} {Q : Nat → Nat → Prop} {f : Manager → Manager} (h : s.Founded)
    (hw : w.Founded) (hz : s.tickets.size ≤ w.tickets.size) (hg : s.Gains (w.onManager m f) Q)
    (hq : ∀ u, Q m u → u < w.tickets.size) : (w.onManager m f).Founded := by
  apply hw.onManager
  intro u hu
  have hm : (w.onManager m f).manager m = f (w.manager m) := by simp
  rcases hg m u (hm ▸ hu) with hu | hu
  · exact Nat.lt_of_lt_of_le (h.known m u hu) hz
  · exact hq u hu

theorem enlist (h : s.Founded) {j : Nat} (he : s.enlist m j = some s') : s'.Founded := by
  have hg := (enlist_takesIn he).1.gains
  obtain ⟨-, k, next, -, rfl, rfl⟩ := enlist_eq_some he
  have hz := lt_size_wrap s k
  have hz' := (keeps_stampTicket (x := none) (s.wrap k) s.tickets.size).tickets
  refine h.gain (((h.wrap k).stampTicket hz).setContext ..) ?_ hg ?_
  · exact Nat.le_of_lt (Nat.lt_of_lt_of_le hz hz')
  · rintro u ⟨-, rfl⟩
    exact Nat.lt_of_lt_of_le hz hz'

theorem claim (h : s.Founded) (hc : s.claim m = some (s', t)) : s'.Founded := by
  have hb := claim_begins hc
  have ht := h.known m t (.inl hb.queued)
  simp only [Store.claim] at hc
  split at hc
  · cases hc
  obtain ⟨rfl, rfl⟩ := Prod.mk.inj (Option.some.inj hc)
  refine h.gain (h.onTicket ht (h.job _ ht) (h.named _ ht)) ?_ hb.gains fun _ hu => hu.elim
  exact Nat.le_of_eq (size_onTicket ht).symm

theorem reclaim (h : s.Founded) (ht : t < s.tickets.size) : (s.reclaim m t).1.Founded := by
  rcases reclaim_cases s m ht with ⟨he, -⟩ | ⟨⟨stale, hr⟩, hi, -⟩
  · rwa [he]
  have hg := hi.gains
  rcases reclaim_eq s m t with ⟨-, hn⟩ | ⟨-, w, next, hw, rfl, he⟩
  · exact absurd hr (hn stale)
  rw [he] at hg ⊢
  have hf : w.Founded := hw ▸ h.onTicket ht (h.job t ht) (h.named t ht)
  have hz : w.tickets.size = s.tickets.size := hw ▸ size_onTicket ht
  have hz' := size_stampTicket (s := w) (hz.symm ▸ ht)
  refine h.gain ((hf.stampTicket (hz.symm ▸ ht)).setContext ..) ?_ hg ?_
  · exact Nat.le_of_eq (hz.symm.trans hz'.symm)
  · rintro u ⟨-, rfl⟩
    exact (hz'.trans hz).symm ▸ ht

theorem finish (h : s.Founded) (m t : Nat) (status : Status) (tell : Bool) :
    (s.finish m t status tell).1.Founded :=
  h.onManager fun u hu => h.known m u hu

theorem spread (h : s.Founded) (m t : Nat) (plan : Option RetryPlan) :
    (s.spread m t plan).Founded := by
  simp only [Store.spread]
  split
  · split
    · exact h.delayGroup (fun u hu => h.known m u (.inl hu)) ..
    · exact h
  · exact h

theorem retry (h : s.Founded) (m t : Nat) : (s.retry m t).1.Founded := by
  rcases retry_cases s m t with ⟨f, he⟩ | ⟨k, -, -, he | ⟨next, d, rfl, he⟩⟩ <;> rw [he]
  · exact h
  · exact (h.wrap k).finish ..
  · have hz := lt_size_wrap s k
    have hf := (h.wrap k).stampTicket hz
    refine (hf.onManager fun u hu => ?_).spread ..
    rw [manager_stampTicket, manager_wrap] at hu
    rw [size_stampTicket hz]
    rcases Manager.knows_of_insert hu with hu | rfl
    · exact Nat.lt_trans (h.known m u hu) hz
    · exact hz

theorem settle (h : s.Founded) (ht : t < s.tickets.size) (o : Outcome) :
    (s.settle m t o).1.Founded := by
  obtain ⟨w, hw⟩ : ∃ w, w = s.onManager m (·.release (s.ticket t)) := ⟨_, rfl⟩
  have hf : w.Founded := hw ▸ h.onManager fun u hu => h.known m u (Manager.knows_of_release hu)
  have ht : t < w.tickets.size := hw ▸ ht
  apply settle_induction (P := fun r => r.1.Founded) hw
  · exact (hf.onTicket ht (hf.job t ht) (hf.named t ht)).finish ..
  · intro status tell _
    exact hf.finish ..
  · exact hf.retry m t

theorem withdraw (h : s.Founded) {id : String} {v : Withdrawal}
    (hw : s.withdraw m id = some (s', v)) : s'.Founded := by
  have hg := withdraw_gains hw
  rcases withdraw_cases hw with ⟨u, hu, rfl, -⟩ | ⟨-, u, queue, hq, rfl, -⟩
  · exact h.cancelTicket (h.known m u (.inr (.inr ⟨id, hu⟩)))
  · have hu := h.known m u (Manager.knows_of_removed hq)
    exact h.gain (h.cancelTicket hu) (keeps_cancelTicket s u).tickets hg fun _ hu => hu.elim

end Founded

end Store

end Backlog
