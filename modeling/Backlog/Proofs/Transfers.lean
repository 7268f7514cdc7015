import Backlog.Proofs.Keeping
import Backlog.Proofs.QueueIndex

/-!
# What custody operations do

Each operation of custody, by what it does to the manager it concerns. No other manager
changes, and tickets and jobs keep what lasts.
-/

namespace Backlog

/-- The ticket that is running or queued under the id. -/
def Manager.held? (g : Manager) (id : String) : Option Nat :=
  (g.running.find? id).or (g.queue.find? id)

theorem Manager.free_iff {g : Manager} {id : String} :
    g.free id = true ↔ g.running.find? id = none ∧ g.queue.find? id = none := by
  simp only [free, Table.contains, Queue.find?, Bool.and_eq_true, Bool.not_eq_true',
    Option.isSome_eq_false_iff, Option.isNone_iff_eq_none]

theorem Manager.held?_eq_none {g : Manager} {id : String} :
    g.held? id = none ↔ g.free id = true := by
  rw [held?, Option.or_eq_none_iff, free_iff]

namespace Store

variable {s s' : Store} {m t : Nat}

@[simp] theorem manager_wrap (s : Store) (k : Ticket) (i : Nat) :
    (s.wrap k).manager i = s.manager i := rfl

@[simp] theorem manager_setContext (s : Store) (t : Nat) (logger : Option Nat) (session : Int)
    (i : Nat) : (s.setContext t logger session).manager i = s.manager i := rfl

@[simp] theorem manager_cancelTicket (s : Store) (t i : Nat) :
    (s.cancelTicket t).manager i = s.manager i := rfl

@[simp] theorem manager_stampTicket (s : Store) (t i : Nat) :
    (s.stampTicket t).manager i = s.manager i := by
  simp only [stampTicket]
  split <;> rfl

@[simp] theorem ticket_wrap (s : Store) (k : Ticket) (i : Nat) :
    (s.wrap k).ticket i = if i = s.tickets.size then
      { k with
        id := (s.job k.job).id, needsNetwork := (s.job k.job).needsNetwork
        tags := (s.job k.job).tags }
    else s.ticket i := Registry.get_add ..

/-- A stamp is all that stamping changes. -/
theorem ticket_stampTicket (s : Store) (t i : Nat) :
    ∃ stamp, (s.stampTicket t).ticket i = { s.ticket i with stamp } := by
  simp only [stampTicket]
  split
  · exact ⟨_, rfl⟩
  · change ∃ stamp, (s.onTicket t _).ticket i = _
    rw [ticket_onTicket]
    split
    · rename_i h; subst h; exact ⟨_, rfl⟩
    · exact ⟨_, rfl⟩

/-- A ticket that has no stamp gets the next one. -/
theorem ticket_stampTicket_eq (s : Store) (t i : Nat) : (s.stampTicket t).ticket i =
    if i = t then { s.ticket i with stamp := some ((s.ticket i).stamp.getD s.nextStamp) }
    else s.ticket i := by
  simp only [stampTicket]
  split
  · rename_i n hn
    split
    · rename_i hi
      subst hi
      rw [hn, Option.getD_some, ← hn]
    · rfl
  · rename_i hn
    change (s.onTicket t _).ticket i = _
    rw [ticket_onTicket]
    split
    · rename_i hi
      subst hi
      rw [hn, Option.getD_none]
    · rfl

theorem stampTicket_eq (s : Store) (t : Nat) : s.stampTicket t =
    { s with tickets := (s.stampTicket t).tickets, nextStamp := (s.stampTicket t).nextStamp } := by
  simp only [stampTicket]
  split <;> rfl

theorem nextStamp_stampTicket (s : Store) (t : Nat) : (s.stampTicket t).nextStamp =
    s.nextStamp + if (s.ticket t).stamp.isNone then 1 else 0 := by
  simp only [stampTicket]
  split <;> rename_i hn <;> rw [hn] <;> rfl

/-- Manager `m` has taken ticket `t` into its queue and counts one work more. -/
structure TakesIn (m t : Nat) (s s' : Store) : Prop where
  accepting : (s.manager m).accepting = true
  free : (s.manager m).free (s'.ticket t).id = true
  manager : ∃ counts : Counts,
    (counts = { (s.manager m).counts with added := (s.manager m).counts.added + 1 } ∨
      counts = { (s.manager m).counts with recovered := (s.manager m).counts.recovered + 1 }) ∧
    s'.manager m = { (s.manager m).forget (s'.ticket t).id with
      queue := (s.manager m).queue.insert s'.ticket t, counts }
  other : ∀ i, i ≠ m → s'.manager i = s.manager i
  keeps : Keeps none s s'
  made : t < s'.tickets.size
  live : (s'.ticket t).cancelled = false
  runs : t < s.tickets.size ∨ (s'.ticket t).runs = 0

/-- What enlisting and reclaiming share, once the ticket is ready in `w`. -/
theorem takesIn_of_push {w : Store} {id : String} {c : Counts → Counts}
    (logger : Option Nat) (session : Int)
    (hw : Keeps none s w) (hm : w.managers = s.managers) (hid : (w.ticket t).id = id)
    (accepting : (s.manager m).accepting = true) (free : (s.manager m).free id = true)
    (hc : ∀ n, c n = { n with added := n.added + 1 } ∨
      c n = { n with recovered := n.recovered + 1 })
    (made : t < w.tickets.size) (live : (w.ticket t).cancelled = false)
    (runs : t < s.tickets.size ∨ (w.ticket t).runs = 0)
    (h : s' = ((w.stampTicket t).setContext t logger session).onManager m fun g =>
      { g.forget id with
        queue := (s.manager m).queue.insert (w.stampTicket t).ticket t
        counts := c g.counts }) :
    TakesIn m t s s' ∧ (s'.ticket t).job = (w.ticket t).job := by
  have hk := keeps_stampTicket (x := none) w t
  have hm' : ∀ i, w.manager i = s.manager i := fun i => by rw [manager, manager, hm]
  obtain ⟨stamp, hs⟩ := ticket_stampTicket w t t
  have ht : s'.ticket = (w.stampTicket t).ticket := by rw [h]; rfl
  have hid' : (s'.ticket t).id = id := by rw [ht, hs]; exact hid
  refine ⟨{
    accepting
    free := by rwa [hid']
    manager := ⟨c (s.manager m).counts, hc _, ?_⟩
    other := fun i hi => by simp [h, hi, hm']
    keeps := ?_
    made := ?_
    live := by rw [ht, hs]; exact live
    runs := by rw [ht, hs]; exact runs }, by rw [ht, hs]⟩
  · rw [hid', ht, h, manager_onManager, if_pos rfl, manager_setContext, manager_stampTicket, hm']
  · rw [h]
    exact (hw.trans hk).trans ((keeps_setContext ..).trans (keeps_onManager ..))
  · rw [h]
    exact Nat.lt_of_lt_of_le made hk.tickets

/-- A new ticket for the job of number `j` is the one that no number named before. -/
theorem enlist_takesIn {j : Nat} (h : s.enlist m j = some s') :
    TakesIn m s.tickets.size s s' ∧ (s'.ticket s.tickets.size).job = j := by
  obtain ⟨⟨ha, hf⟩, k, next, ⟨hj, hc, -, hr, -⟩, rfl, hs⟩ := enlist_eq_some h
  have hid : ((s.wrap k).ticket s.tickets.size).id = (s.job j).id := by simp [hj]
  have hw := takesIn_of_push (w := s.wrap k) (t := s.tickets.size)
    (c := fun c => { c with added := c.added + 1 }) _ _ (keeps_wrap s (by simp [hr])) rfl hid ha hf
    (fun _ => .inl rfl) (by simp [wrap]) (by simp [hc]) (.inr (by simp [hr])) hs
  exact ⟨hw.1, hw.2.trans (by simp [hj])⟩

/-- A ticket offered for recovery is queued or left as it is. -/
theorem reclaim_cases (s : Store) (m : Nat) {t : Nat} (ht : t < s.tickets.size) :
    ((s.reclaim m t).1 = s ∧ ∀ stale, (s.reclaim m t).2 ≠ .requeued stale) ∨
      (∃ stale, (s.reclaim m t).2 = .requeued stale) ∧ TakesIn m t s (s.reclaim m t).1 ∧
        ((s.reclaim m t).1.ticket t).job = (s.ticket t).job := by
  rcases reclaim_eq s m t with h | ⟨⟨hl, ha, hf⟩, w, next, hw, rfl, h⟩
  · exact .inl h
  have hk : w.ticket t = { s.ticket t with session := (s.manager m).session } := by
    rw [hw, ticket_onTicket, if_pos rfl]
  have hs : Keeps none s w := hw ▸ keeps_onTicket s t fun _ _ => rfl
  have hin := takesIn_of_push (w := w) (t := t) (m := m)
    (c := fun c => { c with recovered := c.recovered + 1 }) (some (s.manager m).logger)
    (s.manager m).session hs (by rw [hw]; rfl) (by rw [hk]) ha hf (fun _ => .inr rfl)
    (Nat.lt_of_lt_of_le ht hs.tickets) (by rw [hk]; exact hl) (.inl ht) rfl
  rw [h]
  exact .inr ⟨⟨_, rfl⟩, hin.1, hin.2.trans (by rw [hk])⟩

/-- A ticket of another session is queued if the manager takes its id, and refused otherwise. -/
theorem reclaim_stale {t : Nat} (live : (s.ticket t).cancelled = false)
    (foreign : (s.ticket t).session ≠ (s.manager m).session)
    (opened : (s.manager m).accepting = true → (s.manager m).queue.closed = false) :
    (s.reclaim m t).2 = if (s.manager m).accepting && (s.manager m).free (s.ticket t).id then
      .requeued (s.ticket t).session else .refused := by
  have hid : ((s.onTicket t ({ · with session := (s.manager m).session })).ticket t).id =
      (s.ticket t).id := by rw [ticket_onTicket, if_pos rfl]
  simp only [reclaim]
  rw [if_neg (by simp [live, foreign])]
  cases ha : (s.manager m).accepting with
  | false => rfl
  | true =>
    cases hf : (s.manager m).free (s.ticket t).id with
    | false => rfl
    | true =>
      have hq : (s.manager m).queue.accepts (s.ticket t).id = true := by
        rw [Queue.accepts, opened ha, Table.contains,
          show (s.manager m).queue.index.find? _ = none from (Manager.free_iff.mp hf).2]
        rfl
      rw [if_neg (by simp), push_eq_some.mpr ⟨by rwa [hid], rfl, rfl⟩]
      rfl

/-- A manager claims what is ready. -/
theorem ready?_eq_claim (s : Store) (m : Nat) :
    (s.manager m).ready? s.ticket (s.time m) = (s.claim m).map Prod.snd := by
  simp only [claim]
  cases (s.manager m).ready? s.ticket (s.time m) <;> rfl

/-- Manager `m` has begun an attempt of ticket `t`, which waited in its queue. -/
structure Begins (m t : Nat) (s s' : Store) : Prop where
  queued : t ∈ (s.manager m).queue.order
  runnable : (s.ticket t).runnable (s.time m) (s.manager m).network (s.manager m).busy = true
  manager : ∃ counts : Counts,
    (counts = (s.manager m).counts ∨
      counts = { (s.manager m).counts with retries := (s.manager m).counts.retries + 1 }) ∧
    s'.manager m = { (s.manager m).begin (s'.ticket t) t with
      queue := (s.manager m).queue.take s'.ticket t, counts }
  other : ∀ i, i ≠ m → s'.manager i = s.manager i
  jobs : s'.jobs = s.jobs
  size : s.tickets.size ≤ s'.tickets.size
  ticket : s'.ticket t = { s.ticket t with
    runs := (s.ticket t).runs + 1, session := (s.manager m).session }
  others : ∀ u, u ≠ t → s'.ticket u = s.ticket u

theorem claim_begins (h : s.claim m = some (s', t)) : Begins m t s s' := by
  simp only [claim] at h
  split at h
  · cases h
  rename_i u hu
  obtain ⟨rfl, rfl⟩ := Prod.mk.inj (Option.some.inj h)
  have hr := List.find?_some hu
  refine {
    queued := List.mem_of_find?_eq_some hu
    runnable := hr
    manager := ?_
    other := fun i hi => by simp [hi]
    jobs := rfl
    size := ?_
    ticket := by simp
    others := fun v hv => by simp [hv] }
  · refine ⟨_, ?_, by rw [manager_onManager, if_pos rfl]; rfl⟩
    split
    · exact .inr rfl
    · exact .inl rfl
  · simp only [onManager, onTicket, Registry.size_modify]
    omega

/-- A claim takes its ticket from the queue. -/
theorem Begins.order (h : Begins m t s s') :
    (s'.manager m).queue.order = (s.manager m).queue.order.erase t := by
  obtain ⟨counts, -, hm⟩ := h.manager
  rw [hm]
  rfl

/-- No ticket gets another id. -/
theorem Begins.id (h : Begins m t s s') (u : Nat) : (s'.ticket u).id = (s.ticket u).id := by
  by_cases hu : u = t
  · rw [hu, h.ticket]
  · rw [h.others u hu]

theorem Begins.keeps (h : Begins m t s s') : Keeps (some t) s s' where
  jobs := Nat.le_of_eq (by rw [h.jobs])
  tickets := h.size
  job j _ := by rw [job, job, h.jobs]
  ticket u _ hu := by rw [h.others u fun e => hu (congrArg some e)]
  fresh u hs hu := by
    rw [h.others u fun e => hu (congrArg some e)]
    exact runs_of_size_le hs

/-- A cancellation marks the running ticket of the id, or else drops the queued one. -/
theorem withdraw_cases {id : String} {v : Withdrawal} (h : s.withdraw m id = some (s', v)) :
    (∃ t, (s.manager m).running.find? id = some t ∧ s' = s.cancelTicket t ∧ v = .marked t) ∨
      (s.manager m).running.find? id = none ∧ ∃ t queue,
        (s.manager m).queue.remove s.ticket id = some (t, queue) ∧
        s' = (s.cancelTicket t).onManager m (fun g => { g.finish id .cancelled with queue }) ∧
        v = .dropped t := by
  simp only [withdraw] at h
  split at h
  · rename_i t ht
    obtain ⟨rfl, rfl⟩ := Prod.mk.inj (Option.some.inj h)
    exact .inl ⟨t, ht, rfl, rfl⟩
  · rename_i hn
    split at h
    · cases h
    · rename_i t queue hq
      obtain ⟨rfl, rfl⟩ := Prod.mk.inj (Option.some.inj h)
      exact .inr ⟨hn, t, queue, hq, rfl, rfl⟩

theorem withdraw_running {id : String} (h : (s.manager m).running.find? id = some t) :
    s.withdraw m id = some (s.cancelTicket t, .marked t) := by
  simp only [withdraw]
  rw [h]

theorem withdraw_queued {id : String} (hr : (s.manager m).running.find? id = none)
    (hq : (s.manager m).queue.find? id = some t) :
    ∃ queue, s.withdraw m id = some ((s.cancelTicket t).onManager m fun g =>
      { g.finish id .cancelled with queue }, .dropped t) := by
  obtain ⟨queue, hremove⟩ := Queue.remove_of_find? s.ticket hq
  simp only [withdraw]
  rw [hr, hremove]
  exact ⟨queue, rfl⟩

/-- Nothing is withdrawn under an id that is free. -/
theorem withdraw_eq_none {id : String} :
    s.withdraw m id = none ↔ (s.manager m).free id = true := by
  rw [Manager.free_iff, ← Queue.remove_eq_none _ s.ticket]
  simp only [withdraw]
  split
  · rename_i t ht
    simp [ht]
  · rename_i hn
    split
    · rename_i hq
      simp [hn, hq]
    · rename_i t queue hq
      simp [hq]

/-- The attempt of ticket `t` was the last of its work, which ended with a status. -/
structure Ends (m t : Nat) (status : Status) (s s' : Store) : Prop where
  manager : s'.manager m =
    ((s.manager m).release (s.ticket t)).finish (s.ticket t).id status
  other : ∀ i, i ≠ m → s'.manager i = s.manager i
  keeps : Keeps none s s'

/-- The attempt of ticket `t` has ended and a new ticket waits for the next one. -/
structure Renews (m t : Nat) (s s' : Store) : Prop where
  accepting : (s.manager m).accepting = true
  manager : ∃ ticket : Nat → Ticket,
    (∀ u, u ≤ s.tickets.size → (s'.ticket u).lasting = (ticket u).lasting) ∧
    s'.manager m = { (s.manager m).release (s.ticket t) with
      queue := (s.manager m).queue.insert ticket s.tickets.size }
  other : ∀ i, i ≠ m → s'.manager i = s.manager i
  keeps : Keeps none s s'
  made : s.tickets.size < s'.tickets.size
  job : (s'.ticket s.tickets.size).job = (s.ticket t).job
  id : (s'.ticket s.tickets.size).id = (s.job (s.ticket t).job).id
  runs : (s'.ticket s.tickets.size).runs = (s.ticket t).runs
  live : (s'.ticket s.tickets.size).cancelled = false

/-- The attempt of ticket `t` has ended, and no new ticket could be made to carry on its work. -/
structure Loses (m t : Nat) (s s' : Store) : Prop where
  manager : s'.manager m = (s.manager m).release (s.ticket t)
  other : ∀ i, i ≠ m → s'.manager i = s.manager i
  keeps : Keeps none s s'

/-- The outcome leaves it to the manager whether the ticket is retried, and the job does not
object. -/
def retries (s : Store) (t : Nat) (o : Outcome) : Prop :=
  o = .again ∨ o = .declined ∧ (s.plan t).any (!·.retry) = false

/-- What settling comes to: a status, or none if there is to be another attempt. -/
def verdict (s : Store) (m t : Nat) : Outcome → Option Status
  | .success => some .succeeded
  | .cancelled => some .cancelled
  | .runLimit => some .failed
  | .other _ => some .unknown
  | .again => again
  | .declined => if (s.ticket t).cancelled = false ∧ (s.plan t).any (!·.retry) then some .failed else again
where
  again : Option Status :=
    if (s.ticket t).cancelled then some .cancelled
    else if (s.manager m).accepting ∧
      (s.manager m).queue.accepts (s.job (s.ticket t).job).id then none
    else some .failed

theorem finish_ends {w : Store} {status : Status} {tell : Bool} (hk : Keeps none s w)
    (ht : (w.ticket t).id = (s.ticket t).id)
    (hm : w.manager m = (s.manager m).release (s.ticket t))
    (ho : ∀ i, i ≠ m → w.manager i = s.manager i) :
    Ends m t status s (w.finish m t status tell).1 where
  manager := by simp only [finish, manager_onManager, ↓reduceIte, hm, ht]
  other i hi := by simp only [finish, manager_onManager, if_neg hi, ho i hi]
  keeps := hk.trans (keeps_onManager ..)

/-- A full draft makes a ticket unless its count is negative. -/
theorem renew_eq (h : 0 ≤ (s.ticket t).runs) : ∃ k : Ticket, s.renew m t = .ok (s.wrap k) ∧
    k.job = (s.ticket t).job ∧ k.runs = (s.ticket t).runs ∧ k.cancelled = false :=
  ⟨s.renewal m t, renew_eq_wrap (Int.not_lt.mpr h), rfl, rfl, rfl⟩

/-- Tickets are all that changes when a group is held up. -/
theorem spread_eq (s : Store) (m t : Nat) (plan : Option RetryPlan) :
    s.spread m t plan = { s with tickets := (s.spread m t plan).tickets } := by
  simp only [spread]
  split
  · split <;> rfl
  · rfl

@[simp] theorem manager_spread (s : Store) (m t : Nat) (plan : Option RetryPlan) (i : Nat) :
    (s.spread m t plan).manager i = s.manager i := by
  rw [spread_eq]
  rfl

/-- A retry that the queue takes. -/
theorem retry_renews {w : Store} (hw : w = s.onManager m (·.release (s.ticket t)))
    (hr : 0 ≤ (s.ticket t).runs) (accepting : (s.manager m).accepting = true)
    (accepts : (s.manager m).queue.accepts (s.job (s.ticket t).job).id = true) :
    (∃ d, (w.retry m t).2 = .ok (.retried d)) ∧ Renews m t s (w.retry m t).1 := by
  have hm : w.manager m = (s.manager m).release (s.ticket t) := by simp [hw]
  have ht : w.ticket = s.ticket := by rw [hw]; rfl
  have hj : w.job = s.job := by rw [hw]; rfl
  have hz : w.tickets.size = s.tickets.size := by rw [hw]; rfl
  obtain ⟨k, hk, hjob, hruns, hlive⟩ := renew_eq (s := w) (m := m) (t := t) (by rw [ht]; exact hr)
  have hruns' : 0 ≤ k.runs := by rw [hruns, ht]; exact hr
  obtain ⟨n, hn⟩ : ∃ n, n = (w.wrap k).stampTicket w.tickets.size := ⟨_, rfl⟩
  have hp : (w.wrap k).push (w.manager m).queue w.tickets.size =
      some (n, (w.manager m).queue.insert n.ticket w.tickets.size) := by
    refine push_eq_some.mpr ⟨?_, hn, rfl⟩
    simpa [hm, Manager.release, hjob, ht, hj] using accepts
  have ha : (w.manager m).accepting = true := by rw [hm]; exact accepting
  obtain ⟨n', hn'⟩ : ∃ n', n' = n.onManager m
      ({ · with queue := (w.manager m).queue.insert n.ticket w.tickets.size }) := ⟨_, rfl⟩
  simp only [retry]
  simp only [hk, ha, ↓reduceIte, hp, ← hn']
  refine ⟨⟨_, rfl⟩, ?_⟩
  have hsize : s.tickets.size < n'.tickets.size := by
    have := (keeps_stampTicket (x := none) (w.wrap k) w.tickets.size).tickets
    rw [hn', hn]
    simp only [wrap, Registry.size_add, onManager] at this ⊢
    omega
  have hs := keeps_spread (x := none) n' m w.tickets.size (w.plan t)
  have hlast := hs.lasting hsize
  have hnew : (n'.ticket s.tickets.size).lasting = (w.wrap k |>.ticket s.tickets.size).lasting := by
    obtain ⟨stamp, ht⟩ := ticket_stampTicket (w.wrap k) w.tickets.size s.tickets.size
    rw [hn', ticket_onManager, hn, ht]
    rfl
  have hwrap := hlast.trans hnew
  rw [ticket_wrap, if_pos hz.symm] at hwrap
  have hws : Keeps none s w := hw ▸ keeps_onManager ..
  have hk : Keeps none s n' := by
    rw [hn', hn]
    exact hws.trans ((keeps_wrap w hruns').trans ((keeps_stampTicket ..).trans (keeps_onManager ..)))
  refine {
    accepting
    manager := ⟨n.ticket, fun u hu => ?_, ?_⟩
    other := fun i hi => by
      rw [manager_spread, hn', manager_onManager, if_neg hi, hn, manager_stampTicket, manager_wrap,
        hw, manager_onManager, if_neg hi]
    keeps := hk.trans hs
    made := Nat.lt_of_lt_of_le hsize hs.tickets
    job := (Ticket.job_of_lasting hwrap).trans hjob |>.trans (by rw [ht])
    id := (Ticket.id_of_lasting hwrap).trans (by rw [hjob, ht, hj])
    runs := (Ticket.runs_of_lasting hwrap).trans hruns |>.trans (by rw [ht])
    live := (Ticket.cancelled_of_lasting hwrap).trans hlive }
  · rw [hs.lasting (t := u) (by omega), hn', ticket_onManager]
  · rw [manager_spread, hn', manager_onManager, if_pos rfl, hn, manager_stampTicket, manager_wrap,
      hm, hz]
    rfl

/-- A retry that the queue refuses or does not get. -/
theorem retry_ends {w : Store} (hw : w = s.onManager m (·.release (s.ticket t)))
    (hr : 0 ≤ (s.ticket t).runs) (made : t < s.tickets.size)
    (refused : ¬((s.manager m).accepting ∧
      (s.manager m).queue.accepts (s.job (s.ticket t).job).id)) :
    (w.retry m t).2 = .ok (.ended .failed true) ∧ Ends m t .failed s (w.retry m t).1 := by
  have hm : w.manager m = (s.manager m).release (s.ticket t) := by simp [hw]
  have ht : w.ticket = s.ticket := by rw [hw]; rfl
  have hj : w.job = s.job := by rw [hw]; rfl
  have hws : Keeps none s w := hw ▸ keeps_onManager ..
  obtain ⟨k, hk, hjob, hruns, -⟩ := renew_eq (s := w) (m := m) (t := t) (by rw [ht]; exact hr)
  have hkeeps : Keeps none w (w.wrap k) := keeps_wrap w (by rw [hruns, ht]; exact hr)
  have hp : (if (w.manager m).accepting then
      (w.wrap k).push (w.manager m).queue w.tickets.size else none) = none := by
    have ha : (w.manager m).accepting = (s.manager m).accepting := by rw [hm]; rfl
    have hq : (w.manager m).queue = (s.manager m).queue := by rw [hm]; rfl
    rw [ha, hq]
    split
    · rename_i ha
      have hc : (s.manager m).queue.accepts (s.job (s.ticket t).job).id = false := by
        simpa [ha] using refused
      simp [push, hjob, ht, hj, hc]
    · rfl
  simp only [retry]
  simp only [hk, hp]
  refine ⟨rfl, finish_ends (hws.trans hkeeps) ?_ (by rw [manager_wrap, hm]) fun i hi => ?_⟩
  · have := hkeeps.lasting (Nat.lt_of_lt_of_le made hws.tickets)
    rw [Ticket.id_of_lasting this, ht]
  · rw [manager_wrap, hw, manager_onManager, if_neg hi]

/-- A retry ends the work or renews it, as the verdict says, unless the count is negative. -/
theorem retry_spec {w : Store} (hw : w = s.onManager m (·.release (s.ticket t)))
    (made : t < s.tickets.size) (live : (s.ticket t).cancelled = false) {o : Outcome}
    (retries : s.retries t o) :
    (∃ status tell, verdict.again s m t = some status ∧
      (w.retry m t).2 = .ok (.ended status tell) ∧ Ends m t status s (w.retry m t).1) ∨
    (verdict.again s m t = none ∧ (∃ d, (w.retry m t).2 = .ok (.retried d)) ∧
      Renews m t s (w.retry m t).1) ∨
    ((s.ticket t).runs < 0 ∧ (s.ticket t).cancelled = false ∧ s.retries t o ∧
      (w.retry m t).2 = .error .negativeRuns ∧ Loses m t s (w.retry m t).1) := by
  by_cases hr : (s.ticket t).runs < 0
  · have ht : w.ticket = s.ticket := by rw [hw]; rfl
    have he : w.retry m t = (w, .error .negativeRuns) := by
      rw [retry, renew_error (by rwa [ht])]
    have hm : w.manager m = (s.manager m).release (s.ticket t) := by simp [hw]
    have ho : ∀ i, i ≠ m → w.manager i = s.manager i := fun i hi => by simp [hw, hi]
    rw [he]
    exact .inr (.inr ⟨hr, live, retries, rfl, hm, ho, hw ▸ keeps_onManager ..⟩)
  have hr : 0 ≤ (s.ticket t).runs := Int.not_lt.mp hr
  by_cases ha : (s.manager m).accepting ∧
    (s.manager m).queue.accepts (s.job (s.ticket t).job).id
  · have h := retry_renews hw hr ha.1 ha.2
    exact .inr (.inl ⟨by simp [verdict.again, live, ha], h.1, h.2⟩)
  · have h := retry_ends hw hr made ha
    have hv : verdict.again s m t = some .failed := by
      rw [verdict.again, live, if_neg Bool.false_ne_true, if_neg ha]
    exact .inl ⟨.failed, true, hv, h.1, h.2⟩

/-- Settling ends the work or renews it, as the verdict says, unless a new ticket is needed
and cannot be made. -/
theorem settle_spec (made : t < s.tickets.size) (o : Outcome) :
    (∃ status tell, s.verdict m t o = some status ∧
      (s.settle m t o).2 = .ok (.ended status tell) ∧ Ends m t status s (s.settle m t o).1) ∨
    (s.verdict m t o = none ∧ (∃ d, (s.settle m t o).2 = .ok (.retried d)) ∧
      Renews m t s (s.settle m t o).1) ∨
    ((s.ticket t).runs < 0 ∧ (s.ticket t).cancelled = false ∧ s.retries t o ∧
      (s.settle m t o).2 = .error .negativeRuns ∧ Loses m t s (s.settle m t o).1) := by
  obtain ⟨w, hw⟩ : ∃ w, w = s.onManager m (·.release (s.ticket t)) := ⟨_, rfl⟩
  have hm : w.manager m = (s.manager m).release (s.ticket t) := by simp [hw]
  have ho : ∀ i, i ≠ m → w.manager i = s.manager i := fun i hi => by simp [hw, hi]
  have ht : w.ticket = s.ticket := by rw [hw]; rfl
  have hp : w.plan = s.plan := by rw [hw]; rfl
  have hws : Keeps none s w := hw ▸ keeps_onManager ..
  have done (status tell) : Ends m t status s (w.finish m t status tell).1 :=
    finish_ends hws (by rw [ht]) hm ho
  have hc : w.ticket t = s.ticket t := by rw [ht]
  simp only [settle]
  rw [← hw]
  cases o with
  | success =>
    refine .inl ⟨_, _, rfl, rfl, finish_ends (hws.trans (keeps_onTicket w t fun _ _ => rfl)) ?_ ?_ ho⟩
    · rw [ticket_onTicket, if_pos rfl, hc]
    · rw [manager_onTicket, hm]
  | cancelled => exact .inl ⟨_, _, rfl, rfl, done ..⟩
  | runLimit => exact .inl ⟨_, _, rfl, rfl, done ..⟩
  | other code => exact .inl ⟨_, _, rfl, rfl, done ..⟩
  | again =>
    dsimp only
    rw [hc]
    split
    · rename_i h
      exact .inl ⟨.cancelled, true, by simp [verdict, verdict.again, h], rfl, done ..⟩
    · rename_i h
      have hlive : (s.ticket t).cancelled = false := by simpa using h
      simp only [reduceCtorEq, false_and, ↓reduceIte]
      exact retry_spec hw made hlive (.inl rfl)
  | declined =>
    dsimp only
    rw [hc]
    split
    · rename_i h
      exact .inl ⟨.cancelled, true, by simp [verdict, verdict.again, h], rfl, done ..⟩
    · rename_i h
      have hlive : (s.ticket t).cancelled = false := by simpa using h
      rw [hp]
      split
      · rename_i hd
        exact .inl ⟨.failed, true, by simp [verdict, hlive, hd.2], rfl, done ..⟩
      · rename_i hd
        have hplan : (s.plan t).any (!·.retry) = false := by simpa using hd
        have hv : s.verdict m t .declined = verdict.again s m t := by simp [verdict, hplan]
        rw [hv]
        exact retry_spec hw made hlive (.inr ⟨rfl, hplan⟩)

/-- Only a negative count keeps an attempt from being settled. -/
theorem settle_error (made : t < s.tickets.size) {o : Outcome} {x : Fault}
    (h : (s.settle m t o).2 = .error x) : (s.ticket t).runs < 0 := by
  rcases settle_spec (m := m) made o with ⟨_, _, -, he, -⟩ | ⟨-, ⟨_, he⟩, -⟩ | ⟨hn, -⟩
  · cases h.symm.trans he
  · cases h.symm.trans he
  · exact hn

/-- However the work is settled, its attempt has ended, and the manager stays what it is. -/
theorem released_settle (made : t < s.tickets.size) (o : Outcome) :
    ∃ queue finished counts, (s.settle m t o).1.manager m =
      { (s.manager m).release (s.ticket t) with queue, finished, counts } := by
  rcases settle_spec (m := m) made o with ⟨_, _, -, -, he⟩ | ⟨-, -, hr⟩ | ⟨-, -, -, -, hl⟩
  · exact ⟨_, _, _, he.manager⟩
  · obtain ⟨ticket, -, hm⟩ := hr.manager
    exact ⟨_, _, _, hm⟩
  · exact ⟨_, _, _, hl.manager⟩

theorem running_settle (made : t < s.tickets.size) (o : Outcome) :
    ((s.settle m t o).1.manager m).running = (s.manager m).running.erase (s.ticket t).id := by
  obtain ⟨_, _, _, hm⟩ := released_settle made o
  rw [hm]
  rfl

/-- One manager's settling is no other's business. -/
theorem manager_settle (made : t < s.tickets.size) (o : Outcome) {i : Nat} (hi : i ≠ m) :
    (s.settle m t o).1.manager i = s.manager i := by
  rcases settle_spec (m := m) made o with ⟨_, _, -, -, he⟩ | ⟨-, -, hr⟩ | ⟨-, -, -, -, hl⟩
  · exact he.other i hi
  · exact hr.other i hi
  · exact hl.other i hi

end Store
end Backlog
