import Backlog.Proofs.Courses
import Backlog.Proofs.Deferral
import Backlog.Proofs.Separation
import Backlog.Proofs.Stamps

/-!
# What a retry does

An attempt that is to be repeated leaves a new ticket in the queue of its manager. It carries on
the work of the old one, with the priority and the delay that the plan of the job names, if it names
any. If the plan says so, the queued members of its group wait at least as long. Nothing else
changes, and nobody is told.
-/

namespace Backlog

namespace Store

variable {s s' : Store} {m t u : Nat} {o : Outcome}

/-- The ticket that carries on the work of ticket `t` for manager `m`. -/
def successor (s : Store) (m t : Nat) : Ticket where
  job := (s.ticket t).job
  id := (s.ticket t).id
  priority := ((s.plan t).bind (·.priority)).getD (s.ticket t).priority
  group := (s.ticket t).group
  runs := (s.ticket t).runs
  created := (s.ticket t).created
  notBefore :=
    let c := (s.manager m).config
    deadline (s.time m) (((s.plan t).bind (·.delay)).getD
      (c.backoff.delay (s.ticket t).runs c.backoffBase c.longestBackoff))
  session := (s.manager m).session
  stamp := some s.nextStamp
  needsNetwork := (s.job (s.ticket t).job).needsNetwork
  tags := (s.job (s.ticket t).job).tags
  cancelled := false
  successful := false
  notified := false

/-- Ticket `u` is queued, and has to wait as long as the successor of ticket `t`: both are of one
group, the plan is for the whole group, and the successor waits at all. -/
def WaitsAlong (s : Store) (m t u : Nat) : Prop :=
  (s.plan t).any (·.wholeGroup) = true ∧ (s.successor m t).notBefore.isSome = true ∧
    u ∈ (s.manager m).queue.order ∧ (s.ticket t).group.isSome = true ∧
    (s.ticket u).group = (s.ticket t).group

instance : Decidable (s.WaitsAlong m t u) := inferInstanceAs (Decidable (_ ∧ _))

/-- Manager `m` has queued a successor of ticket `t`, whose attempt is over. -/
structure CarriesOn (m t : Nat) (s s' : Store) : Prop where
  successor : s'.ticket s.tickets.size = s.successor m t
  ticket : ∀ u, u ≠ s.tickets.size → s'.ticket u = if s.WaitsAlong m t u then
      { s.ticket u with notBefore := later (s.ticket u).notBefore (s.successor m t).notBefore }
    else s.ticket u
  nextStamp : s'.nextStamp = s.nextStamp + 1
  /-- What waited before waits on, in the same order. -/
  queued : (s'.manager m).queue.order.Perm (s.tickets.size :: (s.manager m).queue.order)
  kept : (s.manager m).queue.order.Sublist (s'.manager m).queue.order
  found : ∀ id, (s'.manager m).queue.find? id =
    if id = (s.ticket t).id then some s.tickets.size else (s.manager m).queue.find? id
  /-- No work was counted and none has ended. -/
  manager : ∃ order index, s'.manager m = { (s.manager m).release (s.ticket t) with
    queue := { (s.manager m).queue with order, index } }
  other : ∀ i, i ≠ m → s'.manager i = s.manager i
  job : ∀ j, s'.job j = if j = (s.ticket t).job then
      { s.job j with priority := (s.successor m t).priority }
    else s.job j
  sizes : s'.tickets.size = s.tickets.size + 1 ∧ s'.jobs.size = s.jobs.size ∧
    s'.managers.size = s.managers.size
  aside : s'.queues = s.queues ∧ s'.loggers = s.loggers ∧ s'.lastSession = s.lastSession ∧
    s'.now = s.now ∧ s'.uptime = s.uptime

/-- A retry that is left to the manager is one unless the ticket is cancelled. -/
theorem settle_retries (ho : s.retries t o) (hc : (s.ticket t).cancelled = false) :
    s.settle m t o = (s.onManager m (·.release (s.ticket t))).retry m t := by
  have hc : ((s.onManager m (·.release (s.ticket t))).ticket t).cancelled = false := hc
  rcases ho with rfl | ⟨rfl, hp⟩
  · simp only [settle]
    rw [hc]
    rfl
  · have hp : ((s.onManager m (·.release (s.ticket t))).plan t).any (!·.retry) = false := hp
    simp only [settle]
    rw [hc, hp]
    rfl

/-- The release of a ticket is no matter to its successor. -/
@[simp] theorem successor_release (s : Store) (m t : Nat) (k : Ticket) :
    (s.onManager m (·.release k)).successor m t = s.successor m t := by
  have hm : (s.onManager m (·.release k)).manager m = (s.manager m).release k := by
    rw [manager_onManager, if_pos rfl]
  simp only [successor, time, hm]
  rfl

/-- The store with the new ticket of a retry in the queue. -/
def requeued (s : Store) (m t : Nat) : Store :=
  (s.renewed m t).onManager m fun g =>
    { g with queue := (s.manager m).queue.insert (s.renewed m t).ticket s.tickets.size }

theorem retry_eq_requeued {d : Int} (h : (s.retry m t).2 = .ok (.retried d)) :
    (s.retry m t).1 = (s.requeued m t).spread m s.tickets.size (s.plan t) := by
  obtain ⟨next, hnext, he⟩ := retry_eq_of_retried h
  obtain rfl : next = s.renewed m t := hnext
  exact congrArg Prod.fst he

/-- The new ticket has the id of the old one as long as the job has. -/
theorem ticket_requeued (hid : (s.ticket t).id = (s.job (s.ticket t).job).id) (u : Nat) :
    (s.requeued m t).ticket u = if u = s.tickets.size then s.successor m t else s.ticket u := by
  rw [requeued, ticket_onManager, renewed, ticket_stampTicket_eq, ticket_wrap]
  split
  · simp only [successor]
    rw [hid]
    rfl
  · rfl

theorem manager_requeued (s : Store) (m t i : Nat) : (s.requeued m t).manager i =
    if i = m then { s.manager m with
      queue := (s.manager m).queue.insert (s.requeued m t).ticket s.tickets.size }
    else s.manager i := by
  have hm (i : Nat) : (s.renewed m t).manager i = s.manager i := by
    rw [renewed, manager_stampTicket, manager_wrap]
  rw [requeued, manager_onManager, hm, hm]
  rfl

/-- Apart from tickets and managers, the job has the priority of the new ticket, and a stamp has
been given. -/
theorem requeued_eq (s : Store) (m t : Nat) : s.requeued m t = { s with
    jobs := s.jobs.put (s.ticket t).job
      { s.job (s.ticket t).job with priority := (s.successor m t).priority }
    tickets := (s.requeued m t).tickets
    managers := (s.requeued m t).managers
    nextStamp := s.nextStamp + 1 } := by
  have hn : ((s.wrap (s.renewal m t)).ticket s.tickets.size).stamp = none := by
    rw [ticket_wrap, if_pos rfl]
    rfl
  have hs : s.renewed m t = { s.wrap (s.renewal m t) with
      tickets := (s.renewed m t).tickets, nextStamp := s.nextStamp + 1 } := by
    rw [renewed, stampTicket, hn]
    rfl
  rw [requeued, hs]
  rfl

theorem size_requeued (s : Store) (m t : Nat) :
    (s.requeued m t).tickets.size = s.tickets.size + 1 := by
  change (s.renewed m t).tickets.size = _
  rw [renewed, size_stampTicket (lt_size_wrap ..), size_wrap]

theorem managers_requeued (s : Store) {m : Nat} (t : Nat) (hm : m < s.managers.size) :
    (s.requeued m t).managers.size = s.managers.size := by
  have hs : (s.renewed m t).managers = s.managers := by
    rw [renewed, stampTicket_eq]
    rfl
  simp only [requeued, onManager, Registry.size_modify, hs]
  omega

/-- The tickets that wait with their group wait longer, and nothing else changes. -/
theorem ticket_spread (s : Store) (m t : Nat) (plan : Option RetryPlan) (u : Nat) :
    (s.spread m t plan).ticket u =
      if plan.any (·.wholeGroup) = true ∧ (s.ticket t).notBefore.isSome = true ∧
        u ∈ (s.manager m).queue.order ∧ (s.ticket t).group.isSome = true ∧
        (s.ticket u).group = (s.ticket t).group then
        { s.ticket u with notBefore := later (s.ticket u).notBefore (s.ticket t).notBefore }
      else s.ticket u := by
  simp only [spread]
  split
  · rename_i g hg
    split
    · rename_i hp
      rw [show Store.ticket { s with tickets := _ } u = Registry.get _ u from rfl, get_delayGroup]
      by_cases hu : u ∈ (s.manager m).queue.order
      · simp only [hp, hu, hg, Queue.delayMember, if_true, true_and, Option.isSome_some]
        rfl
      · simp only [hu, if_false, false_and, and_false]
        rfl
    · rename_i hp
      rw [if_neg fun h => hp ⟨h.1, h.2.1⟩]
  · rename_i hg
    simp [hg]

theorem size_spread (h : ∀ u ∈ (s.manager m).queue.order, u < s.tickets.size) (t : Nat)
    (plan : Option RetryPlan) : (s.spread m t plan).tickets.size = s.tickets.size := by
  simp only [spread]
  split
  · split
    · exact size_delayGroup h ..
    · rfl
  · rfl

/-- The successor of ticket `t` is queued, and no member of its group waits for it yet. -/
structure Lodges (m t : Nat) (s s' : Store) : Prop where
  ticket : ∀ u, s'.ticket u = if u = s.tickets.size then s.successor m t else s.ticket u
  manager : ∀ i, s'.manager i = if i = m then { (s.manager m).release (s.ticket t) with
      queue := (s.manager m).queue.insert s'.ticket s.tickets.size }
    else s.manager i
  rest : s' = { s with
    jobs := s.jobs.put (s.ticket t).job
      { s.job (s.ticket t).job with priority := (s.successor m t).priority }
    tickets := s'.tickets
    managers := s'.managers
    nextStamp := s.nextStamp + 1 }
  sizes : s'.tickets.size = s.tickets.size + 1 ∧ s'.managers.size = s.managers.size

/-- A released ticket that is queued again. -/
theorem lodges_requeued (hid : (s.ticket t).id = (s.job (s.ticket t).job).id)
    (hm : m < s.managers.size) {w : Store} (hw : w = s.onManager m (·.release (s.ticket t))) :
    Lodges m t s (w.requeued m t) := by
  have hg : w.manager m = (s.manager m).release (s.ticket t) := by
    rw [hw, manager_onManager, if_pos rfl]
  have hz : w.tickets.size = s.tickets.size := by rw [hw]; rfl
  have hmz : w.managers.size = s.managers.size := by
    rw [hw, onManager, Registry.size_modify]
    omega
  constructor
  · intro u
    rw [ticket_requeued (by rw [hw]; exact hid), hz, hw, successor_release]
    rfl
  · intro i
    rw [manager_requeued, hg, hz]
    split
    · rfl
    · rename_i hi
      rw [hw, manager_onManager, if_neg hi]
  · have h := requeued_eq w m t
    rw [hw, successor_release] at h
    rw [hw]
    exact h
  · exact ⟨by rw [size_requeued, hz], by rw [managers_requeued w t (hmz ▸ hm), hmz]⟩

/-- The new ticket takes its place in the order, where no queued ticket has its id. -/
theorem Lodges.order (h : Lodges m t s s') (hs : s.Founded)
    (hsole : ∀ u ∈ (s.manager m).queue.order, (s.ticket u).id ≠ (s.ticket t).id) :
    (s'.manager m).queue.order.Perm (s.tickets.size :: (s.manager m).queue.order) := by
  rw [h.manager, if_pos rfl]
  refine insertOrdered_perm fun u hu he => hsole u hu ?_
  have hids := Ticket.id_eq_of_queueOrder he
  rw [h.ticket, if_pos rfl, h.ticket, if_neg (Nat.ne_of_lt (hs.known m u (.inl hu)))] at hids
  exact hids.symm

/-- Once its group waits, the work is carried on. -/
theorem Lodges.carriesOn (h : Lodges m t s s') (hs : s.Founded) (made : t < s.tickets.size)
    (hsole : ∀ u ∈ (s.manager m).queue.order, (s.ticket u).id ≠ (s.ticket t).id) :
    CarriesOn m t s (s'.spread m s.tickets.size (s.plan t)) := by
  obtain ⟨x, hx⟩ : ∃ x, x = s'.spread m s.tickets.size (s.plan t) := ⟨_, rfl⟩
  have ht (u : Nat) : x.ticket u = _ := hx ▸ ticket_spread s' m s.tickets.size (s.plan t) u
  have hm (i : Nat) : x.manager i = s'.manager i := hx ▸ manager_spread ..
  have hrest : x = { s' with tickets := x.tickets } := hx ▸ spread_eq ..
  rw [h.rest] at hrest
  have horder := h.order hs hsole
  rw [← hx]
  refine {
    successor := ?successor
    ticket := fun u hu => ?ticket
    nextStamp := congrArg Store.nextStamp hrest
    queued := by rwa [hm]
    kept := ?kept
    found := fun id => ?found
    manager := ?manager
    other := fun i hi => by rw [hm, h.manager, if_neg hi]
    job := fun j => ?job
    sizes := ⟨?tickets, ?jobs, (congrArg (·.managers.size) hrest).trans h.sizes.2⟩
    aside := ⟨(congrArg Store.queues hrest :), (congrArg Store.loggers hrest :),
      (congrArg Store.lastSession hrest :), (congrArg Store.now hrest :),
      (congrArg Store.uptime hrest :)⟩ }
  case successor =>
    -- even if it is held up with its group, it is until its own deadline
    rw [ht, h.ticket, if_pos rfl, later_self, ite_self]
  case ticket =>
    have hmem : u ∈ (s'.manager m).queue.order ↔ u ∈ (s.manager m).queue.order := by
      rw [horder.mem_iff, List.mem_cons, or_iff_right hu]
    rw [ht, h.ticket, if_pos rfl, h.ticket, if_neg hu]
    simp only [hmem]
    rfl
  case kept =>
    rw [hm, h.manager, if_pos rfl]
    exact sublist_insertOrdered ..
  case found =>
    rw [hm, h.manager, if_pos rfl, find?_insert, h.ticket, if_pos rfl]
    rfl
  case manager =>
    rw [hm, h.manager, if_pos rfl]
    exact ⟨_, _, rfl⟩
  case job =>
    refine (congrArg (Store.job · j) hrest).trans ((Registry.get_put ..).trans ?_)
    split
    · rename_i hj
      rw [hj]
    · rfl
  case tickets =>
    rw [hx, size_spread, h.sizes.1]
    intro u hu
    rw [h.sizes.1]
    rcases List.mem_cons.mp (horder.mem_iff.mp hu) with rfl | hu
    · exact Nat.lt_succ_self _
    · exact Nat.lt_succ_of_lt (hs.known m u (.inl hu))
  case jobs =>
    refine (congrArg (·.jobs.size) hrest).trans ((Registry.size_put ..).trans ?_)
    exact Nat.max_eq_left (hs.job t made)

/-- An attempt that is to be repeated is settled so if the manager takes the id again. -/
theorem settle_carriesOn (hs : s.Founded) (made : t < s.tickets.size) (hm : m < s.managers.size)
    (ho : s.retries t o) (hc : (s.ticket t).cancelled = false) (hn : 0 ≤ (s.ticket t).runs)
    (hacc : (s.manager m).accepting = true)
    (haccepts : (s.manager m).queue.accepts (s.ticket t).id = true)
    (hsole : ∀ u ∈ (s.manager m).queue.order, (s.ticket u).id ≠ (s.ticket t).id) :
    (∃ d, (s.settle m t o).2 = .ok (.retried d)) ∧ CarriesOn m t s (s.settle m t o).1 := by
  obtain ⟨w, hw⟩ : ∃ w, w = s.onManager m (·.release (s.ticket t)) := ⟨_, rfl⟩
  have hid := hs.named t made
  obtain ⟨⟨d, hd⟩, -⟩ := retry_renews hw hn hacc (hid ▸ haccepts)
  have hz : w.tickets.size = s.tickets.size := by rw [hw]; rfl
  have hplan : w.plan t = s.plan t := by rw [hw]; rfl
  rw [settle_retries ho hc, ← hw]
  refine ⟨⟨d, hd⟩, ?_⟩
  rw [retry_eq_requeued hd, hz, hplan]
  exact (lodges_requeued hid hm hw).carriesOn hs made hsole

end Store

namespace World

variable {w u v : World} {a m t : Nat} {f : Frame} {r : Reply} {k : Caller} {o : Outcome} {d : Int}

/-- A reply that ends an attempt concludes it, after the job has written why. -/
theorem Rules.concludes (h : w.Rules f r v k o) (a : Nat) :
    ∃ u, v.Logged u ∧ w.resume a f r = u.conclude a k o := by
  have failed {j t : Nat} {n : Int} {reason : String} {x : World} {p : Outcome}
      (hx : w.failed a j t n reason k = x.conclusion a j t n reason k)
      (hp : x.failureOutcome j t n = p) :
      ∃ u, x.Logged u ∧ w.failed a j t n reason k = u.conclude a k p := by
    obtain ⟨u, hu, he⟩ := conclusion_eq x a j t n reason k
    exact ⟨u, hu, hx.trans (hp ▸ he)⟩
  cases h with
  | decided => exact ⟨w, .refl w, rfl⟩
  | succeeded => exact ⟨w, .refl w, rfl⟩
  | unasked j t n k r hr hl hc ha =>
    have := fun reason => failed (failed_unasked hl hc ha a reason k) (failureOutcome_again hc n)
    cases r <;> first | exact this _ | cases hr
  | exhausted j t n k r hr hl =>
    have := fun reason => failed (failed_exhausted (fun h => by simp [hl h.1] at h) a reason k)
      (failureOutcome_exhausted hl)
    cases r <;> first | exact this _ | cases hr
  | planned j t n reason k p r hr =>
    rcases hr with rfl | ⟨⟨x, rfl⟩, rfl⟩ <;> exact conclusion_eq ..

/-- After a retry the operation goes on, and nobody is told. -/
theorem conclude_retried (hk : k.work = some (m, t)) (hu : v.Logged u)
    (hs : (v.settle m t o).2 = .ok (.retried d)) (a : Nat) :
    ∃ x, (v.close k o).Logged x ∧ u.conclude a k o = x.resumeNext a (k.next o) := by
  obtain ⟨n, since, tally, rfl⟩ := Caller.eq_of_work hk
  obtain ⟨x, hx, he⟩ := conclude_manager hu a m t n since tally o
  rw [hs] at he
  exact ⟨_, hx.trans (logged_report x m t n since o (.retried d)), he⟩

/-- Ticket `t` runs for manager `m` under the id that it has, and no queued ticket was given that
id. -/
structure Unrenamed (w : World) (m t : Nat) : Prop where
  runs : (w.manager m).running.find? (w.ticket t).id = some t
  sole : ∀ u ∈ (w.manager m).queue.order, (w.ticket u).id ≠ (w.ticket t).id

/-- A ticket that an operation works on is, if the client renames no ticket of the manager. -/
theorem ReachableBy.unrenamed (h : ReachableBy (lawful m) w) (hw : w.Works a m t) :
    w.Unrenamed m t := by
  have hr := h.sound.tended.runs a t hw
  refine ⟨hr, fun u hu hid => ?_⟩
  have hq := (h.sound.custody.queue.find _ u).mpr ⟨hu, hid⟩
  rw [h.sound.custody.apart _ t hr] at hq
  cases hq

theorem Unrenamed.manager_lt (h : w.Unrenamed m t) : m < w.managers.size := by
  refine Nat.lt_of_not_le fun hm => ?_
  have hr := h.runs
  rw [Store.manager, Registry.get_of_size_le hm] at hr
  cases hr

/-- An attempt that its outcome leaves to be repeated is, where the manager has not stopped and the
ticket is neither cancelled nor renamed: a successor is queued, and the operation goes on with the
outcome. -/
theorem retry_carries_on (h : w.Reachable) (hf : w.pending.find? a = some f)
    (hr : Rules { w with pending := w.pending.erase a } f r v k o) (hk : k.work = some (m, t))
    (ho : v.retries t o) (hacc : (w.manager m).accepting = true)
    (hc : (w.ticket t).cancelled = false) (hn : 0 ≤ (w.ticket t).runs) (hu : w.Unrenamed m t) :
    ∃ x u : World, Store.CarriesOn m t v.toStore x.toStore ∧ x.pending = w.pending.erase a ∧
      x.history = w.history ∧ x.Logged u ∧ w.step (.reply a r) = u.resumeNext a (k.next o) := by
  have hw := h.grounded.founded
  have hv := (hw.erase a).replanned hr.replanned
  have made : t < w.tickets.size :=
    hw.works a m t ((works_of_frame hf).mpr (hr.work ▸ hk))
  have haccepts : (w.manager m).queue.accepts (w.ticket t).id = true := by
    have hp := h.parted m
    rw [Queue.accepts, hp.opened hacc, Table.contains,
      show (w.manager m).queue.index.find? _ = none from hp.apart _ t hu.runs]
    rfl
  obtain ⟨y, hy, hstep⟩ := hr.concludes a
  rw [← step_taken hf hr.takes] at hstep
  obtain ⟨jobs, rfl, -⟩ := hr.replanned
  obtain ⟨⟨d, hd⟩, hcarries⟩ :=
    Store.settle_carriesOn hv.store made hu.manager_lt ho hc hn hacc haccepts hu.sole
  obtain ⟨u, hlogged, hconclude⟩ := conclude_retried hk hy hd a
  refine ⟨_, u, ?_, ?_, ?_, hlogged, hstep.trans hconclude⟩
  · obtain ⟨n, since, tally, rfl⟩ := Caller.eq_of_work hk
    exact hcarries
  · rfl
  · rfl

/-- A job of a group runs, while three others of the group wait: without a delay, with a short one
and with a long one. -/
def relatives : World := (start 0).run
  [.call (.makeJob { id := "a", group := some "g", asksPlan := true }),
    .call (.makeJob { id := "b", group := some "g" }),
    .call (.makeJob { id := "c", group := some "g", delay := 2 }),
    .call (.makeJob { id := "d", group := some "g", delay := 60 }),
    .call (.makeJob { id := "e" }), .call (.makeManager {}),
    .call (.manager 0 (.add (some 0))), .call (.manager 0 (.add (some 1))),
    .call (.manager 0 (.add (some 2))), .call (.manager 0 (.add (some 3))),
    .call (.manager 0 (.add (some 4))), .call (.manager 0 .runNext), .reply 11 (.failed "late")]

/-- It is to run again after 5 ms with its group. The last of them waits longer anyway. -/
theorem retry_carries_on_relatives :
    ([5, 1, 2, 3, 4].map fun u =>
      ((relatives.step (.reply 11 (.plan ⟨true, some 5, some 7, true⟩))).ticket u).notBefore) =
      [some 5000000, some 5000000, some 5000000, some 60000000, none] := by
  have h : ReachableBy (lawful 0) relatives := ⟨0, _, by simp only [Along, lawful, and_self], rfl⟩
  have hr : relatives.Reachable := ⟨0, _, rfl⟩
  have hf : relatives.pending.find? 11 = some (.plan 0 0 1 "late" (.manager 0 0 1 0 none)) := by
    decide +kernel
  obtain ⟨x, u, hx, -, -, hl, hs⟩ := retry_carries_on hr hf
    (.planned 0 0 1 "late" _ ⟨true, some 5, some 7, true⟩ _ (.inl rfl)) rfl (.inl rfl)
    (by decide +kernel) (by decide +kernel) (by decide +kernel)
    (h.unrenamed (works_of_frame hf |>.mpr rfl))
  have hticket (i : Nat) :
      (relatives.step (.reply 11 (.plan ⟨true, some 5, some 7, true⟩))).ticket i = x.ticket i := by
    obtain ⟨ls, es, -, rfl⟩ := hl
    rw [hs]
    rfl
  have hnew := hx.successor
  rw [show Registry.size _ = 5 by decide +kernel] at hnew
  simp only [List.map, hticket]
  rw [hnew, hx.ticket 1 (by decide +kernel), hx.ticket 2 (by decide +kernel),
    hx.ticket 3 (by decide +kernel), hx.ticket 4 (by decide +kernel)]
  decide +kernel

end World

end Backlog
