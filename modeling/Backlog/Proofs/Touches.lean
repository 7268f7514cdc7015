import Backlog.Proofs.LifeCycle

/-!
# What operations are made of

Whatever an operation does to tickets, it does by few means: a ticket is made, stamped, signed,
marked, held up with its group, or edited by the client. A relation between stores that composes
and allows for each of these holds between a store and what any operation makes of it, so it has
to be proved for the means only.
-/

namespace Backlog

/-- The queue whose operation the call is. -/
def Call.queue? : Call → Option Nat
  | .queue q _ => some q
  | _ => none

@[simp] theorem Queue.group_delayMember (group : String) (until? : Option Int) (k : Ticket) :
    (delayMember group until? k).group = k.group := by
  simp only [delayMember]
  split <;> rfl

namespace Store

/-- What not every operation may do. -/
structure Reach where
  /-- The tickets that may get another session. -/
  signs : Nat → Prop := fun _ => False
  /-- The tickets that may be held up with their group. -/
  holds : Nat → Prop := fun _ => False
  /-- The tickets whose deadline may be set. -/
  sets : Nat → Prop := fun _ => False
  /-- The queues that may change, of those that stand alone. -/
  queues : Nat → Prop := fun _ => False
  /-- The clocks may be set. -/
  clocks : Prop := False

/-- What custody never does is to set a deadline, a queue that stands alone, or a clock. -/
def Reach.custody : Reach where
  signs _ := True
  holds _ := True

/-- One thing that is done to a store. -/
inductive Touches (r : Reach) (s : Store) : Store → Prop
  /-- No ticket changes. -/
  | aside (s' : Store) (ht : s'.tickets = s.tickets)
    (hq : ∀ q, ¬r.queues q → s'.queue q = s.queue q)
    (hc : ¬r.clocks → s'.now = s.now ∧ s'.uptime = s.uptime) : Touches r s s'
  | made (k : Ticket) (hk : k.notified = false) : Touches r s (s.wrap k)
  | stamped (t n : Nat) (hn : (s.ticket t).stamp = none) :
    Touches r s (s.onTicket t ({ · with stamp := some n }))
  | signed (t : Nat) (id : Int) (ht : r.signs t) :
    Touches r s (s.onTicket t ({ · with session := id }))
  | cancelled (t : Nat) : Touches r s (s.onTicket t ({ · with cancelled := true }))
  | succeeded (t : Nat) : Touches r s (s.onTicket t ({ · with successful := true }))
  | held (t : Nat) (group : String) (d : Option Int)
    (ht : (s.ticket t).group = some group → r.holds t) :
    Touches r s (s.onTicket t (Queue.delayMember group d))
  | scheduled (t : Nat) (d : Option Int) (ht : r.sets t) :
    Touches r s (s.onTicket t ({ · with notBefore := d }))
  /-- The client edits what else there is to edit. -/
  | edited (t : Nat) (f : Ticket → Ticket)
    (hf : ∃ job id priority runs created,
      f (s.ticket t) = { s.ticket t with job, id, priority, runs, created }) :
    Touches r s (s.onTicket t f)

abbrev Reaches (r : Reach) : Store → Store → Prop := Relation.ReflTransGen (Touches r)

variable {r : Reach} {s s' : Store} {m t : Nat}

theorem reaches_aside (ht : s'.tickets = s.tickets) (hq : s'.queues = s.queues)
    (hn : s'.now = s.now) (hu : s'.uptime = s.uptime) : Reaches r s s' :=
  .single (.aside s' ht (fun q _ => by rw [queue, queue, hq]) fun _ => ⟨hn, hu⟩)

theorem reaches_onJob (s : Store) (j : Nat) (f : Job → Job) : Reaches r s (s.onJob j f) :=
  reaches_aside rfl rfl rfl rfl

theorem reaches_onManager (s : Store) (m : Nat) (f : Manager → Manager) :
    Reaches r s (s.onManager m f) :=
  reaches_aside rfl rfl rfl rfl

theorem reaches_wrap (s : Store) {k : Ticket} (hk : k.notified = false) : Reaches r s (s.wrap k) :=
  .single (.made k hk)

theorem reaches_stampTicket (s : Store) (t : Nat) : Reaches r s (s.stampTicket t) := by
  simp only [stampTicket]
  split
  · exact .refl
  · rename_i hn
    exact .head (.stamped t s.nextStamp hn) (reaches_aside rfl rfl rfl rfl)

theorem reaches_setContext (s : Store) (t : Nat) (logger : Option Nat) (session : Int) :
    Reaches r s (s.setContext t logger session) :=
  reaches_onJob ..

theorem reaches_cancelTicket (s : Store) (t : Nat) : Reaches r s (s.cancelTicket t) :=
  .head (.cancelled t) (reaches_onJob ..)

/-- Only queued members of the group are held up. -/
theorem reaches_delayGroup (q : Queue) (group : String) (d : Option Int)
    (hd : ∀ t ∈ q.order, (s.ticket t).group = some group → r.holds t) :
    Reaches r s { s with tickets := q.delayGroup s.tickets group d } := by
  simp only [Queue.delayGroup]
  generalize q.order = order at hd
  induction order generalizing s with
  | nil => exact .refl
  | cons t order ih =>
    have hg (u : Nat) : ((s.onTicket t (Queue.delayMember group d)).ticket u).group =
        (s.ticket u).group := by
      rw [ticket_onTicket]
      split
      · rename_i h
        rw [Queue.group_delayMember, h]
      · rfl
    exact .head (.held t group d (hd t List.mem_cons_self))
      (ih (s := s.onTicket t (Queue.delayMember group d))
        fun u hu h => hd u (List.mem_cons_of_mem _ hu) (hg u ▸ h))

theorem reaches_spread (plan : Option RetryPlan)
    (hd : ∀ p g, plan = some p → p.wholeGroup = true → (s.ticket t).group = some g →
      ∀ u ∈ (s.manager m).queue.order, (s.ticket u).group = some g → r.holds u) :
    Reaches r s (s.spread m t plan) := by
  simp only [spread]
  split
  · rename_i group hg
    split
    · rename_i hp
      obtain ⟨p, hplan, hwhole⟩ := (Option.any_eq_true _ _).mp hp.1
      exact reaches_delayGroup _ _ _ (hd p group hplan hwhole hg)
    · exact .refl
  · exact .refl

/-- A retry may hold up the new ticket and queued members of its group. -/
theorem reaches_retry (hn : r.holds s.tickets.size)
    (hd : ∀ d p g, (s.retry m t).2 = .ok (.retried d) → s.plan t = some p →
      p.wholeGroup = true → (s.ticket t).group = some g →
      ∀ u ∈ (s.manager m).queue.order, (s.ticket u).group = some g → r.holds u) :
    Reaches r s (s.retry m t).1 := by
  have made : Reaches r s (s.wrap (s.renewal m t)) := reaches_wrap s rfl
  rcases retry_eq s m t with ⟨f, h⟩ | ⟨-, h | ⟨next, hnext, -, h⟩⟩
  · rw [h]
  · rw [h]
    exact made.trans (reaches_onManager ..)
  have hret : (s.retry m t).2 = .ok (.retried (s.retryDelay m t)) := by rw [h]
  have stamped : Reaches r s next := hnext ▸ made.trans (reaches_stampTicket ..)
  have hgroup (u : Nat) : (next.ticket u).group =
      if u = s.tickets.size then (s.ticket t).group else (s.ticket u).group := by
    obtain ⟨stamp, hs⟩ := ticket_stampTicket (s.wrap (s.renewal m t)) s.tickets.size u
    rw [hnext, hs, ticket_wrap]
    split <;> rfl
  rw [h]
  refine stamped.trans ((reaches_onManager ..).trans
    (reaches_spread _ fun p g hp hwhole hg u hu hug => ?_))
  by_cases hnew : u = s.tickets.size
  · exact hnew ▸ hn
  rw [ticket_onManager, hgroup, if_pos rfl] at hg
  rw [ticket_onManager, hgroup, if_neg hnew] at hug
  rw [manager_onManager, if_pos rfl] at hu
  exact hd _ p g hret hp hwhole hg u ((mem_insertOrdered hu).resolve_left hnew) hug

/-- Ticket `t` is retried after the outcome, and the plan of its job makes ticket `u`, which is
queued, wait with it. -/
def Spreads (s : Store) (m t : Nat) (o : Outcome) (u : Nat) : Prop :=
  ∃ d p g, (s.settle m t o).2 = .ok (.retried d) ∧ s.plan t = some p ∧ p.wholeGroup = true ∧
    (s.ticket t).group = some g ∧ u ∈ (s.manager m).queue.order ∧ (s.ticket u).group = some g

theorem reaches_settle {o : Outcome} (hn : r.holds s.tickets.size)
    (hd : ∀ u, s.Spreads m t o u → r.holds u) : Reaches r s (s.settle m t o).1 := by
  obtain ⟨w, hw⟩ : ∃ w, w = s.onManager m (·.release (s.ticket t)) := ⟨_, rfl⟩
  refine .trans (hw ▸ reaches_onManager .. : Reaches r s w) ?_
  refine settle_induction (P := fun x => s.settle m t o = x → Reaches r w x.1) hw (fun _ => ?_)
    (fun status tell _ _ => ?_) (fun h => ?_) o rfl
  · exact .head (.succeeded t) (reaches_onManager ..)
  · exact reaches_onManager ..
  · subst hw
    refine reaches_retry hn fun d p g hret hp hwhole hg u hu hug => ?_
    rw [manager_onManager, if_pos rfl] at hu
    exact hd u ⟨d, p, g, h ▸ hret, hp, hwhole, hg, hu, hug⟩

theorem reaches_enlist {j : Nat} (h : s.enlist m j = some s') : Reaches r s s' := by
  obtain ⟨-, k, next, ⟨-, -, hk, -⟩, rfl, rfl⟩ := enlist_eq_some h
  exact (reaches_wrap s hk).trans ((reaches_stampTicket ..).trans
    ((reaches_setContext ..).trans (reaches_onManager ..)))

theorem reaches_withdraw {id : String} {v : Withdrawal} (h : s.withdraw m id = some (s', v)) :
    Reaches r s s' := by
  rcases withdraw_cases h with ⟨t, -, rfl, -⟩ | ⟨-, t, queue, -, rfl, -⟩
  · exact reaches_cancelTicket s t
  · exact (reaches_cancelTicket s t).trans (reaches_onManager ..)

theorem reaches_reclaim (s : Store) (m : Nat) {t : Nat} (ht : r.signs t) :
    Reaches r s (s.reclaim m t).1 := by
  rcases reclaim_eq s m t with ⟨h, -⟩ | ⟨-, w, next, rfl, rfl, h⟩
  · rw [h]
  · rw [h]
    exact .head (.signed t (s.manager m).session ht) ((reaches_stampTicket ..).trans
      ((reaches_setContext ..).trans (reaches_onManager ..)))

theorem reaches_recover (s : Store) (m : Nat) {ts : List (Option Nat)}
    (ht : ∀ t, some t ∈ ts → r.signs t) : Reaches r s (s.manage m (.recover ts)) := by
  induction ts generalizing s with
  | nil => exact .refl
  | cons t ts ih =>
    have ih (s : Store) := ih s fun u hu => ht u (List.mem_cons_of_mem t hu)
    cases t with
    | none => exact ih s
    | some t => exact (reaches_reclaim s m (ht t List.mem_cons_self)).trans (ih _)

theorem reaches_manage (s : Store) (m : Nat) {c : ManagerCall}
    (ht : ∀ ts t, c = .recover ts → some t ∈ ts → r.signs t) : Reaches r s (s.manage m c) := by
  cases c with
  | add j =>
    cases j with
    | none => exact .refl
    | some j =>
      change Reaches r s ((s.enlist m j).getD s)
      cases he : s.enlist m j with
      | none => exact .refl
      | some s' => exact reaches_enlist he
  | runNext => exact .refl
  | runUntilIdle => exact .refl
  | cancel id =>
    change Reaches r s (((s.withdraw m id).map Prod.fst).getD s)
    cases hw : s.withdraw m id with
    | none => exact .refl
    | some p => exact reaches_withdraw hw
  | recover ts => exact reaches_recover s m fun t => ht ts t rfl
  | network up => exact reaches_onManager ..
  | stop =>
    change Reaches r s (if (s.manager m).accepting then s.onManager m (·.stop) else s)
    split
    · exact reaches_onManager ..
    · exact .refl

theorem reaches_after {x : Except Fault Store} (h : ∀ s', x = .ok s' → Reaches r s s') :
    Reaches r s (s.after x) := by
  cases x with
  | ok s' => exact h s' rfl
  | error f => exact .refl

theorem reaches_editTicket (s : Store) (t : Nat) {e : TicketEdit}
    (hs : ∀ id, e = .session id → r.signs t) (hd : ∀ d, e = .notBefore d → r.sets t) :
    Reaches r s (s.after (s.editTicket t e)) := by
  have edit {f : Ticket → Ticket} (hf : ∃ job id priority runs created,
      f (s.ticket t) = { s.ticket t with job, id, priority, runs, created }) :
      Reaches r s (s.onTicket t f) := .single (.edited t f hf)
  cases e with
  | priority p => exact (edit ⟨_, _, _, _, _, rfl⟩).trans (reaches_onJob ..)
  | runs n => exact edit ⟨_, _, _, _, _, rfl⟩
  | created c => exact edit ⟨_, _, _, _, _, rfl⟩
  | notBefore d => exact .single (.scheduled t d (hd d rfl))
  | session id => exact .single (.signed t id (hs id rfl))
  | stamp n =>
    simp only [editTicket]
    split
    · exact .refl
    · exact .single (.stamped t n ‹_›)
  | job j =>
    cases j with
    | none => exact .refl
    | some j => exact (edit ⟨_, _, _, _, _, rfl⟩).trans (reaches_onJob ..)
  | context l session => exact reaches_setContext ..
  | cancel => exact reaches_cancelTicket s t
  | success => exact .single (.succeeded t)

theorem reaches_setQueue (s : Store) {q : Nat} (hq : r.queues q) (queue : Queue) :
    Reaches r s (s.setQueue q queue) := by
  refine .single (.aside _ rfl (fun i hi => ?_) fun _ => ⟨rfl, rfl⟩)
  have hne : i ≠ q := fun h => hi (h ▸ hq)
  exact Registry.get_put_other _ _ hne

/-- The operation of a queue makes the group of ticket `u` wait, which is in the queue. -/
def Delays (s : Store) : Call → Nat → Prop
  | .queue q (.delayGroup group _), u => u ∈ (s.queue q).order ∧ (s.ticket u).group = some group
  | _, _ => False

theorem reaches_callQueue {q : Nat} {c : QueueCall} (hq : r.queues q)
    (hd : ∀ u, s.Delays (.queue q c) u → r.holds u) : Reaches r s (s.callQueue q c).1 := by
  cases c with
  | push t =>
    cases t with
    | none => exact .refl
    | some t =>
      simp only [callQueue]
      split
      · exact .refl
      · rename_i hp
        obtain ⟨-, rfl, -⟩ := push_eq_some.mp hp
        exact (reaches_stampTicket s t).trans (reaches_setQueue _ hq _)
  | next now network busy =>
    simp only [callQueue]
    split
    · exact .refl
    · exact reaches_setQueue s hq _
  | remove id =>
    simp only [callQueue]
    split
    · exact .refl
    · exact reaches_setQueue s hq _
  | delayGroup group d => exact reaches_delayGroup _ _ _ fun u hu hg => hd u ⟨hu, hg⟩
  | close => exact reaches_setQueue s hq _

/-- The call may give the ticket another session. -/
def restamps (t : Nat) : Call → Prop
  | .editTicket u e => ∃ id, t = u ∧ e = .session id
  | .manager _ c => ∃ ts, c = .recover ts ∧ some t ∈ ts
  | _ => False

/-- The ticket whose deadline the client sets. -/
def rescheduled : Call → Option Nat
  | .editTicket t (.notBefore _) => some t
  | _ => none

/-- What a call may do. -/
def reach (s : Store) (c : Call) : Reach where
  signs := (restamps · c)
  holds := s.Delays c
  sets t := rescheduled c = some t
  queues q := c.queue? = some q

theorem reaches_call (s : Store) (c : Call) : Reaches (s.reach c) s (s.call c) := by
  cases c with
  | makeJob p =>
    apply reaches_after
    intro s' hs
    cases hj : Job.make p with
    | error f => rw [hj] at hs; cases hs
    | ok j => rw [hj] at hs; cases hs; exact reaches_aside rfl rfl rfl rfl
  | build d =>
    apply reaches_after
    intro s' hs
    obtain ⟨k, rfl, -, -, hk, -⟩ := build_eq_ok hs
    exact reaches_wrap s hk
  | editTicket t e =>
    apply reaches_editTicket
    · rintro id rfl
      exact ⟨id, rfl, rfl⟩
    · rintro d rfl
      rfl
  | makeQueue =>
    -- a queue that is made is empty, as it read before
    refine .single (.aside _ rfl (fun q _ => (Registry.get_add ..).trans ?_) fun _ => ⟨rfl, rfl⟩)
    split
    · rename_i hq
      exact (Registry.get_of_size_le (Nat.le_of_eq hq.symm)).symm
    · rfl
  | queue q c => exact reaches_callQueue rfl fun _ h => h
  | manager m c => exact reaches_manage s m fun ts t hc ht => ⟨ts, hc, ht⟩
  | _ => exact reaches_aside rfl rfl rfl rfl

end Store

namespace World

variable {w w' : World}

/-- What a move may do. -/
def reach (w : World) : Move → Store.Reach
  | .call c => w.toStore.reach c
  | .reply .. => { holds _ := True }
  | .clock _ | .elapse _ => { clocks := True }

theorem reaches_effect (w : World) (mv : Move) :
    Store.Reaches (w.reach mv) w.toStore (w.effect mv).toStore := by
  have clock (now : Int) (up : Nat) :
      Store.Reaches { clocks := True } w.toStore { w.toStore with now, uptime := up } :=
    .single (.aside _ rfl (fun _ _ => rfl) fun h => absurd trivial h)
  cases mv with
  | call c =>
    rcases effect_call w c with ⟨-, he⟩ | he
    · rw [he]
      exact Store.reaches_call ..
    · rw [he]
  | reply a r =>
    have hr := replied w a r
    generalize (w.effect (.reply a r)).toStore = s at hr ⊢
    cases hr with
    | planned jobs hj => exact Store.reaches_aside rfl rfl rfl rfl
    | settled jobs hj m t o hw =>
      have hs : Store.Reaches (w.reach (.reply a r)) w.toStore { w.toStore with jobs } :=
        Store.reaches_aside rfl rfl rfl rfl
      exact hs.trans (Store.reaches_settle trivial fun _ _ => trivial)
  | clock now => exact clock now w.uptime
  | elapse nanos => exact clock w.now (w.uptime + nanos)

end World

end Backlog
