import Backlog.World.Edit
import Backlog.Custody

/-!
# What managers leave alone

Managers and queues give a ticket its session, its stamp and its deadline and note what became
of it. All else about a ticket lasts, except that a claim counts an attempt and a withdrawal
cancels. Of a job its id, group, delay, limit and kind last whatever happens.
-/

namespace Backlog

/-- The ticket without what managers and queues write on it. -/
def Ticket.lasting (k : Ticket) : Ticket :=
  { k with session := 0, stamp := none, notBefore := none, successful := false, notified := false }

/-- The job without what can change about it. -/
def Job.lasting (j : Job) : Job :=
  { j with
    priority := 0, needsNetwork := false, tags := none, cancelled := false, plan := none
    logger := none, session := 0 }

theorem Ticket.id_of_lasting {a b : Ticket} (h : a.lasting = b.lasting) : a.id = b.id :=
  show a.lasting.id = b.lasting.id by rw [h]

theorem Ticket.job_of_lasting {a b : Ticket} (h : a.lasting = b.lasting) : a.job = b.job :=
  show a.lasting.job = b.lasting.job by rw [h]

theorem Ticket.runs_of_lasting {a b : Ticket} (h : a.lasting = b.lasting) : a.runs = b.runs :=
  show a.lasting.runs = b.lasting.runs by rw [h]

theorem Ticket.created_of_lasting {a b : Ticket} (h : a.lasting = b.lasting) :
    a.created = b.created :=
  show a.lasting.created = b.lasting.created by rw [h]

theorem Ticket.cancelled_of_lasting {a b : Ticket} (h : a.lasting = b.lasting) :
    a.cancelled = b.cancelled :=
  show a.lasting.cancelled = b.lasting.cancelled by rw [h]

theorem Job.id_of_lasting {a b : Job} (h : a.lasting = b.lasting) : a.id = b.id :=
  show a.lasting.id = b.lasting.id by rw [h]

theorem Job.custom_of_lasting {a b : Job} (h : a.lasting = b.lasting) : a.custom = b.custom :=
  show a.lasting.custom = b.lasting.custom by rw [h]

theorem Job.retryLimit_of_lasting {a b : Job} (h : a.lasting = b.lasting) :
    a.retryLimit = b.retryLimit :=
  show a.lasting.retryLimit = b.lasting.retryLimit by rw [h]

theorem Job.asksPlan_of_lasting {a b : Job} (h : a.lasting = b.lasting) :
    a.asksPlan = b.asksPlan :=
  show a.lasting.asksPlan = b.lasting.asksPlan by rw [h]

namespace Store

/-- Every object is still there, and every job and every ticket but `x` is as it was, up to
what may change. New tickets count no negative number of attempts. -/
structure Keeps (x : Option Nat) (s s' : Store) : Prop where
  jobs : s.jobs.size ≤ s'.jobs.size
  tickets : s.tickets.size ≤ s'.tickets.size
  job : ∀ j < s.jobs.size, (s'.job j).lasting = (s.job j).lasting
  ticket : ∀ t < s.tickets.size, some t ≠ x → (s'.ticket t).lasting = (s.ticket t).lasting
  fresh : ∀ t, s.tickets.size ≤ t → some t ≠ x → 0 ≤ (s'.ticket t).runs

variable {x : Option Nat} {s s' s'' : Store}

/-- A ticket that does not exist reads as one without attempts. -/
theorem runs_of_size_le {t : Nat} (h : s.tickets.size ≤ t) : 0 ≤ (s.ticket t).runs := by
  rw [ticket, Registry.get_of_size_le h]
  exact Int.le_refl 0

theorem Keeps.runs (h : Keeps x s s') (hs : ∀ t, 0 ≤ (s.ticket t).runs) {t : Nat}
    (hx : some t ≠ x) : 0 ≤ (s'.ticket t).runs := by
  by_cases ht : t < s.tickets.size
  · rw [Ticket.runs_of_lasting (h.ticket t ht hx)]
    exact hs t
  · exact h.fresh t (Nat.le_of_not_lt ht) hx

/-- Where no ticket may change, all that exist last. -/
theorem Keeps.lasting (h : Keeps none s s') {t : Nat} (ht : t < s.tickets.size) :
    (s'.ticket t).lasting = (s.ticket t).lasting :=
  h.ticket t ht (Option.some_ne_none t)

/-- Only the tickets and the jobs matter. -/
theorem keeps_of_eq (hj : s'.jobs = s.jobs) (ht : s'.tickets = s.tickets) : Keeps x s s' := by
  refine ⟨Nat.le_of_eq (by rw [hj]), Nat.le_of_eq (by rw [ht]), fun j _ => ?_, fun t _ _ => ?_,
    fun t hs _ => runs_of_size_le (by rwa [ht])⟩
  · rw [job, job, hj]
  · rw [ticket, ticket, ht]

theorem Keeps.refl (x : Option Nat) (s : Store) : Keeps x s s := keeps_of_eq rfl rfl

theorem Keeps.trans (h : Keeps x s s') (h' : Keeps x s' s'') : Keeps x s s'' where
  jobs := Nat.le_trans h.jobs h'.jobs
  tickets := Nat.le_trans h.tickets h'.tickets
  job j hj := (h'.job j (Nat.lt_of_lt_of_le hj h.jobs)).trans (h.job j hj)
  ticket t ht hx :=
    (h'.ticket t (Nat.lt_of_lt_of_le ht h.tickets) hx).trans (h.ticket t ht hx)
  fresh t ht hx := by
    by_cases hs : t < s'.tickets.size
    · rw [Ticket.runs_of_lasting (h'.ticket t hs hx)]
      exact h.fresh t ht hx
    · exact h'.fresh t (Nat.le_of_not_lt hs) hx

theorem keeps_onJob (s : Store) (j : Nat) {f : Job → Job} (hf : ∀ k, (f k).lasting = k.lasting) :
    Keeps x s (s.onJob j f) where
  jobs := by simp only [onJob, Registry.size_modify]; omega
  tickets := Nat.le_refl _
  job i _ := by
    rw [job_onJob]
    split
    · rename_i h; rw [hf, h]
    · rfl
  ticket _ _ _ := rfl
  fresh _ ht _ := runs_of_size_le ht

theorem keeps_onTicket (s : Store) (t : Nat) {f : Ticket → Ticket}
    (hf : some t ≠ x → ∀ k, (f k).lasting = k.lasting) : Keeps x s (s.onTicket t f) where
  jobs := Nat.le_refl _
  tickets := by simp only [onTicket, Registry.size_modify]; omega
  job _ _ := rfl
  ticket u _ hx := by
    rw [ticket_onTicket]
    split
    · rename_i h; subst h; exact hf hx _
    · rfl
  fresh u hu hx := by
    rw [ticket_onTicket]
    split
    · rename_i h
      subst h
      rw [Ticket.runs_of_lasting (hf hx _)]
      exact runs_of_size_le hu
    · exact runs_of_size_le hu

theorem keeps_onManager (s : Store) (m : Nat) (f : Manager → Manager) : Keeps x s (s.onManager m f) :=
  keeps_of_eq rfl rfl

theorem keeps_wrap (s : Store) {k : Ticket} (hk : 0 ≤ k.runs) : Keeps x s (s.wrap k) where
  jobs := by simp only [wrap, Registry.size_put]; omega
  tickets := by simp only [wrap, Registry.size_add]; omega
  job j _ := by
    simp only [wrap, job, Registry.get_put]
    split
    · rename_i h; subst h; rfl
    · rfl
  ticket t ht _ := by
    simp only [wrap, ticket, Registry.get_add]
    rw [if_neg (Nat.ne_of_lt ht)]
  fresh t ht _ := by
    simp only [wrap, ticket, Registry.get_add]
    split
    · exact hk
    · exact runs_of_size_le ht

/-- What a draft makes that is not refused. -/
theorem build_eq_ok {d : Draft} (h : s.build d = .ok s') :
    ∃ k : Ticket, s' = s.wrap k ∧ some k.job = d.job ∧ 0 ≤ k.runs ∧ k.notified = false ∧
      k.stamp = d.stamp := by
  obtain ⟨job, priority, group, runs, created, notBefore, stamp, session⟩ := d
  cases job <;> cases priority <;> cases session <;> cases created <;> try cases h
  simp only [build] at h
  dsimp only [bind, Except.bind, pure, Except.pure] at h
  split at h
  · cases h
  · rename_i hr
    cases h
    exact ⟨_, rfl, rfl, Int.not_lt.mp hr, rfl, rfl⟩

theorem keeps_build {d : Draft} (h : s.build d = .ok s') : Keeps x s s' := by
  obtain ⟨k, rfl, -, hk, -⟩ := build_eq_ok h
  exact keeps_wrap s hk

theorem keeps_stampTicket (s : Store) (t : Nat) : Keeps x s (s.stampTicket t) := by
  simp only [stampTicket]
  split
  · exact .refl ..
  · refine .trans (keeps_onTicket s t (f := ({ · with stamp := some s.nextStamp })) fun _ _ => rfl) ?_
    exact keeps_of_eq rfl rfl

/-- What a push does, and when. -/
theorem push_eq_some {q q' : Queue} {t : Nat} :
    s.push q t = some (s', q') ↔
      q.accepts (s.ticket t).id ∧ s' = s.stampTicket t ∧ q' = q.insert s'.ticket t := by
  simp only [push]
  split <;> grind

theorem keeps_push {q q' : Queue} {t : Nat} (h : s.push q t = some (s', q')) : Keeps x s s' := by
  obtain ⟨-, rfl, -⟩ := push_eq_some.mp h
  exact keeps_stampTicket s t

theorem keeps_setContext (s : Store) (t : Nat) (logger : Option Nat) (session : Int) :
    Keeps x s (s.setContext t logger session) :=
  keeps_onJob _ _ fun _ => rfl

theorem keeps_delayGroup (s : Store) (q : Queue) (group : String) (d : Option Int) :
    Keeps x s { s with tickets := q.delayGroup s.tickets group d } := by
  simp only [Queue.delayGroup]
  generalize q.order = order
  induction order generalizing s with
  | nil => exact .refl ..
  | cons t order ih =>
    refine .trans (keeps_onTicket s t fun _ k => ?_) (ih (s.onTicket t _))
    simp only [Queue.delayMember]
    split <;> rfl

theorem keeps_cancelTicket (s : Store) (t : Nat) : Keeps (some t) s (s.cancelTicket t) :=
  (keeps_onTicket s t fun h => absurd rfl h).trans (keeps_onJob _ _ fun _ => rfl)

theorem id_cancelTicket (s : Store) (t u : Nat) :
    ((s.cancelTicket t).ticket u).id = (s.ticket u).id := by
  change ((s.onTicket t _).ticket u).id = _
  rw [ticket_onTicket]
  split
  · rename_i hu; rw [hu]
  · rfl

theorem keeps_spread (s : Store) (m t : Nat) (plan : Option RetryPlan) :
    Keeps x s (s.spread m t plan) := by
  simp only [spread]
  split
  · split
    · exact keeps_delayGroup ..
    · exact .refl ..
  · exact .refl ..

/-- A job is enlisted with a new ticket, which is stamped and queued. -/
theorem enlist_eq_some {j : Nat} (h : s.enlist m j = some s') :
    ((s.manager m).accepting = true ∧ (s.manager m).free (s.job j).id = true) ∧
      ∃ (k : Ticket) (next : Store),
        (k.job = j ∧ k.cancelled = false ∧ k.notified = false ∧ k.runs = 0 ∧ k.stamp = none ∧
          k.created = s.time m) ∧
        next = (s.wrap k).stampTicket s.tickets.size ∧
        s' = (next.setContext s.tickets.size (some (s.manager m).logger)
          (s.manager m).session).onManager m fun g =>
            { g.forget (s.job j).id with
              queue := (s.manager m).queue.insert next.ticket s.tickets.size
              counts := { g.counts with added := g.counts.added + 1 } } := by
  simp only [enlist] at h
  split at h
  · cases h
  rename_i hg
  simp only [Bool.or_eq_true, Bool.not_eq_true', not_or, Bool.not_eq_false] at hg
  split at h
  · cases h
  rename_i next queue hp
  obtain ⟨-, hs, rfl⟩ := push_eq_some.mp hp
  exact ⟨hg, _, next, ⟨rfl, rfl, rfl, rfl, rfl, rfl⟩, hs, (Option.some.inj h).symm⟩

/-- A ticket that is offered for recovery is left as it is, or it is stamped and queued. -/
theorem reclaim_eq (s : Store) (m t : Nat) :
    ((s.reclaim m t).1 = s ∧ ∀ stale, (s.reclaim m t).2 ≠ .requeued stale) ∨
      ((s.ticket t).cancelled = false ∧ (s.manager m).accepting = true ∧
        (s.manager m).free (s.ticket t).id = true) ∧
      ∃ w next : Store, w = s.onTicket t ({ · with session := (s.manager m).session }) ∧
        next = w.stampTicket t ∧
        s.reclaim m t = ((next.setContext t (some (s.manager m).logger)
          (s.manager m).session).onManager m fun g =>
            { g.forget (s.ticket t).id with
              queue := (s.manager m).queue.insert next.ticket t
              counts := { g.counts with recovered := g.counts.recovered + 1 } },
          .requeued (s.ticket t).session) := by
  simp only [reclaim]
  split
  · exact .inl ⟨rfl, nofun⟩
  rename_i hl
  simp only [Bool.or_eq_true, not_or, Bool.not_eq_true] at hl
  split
  · exact .inl ⟨rfl, nofun⟩
  rename_i hg
  simp only [Bool.or_eq_true, Bool.not_eq_true', not_or, Bool.not_eq_false] at hg
  split
  · exact .inl ⟨rfl, nofun⟩
  rename_i next queue hp
  obtain ⟨-, hs, rfl⟩ := push_eq_some.mp hp
  exact .inr ⟨⟨hl.1, hg⟩, _, next, rfl, hs, rfl⟩

/-- The ticket that a retry makes. -/
def renewal (s : Store) (m t : Nat) : Ticket :=
  let k := s.ticket t
  { job := k.job, priority := ((s.plan t).bind (·.priority)).getD k.priority, group := k.group
    runs := k.runs, created := k.created, session := (s.manager m).session
    notBefore := deadline (s.time m) (s.retryDelay m t) }

theorem renew_eq_wrap {m t : Nat} (h : ¬(s.ticket t).runs < 0) :
    s.renew m t = .ok (s.wrap (s.renewal m t)) := by
  simp only [renew, build, pure, Except.pure, h, ↓reduceIte]
  rfl

/-- A ticket whose count is negative cannot be made again. -/
theorem renew_error {m t : Nat} (h : (s.ticket t).runs < 0) :
    s.renew m t = .error .negativeRuns := by
  simp only [renew, build, pure, Except.pure, h, ↓reduceIte]
  rfl

theorem renew_eq_ok {m t : Nat} (h : s.renew m t = .ok s') :
    0 ≤ (s.ticket t).runs ∧ s' = s.wrap (s.renewal m t) := by
  by_cases hr : (s.ticket t).runs < 0
  · rw [renew_error hr] at h
    cases h
  · rw [renew_eq_wrap hr] at h
    exact ⟨Int.not_lt.mp hr, (Except.ok.inj h).symm⟩

/-- A retry finds no new ticket to go on with, or a new ticket is made. Then the work ends if
the manager does not take it, else it is queued. -/
theorem retry_eq (s : Store) (m t : Nat) :
    (∃ f, s.retry m t = (s, .error f)) ∨ 0 ≤ (s.ticket t).runs ∧
      (s.retry m t = (s.wrap (s.renewal m t)).finish m t .failed true ∨
        ∃ next, next = (s.wrap (s.renewal m t)).stampTicket s.tickets.size ∧
          (s.manager m).queue.accepts ((s.wrap (s.renewal m t)).ticket s.tickets.size).id = true ∧
          s.retry m t = ((next.onManager m fun g =>
              { g with queue := (s.manager m).queue.insert next.ticket s.tickets.size }).spread m
            s.tickets.size (s.plan t), .ok (.retried (s.retryDelay m t)))) := by
  unfold retry
  split
  · rename_i f _
    exact .inl ⟨f, rfl⟩
  rename_i new hn
  obtain ⟨hr, rfl⟩ := renew_eq_ok hn
  refine .inr ⟨hr, ?_⟩
  dsimp only
  split
  · exact .inl rfl
  rename_i next queue hp
  split at hp
  · obtain ⟨ha, hs, rfl⟩ := push_eq_some.mp hp
    exact .inr ⟨next, hs, ha, rfl⟩
  · cases hp

/-- The new ticket of a retry is like any that is built. -/
theorem retry_cases (s : Store) (m t : Nat) :
    (∃ f, s.retry m t = (s, .error f)) ∨ ∃ k : Ticket, 0 ≤ k.runs ∧ k.notified = false ∧
      (s.retry m t = (s.wrap k).finish m t .failed true ∨
        ∃ next d, next = (s.wrap k).stampTicket s.tickets.size ∧
          s.retry m t = ((next.onManager m fun g =>
              { g with queue := (s.manager m).queue.insert next.ticket s.tickets.size }).spread m
            s.tickets.size (s.plan t), .ok (.retried d))) :=
  (retry_eq s m t).imp_right fun ⟨hr, h⟩ =>
    ⟨s.renewal m t, hr, rfl, h.imp_right fun ⟨next, hn, _, h⟩ => ⟨next, _, hn, h⟩⟩

theorem keeps_retry (s : Store) (m t : Nat) : Keeps x s (s.retry m t).1 := by
  rcases retry_cases s m t with ⟨f, h⟩ | ⟨k, hk, -, h | ⟨next, d, rfl, h⟩⟩ <;> rw [h]
  · exact .refl ..
  · exact (keeps_wrap s hk).trans (keeps_onManager ..)
  · have hs := (keeps_wrap (x := x) s hk).trans (keeps_stampTicket _ s.tickets.size)
    exact hs.trans ((keeps_onManager ..).trans (keeps_spread ..))

/-- However an attempt is settled, its ticket is released. Then the work has succeeded, it has
ended otherwise and its job is to be told if it failed or was cancelled, or it is retried. -/
theorem settle_induction {P : Store × Except Fault Ending → Prop} {w : Store}
    (hw : w = s.onManager m (·.release (s.ticket t)))
    (success : P ((w.onTicket t ({ · with successful := true })).finish m t .succeeded false))
    (ended : ∀ status tell, (tell = true ↔ status = .failed ∨ status = .cancelled) →
      P (w.finish m t status tell))
    (retried : P (w.retry m t)) (o : Outcome) : P (s.settle m t o) := by
  have failed := ended .failed true (by simp)
  have cancelled := ended .cancelled true (by simp)
  simp only [settle]
  rw [← hw]
  cases o with
  | success => exact success
  | cancelled => exact cancelled
  | runLimit => exact failed
  | other code => exact ended .unknown false (by simp)
  | again =>
    dsimp only
    split
    · exact cancelled
    · split
      · exact failed
      · exact retried
  | declined =>
    dsimp only
    split
    · exact cancelled
    · split
      · exact failed
      · exact retried

theorem keeps_settle (s : Store) (m t : Nat) (o : Outcome) : Keeps x s (s.settle m t o).1 := by
  obtain ⟨w, hw⟩ : ∃ w, w = s.onManager m (·.release (s.ticket t)) := ⟨_, rfl⟩
  refine .trans (hw ▸ keeps_onManager .. : Keeps x s w) ?_
  apply settle_induction (P := fun r => Keeps x w r.1) hw
  · refine .trans (keeps_onTicket w t (f := ({ · with successful := true })) fun _ _ => rfl) ?_
    exact keeps_onManager ..
  · intro status tell _
    exact keeps_onManager ..
  · exact keeps_retry w m t

end Store

end Backlog
