import Backlog.Outcome
import Backlog.Store

/-!
# Custody

How tickets come to a manager and leave it. A ticket is queued by `enlist`, `reclaim` or a
retry, begins an attempt by `claim`, and is let go by `settle` or `withdraw`. Each is one
step that nobody can interrupt.
-/

namespace Backlog.Store

/-- A new ticket for the job is queued, unless its id is queued or running already or the
manager has stopped. Its number is the one that was unused. -/
def enlist (s : Store) (m j : Nat) : Option Store :=
  let g := s.manager m
  let job := s.job j
  if !g.accepting || !g.free job.id then none
  else
    let t := s.tickets.size
    let s := s.wrap {
      job := j, priority := job.priority, group := job.group, created := s.time m
      notBefore := deadline (s.time m) job.delay, session := g.session }
    match s.push g.queue t with
    | none => none
    | some (s, queue) =>
      some ((s.setContext t (some g.logger) g.session).onManager m fun g =>
        { g.forget job.id with queue, counts := { g.counts with added := g.counts.added + 1 } })

/-- The first ticket that may run begins an attempt. The count of attempts has no bound here. A
counter of some width agrees with it as long as no ticket has begun as many attempts as that
counter can hold. -/
def claim (s : Store) (m : Nat) : Option (Store × Nat) :=
  match (s.manager m).ready? s.ticket (s.time m) with
  | none => none
  | some t =>
    let s := s.onTicket t fun k => { k with runs := k.runs + 1, session := (s.manager m).session }
    let k := s.ticket t
    some (s.onManager m fun g =>
      { g.begin k t with
        queue := g.queue.take s.ticket t
        counts :=
          if 1 < k.runs then { g.counts with retries := g.counts.retries + 1 } else g.counts },
      t)

/-- What follows an attempt. -/
inductive Ending where
  /-- Another attempt, after this delay. -/
  | retried (delay : Int)
  /-- None; the job may have to be told. -/
  | ended (status : Status) (tell : Bool)
  deriving DecidableEq, Repr

def finish (s : Store) (m t : Nat) (status : Status) (tell : Bool) : Store × Except Fault Ending :=
  (s.onManager m (·.finish (s.ticket t).id status), .ok (.ended status tell))

/-- The plan that the ticket's job last answered. -/
def plan (s : Store) (t : Nat) : Option RetryPlan := (s.job (s.ticket t).job).plan

/-- The wait before the next attempt: what the plan says, else the manager's backoff. -/
def retryDelay (s : Store) (m t : Nat) : Int :=
  let c := (s.manager m).config
  ((s.plan t).bind (·.delay)).getD
    (c.backoff.delay (s.ticket t).runs c.backoffBase c.longestBackoff)

/-- A new ticket that carries on the work of the old one. It keeps the age and the count of
attempts, and gets a stamp of its own when it is queued. -/
def renew (s : Store) (m t : Nat) : Except Fault Store :=
  let k := s.ticket t
  s.build {
    job := some k.job, priority := some (((s.plan t).bind (·.priority)).getD k.priority)
    group := k.group, runs := k.runs, created := some k.created
    notBefore := deadline (s.time m) (s.retryDelay m t), session := some (s.manager m).session }

/-- The group waits with its member if the plan says so and the member waits at all. -/
def spread (s : Store) (m t : Nat) (plan : Option RetryPlan) : Store :=
  let k := s.ticket t
  match k.group with
  | some group =>
    if plan.any (·.wholeGroup) ∧ k.notBefore.isSome then
      { s with tickets := (s.manager m).queue.delayGroup s.tickets group k.notBefore }
    else s
  | none => s

/-- Another attempt is queued. A manager that has stopped lets the work fail instead. -/
def retry (s : Store) (m t : Nat) : Store × Except Fault Ending :=
  match s.renew m t with
  | .error f => (s, .error f)
  | .ok new =>
    let next := s.tickets.size
    match if (s.manager m).accepting then new.push (s.manager m).queue next else none with
    | none => new.finish m t .failed true
    | some (new, queue) =>
      ((new.onManager m ({ · with queue })).spread m next (s.plan t),
        .ok (.retried (s.retryDelay m t)))

/-- An attempt has ended with an outcome. A cancelled ticket gets no other attempt, nor does
one whose job has declined. -/
def settle (s : Store) (m t : Nat) (o : Outcome) : Store × Except Fault Ending :=
  let s := s.onManager m (·.release (s.ticket t))
  match o with
  | .success => (s.onTicket t ({ · with successful := true })).finish m t .succeeded false
  | .cancelled => s.finish m t .cancelled true
  | .runLimit => s.finish m t .failed true
  | .again | .declined =>
    if (s.ticket t).cancelled then s.finish m t .cancelled true
    else if o = .declined ∧ (s.plan t).any (!·.retry) then s.finish m t .failed true
    else s.retry m t
  | .other _ => s.finish m t .unknown false

/-- What a cancellation met. -/
inductive Withdrawal where
  /-- A running ticket, now marked. -/
  | marked (t : Nat)
  /-- A queued ticket, now dropped. -/
  | dropped (t : Nat)
  deriving DecidableEq, Repr

def withdraw (s : Store) (m : Nat) (id : String) : Option (Store × Withdrawal) :=
  let g := s.manager m
  match g.running.find? id with
  | some t => some (s.cancelTicket t, .marked t)
  | none =>
    match g.queue.remove s.ticket id with
    | none => none
    | some (t, queue) =>
      some ((s.cancelTicket t).onManager m fun g => { g.finish id .cancelled with queue },
        .dropped t)

/-- What became of a ticket that was offered for recovery. -/
inductive Recovery where
  /-- There is nothing to recover. -/
  | ignored
  /-- The manager takes no ticket of this id now. -/
  | refused
  /-- The ticket is queued; it came from this session. -/
  | requeued (stale : Int)
  deriving DecidableEq, Repr

/-- A ticket that another session left behind is queued again. -/
def reclaim (s : Store) (m : Nat) (t : Nat) : Store × Recovery :=
  let g := s.manager m
  let k := s.ticket t
  if k.cancelled || k.session == g.session then (s, .ignored)
  else if !g.accepting || !g.free k.id then (s, .refused)
  else
    match (s.onTicket t ({ · with session := g.session })).push g.queue t with
    | none => (s, .refused)
    | some (s, queue) =>
      ((s.setContext t (some g.logger) g.session).onManager m fun g =>
        { g.forget k.id with
          queue, counts := { g.counts with recovered := g.counts.recovered + 1 } },
      .requeued k.session)

/-- A new manager and its logger. Sessions grow even where the clock does not. -/
def establish (s : Store) (c : Config) : Store :=
  let session := max (s.read c.clock) (s.lastSession + 1)
  { s with
    lastSession := session
    loggers := s.loggers.add { threshold := c.threshold, json := c.json }
    managers := s.managers.add {
      config := c, logger := s.loggers.size, session, network := c.network } }

end Backlog.Store
