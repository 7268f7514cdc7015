import Backlog.World.State

/-!
# Attempts

From the claim of a ticket to the next one. An attempt asks the job for its body and, when
that fails and attempts are left, for a plan. What comes of it goes back to the caller; a
manager settles the ticket, and tells the job if its work ended without success.
-/

namespace Backlog.World

/-- The standard attempt: the outcome is derived from the body and the plan. -/
def standard (w : World) (a j t : Nat) (n : Int) (k : Caller) : World :=
  w.ask a (.body j t n k) (.body j t n)

/-- An attempt of the ticket begins. -/
def enter (w : World) (a t : Nat) (n : Int) (k : Caller) : World :=
  let j := (w.ticket t).job
  let w := w.emit (.entered a j t n)
  if (w.job j).custom then w.ask a (.attempt k) (.attempt j t n) else w.standard a j t n k

/-- The manager begins the next attempt, or ends the operation if no ticket may run. -/
def next (w : World) (a m : Nat) (tally : Option Nat) : World :=
  match w.claim m with
  | none => w.give a (tally.elim (.outcome none) .count)
  | some (s, t) =>
    let w := { w with toStore := s }
    let k := w.ticket t
    (w.note m .info k.id (if 1 < k.runs then "retrying" else "starting")
      [("event", "job_start"), ("attempt", toString k.runs),
        ("priority", toString k.priority)]).enter a t k.runs (.manager m t k.runs w.uptime tally)

/-- A manager that runs until idle goes on after each attempt. -/
def proceed (w : World) (a m : Nat) (o : Outcome) : Option Nat → World
  | none => w.give a (.outcome (some o))
  | some n => w.next a m (some (n + 1))

def resumeNext (w : World) (a : Nat) : Next → World
  | .give v => w.give a v
  | .proceed m o tally => w.proceed a m o tally

/-- The job of the ticket is told, unless the ticket was used to tell it before. -/
def tell (w : World) (a t : Nat) (next : Next) : World :=
  if (w.ticket t).notified then w.resumeNext a next
  else
    let w := { w with toStore := w.onTicket t ({ · with notified := true }) }
    w.ask a (.told next) (.ended (w.ticket t).job t)

/-- Whole milliseconds since the steady clock showed `since`. -/
def elapsed (w : World) (since : Nat) : Nat := (w.uptime - since) / 1000000

/-- What the manager writes about the end of an attempt. -/
def report (w : World) (m t : Nat) (n : Int) (since : Nat) (o : Outcome) : Store.Ending → World
  | .retried delay =>
    w.note m .warn (w.ticket t).id "retry_scheduled"
      [("event", "job_retry"), ("attempt", toString n), ("result", o.name),
        ("delay_ms", toString delay)]
  | .ended .succeeded _ =>
    w.note m .info (w.ticket t).id "success"
      [("event", "job_finish"), ("attempt", toString n),
        ("duration_ms", toString (w.elapsed since)), ("state", Status.succeeded.name)]
  | .ended status _ =>
    w.note m .error (w.ticket t).id (if status = .cancelled then "cancelled" else "failed")
      [("event", "job_finish"), ("attempt", toString n),
        ("duration_ms", toString (w.elapsed since)), ("result", o.name), ("state", status.name)]

/-- An attempt has its outcome. A manager settles it, and unless the job has to be told first,
goes on in the same step. -/
def conclude (w : World) (a : Nat) (k : Caller) (o : Outcome) : World :=
  match k with
  | .client => w.give a (.outcome (some o))
  | .manager m t n since tally =>
    let (s, ending) := w.settle m t o
    let w := { w with toStore := s }
    match ending with
    | .error f => w.raise a f
    | .ok e =>
      let w := w.report m t n since o e
      match e with
      | .ended _ true => w.tell a t (.proceed m o tally)
      | _ => w.proceed a m o tally

/-- The outcome of a failed attempt. A cancelled ticket comes first, then the job's plan,
then the limit. -/
def failureOutcome (w : World) (j t : Nat) (n : Int) : Outcome :=
  if (w.ticket t).cancelled then .cancelled
  else if (w.job j).plan.any (·.retry) then .again
  else if n < (w.job j).retryLimit then .declined
  else .runLimit

/-- A failed attempt ends; its job writes why. -/
def conclusion (w : World) (a j t : Nat) (n : Int) (reason : String) (k : Caller) : World :=
  let job := w.job j
  let w := job.logger.elim w fun l => w.log l {
    level := .warn, job := some job.id, message := "attempt failed"
    fields := [("attempt", toString n), ("error", reason)] }
  w.conclude a k (w.failureOutcome j t n)

/-- The job has a plan for the failed attempt. -/
def planned (w : World) (a j t : Nat) (n : Int) (reason : String) (k : Caller) (p : RetryPlan) :
    World :=
  { w with toStore := w.onJob j ({ · with plan := some p }) }.conclusion a j t n reason k

/-- The body failed. The plan of an earlier attempt is dropped, and a new one is asked for if
attempts are left and the ticket is not cancelled. -/
def failed (w : World) (a j t : Nat) (n : Int) (reason : String) (k : Caller) : World :=
  let job := w.job j
  let w := { w with toStore := w.onJob j ({ · with plan := none }) }
  if n < job.retryLimit ∧ ¬(w.ticket t).cancelled then
    if job.asksPlan then w.ask a (.plan j t n reason k) (.plan j t n reason job.retryLimit)
    else w.planned a j t n reason k .again
  else w.conclusion a j t n reason k

/-- Why an attempt failed whose body threw. -/
def thrownReason (x : Thrown) : String := "exception: " ++ x.text?.getD "unknown"

/-- The reason once a plan could not be had because of `x`. -/
def unplannedReason (reason : String) (x : Thrown) : String :=
  x.text?.elim reason fun text => reason ++ "; retry predicate threw: " ++ text

end Backlog.World
