import Backlog.World.Attempt

/-!
# Managers at work

The operations of a manager: what it takes in, drops and takes over, and what it writes about
it.
-/

namespace Backlog

/-- An operation of a manager. -/
inductive ManagerCall where
  | add (j : Option Nat)
  | runNext
  | runUntilIdle
  | cancel (id : String)
  | recover (ts : List (Option Nat))
  | network (up : Bool)
  | stop

namespace World

/-- The job is queued and told so. -/
def add (w : World) (a m : Nat) : Option Nat → World
  | none => w.raise a .noJob
  | some j =>
    match w.enlist m j with
    | none => w.give a (.flag false)
    | some s =>
      let job := w.job j
      ({ w with toStore := s }.note m .info job.id "added"
        [("event", "job_added"), ("priority", toString job.priority),
          ("group", job.group.getD ""), ("delay_ms", toString job.delay)]).ask
            a (.told (.give (.flag true))) (.added j w.tickets.size)

/-- A running ticket is marked, and its attempt ends cancelled unless it succeeds. A queued
one ends here. -/
def cancel (w : World) (a m : Nat) (id : String) : World :=
  match w.withdraw m id with
  | none => w.give a (.flag false)
  | some (s, .marked _) =>
    ({ w with toStore := s }.note m .warn id "cancel requested"
      [("event", "job_cancel"), ("state", "Running")]).give a (.flag true)
  | some (s, .dropped t) =>
    ({ w with toStore := s }.note m .warn id "cancelled"
      [("event", "job_cancel"), ("state", "Queued")]).tell a t (.give (.flag true))

/-- One ticket offered for recovery, and how many were queued so far. -/
def recoverOne (m : Nat) : World × Nat → Option Nat → World × Nat
  | (w, n), none => (w, n)
  | (w, n), some t =>
    let id := (w.ticket t).id
    match w.reclaim m t with
    | (_, .ignored) => (w, n)
    | (_, .refused) => (w.note m .warn id "recovery skipped" [("event", "job_recovered")], n)
    | (s, .requeued stale) =>
      ({ w with toStore := s }.note m .info id "recovered"
        [("event", "job_recovered"), ("stale_session", toString stale),
          ("run_count", toString (w.ticket t).runs)], n + 1)

def recover (w : World) (a m : Nat) (ts : List (Option Nat)) : World :=
  let (w, n) := ts.foldl (recoverOne m) (w, 0)
  w.give a (.count n)

def setNetwork (w : World) (a m : Nat) (up : Bool) : World :=
  let was := (w.manager m).network
  let w := { w with toStore := w.onManager m ({ · with network := up }) }
  let said := if up then "network available" else "network lost"
  (if was = up then w else w.announce m said []).give a .unit

/-- A manager stops once. -/
def stop (w : World) (a m : Nat) : World :=
  let g := w.manager m
  (if g.accepting then
    { w with toStore := w.onManager m (·.stop) }.announce m "job manager stopped"
      [("session", toString g.session), ("queued", toString g.queue.size)]
  else w).give a .unit

def callManager (w : World) (a m : Nat) : ManagerCall → World
  | .add j => w.add a m j
  | .runNext => w.next a m none
  | .runUntilIdle => w.next a m (some 0)
  | .cancel id => w.cancel a m id
  | .recover ts => w.recover a m ts
  | .network up => w.setNetwork a m up
  | .stop => w.stop a m

def makeManager (w : World) (a : Nat) (c : Config) : World :=
  let m := w.managers.size
  let w := { w with toStore := w.establish c }
  (w.announce m "job manager started" [("session", toString (w.manager m).session)]).give
    a (.ref (some m))

end World

end Backlog
