import Backlog.Config
import Backlog.Queue
import Backlog.Status

/-!
# Managers

A manager owns the queued tickets of one session and runs them. Each id it knows is queued,
running or finished.
-/

namespace Backlog

structure Counts where
  added : Nat := 0
  succeeded : Nat := 0
  failed : Nat := 0
  cancelled : Nat := 0
  retries : Nat := 0
  recovered : Nat := 0
  deriving DecidableEq, Repr, Inhabited

/-- One more work ended with this status. Any that is neither a success nor a cancellation
counts as a failure. -/
def Counts.ended (c : Counts) : Status → Counts
  | .succeeded => { c with succeeded := c.succeeded + 1 }
  | .cancelled => { c with cancelled := c.cancelled + 1 }
  | _ => { c with failed := c.failed + 1 }

structure Manager where
  config : Config := {}
  /-- The number of its logger. -/
  logger : Nat := 0
  session : Int := 0
  queue : Queue := {}
  network : Bool := true
  accepting : Bool := true
  /-- The tickets whose attempts are in progress, by id. -/
  running : Table String Nat := .empty
  /-- The groups of the running tickets. -/
  busy : Names := .empty
  finished : Table String Status := .empty
  counts : Counts := {}
  deriving Inhabited

namespace Manager

/-- The id is neither queued nor running. -/
def free (g : Manager) (id : String) : Bool :=
  !g.running.contains id && !g.queue.index.contains id

def ready? (g : Manager) (ticket : Nat → Ticket) (now : Int) : Option Nat :=
  g.queue.ready? ticket now g.network g.busy

/-- The next time a ticket becomes ready that only waits for its deadline. -/
def nextTime (g : Manager) (ticket : Nat → Ticket) (now : Int) : Option Int :=
  g.queue.nextTime ticket now g.network g.busy

/-- Where the job of an id stands at `now`. -/
def status (g : Manager) (ticket : Nat → Ticket) (now : Int) (id : String) : Status :=
  if g.running.contains id then .running
  else match g.queue.find? id with
    | some t =>
      if (ticket t).early now || (ticket t).offline g.network then .waitingNotReady
      else .waitingReady
    | none => (g.finished.find? id).getD .unknown

def succeeded (g : Manager) (ticket : Nat → Ticket) (now : Int) (id : String) : Bool :=
  g.status ticket now id == .succeeded

/-- An attempt of the ticket begins. -/
def begin (g : Manager) (k : Ticket) (t : Nat) : Manager :=
  { g with
    running := g.running.insert k.id t
    busy := k.group.elim g.busy g.busy.insert }

/-- The attempt of the ticket has ended. -/
def release (g : Manager) (k : Ticket) : Manager :=
  { g with
    running := g.running.erase k.id
    busy := k.group.elim g.busy g.busy.erase }

/-- The work of the id has ended. -/
def finish (g : Manager) (id : String) (status : Status) : Manager :=
  { g with counts := g.counts.ended status, finished := g.finished.insert id status }

/-- What a manager finished under the id is forgotten once it holds the id again. -/
def forget (g : Manager) (id : String) : Manager := { g with finished := g.finished.erase id }

/-- Nothing more is taken in. -/
def stop (g : Manager) : Manager := { g with accepting := false, queue := g.queue.close }

end Manager

end Backlog
