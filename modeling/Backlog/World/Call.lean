import Backlog.World.Edit
import Backlog.World.Manage

/-!
# Calls

The operations that a client can begin.
-/

namespace Backlog

/-- An operation of a logger. -/
inductive LoggerCall where
  | threshold (rank : Int)
  | json (on : Bool)
  | line (line : Line)

/-- An operation on the object of a number, or one that makes an object. -/
inductive Call where
  | makeJob (p : Params)
  | editJob (j : Nat) (e : JobEdit)
  | build (d : Draft)
  | editTicket (t : Nat) (e : TicketEdit)
  /-- The job is told that the work of the ticket ended without success. -/
  | tell (t : Nat)
  /-- An attempt of the ticket, decided by the job if it is custom. -/
  | run (t : Nat) (n : Int)
  /-- The standard attempt of the ticket, whatever its job. -/
  | attempt (t : Nat) (n : Int)
  | makeQueue
  | queue (q : Nat) (c : QueueCall)
  | makeManager (c : Config)
  | manager (m : Nat) (c : ManagerCall)
  | makeLogger
  | logger (l : Nat) (c : LoggerCall)

namespace World

def callLogger (w : World) (a l : Nat) : LoggerCall → World
  | .threshold rank =>
    { w with loggers := w.loggers.modify l ({ · with threshold := rank }) }.give a .unit
  | .json on => { w with loggers := w.loggers.modify l ({ · with json := on }) }.give a .unit
  | .line line => (w.log l line).give a .unit

/-- The store after an operation that may be refused. -/
def commit (w : World) (a : Nat) (v : Value) : Except Fault Store → World
  | .ok s => { w with toStore := s }.give a v
  | .error f => w.raise a f

/-- Operation `a` begins. It ends at once or waits for a hook. -/
def perform (w : World) (a : Nat) : Call → World
  | .makeJob p =>
    w.commit a (.ref (some w.jobs.size))
      ((Job.make p).map fun j => { w.toStore with jobs := w.jobs.add j })
  | .editJob j e => { w with toStore := w.onJob j e.apply }.give a .unit
  | .build d => w.commit a (.ref (some w.tickets.size)) (w.toStore.build d)
  | .editTicket t e => w.commit a .unit (w.toStore.editTicket t e)
  | .tell t => w.tell a t (.give .unit)
  | .run t n => w.enter a t n .client
  | .attempt t n => w.standard a (w.ticket t).job t n .client
  | .makeQueue => { w with queues := w.queues.add {} }.give a (.ref (some w.queues.size))
  | .queue q c =>
    let (s, v) := w.callQueue q c
    { w with toStore := s }.give a v
  | .makeManager c => w.makeManager a c
  | .manager m c => w.callManager a m c
  | .makeLogger => { w with loggers := w.loggers.add {} }.give a (.ref (some w.loggers.size))
  | .logger l c => w.callLogger a l c

end World

end Backlog
