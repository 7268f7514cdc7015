import Backlog.Log.Logger
import Backlog.Manager

/-!
# The store

All objects by number, the two counters they share, and the clocks.
-/

namespace Backlog

structure Store where
  jobs : Registry Job := {}
  tickets : Registry Ticket := {}
  loggers : Registry Logger := {}
  queues : Registry Queue := {}
  managers : Registry Manager := {}
  /-- The stamp that the next unstamped ticket gets, whichever queue it enters. -/
  nextStamp : Nat := 1
  lastSession : Int := 0
  /-- What the given clock shows, in nanoseconds. -/
  now : Int := 0
  /-- What the steady clock shows, in nanoseconds. -/
  uptime : Nat := 0
  deriving Inhabited

namespace Store

def job (s : Store) (j : Nat) : Job := s.jobs.get j
def ticket (s : Store) (t : Nat) : Ticket := s.tickets.get t
def logger (s : Store) (l : Nat) : Logger := s.loggers.get l
def queue (s : Store) (q : Nat) : Queue := s.queues.get q
def manager (s : Store) (m : Nat) : Manager := s.managers.get m

/-- What a clock shows. -/
def read (s : Store) : Clock → Int
  | .given => s.now
  | .steady => s.uptime

/-- The present of a manager. -/
def time (s : Store) (m : Nat) : Int := s.read (s.manager m).config.clock

def onJob (s : Store) (j : Nat) (f : Job → Job) : Store :=
  { s with jobs := s.jobs.modify j f }

def onTicket (s : Store) (t : Nat) (f : Ticket → Ticket) : Store :=
  { s with tickets := s.tickets.modify t f }

def onManager (s : Store) (m : Nat) (f : Manager → Manager) : Store :=
  { s with managers := s.managers.modify m f }

@[simp] theorem job_onJob (s : Store) (j i : Nat) (f : Job → Job) :
    (s.onJob j f).job i = if i = j then f (s.job j) else s.job i := Registry.get_modify ..

@[simp] theorem job_onTicket (s : Store) (t i : Nat) (f : Ticket → Ticket) :
    (s.onTicket t f).job i = s.job i := rfl

@[simp] theorem job_onManager (s : Store) (m i : Nat) (f : Manager → Manager) :
    (s.onManager m f).job i = s.job i := rfl

@[simp] theorem ticket_onTicket (s : Store) (t i : Nat) (f : Ticket → Ticket) :
    (s.onTicket t f).ticket i = if i = t then f (s.ticket t) else s.ticket i :=
  Registry.get_modify ..

@[simp] theorem ticket_onJob (s : Store) (j i : Nat) (f : Job → Job) :
    (s.onJob j f).ticket i = s.ticket i := rfl

@[simp] theorem ticket_onManager (s : Store) (m i : Nat) (f : Manager → Manager) :
    (s.onManager m f).ticket i = s.ticket i := rfl

@[simp] theorem manager_onManager (s : Store) (m i : Nat) (f : Manager → Manager) :
    (s.onManager m f).manager i = if i = m then f (s.manager m) else s.manager i :=
  Registry.get_modify ..

@[simp] theorem manager_onJob (s : Store) (j i : Nat) (f : Job → Job) :
    (s.onJob j f).manager i = s.manager i := rfl

@[simp] theorem manager_onTicket (s : Store) (t i : Nat) (f : Ticket → Ticket) :
    (s.onTicket t f).manager i = s.manager i := rfl

/-- The ticket as a new one. Its id, network need and tags are those its job has now, and
the job takes its priority. -/
def wrap (s : Store) (t : Ticket) : Store :=
  let j := s.job t.job
  { s with
    jobs := s.jobs.put t.job { j with priority := t.priority }
    tickets := s.tickets.add { t with id := j.id, needsNetwork := j.needsNetwork, tags := j.tags } }

/-- The ticket of a draft, refused for the first thing it lacks. -/
def build (s : Store) (d : Draft) : Except Fault Store := do
  let some job := d.job | throw .noJob
  let some priority := d.priority | throw .noPriority
  let some session := d.session | throw .noSession
  let some created := d.created | throw .noCreated
  if d.runs < 0 then throw .negativeRuns
  return s.wrap {
    job, priority, session, created, group := d.group, runs := d.runs,
    notBefore := d.notBefore, stamp := d.stamp }

/-- The ticket and its job are cancelled. -/
def cancelTicket (s : Store) (t : Nat) : Store :=
  (s.onTicket t ({ · with cancelled := true })).onJob (s.ticket t).job
    ({ · with cancelled := true })

/-- The job of the ticket writes to this logger from now on. -/
def setContext (s : Store) (t : Nat) (logger : Option Nat) (session : Int) : Store :=
  s.onJob (s.ticket t).job ({ · with logger, session })

/-- A ticket without a stamp gets the next one. -/
def stampTicket (s : Store) (t : Nat) : Store :=
  match (s.ticket t).stamp with
  | some _ => s
  | none =>
    { s.onTicket t ({ · with stamp := some s.nextStamp }) with nextStamp := s.nextStamp + 1 }

/-- The queue with the ticket in it, unless the queue refuses it. -/
def push (s : Store) (q : Queue) (t : Nat) : Option (Store × Queue) :=
  if q.accepts (s.ticket t).id then
    let s := s.stampTicket t
    some (s, q.insert s.ticket t)
  else none

end Store

end Backlog
