import Backlog.World.State

/-!
# Edits

What a client can do to jobs, tickets and queues without any hook being called.
-/

namespace Backlog

/-- A change to a job; what it needs and its tags are what it answers from now on. -/
inductive JobEdit where
  | priority (p : Int)
  | network (needed : Bool)
  | tags (tags : Option Names)
  | cancel

/-- A change to a ticket. -/
inductive TicketEdit where
  | priority (p : Int)
  | runs (n : Int)
  | created (time : Int)
  | notBefore (deadline : Option Int)
  | session (id : Int)
  | stamp (n : Nat)
  | job (j : Option Nat)
  | context (logger : Option Nat) (session : Int)
  | cancel
  | success

/-- An operation of a queue that stands alone. -/
inductive QueueCall where
  | push (t : Option Nat)
  | next (now : Int) (network : Bool) (busy : Names)
  | remove (id : String)
  | delayGroup (group : String) (deadline : Option Int)
  | close

def JobEdit.apply (j : Job) : JobEdit → Job
  | .priority p => { j with priority := p }
  | .network needed => { j with needsNetwork := needed }
  | .tags ts => { j with tags := ts }
  | .cancel => { j with cancelled := true }

namespace Store

/-- A ticket whose priority changes hands it on to its job. -/
def setPriority (s : Store) (t : Nat) (p : Int) : Store :=
  (s.onTicket t ({ · with priority := p })).onJob (s.ticket t).job ({ · with priority := p })

/-- The ticket wraps another job, which takes its priority. Only the id changes with it. -/
def setJob (s : Store) (t j : Nat) : Store :=
  (s.onTicket t ({ · with job := j, id := (s.job j).id })).onJob j
    ({ · with priority := (s.ticket t).priority })

def editTicket (s : Store) (t : Nat) : TicketEdit → Except Fault Store
  | .priority p => .ok (s.setPriority t p)
  | .runs n => .ok (s.onTicket t ({ · with runs := n }))
  | .created c => .ok (s.onTicket t ({ · with created := c }))
  | .notBefore d => .ok (s.onTicket t ({ · with notBefore := d }))
  | .session id => .ok (s.onTicket t ({ · with session := id }))
  | .stamp n =>
    match (s.ticket t).stamp with
    | some _ => .error (.stamped (s.ticket t).id)
    | none => .ok (s.onTicket t ({ · with stamp := some n }))
  | .job none => .error .noJob
  | .job (some j) => .ok (s.setJob t j)
  | .context logger session => .ok (s.setContext t logger session)
  | .cancel => .ok (s.cancelTicket t)
  | .success => .ok (s.onTicket t ({ · with successful := true }))

def setQueue (s : Store) (n : Nat) (q : Queue) : Store := { s with queues := s.queues.put n q }

theorem queue_setQueue (s : Store) (n i : Nat) (q : Queue) :
    (s.setQueue n q).queue i = if i = n then q else s.queue i := Registry.get_put ..

theorem queue_setQueue_same (s : Store) (n : Nat) (q : Queue) : (s.setQueue n q).queue n = q :=
  Registry.get_put_same ..

theorem size_setQueue {s : Store} {n : Nat} (h : n < s.queues.size) (q : Queue) :
    (s.setQueue n q).queues.size = s.queues.size := by
  rw [setQueue, Registry.size_put]
  omega

def callQueue (s : Store) (n : Nat) : QueueCall → Store × Value
  | .push none => (s, .flag false)
  | .push (some t) =>
    match s.push (s.queue n) t with
    | none => (s, .flag false)
    | some (s, q) => (s.setQueue n q, .flag true)
  | .next now network busy =>
    match (s.queue n).ready? s.ticket now network busy with
    | none => (s, .ref none)
    | some t => (s.setQueue n ((s.queue n).take s.ticket t), .ref (some t))
  | .remove id =>
    match (s.queue n).remove s.ticket id with
    | none => (s, .ref none)
    | some (t, q) => (s.setQueue n q, .ref (some t))
  | .delayGroup group d => ({ s with tickets := (s.queue n).delayGroup s.tickets group d }, .unit)
  | .close => (s.setQueue n (s.queue n).close, .unit)

end Store

end Backlog
