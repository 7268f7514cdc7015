import Backlog.Deadline
import Backlog.Job

/-!
# Tickets

A ticket wraps a job with what decides when it runs: priority, age, and a stamp that tells
the order of arrival. Run order is higher priority first, then older, then lower stamp. The
stamp is asked for only if the rest is equal, and lacking it then is a fault.
-/

namespace Backlog

structure Ticket where
  /-- The number of the job. -/
  job : Nat := 0
  /-- The id the job had when it was wrapped. -/
  id : String := ""
  priority : Int := 0
  group : Option String := none
  /-- The number of attempts begun. -/
  runs : Int := 0
  created : Int := 0
  /-- The deadline before which no attempt begins. -/
  notBefore : Option Int := none
  /-- The session that last took the ticket. -/
  session : Int := 0
  stamp : Option Nat := none
  needsNetwork : Bool := false
  tags : Option Names := none
  cancelled : Bool := false
  successful : Bool := false
  /-- Whether the job was told that its work ended without success. -/
  notified : Bool := false
  deriving Inhabited

/-- A ticket in the making. -/
structure Draft where
  job : Option Nat := none
  priority : Option Int := none
  group : Option String := none
  runs : Int := 0
  created : Option Int := none
  notBefore : Option Int := none
  stamp : Option Nat := none
  session : Option Int := none

namespace Ticket

/-- The deadline has not come at `now`. -/
def early (t : Ticket) (now : Int) : Bool :=
  match t.notBefore with
  | none => false
  | some d => now < d

/-- The ticket waits for the network. -/
def offline (t : Ticket) (network : Bool) : Bool := t.needsNetwork && !network

/-- Another member of the group runs. -/
def blocked (t : Ticket) (busy : Names) : Bool :=
  match t.group with
  | none => false
  | some g => busy.contains g

/-- An attempt may begin. -/
def runnable (t : Ticket) (now : Int) (network : Bool) (busy : Names) : Bool :=
  !t.early now && !t.offline network && !t.blocked busy

def hasTags (t : Ticket) : Bool := t.tags.any fun s => !s.isEmpty

/-- Run order. -/
def order (a b : Ticket) : Except Fault Ordering :=
  if a.priority ≠ b.priority then .ok (compare b.priority a.priority)
  else if a.created ≠ b.created then .ok (compare a.created b.created)
  else match a.stamp, b.stamp with
    | some i, some k => .ok (compare i k)
    | _, _ => .error (.unstamped a.id b.id)

def before (a b : Ticket) : Except Fault Bool := (a.order b).map (· == .lt)

/-- Run order with ties broken by id, as a queue keeps it. -/
def queueOrder (a b : Ticket) : Ordering :=
  match a.order b with
  | .ok .lt => .lt
  | .ok .gt => .gt
  | _ => compare a.id b.id

/-- Two tickets stand for the same work if their ids agree. -/
def same (a b : Ticket) : Bool := a.id == b.id

/-- For each ticket, whether it is the first of those that stand for the same work. -/
def firsts : List Ticket → List Bool
  | ts => go [] ts
where
  go (seen : List Ticket) : List Ticket → List Bool
    | [] => []
    | t :: ts => (!seen.any t.same) :: go (t :: seen) ts

end Ticket

end Backlog
