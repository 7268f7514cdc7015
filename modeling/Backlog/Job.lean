import Backlog.Fault
import Backlog.Names
import Backlog.RetryPlan

/-!
# Jobs

A job is a unit of work. What its hooks do is not part of it: whoever drives a world answers
for them. Its id, group, delay and limit never change. Its answers about network and tags
may change at any time, and the tickets that wrap it keep what it answered when they were made.
-/

namespace Backlog

/-- What a job is made from. -/
structure Params where
  id : String := ""
  priority : Int := 0
  group : Option String := none
  needsNetwork : Bool := false
  tags : Option Names := none
  /-- Milliseconds before the first attempt. -/
  delay : Int := 0
  retryLimit : Int := 20
  /-- Whether there is something to run. -/
  hasBody : Bool := true
  /-- Whether the job is asked for a plan after a failure. One that is not runs again. -/
  asksPlan : Bool := false
  /-- Whether the job decides the outcome of an attempt itself. -/
  custom : Bool := false

structure Job where
  id : String := ""
  group : Option String := none
  delay : Int := 0
  retryLimit : Int := 20
  asksPlan : Bool := false
  custom : Bool := false
  priority : Int := 0
  needsNetwork : Bool := false
  tags : Option Names := none
  cancelled : Bool := false
  /-- What the job answered after its last failed attempt, if it was asked. -/
  plan : Option RetryPlan := none
  /-- The number of the logger the job writes to. -/
  logger : Option Nat := none
  session : Int := 0
  deriving Inhabited

/-- Refused for the first of the faults that applies. -/
def Job.make (p : Params) : Except Fault Job :=
  if p.id.isEmpty then .error .emptyId
  else if p.retryLimit < 1 then .error .retryLimit
  else if !p.hasBody then .error .noBody
  else .ok {
    id := p.id, group := p.group, delay := p.delay, retryLimit := p.retryLimit,
    asksPlan := p.asksPlan, custom := p.custom, priority := p.priority,
    needsNetwork := p.needsNetwork, tags := p.tags }

end Backlog
