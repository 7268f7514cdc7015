/-!
# Statuses

Where the job of an id stands in a manager.
-/

namespace Backlog

inductive Status where
  | unknown
  | waitingNotReady
  | waitingReady
  | running
  | succeeded
  | failed
  | cancelled
  deriving DecidableEq, Repr, Inhabited

namespace Status

/-- A code without a meaning reads as `unknown`. -/
def ofCode : Int → Status
  | 1 => .waitingNotReady
  | 2 => .waitingReady
  | 3 => .running
  | 4 => .succeeded
  | 5 => .failed
  | 6 => .cancelled
  | _ => .unknown

def name : Status → String
  | .unknown => "Unknown"
  | .waitingNotReady => "WaitingNotReady"
  | .waitingReady => "WaitingReady"
  | .running => "Running"
  | .succeeded => "Succeeded"
  | .failed => "Failed"
  | .cancelled => "Cancelled"

end Status

end Backlog
