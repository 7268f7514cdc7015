/-!
# Faults

Why an operation was refused, or what a hook of a job threw.
-/

namespace Backlog

/-- What a hook can throw: an error with a text, or a value that carries none. -/
inductive Thrown where
  | runtime (text : String)
  | logic (text : String)
  | argument (text : String)
  | silent
  deriving DecidableEq, Repr

/-- The text of what was thrown, if it has one. -/
def Thrown.text? : Thrown → Option String
  | .runtime s | .logic s | .argument s => some s
  | .silent => none

/-- The families of faults. -/
inductive FaultKind where
  | argument
  | logic
  | runtime
  | other
  deriving DecidableEq, Repr

inductive Fault where
  | emptyId
  | retryLimit
  | noBody
  | noJob
  | noPriority
  | noSession
  | noCreated
  | negativeRuns
  /-- The ticket of this id already has its place in the order of arrival. -/
  | stamped (id : String)
  /-- The order of these two depends on their arrival, which one of them lacks. -/
  | unstamped (a b : String)
  /-- A hook threw, and the operation passes it on. -/
  | thrown (t : Thrown)
  deriving DecidableEq, Repr

namespace Fault

def kind : Fault → FaultKind
  | .stamped _ | .unstamped _ _ => .logic
  | .thrown (.runtime _) => .runtime
  | .thrown (.logic _) => .logic
  | .thrown (.argument _) => .argument
  | .thrown .silent => .other
  | _ => .argument

def message : Fault → String
  | .emptyId => "job id must not be empty"
  | .retryLimit => "retry limit must be at least 1"
  | .noBody => "function job needs a body"
  | .noJob => "must provide a job"
  | .noPriority => "must provide a priority"
  | .noSession => "must provide a session id"
  | .noCreated => "must provide a created timestamp"
  | .negativeRuns => "run count must not be negative"
  | .stamped id => "insertion order already assigned for job " ++ id
  | .unstamped a b =>
    "cannot order jobs " ++ a ++ " and " ++ b ++ " without an insertion order"
  | .thrown t => t.text?.getD ""

end Fault

end Backlog
