/-!
# Outcomes

How one attempt of a job ended. Outcomes have stable codes; a job that decides its outcome
itself may return a code without a meaning.
-/

namespace Backlog

inductive Outcome where
  /-- The body succeeded. -/
  | success
  /-- The attempt failed and its number has reached the limit. -/
  | runLimit
  /-- The attempt failed and its ticket is cancelled. -/
  | cancelled
  /-- The attempt failed and the job wants another. -/
  | again
  /-- The attempt failed and the job wants no other. -/
  | declined
  | other (code : Int)
  deriving DecidableEq, Repr, Inhabited

namespace Outcome

def ofCode : Int → Outcome
  | 1 => .success
  | 2 => .runLimit
  | 3 => .cancelled
  | 4 => .again
  | 5 => .declined
  | n => .other n

def code : Outcome → Int
  | .success => 1
  | .runLimit => 2
  | .cancelled => 3
  | .again => 4
  | .declined => 5
  | .other n => n

def name : Outcome → String
  | .success => "Success"
  | .runLimit => "FailRunLimit"
  | .cancelled => "FailForCancel"
  | .again => "TryAgain"
  | .declined => "FailShouldReRun"
  | .other _ => "Unknown"

@[simp] theorem code_ofCode (n : Int) : (ofCode n).code = n := by
  unfold ofCode; split <;> simp [code]

/-- The outcomes after which no attempt follows, whatever the job plans. -/
def isFinal : Outcome → Bool
  | .success | .runLimit | .cancelled => true
  | .again | .declined | .other _ => false

end Outcome

end Backlog
