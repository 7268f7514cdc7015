import Backlog.Backoff

/-!
# Retry plans

What a job answers when one of its attempts has failed: whether to run it again, and if so
after which delay, with which priority, and whether its whole group waits with it.
-/

namespace Backlog

structure RetryPlan where
  retry : Bool
  delay : Option Int := none
  priority : Option Int := none
  wholeGroup : Bool := false
  deriving DecidableEq, Repr

namespace RetryPlan

/-- Run it again. -/
def again : RetryPlan := ⟨true, none, none, false⟩

/-- Let it end. -/
def never : RetryPlan := ⟨false, none, none, false⟩

/-- Run it again after `first`, doubled after every attempt but the first. The job asks for
this delay itself, so no cap applies. -/
def doubling (runs first : Int) : RetryPlan :=
  { again with delay := some (Backoff.delay .doubling runs first 0) }

end RetryPlan

end Backlog
