import Backlog.Backoff
import Backlog.Log.Level

/-!
# Settings of a manager
-/

namespace Backlog

/-- The clock that a manager reads. -/
inductive Clock where
  /-- Shows the time that the client sets, and may go back. -/
  | given
  /-- Counts the time that has passed, and only goes on. -/
  | steady
  deriving DecidableEq, Repr

structure Config where
  /-- Bounds the default backoff, in milliseconds. -/
  longestBackoff : Int := 5000
  /-- How a retried job waits that names no delay. -/
  backoff : Backoff := .off
  backoffBase : Int := 0
  /-- The least rank of a log line that is written. -/
  threshold : Int := Level.info.rank
  json : Bool := false
  network : Bool := true
  clock : Clock := .steady

/-- The defaults, changed by what the environment says about level and format. A level name
without a meaning changes nothing. -/
def Config.ofEnvironment (level json : Option String) : Config where
  threshold := (level.bind Level.ofName?).elim Level.info.rank Level.rank
  json := json.any fun v => v == "1" || v == "true" || v == "on"

end Backlog
