import Backlog.Width

/-!
# Backoff

How long a failed job waits before its next attempt when it names no delay of its own.
The wait is fixed, or doubles with every attempt, at most twenty times.
-/

namespace Backlog

/-- The ways to wait. A code without a meaning is kept, and waits not at all. -/
inductive Backoff where
  | off
  | fixed
  | doubling
  | other (code : Int)
  deriving DecidableEq, Repr

namespace Backoff

def ofCode : Int → Backoff
  | 0 => .off
  | 1 => .fixed
  | 2 => .doubling
  | n => .other n

def code : Backoff → Int
  | .off => 0
  | .fixed => 1
  | .doubling => 2
  | .other n => n

/-- The longest delay in milliseconds. -/
def longest : Int := Width.wide.greatest

/-- A delay doubles at most this often. -/
def mostDoublings : Int := 20

variable {m : Type → Type} [Monad m]

/-- The base, doubled after every attempt but the first, or `longest` if that is less. -/
def doubledBy (keep : Keep m) (runs base : Int) : m Int := do
  let doublings := min (max 0 (← keep .narrow (runs - 1))) mostDoublings
  let factor ← keep .wide (Int.pow 2 doublings.toNat)
  if longest / factor < base then return longest
  keep .wide (base * factor)

/-- The wait in milliseconds after the attempt numbered `runs`. A positive `cap` bounds it. -/
def delayBy (keep : Keep m) (kind : Backoff) (runs base cap : Int) : m Int := do
  if runs ≤ 0 ∨ base ≤ 0 then return 0
  let delay ← match kind with
    | .fixed => pure base
    | .doubling => doubledBy keep runs base
    | .off | .other _ => pure 0
  return if 0 < cap ∧ cap < delay then cap else delay

@[simp] theorem code_ofCode (n : Int) : (ofCode n).code = n := by
  unfold ofCode; split <;> simp [code]

def delay (kind : Backoff) (runs base cap : Int) : Int := (delayBy exactly kind runs base cap).run

@[simp] theorem delay_off (runs base cap : Int) : delay .off runs base cap = 0 := by
  simp only [delay, delayBy]
  split
  · rfl
  · simp only [pure_bind, Id.run_pure]; omega

end Backoff

end Backlog
