import Backlog.Width

/-!
# Deadlines

A delay is given in milliseconds and a deadline in nanoseconds. A delay that is not
positive sets no deadline; any other adds to the present, and stops at `latest` instead of
leaving the range of a wide word.
-/

namespace Backlog

/-- The latest deadline a delay can set, one below the greatest wide number. -/
def latest : Int := Width.wide.greatest - 1

def nanosPerMilli : Int := 1000000

variable {m : Type → Type} [Monad m]

/-- Milliseconds as nanoseconds, held between `-latest` and `latest`. -/
def nanosBy (keep : Keep m) (ms : Int) : m Int :=
  if latest / nanosPerMilli < ms then pure latest
  else if ms < -(latest / nanosPerMilli) then pure (-latest)
  else keep .wide (ms * nanosPerMilli)

/-- The deadline of a delay that starts at `now`. -/
def deadlineBy (keep : Keep m) (now delay : Int) : m (Option Int) := do
  if delay ≤ 0 then return none
  let ns ← nanosBy keep delay
  let room ← keep .wide (latest - ns)
  if room < now then return some latest
  return some (← keep .wide (now + ns))

def nanos (ms : Int) : Int := (nanosBy exactly ms).run

def deadline (now delay : Int) : Option Int := (deadlineBy exactly now delay).run

/-- The later of two deadlines; having none counts as the earliest. -/
def later : Option Int → Option Int → Option Int
  | none, b => b
  | a, none => a
  | some a, some b => some (max a b)

@[simp] theorem later_none_left (b : Option Int) : later none b = b := by cases b <;> rfl
@[simp] theorem later_none_right (a : Option Int) : later a none = a := by cases a <;> rfl
@[simp] theorem later_some (a b : Int) : later (some a) (some b) = some (max a b) := rfl

theorem deadline_of_nonpos {delay : Int} (now : Int) (h : delay ≤ 0) :
    deadline now delay = none := by
  simp [deadline, deadlineBy, h]

end Backlog
