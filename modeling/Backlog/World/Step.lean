import Backlog.World.Call

/-!
# Steps

A world moves when a client begins an operation, somebody replies for a hook, or time
changes. `step` is total: a call that names no object, and a reply that nobody waits for,
change nothing.

Moves come one after the other, and nothing happens in the middle of one. An operation goes on
until it waits for a hook or is done, so that between the last look at whether a ticket is
cancelled and the settling of its attempt nobody can cancel it. Both clocks stand still
meanwhile: a manager that settles an attempt and goes on to the next one reads one time for
both. Time passes between moves, also while hooks are waited for.
-/

namespace Backlog

/-- What somebody replies for a hook. -/
inductive Reply where
  | done
  | outcome (o : Outcome)
  | succeeded
  | failed (reason : String)
  | plan (p : RetryPlan)
  | threw (x : Thrown)
  deriving DecidableEq, Repr

inductive Move where
  | call (c : Call)
  | reply (a : Nat) (r : Reply)
  /-- The given clock is set. -/
  | clock (now : Int)
  /-- Time passes on the steady clock. -/
  | elapse (nanos : Nat)

/-- A reply answers the hook that the operation waits for. A job that decides the outcome of
an attempt cannot throw. -/
def Frame.takes : Frame → Reply → Bool
  | .told _, .done | .told _, .threw _ => true
  | .attempt _, .outcome _ => true
  | .body .., .succeeded | .body .., .failed _ | .body .., .threw _ => true
  | .plan .., .plan _ | .plan .., .threw _ => true
  | _, _ => false

/-- The objects a call names exist. -/
def Call.inScope (s : Store) : Call → Bool
  | .makeJob _ | .makeQueue | .makeManager _ | .makeLogger => true
  | .editJob j _ => j < s.jobs.size
  | .build d => d.job.all (· < s.jobs.size)
  | .editTicket t e => t < s.tickets.size && match e with
    | .job j => j.all (· < s.jobs.size)
    | .context l _ => l.all (· < s.loggers.size)
    | _ => true
  | .tell t | .run t _ | .attempt t _ => t < s.tickets.size
  | .queue q c => q < s.queues.size && match c with
    | .push t => t.all (· < s.tickets.size)
    | _ => true
  | .manager m c => m < s.managers.size && match c with
    | .add j => j.all (· < s.jobs.size)
    | .recover ts => ts.all (·.all (· < s.tickets.size))
    | _ => true
  | .logger l _ => l < s.loggers.size

namespace World

/-- The operation goes on with a reply. -/
def resume (w : World) (a : Nat) : Frame → Reply → World
  | .told next, .done => w.resumeNext a next
  | .told _, .threw x => w.raise a (.thrown x)
  | .attempt k, .outcome o => w.conclude a k o
  | .body _ _ _ k, .succeeded => w.conclude a k .success
  | .body j t n k, .failed reason => w.failed a j t n reason k
  | .body j t n k, .threw x => w.failed a j t n (thrownReason x) k
  | .plan j t n reason k, .plan p => w.planned a j t n reason k p
  | .plan j t n reason k, .threw x => w.planned a j t n (unplannedReason reason x) k .never
  | _, _ => w

def step (w : World) : Move → World
  | .call c =>
    if c.inScope w.toStore then { w with calls := w.calls + 1 }.perform w.calls c else w
  | .reply a r =>
    match w.pending.find? a with
    | none => w
    | some f => if f.takes r then { w with pending := w.pending.erase a }.resume a f r else w
  | .clock now => { w with now }
  | .elapse nanos => { w with uptime := w.uptime + nanos }

def run (w : World) (moves : List Move) : World := moves.foldl step w

/-- A world where nothing has happened yet. -/
def start (now : Int) : World := { now }

/-- The worlds that some moves lead to. -/
def Reachable (w : World) : Prop := ∃ now moves, w = (start now).run moves

@[simp] theorem run_nil (w : World) : w.run [] = w := rfl
@[simp] theorem run_cons (w : World) (m : Move) (ms : List Move) :
    w.run (m :: ms) = (w.step m).run ms := rfl

theorem run_append (w : World) (ms ns : List Move) : w.run (ms ++ ns) = (w.run ms).run ns :=
  List.foldl_append

/-- What holds at the start and is kept by every step holds wherever moves lead. -/
theorem Reachable.induction {P : World → Prop} (start : ∀ now, P (start now))
    (step : ∀ w m, P w → P (w.step m)) {w : World} (h : Reachable w) : P w := by
  obtain ⟨now, moves, rfl⟩ := h
  suffices ∀ w, P w → P (w.run moves) from this _ (start now)
  induction moves with
  | nil => exact fun _ h => h
  | cons m ms ih => exact fun w h => ih _ (step w m h)

end World

end Backlog
