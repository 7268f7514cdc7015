import Backlog.Custody

/-!
# Worlds

A world is a store together with the operations that are under way. An operation that calls
a hook of a job stops there: it is put aside as a frame, and goes on when somebody replies
for the hook. Until then anything may happen, and other operations may be put aside in turn.
All that can be seen from outside is kept as a history, the newest first.
-/

namespace Backlog

/-- What an operation returns. -/
inductive Value where
  | unit
  | flag (b : Bool)
  | count (n : Nat)
  /-- The number of an object, or that there is none. -/
  | ref (n : Option Nat)
  | outcome (o : Option Outcome)
  deriving DecidableEq, Repr

/-- The calls to job `j` on account of ticket `t`, in attempt `n` where there is one. -/
inductive Hook where
  | added (j t : Nat)
  /-- The work of the ticket ended without success. -/
  | ended (j t : Nat)
  /-- The job decides the outcome of the attempt. -/
  | attempt (j t : Nat) (n : Int)
  | body (j t : Nat) (n : Int)
  /-- The attempt failed for this reason; there may be as many as `limit`. -/
  | plan (j t : Nat) (n : Int) (reason : String) (limit : Int)
  deriving DecidableEq, Repr

inductive Event where
  | logged (l : Nat) (e : Entry)
  /-- An attempt of the ticket begins for operation `a`. -/
  | entered (a j t : Nat) (n : Int)
  | asked (a : Nat) (h : Hook)
  | returned (a : Nat) (v : Value)
  | raised (a : Nat) (f : Fault)
  deriving DecidableEq, Repr

/-- Who waits for the outcome of an attempt. -/
inductive Caller where
  | client
  /-- Manager `m` runs ticket `t` since `since`. It runs on until it is idle if it keeps a
  tally of the attempts so far. -/
  | manager (m t : Nat) (n : Int) (since : Nat) (tally : Option Nat)
  deriving DecidableEq, Repr

/-- What an operation does once the last hook is done. -/
inductive Next where
  | give (v : Value)
  | proceed (m : Nat) (o : Outcome) (tally : Option Nat)
  deriving DecidableEq, Repr

/-- An operation put aside, by the hook it waits for. -/
inductive Frame where
  | told (next : Next)
  | attempt (k : Caller)
  | body (j t : Nat) (n : Int) (k : Caller)
  | plan (j t : Nat) (n : Int) (reason : String) (k : Caller)
  deriving DecidableEq, Repr

structure World extends Store where
  pending : Table Nat Frame := .empty
  /-- How many operations were begun. -/
  calls : Nat := 0
  history : List Event := []
  deriving Inhabited

namespace World

def emit (w : World) (e : Event) : World := { w with history := e :: w.history }

def give (w : World) (a : Nat) (v : Value) : World := w.emit (.returned a v)

def raise (w : World) (a : Nat) (f : Fault) : World := w.emit (.raised a f)

/-- Operation `a` waits for a hook. -/
def ask (w : World) (a : Nat) (f : Frame) (h : Hook) : World :=
  { w with pending := w.pending.insert a f }.emit (.asked a h)

@[simp] theorem toStore_emit (w : World) (e : Event) : (w.emit e).toStore = w.toStore := rfl
@[simp] theorem toStore_give (w : World) (a : Nat) (v : Value) :
    (w.give a v).toStore = w.toStore := rfl
@[simp] theorem toStore_raise (w : World) (a : Nat) (f : Fault) :
    (w.raise a f).toStore = w.toStore := rfl
@[simp] theorem toStore_ask (w : World) (a : Nat) (f : Frame) (h : Hook) :
    (w.ask a f h).toStore = w.toStore := rfl

def log (w : World) (l : Nat) (line : Line) : World :=
  match (w.logger l).log line with
  | (_, none) => w
  | (g, some e) => { w with loggers := w.loggers.put l g }.emit (.logged l e)

/-- A line of a manager about the job of an id. -/
def note (w : World) (m : Nat) (level : Level) (id message : String)
    (fields : List (String × String)) : World :=
  w.log (w.manager m).logger { level, job := some id, message, fields }

/-- A line of a manager about itself. -/
def announce (w : World) (m : Nat) (message : String) (fields : List (String × String)) : World :=
  w.log (w.manager m).logger { level := .info, message, fields }

end World

end Backlog
