import Backlog.Proofs.Foundation
import Backlog.World.Step
import Mathlib.Logic.Relation

/-!
# What a move does

A step is the effect of the move and a sequel. The effect is what the move itself does to
objects and operations. The sequel is what the operation then runs into before it ends or
waits: lines are written, a job is told, or a manager begins the next attempt.
-/

namespace Backlog

/-- The manager and the ticket of an attempt that a manager runs. -/
def Caller.work : Caller → Option (Nat × Nat)
  | .client => none
  | .manager m t .. => some (m, t)

theorem Caller.eq_of_work {k : Caller} {m t : Nat} (h : k.work = some (m, t)) :
    ∃ n since tally, k = .manager m t n since tally := by
  cases k with
  | client => cases h
  | manager i u n since tally =>
    obtain ⟨rfl, rfl⟩ := Prod.mk.inj (Option.some.inj h)
    exact ⟨n, since, tally, rfl⟩

/-- The manager and the ticket of the attempt that waits in the frame. -/
def Frame.work : Frame → Option (Nat × Nat)
  | .told _ => none
  | .attempt k | .body _ _ _ k | .plan _ _ _ _ k => k.work

/-- A waiting attempt says twice which ticket it is for and which attempt it is. -/
def Frame.Coherent : Frame → Prop
  | .body _ t n (.manager _ u i ..) | .plan _ t n _ (.manager _ u i ..) => t = u ∧ n = i
  | _ => True

/-- A line that was written, or the end of operation `a`. -/
def Event.isNote (a : Nat) : Event → Bool
  | .logged .. => true
  | .returned b _ | .raised b _ => b == a
  | .entered .. | .asked .. => false

namespace Store

/-- The store after an operation that may be refused. -/
def after (s : Store) : Except Fault Store → Store
  | .ok s' => s'
  | .error _ => s

/-- What an operation of a manager does to the store at once. -/
def manage (s : Store) (m : Nat) : ManagerCall → Store
  | .add j => (j.bind (s.enlist m)).getD s
  | .runNext | .runUntilIdle => s
  | .cancel id => ((s.withdraw m id).map Prod.fst).getD s
  | .recover ts => ts.foldl (fun s t => t.elim s fun t => (s.reclaim m t).1) s
  | .network up => s.onManager m ({ · with network := up })
  | .stop => if (s.manager m).accepting then s.onManager m (·.stop) else s

/-- What a call does to the store at once. -/
def call (s : Store) : Call → Store
  | .makeJob p => s.after ((Job.make p).map fun j => { s with jobs := s.jobs.add j })
  | .editJob j e => s.onJob j e.apply
  | .build d => s.after (s.build d)
  | .editTicket t e => s.after (s.editTicket t e)
  | .makeQueue => { s with queues := s.queues.add {} }
  | .queue q c => (s.callQueue q c).1
  | .makeManager c => s.establish c
  | .manager m c => s.manage m c
  | .makeLogger => { s with loggers := s.loggers.add {} }
  | .tell _ | .run .. | .attempt .. | .logger .. => s

/-- The attempt has an outcome, and a manager that ran it settles. -/
def close (s : Store) (k : Caller) (o : Outcome) : Store :=
  match k with
  | .client => s
  | .manager m t .. => (s.settle m t o).1

end Store

namespace World

/-- What the job has planned for its last failed attempt. -/
def intend (w : World) (j : Nat) (p : Option RetryPlan) : World :=
  { w with toStore := w.onJob j ({ · with plan := p }) }

def close (w : World) (k : Caller) (o : Outcome) : World :=
  { w with toStore := w.toStore.close k o }

/-- The attempt has failed for good. -/
def closeFailed (w : World) (j t : Nat) (n : Int) (k : Caller) : World :=
  w.close k (w.failureOutcome j t n)

/-- The body of the attempt has failed. A job that is to be asked for a plan is asked. -/
def falter (w : World) (a j t : Nat) (n : Int) (reason : String) (k : Caller) : World :=
  if n < (w.job j).retryLimit ∧ ¬(w.ticket t).cancelled then
    if (w.job j).asksPlan then
      (w.intend j none).ask a (.plan j t n reason k) (.plan j t n reason (w.job j).retryLimit)
    else ((w.intend j none).intend j (some .again)).closeFailed j t n k
  else (w.intend j none).closeFailed j t n k

/-- What a reply does before the operation, which no longer waits, goes on. -/
def hear (w : World) (a : Nat) : Frame → Reply → World
  | .attempt k, .outcome o => w.close k o
  | .body _ _ _ k, .succeeded => w.close k .success
  | .body j t n k, .failed reason => w.falter a j t n reason k
  | .body j t n k, .threw x => w.falter a j t n (thrownReason x) k
  | .plan j t n _ k, .plan p => (w.intend j (some p)).closeFailed j t n k
  | .plan j t n _ k, .threw _ => (w.intend j (some .never)).closeFailed j t n k
  | _, _ => w

/-- What a call does at once. An attempt that a client runs begins. -/
def begin (w : World) (a : Nat) : Call → World
  | .run t n => w.enter a t n .client
  | .attempt t n => w.standard a (w.ticket t).job t n .client
  | c => { w with toStore := w.toStore.call c }

/-- What a move does at once. -/
def effect (w : World) : Move → World
  | .call c => if c.inScope w.toStore then { w with calls := w.calls + 1 }.begin w.calls c else w
  | .reply a r =>
    match w.pending.find? a with
    | none => w
    | some f => if f.takes r then { w with pending := w.pending.erase a }.hear a f r else w
  | .clock now => { w with now }
  | .elapse nanos => { w with uptime := w.uptime + nanos }

/-- The manager begins an attempt of the ticket that it has claimed in `s`. -/
def depart (w : World) (a m : Nat) (s : Store) (t : Nat) (tally : Option Nat) : World :=
  { w with toStore := s }.enter a t (s.ticket t).runs
    (.manager m t (s.ticket t).runs s.uptime tally)

/-- Operation `a` waits in an attempt of ticket `t` that manager `m` runs. -/
def Works (w : World) (a m t : Nat) : Prop := (w.pending.find? a).bind Frame.work = some (m, t)

/-- Tickets are in order, and every operation that waits was begun and concerns a ticket that
exists. -/
structure Founded (w : World) : Prop where
  store : w.toStore.Founded
  numbered : ∀ a f, w.pending.find? a = some f → a < w.calls
  coherent : ∀ a f, w.pending.find? a = some f → f.Coherent
  works : ∀ a m t, w.Works a m t → t < w.tickets.size

/-- Operation `a` was begun and does not wait. -/
def Active (w : World) (a : Nat) : Prop := a < w.calls ∧ w.pending.find? a = none

/-- The operation that a move begins or lets go on. -/
def acting (w : World) : Move → Nat
  | .reply a _ => a
  | _ => w.calls

/-- What can follow within a step of operation `a`. -/
inductive Sequel (a : Nat) : World → World → Prop
  | wrote (w : World) (ls : Registry Logger) (es : List Event) (h : ∀ e ∈ es, e.isNote a) :
    Sequel a w { w with loggers := ls, history := es ++ w.history }
  | told (w : World) (j t : Nat) (next : Next) (ha : w.Active a) (ht : t < w.tickets.size)
    (hn : (w.ticket t).notified = false) :
    Sequel a w ({ w with toStore := w.onTicket t ({ · with notified := true }) }.ask a
      (.told next) (.ended j t))
  | welcomed (w : World) (j t : Nat) (ha : w.Active a) :
    Sequel a w (w.ask a (.told (.give (.flag true))) (.added j t))
  | departed (w : World) (m t : Nat) (s : Store) (tally : Option Nat) (ha : w.Active a)
    (hc : w.claim m = some (s, t)) :
    Sequel a w (w.depart a m s t tally)

abbrev Sequels (a : Nat) : World → World → Prop := Relation.ReflTransGen (Sequel a)

/-- Operation `a` wrote lines or ended, which does not matter to anything else. -/
def Wrote (a : Nat) (w w' : World) : Prop :=
  ∃ ls es, (∀ e ∈ es, e.isNote a) ∧ w' = { w with loggers := ls, history := es ++ w.history }

/-- Only lines were written. -/
def Logged (w w' : World) : Prop :=
  ∃ ls es, (∀ e ∈ es, ∃ l x, e = .logged l x) ∧
    w' = { w with loggers := ls, history := es ++ w.history }

variable {w w' w'' : World} {a m t : Nat}

/-- What comes of a body that failed, at once and when the operation has gone on: the job is asked
for a plan, needs none or has no attempts left to plan for. -/
theorem falter_cases {P : World → World → Prop} {j : Nat} {n : Int} {reason : String} {k : Caller}
    (asked : n < (w.job j).retryLimit → (w.ticket t).cancelled = false →
      P ((w.intend j none).ask a (.plan j t n reason k) (.plan j t n reason (w.job j).retryLimit))
        ((w.intend j none).ask a (.plan j t n reason k) (.plan j t n reason (w.job j).retryLimit)))
    (unasked : n < (w.job j).retryLimit → (w.ticket t).cancelled = false →
      (w.job j).asksPlan = false →
      P (((w.intend j none).intend j (some .again)).closeFailed j t n k)
        (((w.intend j none).intend j (some .again)).conclusion a j t n reason k))
    (exhausted : (n < (w.job j).retryLimit → (w.ticket t).cancelled = true) →
      P ((w.intend j none).closeFailed j t n k) ((w.intend j none).conclusion a j t n reason k)) :
    P (w.falter a j t n reason k) (w.failed a j t n reason k) := by
  have ht : (w.intend j none).ticket t = w.ticket t := rfl
  simp only [falter, failed]
  change P _ (if n < (w.job j).retryLimit ∧ ¬((w.intend j none).ticket t).cancelled then
    if (w.job j).asksPlan then _ else (w.intend j none).planned a j t n reason k .again
    else (w.intend j none).conclusion a j t n reason k)
  rw [ht]
  split
  · rename_i hn
    have hc : (w.ticket t).cancelled = false := by simpa using hn.2
    split
    · exact asked hn.1 hc
    · rename_i ha
      exact unasked hn.1 hc (by simpa using ha)
  · rename_i hn
    exact exhausted (by simpa using hn)

theorem Logged.refl (w : World) : w.Logged w := ⟨w.loggers, [], nofun, rfl⟩

theorem Logged.trans (h : w.Logged w') (h' : w'.Logged w'') : w.Logged w'' := by
  obtain ⟨ls, es, he, rfl⟩ := h
  obtain ⟨ls', es', he', rfl⟩ := h'
  refine ⟨ls', es' ++ es, fun e hm => ?_, by simp⟩
  exact (List.mem_append.mp hm).elim (he' e) (he e)

theorem logged_log (w : World) (l : Nat) (line : Line) : w.Logged (w.log l line) := by
  simp only [log]
  split
  · exact .refl w
  · rename_i g e _
    exact ⟨w.loggers.put l g, [.logged l e], by simp, rfl⟩

theorem logged_report (w : World) (m t : Nat) (n : Int) (since : Nat) (o : Outcome)
    (e : Store.Ending) : w.Logged (w.report m t n since o e) := by
  simp only [report]
  split <;> exact logged_log ..

/-- The job writes why the attempt failed before anything is settled. -/
theorem conclusion_eq (w : World) (a j t : Nat) (n : Int) (reason : String) (k : Caller) :
    ∃ u, w.Logged u ∧ w.conclusion a j t n reason k = u.conclude a k (w.failureOutcome j t n) := by
  have hu : w.Logged ((w.job j).logger.elim w fun l => w.log l {
      level := .warn, job := some (w.job j).id, message := "attempt failed"
      fields := [("attempt", toString n), ("error", reason)] }) := by
    cases (w.job j).logger with
    | none => exact .refl w
    | some l => exact logged_log ..
  obtain ⟨ls, es, he, hu⟩ := hu
  refine ⟨_, ⟨ls, es, he, rfl⟩, ?_⟩
  simp only [conclusion]
  rw [hu]
  rfl

theorem Logged.wrote (h : w.Logged w') (a : Nat) : Wrote a w w' := by
  obtain ⟨ls, es, he, hw⟩ := h
  refine ⟨ls, es, fun e hm => ?_, hw⟩
  obtain ⟨l, x, rfl⟩ := he e hm
  rfl

theorem Wrote.refl (a : Nat) (w : World) : Wrote a w w := ⟨w.loggers, [], nofun, rfl⟩

theorem Wrote.trans (h : Wrote a w w') (h' : Wrote a w' w'') : Wrote a w w'' := by
  obtain ⟨ls, es, he, rfl⟩ := h
  obtain ⟨ls', es', he', rfl⟩ := h'
  refine ⟨ls', es' ++ es, fun e hm => ?_, by simp⟩
  exact (List.mem_append.mp hm).elim (he' e) (he e)

theorem Wrote.sequels (h : Wrote a w w') : Sequels a w w' := by
  obtain ⟨ls, es, he, rfl⟩ := h
  exact .single (.wrote w ls es he)

theorem Wrote.active (h : Wrote a w w') (ha : w.Active a) : w'.Active a := by
  obtain ⟨ls, es, -, rfl⟩ := h
  exact ha

theorem wrote_give (w : World) (a : Nat) (v : Value) : Wrote a w (w.give a v) :=
  ⟨w.loggers, [.returned a v], by simp [Event.isNote], rfl⟩

theorem wrote_raise (w : World) (a : Nat) (f : Fault) : Wrote a w (w.raise a f) :=
  ⟨w.loggers, [.raised a f], by simp [Event.isNote], rfl⟩

theorem wrote_log (w : World) (l : Nat) (line : Line) : Wrote a w (w.log l line) :=
  (logged_log w l line).wrote a

theorem wrote_note (w : World) (m : Nat) (level : Level) (id message : String)
    (fields : List (String × String)) : Wrote a w (w.note m level id message fields) :=
  wrote_log ..

theorem wrote_announce (w : World) (m : Nat) (message : String)
    (fields : List (String × String)) : Wrote a w (w.announce m message fields) :=
  wrote_log ..

theorem wrote_report (w : World) (m t : Nat) (n : Int) (since : Nat) (o : Outcome)
    (e : Store.Ending) : Wrote a w (w.report m t n since o e) :=
  (logged_report w m t n since o e).wrote a

end World

end Backlog
