import Backlog.Proofs.Steps

/-!
# What happens to loggers

Whatever an operation does comes down to marks: a line comes to a logger, a logger is tuned or
made, or no logger is concerned.
-/

namespace Backlog

variable {w w' w'' : World} {l : Nat}

namespace Store

variable {s s' : Store} {m t : Nat}

theorem loggers_push {q q' : Queue} (h : s.push q t = some (s', q')) : s'.loggers = s.loggers := by
  have hl := push_logging s s.loggers q t
  rw [show s.logging s.loggers = s from rfl, h] at hl
  have hs := (Prod.mk.inj (Option.some.inj hl)).1
  rw [hs]
  rfl

theorem loggers_claim (h : s.claim m = some (s', t)) : s'.loggers = s.loggers := by
  have hl := claim_logging h s.loggers
  rw [show s.logging s.loggers = s from rfl, h] at hl
  have hs := (Prod.mk.inj (Option.some.inj hl)).1
  rw [hs]
  rfl

theorem loggers_settle (s : Store) (m t : Nat) (o : Outcome) :
    (s.settle m t o).1.loggers = s.loggers :=
  congrArg (·.1.loggers) (settle_logging s s.loggers m t o)

theorem loggers_reclaim (s : Store) (m t : Nat) : (s.reclaim m t).1.loggers = s.loggers :=
  congrArg (·.1.loggers) (reclaim_logging s s.loggers m t)

theorem loggers_build {d : Draft} (h : s.build d = .ok s') : s'.loggers = s.loggers := by
  obtain ⟨k, rfl, -⟩ := build_eq_ok h
  rfl

theorem loggers_enlist {j : Nat} (h : s.enlist m j = some s') : s'.loggers = s.loggers := by
  simp only [enlist] at h
  split at h
  · cases h
  · split at h
    · cases h
    · rename_i hp
      have hl := loggers_push hp
      cases h
      exact hl

theorem loggers_withdraw {id : String} {v : Withdrawal} (h : s.withdraw m id = some (s', v)) :
    s'.loggers = s.loggers := by
  obtain ⟨t, -, rfl, -⟩ | ⟨-, t, queue, -, rfl, -⟩ := withdraw_cases h <;> rfl

theorem loggers_editTicket {e : TicketEdit} (h : s.editTicket t e = .ok s') :
    s'.loggers = s.loggers := by
  cases e with
  | stamp n =>
    simp only [editTicket] at h
    split at h <;> cases h
    rfl
  | job j => cases j <;> cases h; rfl
  | _ => cases h; rfl

theorem loggers_callQueue (s : Store) (q : Nat) (c : QueueCall) :
    (s.callQueue q c).1.loggers = s.loggers := by
  cases c with
  | push t =>
    cases t with
    | none => rfl
    | some t =>
      simp only [callQueue]
      split
      · rfl
      · rename_i h
        have hl := loggers_push h
        exact hl
  | next | remove => simp only [callQueue]; split <;> rfl
  | delayGroup | close => rfl

end Store

/-- The entry of logger `l` that the event stands for. -/
def Event.written? (l : Nat) : Event → Option Entry
  | .logged k e => if k = l then some e else none
  | _ => none

namespace World

/-- One thing that happens to loggers and to what is seen from outside. Only loggers of which `T`
holds are tuned. -/
inductive Mark (T : Nat → Prop) : World → World → Prop
  | line (w : World) (l : Nat) (line : Line) : Mark T w (w.log l line)
  | tuned (w : World) (l : Nat) (f : Logger → Logger) (hl : T l)
    (hf : ∀ g, (f g).written = g.written) :
    Mark T w { w with loggers := w.loggers.modify l f }
  | made {w w' : World} (g : Logger) (hg : g.written = 0) (hl : w'.loggers = w.loggers.add g)
    (hh : w'.history = w.history) : Mark T w w'
  | other {w w' : World} (es : List Event) (he : ∀ e ∈ es, ∀ l, e.written? l = none)
    (hl : w'.loggers = w.loggers) (hh : w'.history = es ++ w.history) : Mark T w w'

abbrev Marks (T : Nat → Prop) : World → World → Prop := Relation.ReflTransGen (Mark T)

/-! ## Every operation is a course of marks -/

section
variable {T : Nat → Prop} (w : World) (a : Nat)

theorem marks_log (l : Nat) (line : Line) : Marks T w (w.log l line) := .single (.line w l line)

theorem marks_store {s : Store} (h : s.loggers = w.loggers) : Marks T w { w with toStore := s } :=
  .single (.other [] nofun h rfl)

theorem marks_tuned {l : Nat} (hl : T l) (f : Logger → Logger)
    (hf : ∀ g, (f g).written = g.written) :
    Marks T w { w with loggers := w.loggers.modify l f } := .single (.tuned w l f hl hf)

theorem marks_emit {e : Event} (he : ∀ l, e.written? l = none) : Marks T w (w.emit e) :=
  .single (.other [e] (by simpa using he) rfl rfl)

theorem marks_give (v : Value) : Marks T w (w.give a v) := marks_emit w fun _ => rfl

theorem marks_raise (f : Fault) : Marks T w (w.raise a f) := marks_emit w fun _ => rfl

theorem marks_ask (f : Frame) (h : Hook) : Marks T w (w.ask a f h) :=
  .single (.other [.asked a h] (by simp [Event.written?]) rfl rfl)

theorem marks_note (m : Nat) (level : Level) (id message : String)
    (fields : List (String × String)) : Marks T w (w.note m level id message fields) := marks_log ..

theorem marks_enter (t : Nat) (n : Int) (k : Caller) : Marks T w (w.enter a t n k) := by
  refine (marks_emit w (e := .entered a (w.ticket t).job t n) fun _ => rfl).trans ?_
  simp only [enter, standard]
  split <;> exact marks_ask ..

theorem marks_next (m : Nat) (tally : Option Nat) : Marks T w (w.next a m tally) := by
  simp only [next]
  split
  · exact marks_give ..
  · rename_i s t h
    exact (marks_store w (Store.loggers_claim h)).trans ((marks_note ..).trans (marks_enter ..))

theorem marks_proceed (m : Nat) (o : Outcome) (tally : Option Nat) :
    Marks T w (w.proceed a m o tally) := by
  cases tally with
  | none => exact marks_give ..
  | some n => exact marks_next ..

theorem marks_resumeNext (next : Next) : Marks T w (w.resumeNext a next) := by
  cases next with
  | give v => exact marks_give ..
  | proceed m o tally => exact marks_proceed ..

theorem marks_tell (t : Nat) (next : Next) : Marks T w (w.tell a t next) := by
  simp only [tell]
  split
  · exact marks_resumeNext ..
  · exact .trans (marks_store w (s := w.onTicket t ({ · with notified := true })) rfl)
      (marks_ask ..)

theorem marks_report (m t : Nat) (n : Int) (since : Nat) (o : Outcome) (e : Store.Ending) :
    Marks T w (w.report m t n since o e) := by
  simp only [report]
  split <;> exact marks_note ..

theorem marks_conclude (k : Caller) (o : Outcome) : Marks T w (w.conclude a k o) := by
  cases k with
  | client => exact marks_give ..
  | manager m t n since tally =>
    refine (marks_store w (Store.loggers_settle w.toStore m t o)).trans ?_
    simp only [conclude]
    split
    · exact marks_raise ..
    · rename_i e _
      refine (marks_report _ m t n since o e).trans ?_
      split
      · exact marks_tell ..
      · exact marks_proceed ..

theorem marks_conclusion (j t : Nat) (n : Int) (reason : String) (k : Caller) :
    Marks T w (w.conclusion a j t n reason k) := by
  simp only [conclusion]
  cases (w.job j).logger with
  | none => exact marks_conclude ..
  | some l => exact (marks_log ..).trans (marks_conclude ..)

theorem marks_planned (j t : Nat) (n : Int) (reason : String) (k : Caller) (p : RetryPlan) :
    Marks T w (w.planned a j t n reason k p) :=
  (marks_store w (by rfl)).trans (marks_conclusion ..)

theorem marks_failed (j t : Nat) (n : Int) (reason : String) (k : Caller) :
    Marks T w (w.failed a j t n reason k) := by
  have hs : Marks T w (w.intend j none) := marks_store w rfl
  refine hs.trans (falter_cases (P := fun _ v => Marks T (w.intend j none) v) (fun _ _ => ?_)
    (fun _ _ _ => ?_) fun _ => ?_)
  · exact marks_ask ..
  · exact marks_planned ..
  · exact marks_conclusion ..

theorem marks_add (m : Nat) (j : Option Nat) : Marks T w (w.add a m j) := by
  cases j with
  | none => exact marks_raise ..
  | some j =>
    simp only [add]
    split
    · exact marks_give ..
    · rename_i h
      exact (marks_store w (Store.loggers_enlist h)).trans ((marks_note ..).trans (marks_ask ..))

theorem marks_cancel (m : Nat) (id : String) : Marks T w (w.cancel a m id) := by
  simp only [cancel]
  split
  · exact marks_give ..
  · rename_i h
    exact (marks_store w (Store.loggers_withdraw h)).trans ((marks_note ..).trans (marks_give ..))
  · rename_i h
    exact (marks_store w (Store.loggers_withdraw h)).trans ((marks_note ..).trans (marks_tell ..))

theorem marks_recoverOne (m n : Nat) (t : Option Nat) : Marks T w (recoverOne m (w, n) t).1 := by
  cases t with
  | none => exact .refl
  | some t =>
    have hl := Store.loggers_reclaim w.toStore m t
    simp only [recoverOne]
    split
    · exact .refl
    · exact marks_note ..
    · rename_i h
      rw [h] at hl
      exact (marks_store w hl).trans (marks_note ..)

theorem marks_recover (m : Nat) (ts : List (Option Nat)) : Marks T w (w.recover a m ts) := by
  have hf (n : Nat) : Marks T w (ts.foldl (recoverOne m) (w, n)).1 := by
    induction ts generalizing w n with
    | nil => exact .refl
    | cons t ts ih => exact (marks_recoverOne w m n t).trans (ih _ _)
  exact (hf 0).trans (marks_give ..)

theorem marks_setNetwork (m : Nat) (up : Bool) : Marks T w (w.setNetwork a m up) := by
  refine (marks_store w (s := w.onManager m ({ · with network := up })) rfl).trans ?_
  simp only [setNetwork]
  split
  · exact marks_give ..
  · exact (marks_log ..).trans (marks_give ..)

theorem marks_stop (m : Nat) : Marks T w (w.stop a m) := by
  simp only [stop]
  split
  · exact (marks_store w (by rfl)).trans ((marks_log ..).trans (marks_give ..))
  · exact marks_give ..

theorem marks_callManager (m : Nat) (c : ManagerCall) : Marks T w (w.callManager a m c) := by
  cases c with
  | add j => exact marks_add ..
  | runNext => exact marks_next ..
  | runUntilIdle => exact marks_next ..
  | cancel id => exact marks_cancel ..
  | recover ts => exact marks_recover ..
  | network up => exact marks_setNetwork ..
  | stop => exact marks_stop ..

theorem marks_makeManager (c : Config) : Marks T w (w.makeManager a c) := by
  have hm : w.Mark T { w with toStore := w.establish c } :=
    .made { threshold := c.threshold, json := c.json } rfl rfl rfl
  exact (Relation.ReflTransGen.single hm).trans ((marks_log ..).trans (marks_give ..))

theorem marks_callLogger {l : Nat} (hl : T l) (c : LoggerCall) :
    Marks T w (w.callLogger a l c) := by
  cases c with
  | threshold rank => exact (marks_tuned w hl _ (by intro; rfl)).trans (marks_give ..)
  | json on => exact (marks_tuned w hl _ (by intro; rfl)).trans (marks_give ..)
  | line line => exact (marks_log ..).trans (marks_give ..)

theorem marks_commit (v : Value) {r : Except Fault Store}
    (h : ∀ s, r = .ok s → s.loggers = w.loggers) : Marks T w (w.commit a v r) := by
  cases r with
  | error f => exact marks_raise ..
  | ok s => exact (marks_store w (h s rfl)).trans (marks_give ..)

theorem marks_perform {c : Call} (hT : ∀ l d, c = .logger l d → T l) :
    Marks T w (w.perform a c) := by
  cases c with
  | makeJob p =>
    refine marks_commit w a _ fun s h => ?_
    cases hp : Job.make p with
    | error f => rw [hp] at h; cases h
    | ok j => rw [hp] at h; cases h; rfl
  | editJob j e => exact (marks_store w (by rfl)).trans (marks_give ..)
  | build d => exact marks_commit w a _ fun s h => Store.loggers_build h
  | editTicket t e => exact marks_commit w a _ fun s h => Store.loggers_editTicket h
  | tell t => exact marks_tell ..
  | run t n => exact marks_enter ..
  | attempt t n => exact marks_ask ..
  | makeQueue => exact (marks_store w (by rfl)).trans (marks_give ..)
  | queue q c => exact (marks_store w (Store.loggers_callQueue w.toStore q c)).trans (marks_give ..)
  | makeManager c => exact marks_makeManager ..
  | manager m c => exact marks_callManager ..
  | makeLogger =>
    have hm : w.Mark T { w with loggers := w.loggers.add {} } := .made {} rfl rfl rfl
    exact (Relation.ReflTransGen.single hm).trans (marks_give ..)
  | logger l c => exact marks_callLogger w a (hT l c rfl) c

theorem marks_resume (f : Frame) (r : Reply) : Marks T w (w.resume a f r) := by
  unfold resume
  split
  · exact marks_resumeNext ..
  · exact marks_raise ..
  · exact marks_conclude ..
  · exact marks_conclude ..
  · exact marks_failed ..
  · exact marks_failed ..
  · exact marks_planned ..
  · exact marks_planned ..
  · exact .refl

end

/-- A step tunes no logger but the one that is called. -/
theorem marks_step (w : World) (mv : Move) :
    Marks (fun l => ∃ c, mv = .call (.logger l c)) w (w.step mv) := by
  have same (x : World) (hl : x.loggers = w.loggers) (hh : x.history = w.history) :
      Marks (fun l => ∃ c, mv = .call (.logger l c)) w x :=
    .single (.other [] nofun hl hh)
  cases mv with
  | call c =>
    simp only [step]
    split
    · exact (same { w with calls := w.calls + 1 } rfl rfl).trans
        (marks_perform _ _ fun l d hc => ⟨d, by rw [hc]⟩)
    · exact .refl
  | reply a r =>
    simp only [step]
    split
    · exact .refl
    · split
      · exact (same { w with pending := w.pending.erase a } rfl rfl).trans (marks_resume ..)
      · exact .refl
  | clock now => exact same _ rfl rfl
  | elapse nanos => exact same _ rfl rfl

end World

end Backlog
