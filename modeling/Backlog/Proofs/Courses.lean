import Backlog.Proofs.Questions

/-!
# The course of an attempt

The outcome of a standard attempt follows from how its body ended, from what its job answered if it
was asked, and from whether the ticket was cancelled by then. The plan that the job is left with is
the answer to this attempt, whatever other attempts of the job were made within it.
-/

namespace Backlog

/-- Why the body of an attempt failed, if it did. -/
def Reply.failure? : Reply → Option String
  | .failed reason => some reason
  | .threw x => some (World.thrownReason x)
  | _ => none

/-- The plan by which a job answers. One that throws wants no other attempt. -/
def Reply.plan? : Reply → Option RetryPlan
  | .plan p => some p
  | .threw _ => some .never
  | _ => none

/-- The outcome of attempt `n` of at most `limit` whose body failed. By its end the ticket is
cancelled or not, and the job wants another attempt or not. -/
def Outcome.ofFailure (cancelled : Bool) (n limit : Int) (wants : Bool) : Outcome :=
  if cancelled then .cancelled
  else if n < limit ∧ wants then .again
  else if n < limit then .declined
  else .runLimit

namespace World

variable {w x : World} {a j t : Nat} {n limit : Int} {k : Caller} {f : Frame} {r : Reply}
  {o : Outcome} {reason : String} {p : Option RetryPlan}

/-- The job is to be asked for a plan if attempt `n` of the ticket fails now. -/
def Consults (w : World) (j t : Nat) (n : Int) : Prop :=
  n < (w.job j).retryLimit ∧ (w.ticket t).cancelled = false ∧ (w.job j).asksPlan = true

instance : Decidable (w.Consults j t n) := inferInstanceAs (Decidable (_ ∧ _))

/-- Reply `r` ends the attempt of operation `a`, and job `j` is left with plan `p`. -/
structure Closes (w : World) (a j : Nat) (r : Reply) (k : Caller) (o : Outcome)
    (p : Option RetryPlan) : Prop where
  ends : w.Ends a r k o
  quiet : (w.step (.reply a r)).questions a = w.questions a
  plan : ((w.step (.reply a r)).job j).plan = p

theorem closes_of_conclusion (hw : w.Founded) (hf : w.pending.find? a = some f)
    (hk : k.work = f.work) {v : World} (hv : Replanned { w with pending := w.pending.erase a } v)
    (hs : w.step (.reply a r) = v.conclusion a j t n reason k)
    (ho : v.failureOutcome j t n = o) (hp : (v.job j).plan = p) : w.Closes a j r k o p := by
  obtain ⟨u, hu, he⟩ := conclusion_eq v a j t n reason k
  rw [ho] at he
  have hl := conclude_leaves hw hf hv hu hk o
  refine ⟨ends_of_conclude hv hu (hs.trans he), ?_, ?_⟩
  · rw [hs, he, hl.1]
  · rw [hs, he, hl.2, hp]

theorem plan_intend (w : World) (j : Nat) (p : Option RetryPlan) : ((w.intend j p).job j).plan = p := by
  simp [intend]

/-- A body that succeeds ends its attempt, and nobody is asked. -/
theorem succeeded_closes (hw : w.Founded) (hf : w.pending.find? a = some (.body j t n k)) :
    w.Ends a .succeeded k .success ∧
      (w.step (.reply a .succeeded)).questions a = w.questions a := by
  have hs : w.step (.reply a .succeeded) =
      World.conclude { w with pending := w.pending.erase a } a k .success := step_taken hf rfl
  refine ⟨ends_of_conclude (.refl _) (.refl _) hs, ?_⟩
  rw [hs]
  exact (conclude_leaves hw hf (.refl _) (.refl _) rfl _).1

/-- A job that is asked is told why the attempt failed, its number and the limit. -/
theorem failed_asked (h : w.Consults j t n) (a : Nat) (reason : String) (k : Caller) :
    w.failed a j t n reason k = (w.intend j none).ask a (.plan j t n reason k)
      (.plan j t n reason (w.job j).retryLimit) :=
  (if_pos ⟨h.1, by simpa using h.2.1⟩).trans (if_pos h.2.2)

/-- A job that is not asked runs again while attempts are left. -/
theorem failed_unasked (hl : n < (w.job j).retryLimit) (hc : (w.ticket t).cancelled = false)
    (ha : (w.job j).asksPlan = false) (a : Nat) (reason : String) (k : Caller) :
    w.failed a j t n reason k =
      ((w.intend j none).intend j (some .again)).conclusion a j t n reason k :=
  (if_pos ⟨hl, by simpa using hc⟩).trans (if_neg (by simp [ha]))

theorem failed_exhausted (h : ¬(n < (w.job j).retryLimit ∧ (w.ticket t).cancelled = false)) (a : Nat)
    (reason : String) (k : Caller) :
    w.failed a j t n reason k = (w.intend j none).conclusion a j t n reason k :=
  if_neg fun hn => h ⟨hn.1, by simpa using hn.2⟩

/-- A body that fails, or throws, fails for a reason. -/
theorem step_failure (hf : w.pending.find? a = some (.body j t n k))
    (hr : r.failure? = some reason) :
    w.step (.reply a r) = World.failed { w with pending := w.pending.erase a } a j t n reason k := by
  cases r with
  | failed s =>
    obtain rfl := Option.some.inj hr
    exact step_taken hf rfl
  | threw y =>
    obtain rfl := Option.some.inj hr
    exact step_taken hf rfl
  | _ => cases hr

/-- The attempt ends with its body if the job is not to be asked. -/
theorem failure_closes (hw : w.Founded) (hf : w.pending.find? a = some (.body j t n k))
    (hr : r.failure? = some reason) (hn : ¬w.Consults j t n) :
    w.Closes a j r k (.ofFailure (w.ticket t).cancelled n (w.job j).retryLimit true)
      (if n < (w.job j).retryLimit ∧ (w.ticket t).cancelled = false then some .again else none) := by
  have hs := step_failure hf hr
  have hv := (Replanned.refl { w with pending := w.pending.erase a }).intend j none
  by_cases hl : n < (w.job j).retryLimit ∧ (w.ticket t).cancelled = false
  · have ha : (w.job j).asksPlan = false := Bool.eq_false_iff.mpr fun ha => hn ⟨hl.1, hl.2, ha⟩
    rw [failed_unasked (w := { w with pending := w.pending.erase a }) hl.1 hl.2 ha] at hs
    rw [if_pos hl]
    refine closes_of_conclusion hw hf rfl (hv.intend j (some .again)) hs ?_ (plan_intend ..)
    rw [failureOutcome_again (w := { w with pending := w.pending.erase a }) hl.2, Outcome.ofFailure,
      hl.2]
    simp [hl.1]
  · rw [failed_exhausted (w := { w with pending := w.pending.erase a }) hl] at hs
    rw [if_neg hl]
    refine closes_of_conclusion hw hf rfl hv hs ?_ (plan_intend ..)
    rw [failureOutcome_intend]
    cases hc : (w.ticket t).cancelled with
    | true => simp [Outcome.ofFailure]
    | false =>
      have hl : ¬n < (w.job j).retryLimit := fun h => hl ⟨h, hc⟩
      simp [Outcome.ofFailure, hl]

/-- The operation waits for the answer of the job. -/
theorem failure_asks (hf : w.pending.find? a = some (.body j t n k))
    (hr : r.failure? = some reason) (hn : w.Consults j t n) :
    (w.step (.reply a r)).pending.find? a = some (.plan j t n reason k) ∧
      (w.step (.reply a r)).questions a =
        .plan j t n reason (w.job j).retryLimit :: w.questions a := by
  rw [step_failure hf hr, failed_asked (w := { w with pending := w.pending.erase a }) hn]
  exact ⟨Table.find?_insert_same .., List.filterMap_cons_some (if_pos rfl)⟩

/-- The answer of the job ends the attempt. -/
theorem plan_closes (hw : w.Founded) (hf : w.pending.find? a = some (.plan j t n reason k))
    (hl : n < (w.job j).retryLimit) {p : RetryPlan} (hr : r.plan? = some p) :
    w.Closes a j r k (.ofFailure (w.ticket t).cancelled n (w.job j).retryLimit p.retry) (some p) := by
  have hs : ∃ reason', w.step (.reply a r) = World.planned { w with pending := w.pending.erase a }
      a j t n reason' k p := by
    cases r with
    | plan q =>
      obtain rfl := Option.some.inj hr
      exact ⟨_, step_taken hf rfl⟩
    | threw y =>
      obtain rfl := Option.some.inj hr
      exact ⟨_, step_taken hf rfl⟩
    | _ => cases hr
  obtain ⟨reason', hs⟩ := hs
  refine closes_of_conclusion hw hf rfl ((Replanned.refl _).intend j (some p)) hs ?_ (plan_intend ..)
  rw [failureOutcome_intend]
  simp only [Outcome.ofFailure, Option.any_some, hl, true_and, if_true]

/-- What becomes of attempt `n` of ticket `t` for operation `a`, which waited for its body in `w` and
still does in `x`. Its job `j` allows as many attempts as `limit`. -/
structure EndsByRule (w x : World) (a j t : Nat) (n limit : Int) (k : Caller) : Prop where
  succeeded : x.Ends a .succeeded k .success ∧
    (x.step (.reply a .succeeded)).questions a = w.questions a
  /-- The attempt ends with its body if the job has no say. -/
  unasked : ∀ r reason, r.failure? = some reason → ¬x.Consults j t n →
    x.Ends a r k (.ofFailure (x.ticket t).cancelled n limit true) ∧
      (x.step (.reply a r)).questions a = w.questions a
  /-- If it has, the job is asked once, and its answer ends the attempt. -/
  asked : ∀ r reason, r.failure? = some reason → x.Consults j t n →
    (x.step (.reply a r)).pending.find? a = some (.plan j t n reason k) ∧
      (x.step (.reply a r)).questions a = .plan j t n reason limit :: w.questions a ∧
      ∀ y q p, Awaits a (.plan j t n reason k) (x.step (.reply a r)) y → q.plan? = some p →
        y.Ends a q k (.ofFailure (y.ticket t).cancelled n limit p.retry) ∧
          (y.step (.reply a q)).questions a = .plan j t n reason limit :: w.questions a

/-- The limit of the job that an operation waits for does not change meanwhile. -/
theorem Awaits.retryLimit (h : Awaits a f w x) (hw : w.Grounded) (hj : f.job? = some j) :
    (x.job j).retryLimit = (w.job j).retryLimit :=
  Job.retryLimit_of_lasting ((h.stays hw).job j (hw.asks a f j h.1 hj)).2

/-- What becomes of the attempt once its job was asked. -/
theorem Awaits.answered {y : World} (h : Awaits a (.body j t n k) w x) (hw : w.Grounded)
    (hr : r.failure? = some reason) (hn : x.Consults j t n)
    (hy : Awaits a (.plan j t n reason k) (x.step (.reply a r)) y) {q : Reply} {p : RetryPlan}
    (hq : q.plan? = some p) :
    y.Closes a j q k (.ofFailure (y.ticket t).cancelled n (w.job j).retryLimit p.retry) (some p) ∧
      (y.step (.reply a q)).questions a =
        .plan j t n reason (w.job j).retryLimit :: w.questions a := by
  have hx := h.stays hw
  have hx' := hx.grounded.step (.reply a r)
  have hs := hy.stays hx'
  have hjx : j < x.jobs.size := (hx.job j (hw.asks a _ j h.1 rfl)).1
  have hlimit : (y.job j).retryLimit = (x.job j).retryLimit := (hy.retryLimit hx' rfl).trans
    (Job.retryLimit_of_lasting (job_step hx.grounded.founded _ hjx).2)
  have hl : n < (y.job j).retryLimit := hlimit ▸ hn.1
  have hc := plan_closes hs.grounded.founded hs.waits hl hq
  rw [hlimit, h.retryLimit hw rfl] at hc
  refine ⟨hc, ?_⟩
  rw [hc.quiet, hs.questions, (failure_asks hx.waits hr hn).2, h.retryLimit hw rfl, hx.questions]

/-- An attempt that a client calls waits for its body. Whatever attempt waits for its body, and
whatever else happens then, it ends by the rule. -/
theorem attempts_end_by_rule (h : w.Reachable) :
    (∀ t n c, t < w.tickets.size →
      c = .attempt t n ∨ c = .run t n ∧ (w.job (w.ticket t).job).custom = false →
      (w.step (.call c)).pending.find? w.calls = some (.body (w.ticket t).job t n .client)) ∧
    ∀ a j t n k x, Awaits a (.body j t n k) w x →
      w.EndsByRule x a j t n (w.job j).retryLimit k := by
  refine ⟨?_, fun a j t n k x hx => ?_⟩
  · rintro t n c ht (rfl | ⟨rfl, hc⟩)
    · rw [step, if_pos (by simpa [Call.inScope] using ht)]
      exact Table.find?_insert_same ..
    · rw [step, if_pos (by simpa [Call.inScope] using ht)]
      simp only [perform, enter]
      rw [if_neg (by simpa using hc)]
      exact Table.find?_insert_same ..
  · have hw := h.grounded
    have hs := hx.stays hw
    have hf := hs.grounded.founded
    constructor
    · rw [← hs.questions]
      exact succeeded_closes hf hs.waits
    · intro r reason hr hn
      have hc := failure_closes hf hs.waits hr hn
      rw [hx.retryLimit hw rfl] at hc
      exact ⟨hc.ends, hc.quiet.trans hs.questions⟩
    · intro r reason hr hn
      obtain ⟨hp, hq⟩ := failure_asks hs.waits hr hn
      rw [hx.retryLimit hw rfl, hs.questions] at hq
      refine ⟨hp, hq, fun y q p hy hqp => ?_⟩
      obtain ⟨hc, hqs⟩ := hx.answered hw hr hn hy hqp
      exact ⟨hc.ends, hqs⟩

/-- An operation makes the first of two attempts at a job that has a say. -/
def trying : World := (start 0).run
  [.call (.makeJob { id := "a", retryLimit := 2, asksPlan := true }),
    .call (.build { job := some 0, priority := some 0, session := some 0, created := some 0 }),
    .call (.attempt 0 1)]

/-- A ticket that is cancelled while its job is asked, which would go on. -/
theorem attempts_end_by_rule_cancelled :
    ((trying.run [.reply 2 (.failed "late"), .call (.editTicket 0 .cancel),
        .reply 2 (.plan .again)]).answers 2 = [.returned 2 (.outcome (some .cancelled))]) ∧
      (trying.run [.reply 2 (.failed "late"), .call (.editTicket 0 .cancel),
        .reply 2 (.plan .again)]).questions 2 = [.plan 0 0 1 "late" 2] := by
  have hr : trying.Reachable := ⟨0, _, rfl⟩
  have hx : Awaits 2 (.body 0 0 1 .client) trying trying :=
    ⟨by decide +kernel, [], rfl, rfl⟩
  have hy : Awaits 2 (.plan 0 0 1 "late" .client) (trying.step (.reply 2 (.failed "late")))
      ((trying.step (.reply 2 (.failed "late"))).run [.call (.editTicket 0 .cancel)]) :=
    ⟨by decide +kernel, _, rfl, rfl⟩
  have hrule := (attempts_end_by_rule hr).2 2 0 0 1 .client trying hx
  obtain ⟨-, -, hasked⟩ := hrule.asked (.failed "late") "late" rfl (by decide +kernel)
  obtain ⟨hends, hq⟩ := hasked _ (.plan .again) .again hy rfl
  exact ⟨(hends.returns rfl).trans (by decide +kernel), hq.trans (by decide +kernel)⟩

/-- Reply `r` ends a failed attempt of operation `a` and leaves job `j` the plan `p`. The outcome
says so if it depends on the plan. -/
structure LeavesPlan (w : World) (a j : Nat) (r : Reply) (k : Caller) (p : Option RetryPlan) :
    Prop where
  plan : ((w.step (.reply a r)).job j).plan = p
  outcome : ∃ o, w.Ends a r k o ∧ (o = .again → p.any (·.retry) = true) ∧
    (o = .declined → p.any (!·.retry) = true)

theorem Closes.leavesPlan (h : w.Closes a j r k o p) (ha : o = .again → p.any (·.retry) = true)
    (hd : o = .declined → p.any (!·.retry) = true) : w.LeavesPlan a j r k p where
  plan := h.plan
  outcome := ⟨o, h.ends, ha, hd⟩

theorem ofFailure_eq_again {cancelled wants : Bool}
    (h : Outcome.ofFailure cancelled n limit wants = .again) :
    cancelled = false ∧ n < limit ∧ wants = true := by
  simp only [Outcome.ofFailure] at h
  grind

theorem ofFailure_eq_declined {cancelled wants : Bool}
    (h : Outcome.ofFailure cancelled n limit wants = .declined) :
    n < limit ∧ wants = false := by
  simp only [Outcome.ofFailure] at h
  grind

/-- The plan that a failed attempt leaves to its job is of this attempt, whatever attempts of the
job were made since its body began. -/
theorem plan_belongs_to_attempt (h : w.Reachable) (hx : Awaits a (.body j t n k) w x)
    (hr : r.failure? = some reason) :
    (((x.ticket t).cancelled = true ∨ (x.job j).retryLimit ≤ n) → x.LeavesPlan a j r k none) ∧
    ((x.ticket t).cancelled = false → n < (x.job j).retryLimit → (x.job j).asksPlan = false →
      x.LeavesPlan a j r k (some .again)) ∧
    (x.Consults j t n → ∀ y q p, Awaits a (.plan j t n reason k) (x.step (.reply a r)) y →
      q.plan? = some p → y.LeavesPlan a j q k (some p)) := by
  have hw := h.grounded
  have hs := hx.stays hw
  have hclose := failure_closes hs.grounded.founded hs.waits hr
  refine ⟨fun hn => ?_, fun hc hl ha => ?_, fun hn y q p hy hq => ?_⟩
  · have hnot : ¬(n < (x.job j).retryLimit ∧ (x.ticket t).cancelled = false) := by
      rintro ⟨hl, hc⟩
      rcases hn with hn | hn
      · rw [hc] at hn
        cases hn
      · omega
    have hc := hclose fun hcon => hnot ⟨hcon.1, hcon.2.1⟩
    rw [if_neg hnot] at hc
    refine hc.leavesPlan (fun ho => ?_) fun ho => ?_
    · obtain ⟨hc, hl, -⟩ := ofFailure_eq_again ho
      exact absurd ⟨hl, hc⟩ hnot
    · cases (ofFailure_eq_declined ho).2
  · have hc' := hclose fun hcon => by rw [hcon.2.2] at ha; cases ha
    rw [if_pos ⟨hl, hc⟩] at hc'
    refine hc'.leavesPlan (fun _ => rfl) fun ho => ?_
    cases (ofFailure_eq_declined ho).2
  · refine (hx.answered hw hr hn hy hq).1.leavesPlan (fun ho => (ofFailure_eq_again ho).2.2) fun ho => ?_
    simp [(ofFailure_eq_declined ho).2]

/-- The last attempt of a job within which the first one is made, which the job wants repeated. -/
theorem plan_belongs_to_attempt_nested :
    (((trying.run [.call (.attempt 0 2), .reply 2 (.failed "late"), .reply 2 (.plan .again)]).job
        0).plan = some .again) ∧
      ((trying.run [.call (.attempt 0 2), .reply 2 (.failed "late"), .reply 2 (.plan .again),
        .reply 3 (.failed "late")]).job 0).plan = none := by
  refine ⟨by decide +kernel, ?_⟩
  have hr : (trying.run [.call (.attempt 0 2)]).Reachable :=
    ⟨0, _, (run_append ..).symm⟩
  have hx : Awaits 3 (.body 0 0 2 .client) (trying.run [.call (.attempt 0 2)])
      ((trying.run [.call (.attempt 0 2)]).run [.reply 2 (.failed "late"), .reply 2 (.plan .again)]) :=
    ⟨by decide +kernel, _, by decide +kernel, rfl⟩
  exact ((plan_belongs_to_attempt hr hx (r := .failed "late") rfl).1
    (.inr (by decide +kernel))).plan

end World

end Backlog
