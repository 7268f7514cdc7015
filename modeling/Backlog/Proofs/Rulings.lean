import Backlog.Proofs.Answers

/-!
# How attempts end

A reply ends an attempt with an outcome, unless the job is asked for a plan first. Whatever the
operation then comes to, only lines stand between it and the settled store: it ends with a
fault, the job is told, or the operation goes on.
-/

namespace Backlog

/-- What a caller does with the outcome of its attempt. -/
def Caller.next (o : Outcome) : Caller → Next
  | .client => .give (.outcome (some o))
  | .manager m _ _ _ tally => .proceed m o tally

/-- The manager that the operation goes on with. -/
def Next.serves : Next → Option Nat
  | .give _ => none
  | .proceed m _ _ => some m

def Frame.serves : Frame → Option Nat
  | .told next => next.serves
  | .attempt k | .body _ _ _ k | .plan _ _ _ _ k => k.work.map Prod.fst

@[simp] theorem Caller.serves_next (k : Caller) (o : Outcome) :
    (k.next o).serves = k.work.map Prod.fst := by
  cases k <;> rfl

theorem Frame.serves_of_work {f : Frame} {m t : Nat} (h : f.work = some (m, t)) :
    f.serves = some m := by
  cases f with
  | told next => cases h
  | _ => exact congrArg (Option.map Prod.fst) h

/-- The body failed or threw. -/
def Reply.fails : Reply → Bool
  | .failed _ | .threw _ => true
  | _ => false

namespace World

/-- The reply ends the attempt in the frame with outcome `o`, which `k` waits for. In `v` the job
has the plan that counts. -/
inductive Rules (w : World) : Frame → Reply → World → Caller → Outcome → Prop
  | decided (k : Caller) (o : Outcome) : Rules w (.attempt k) (.outcome o) w k o
  | succeeded (j t : Nat) (n : Int) (k : Caller) : Rules w (.body j t n k) .succeeded w k .success
  /-- A job that is not asked runs again while attempts are left. -/
  | unasked (j t : Nat) (n : Int) (k : Caller) (r : Reply) (hr : r.fails = true)
    (hl : n < (w.job j).retryLimit) (hc : (w.ticket t).cancelled = false)
    (ha : (w.job j).asksPlan = false) :
    Rules w (.body j t n k) r ((w.intend j none).intend j (some .again)) k .again
  | exhausted (j t : Nat) (n : Int) (k : Caller) (r : Reply) (hr : r.fails = true)
    (hl : n < (w.job j).retryLimit → (w.ticket t).cancelled = true) :
    Rules w (.body j t n k) r (w.intend j none) k
      (if (w.ticket t).cancelled then .cancelled else .runLimit)
  | planned (j t : Nat) (n : Int) (reason : String) (k : Caller) (p : RetryPlan) (r : Reply)
    (hr : r = .plan p ∨ (∃ x, r = .threw x) ∧ p = .never) :
    Rules w (.plan j t n reason k) r (w.intend j (some p)) k
      ((w.intend j (some p)).failureOutcome j t n)

/-- Operation `a`, which waited in frame `f`, gets a reply. By then the settled world is as the
second argument says, and the operation comes to the last. -/
inductive Resumes (w : World) (a : Nat) (f : Frame) (r : Reply) : World → World → Prop
  | asked (j t : Nat) (n : Int) (reason : String) (k : Caller) (q : Hook) (hf : f = .body j t n k)
    (hl : n < (w.job j).retryLimit) :
    Resumes w a f r ((w.intend j none).ask a (.plan j t n reason k) q)
      ((w.intend j none).ask a (.plan j t n reason k) q)
  | threw (next : Next) (x : Thrown) (hf : f = .told next) (hr : r = .threw x) :
    Resumes w a f r w (w.raise a (.thrown x))
  | done (next : Next) (hf : f = .told next) (hr : r = .done) :
    Resumes w a f r w (w.resumeNext a next)
  | failed (u v : World) (k : Caller) (o : Outcome) (m t : Nat) (fault : Fault)
    (hv : w.Rules f r v k o) (hk : k.work = some (m, t))
    (hs : (v.settle m t o).2 = .error fault) (hu : (v.close k o).Logged u) :
    Resumes w a f r (v.close k o) (u.raise a fault)
  | told (u v : World) (k : Caller) (o : Outcome) (m t j : Nat) (hv : w.Rules f r v k o)
    (hk : k.work = some (m, t)) (hu : (v.close k o).Logged u) (hn : (u.ticket t).notified = false) :
    Resumes w a f r (v.close k o)
      ({ u with toStore := u.onTicket t ({ · with notified := true }) }.ask a (.told (k.next o))
        (.ended j t))
  | went (u v : World) (k : Caller) (o : Outcome) (hv : w.Rules f r v k o)
    (hu : (v.close k o).Logged u) :
    Resumes w a f r (v.close k o) (u.resumeNext a (k.next o))

variable {w w' u v : World} {a m t : Nat} {f : Frame} {r : Reply} {k : Caller} {o : Outcome}

/-- What is written whoever acts are lines. -/
theorem logged_of_wrote (h : ∀ a, Wrote a w w') : w.Logged w' := by
  obtain ⟨ls, es, he, hw⟩ := h 0
  obtain ⟨ls', es', he', hw'⟩ := h 1
  obtain rfl : es = es' := by
    have hh := congrArg World.history (hw.symm.trans hw')
    exact List.append_cancel_right hh
  refine ⟨ls, es, fun e hm => ?_, hw⟩
  have h₀ := he e hm
  have h₁ := he' e hm
  cases e with
  | logged l x => exact ⟨l, x, rfl⟩
  | returned b v =>
    rw [Event.isNote, beq_iff_eq] at h₀ h₁
    exact absurd (h₀.symm.trans h₁) Nat.zero_ne_one
  | raised b f =>
    rw [Event.isNote, beq_iff_eq] at h₀ h₁
    exact absurd (h₀.symm.trans h₁) Nat.zero_ne_one
  | _ => cases h₀

/-- A line answers nobody. -/
theorem Logged.answers (h : w.Logged w') (a : Nat) : w'.answers a = w.answers a := by
  obtain ⟨ls, es, he, rfl⟩ := h
  refine answers_eq rfl fun e hm => ?_
  obtain ⟨l, x, rfl⟩ := he e hm
  rfl

/-- Once a manager has settled the ticket it writes how the attempt ended, and tells the job if it
has to. Lines that are written before make no difference. -/
theorem conclude_manager (hu : v.Logged u) (a m t : Nat) (n : Int) (since : Nat)
    (tally : Option Nat) (o : Outcome) :
    ∃ x, (v.close (.manager m t n since tally) o).Logged x ∧
      u.conclude a (.manager m t n since tally) o = match (v.settle m t o).2 with
        | .error f => x.raise a f
        | .ok (.ended status true) =>
          (x.report m t n since o (.ended status true)).tell a t (.proceed m o tally)
        | .ok e => (x.report m t n since o e).proceed a m o tally := by
  obtain ⟨ls, es, he, hu⟩ := hu
  have hst : u.toStore = v.toStore.logging ls := by rw [hu]; rfl
  refine ⟨{ u with toStore := (v.settle m t o).1.logging ls }, ⟨ls, es, he, by rw [hu]; rfl⟩, ?_⟩
  simp only [conclude]
  rw [hst, Store.settle_logging]
  cases (v.settle m t o).2 with
  | error f => rfl
  | ok e =>
    cases e with
    | retried delay => rfl
    | ended status tell => cases tell <;> rfl

theorem Rules.resumes (hv : w.Rules f r v k o) (hu : v.Logged u) (a : Nat) :
    Resumes w a f r (v.close k o) (u.conclude a k o) := by
  cases k with
  | client => exact .went _ _ _ _ hv hu
  | manager m t n since tally =>
    obtain ⟨x, hx, he⟩ := conclude_manager hu a m t n since tally o
    have hreport (e : Store.Ending) := hx.trans (logged_report x m t n since o e)
    rw [he]
    split
    · rename_i f hs
      exact .failed _ _ _ _ m t f hv rfl hs hx
    · simp only [tell]
      split
      · exact .went _ _ _ _ hv (hreport _)
      · rename_i hn
        exact .told _ _ _ _ m t _ hv rfl (hreport _) (by simpa using hn)
    · exact .went _ _ _ _ hv (hreport _)

/-- The outcome of a failed attempt by the plan that the job has. -/
theorem failureOutcome_intend (w : World) (j t : Nat) (n : Int) (p : Option RetryPlan) :
    (w.intend j p).failureOutcome j t n =
      if (w.ticket t).cancelled then .cancelled
      else if p.any (·.retry) then .again
      else if n < (w.job j).retryLimit then .declined
      else .runLimit := by
  simp [failureOutcome, intend]

theorem failureOutcome_again {j t : Nat} (hc : (w.ticket t).cancelled = false) (n : Int) :
    ((w.intend j none).intend j (some .again)).failureOutcome j t n = .again := by
  rw [failureOutcome_intend, show (w.intend j none).ticket t = w.ticket t from rfl, hc]
  rfl

/-- With no attempts left, or the ticket cancelled, the work ends. -/
theorem failureOutcome_exhausted {j t : Nat} {n : Int}
    (hl : n < (w.job j).retryLimit → (w.ticket t).cancelled = true) :
    (w.intend j none).failureOutcome j t n =
      if (w.ticket t).cancelled then .cancelled else .runLimit := by
  rw [failureOutcome_intend]
  cases hc : (w.ticket t).cancelled with
  | true => rfl
  | false => simpa [hc] using hl

theorem conclusion_resumes {j : Nat} {n : Int} (hv : w.Rules f r v k (v.failureOutcome j t n))
    (a : Nat) (reason : String) :
    Resumes w a f r (v.closeFailed j t n k) (v.conclusion a j t n reason k) := by
  obtain ⟨u, hu, he⟩ := conclusion_eq v a j t n reason k
  rw [he]
  exact hv.resumes hu a

theorem failed_resumes (j : Nat) (n : Int) (hr : r.fails = true) (a : Nat) (reason : String) :
    Resumes w a (.body j t n k) r (w.falter a j t n reason k) (w.failed a j t n reason k) := by
  refine falter_cases (P := Resumes w a _ r) (fun hl _ => .asked j t n reason k _ rfl hl)
    (fun hl hc ha => ?_) fun hl => ?_
  · refine conclusion_resumes (v := (w.intend j none).intend j (some .again)) ?_ a reason
    rw [failureOutcome_again hc]
    exact .unasked j t n k r hr hl hc ha
  · refine conclusion_resumes (v := w.intend j none) ?_ a reason
    rw [failureOutcome_exhausted hl]
    exact .exhausted j t n k r hr hl

/-- What comes of a reply that is taken. -/
theorem resumes (hr : f.takes r = true) (a : Nat) :
    Resumes w a f r (w.hear a f r) (w.resume a f r) := by
  cases f with
  | told next =>
    cases r with
    | done => exact .done next rfl rfl
    | threw x => exact .threw next x rfl rfl
    | _ => cases hr
  | attempt k =>
    cases r with
    | outcome o => exact (Rules.decided k o).resumes (.refl w) a
    | _ => cases hr
  | body j t n k =>
    cases r with
    | succeeded => exact (Rules.succeeded j t n k).resumes (.refl w) a
    | failed reason => exact failed_resumes j n rfl a reason
    | threw x => exact failed_resumes j n rfl a _
    | _ => cases hr
  | plan j t n reason k =>
    cases r with
    | plan p => exact conclusion_resumes (.planned j t n reason k p _ (.inl rfl)) a reason
    | threw x =>
      exact conclusion_resumes (.planned j t n reason k _ _ (.inr ⟨⟨x, rfl⟩, rfl⟩)) a _
    | _ => cases hr

/-- What comes of a reply, if anything does. -/
theorem step_resumes (w : World) (a : Nat) (r : Reply) :
    w.step (.reply a r) = w ∧ w.effect (.reply a r) = w ∨ ∃ f, w.pending.find? a = some f ∧
      f.takes r = true ∧ Resumes { w with pending := w.pending.erase a } a f r
        (w.effect (.reply a r)) (w.step (.reply a r)) := by
  cases hf : w.pending.find? a with
  | none =>
    refine .inl ⟨step_reply_none hf r, ?_⟩
    simp only [effect]
    rw [hf]
  | some f =>
    cases hr : f.takes r with
    | false => exact .inl ⟨step_untaken hf hr, effect_untaken hf hr⟩
    | true =>
      rw [effect_taken hf hr, step_taken hf hr]
      exact .inr ⟨f, rfl, hr, resumes hr a⟩

/-- What a reply does at once, if anything: the job is asked for a plan, the attempt ends, or only
the wait does. -/
theorem effect_reply_cases (w : World) (a : Nat) (r : Reply) :
    w.effect (.reply a r) = w ∨ ∃ f u, w.pending.find? a = some f ∧
      u = { w with pending := w.pending.erase a } ∧
      (w.effect (.reply a r) = u ∨
        (∃ j t n reason k q, f = .body j t n k ∧
          w.effect (.reply a r) = (u.intend j none).ask a (.plan j t n reason k) q) ∨
        ∃ v k o, u.Rules f r v k o ∧ w.effect (.reply a r) = v.close k o) := by
  rcases step_resumes w a r with ⟨-, he⟩ | ⟨f, hf, -, hr⟩
  · exact .inl he
  refine .inr ⟨f, _, hf, rfl, ?_⟩
  generalize w.effect (.reply a r) = x at hr
  generalize w.step (.reply a r) = y at hr
  cases hr with
  | asked j t n reason k q hq hl => exact .inr (.inl ⟨j, t, n, reason, k, q, hq, rfl⟩)
  | threw next x hq hr => exact .inl rfl
  | done next hq hr => exact .inl rfl
  | failed u v k o m t fault hv hk hs hu => exact .inr (.inr ⟨v, k, o, hv, rfl⟩)
  | told u v k o m t j hv hk hu hn => exact .inr (.inr ⟨v, k, o, hv, rfl⟩)
  | went u v k o hv hu => exact .inr (.inr ⟨v, k, o, hv, rfl⟩)

theorem Rules.takes (h : w.Rules f r v k o) : f.takes r = true := by
  cases h with
  | decided => rfl
  | succeeded => rfl
  | unasked j t n k r hr => cases r <;> first | rfl | cases hr
  | exhausted j t n k r hr => cases r <;> first | rfl | cases hr
  | planned j t n reason k p r hr => rcases hr with rfl | ⟨⟨x, rfl⟩, -⟩ <;> rfl

theorem Rules.work (h : w.Rules f r v k o) : k.work = f.work := by cases h <;> rfl

theorem Rules.replanned (h : w.Rules f r v k o) : w.Replanned v := by
  have hw := (Replanned.refl w).intend
  cases h with
  | decided => exact .refl w
  | succeeded => exact .refl w
  | unasked j => exact (hw j none).intend j _
  | exhausted j => exact hw j none
  | planned j t n reason k p => exact hw j (some p)

/-- Who else waits does not matter. -/
theorem Rules.withPending (h : w.Rules f r v k o) (p : Table Nat Frame) :
    Rules { w with pending := p } f r { v with pending := p } k o := by
  cases h with
  | decided => exact .decided ..
  | succeeded => exact .succeeded ..
  | unasked j t n k r hr hl hc ha => exact .unasked j t n k r hr hl hc ha
  | exhausted j t n k r hr hl => exact .exhausted j t n k r hr hl
  | planned j t n reason k p r hr => exact .planned j t n reason k p r hr

theorem Rules.hear (h : w.Rules f r v k o) (a : Nat) : w.hear a f r = v.close k o := by
  cases h with
  | decided => rfl
  | succeeded => rfl
  | unasked j t n k r hr hl hc ha =>
    have hw (reason : String) : w.falter a j t n reason k =
        ((w.intend j none).intend j (some .again)).close k .again := by
      rw [falter, if_pos ⟨hl, by simp [hc]⟩, if_neg (by simp [ha]), closeFailed,
        failureOutcome_again hc]
    cases r <;> first | exact hw _ | cases hr
  | exhausted j t n k r hr hl =>
    have hw (reason : String) : w.falter a j t n reason k = (w.intend j none).close k
        (if (w.ticket t).cancelled then .cancelled else .runLimit) := by
      rw [falter, if_neg (by simpa using hl), closeFailed, failureOutcome_exhausted hl]
    cases r <;> first | exact hw _ | cases hr
  | planned j t n reason k p r hr => rcases hr with rfl | ⟨⟨x, rfl⟩, rfl⟩ <;> rfl

/-- The effect of a reply that ends an attempt. -/
theorem effect_rules (hf : w.pending.find? a = some f) (h : w.Rules f r v k o) :
    w.effect (.reply a r) = World.close { v with pending := w.pending.erase a } k o := by
  rw [effect_taken hf h.takes, (h.withPending (w.pending.erase a)).hear a]

/-- A manager begins attempts of its own only. -/
theorem works_next (hp : w.pending.find? a = none) {i : Nat} {tally : Option Nat}
    (h : (w.next a i tally).Works a m t) : i = m := by
  simp only [next] at h
  split at h
  · exact (not_works hp h).elim
  · rw [works_enter] at h
    rcases h with ⟨-, h⟩ | ⟨hne, -⟩
    · exact (Prod.mk.inj (Option.some.inj h)).1
    · exact (hne rfl).elim

theorem works_resumeNext (hp : w.pending.find? a = none) {next : Next}
    (h : (w.resumeNext a next).Works a m t) : next.serves = some m := by
  cases next with
  | give v => exact (not_works hp h).elim
  | proceed i o tally =>
    cases tally with
    | none => exact (not_works hp h).elim
    | some n => exact congrArg some (works_next hp h)

theorem works_tell (hp : w.pending.find? a = none) {x : Nat} {next : Next}
    (h : (w.tell a x next).Works a m t) : next.serves = some m := by
  simp only [tell] at h
  split at h
  · exact works_resumeNext hp h
  · rcases works_ask.mp h with ⟨-, h⟩ | ⟨hne, -⟩
    · cases h
    · exact (hne rfl).elim

/-- Nobody works who has only written. -/
theorem Wrote.not_works (h : Wrote a w w') (hp : w.pending.find? a = none) : ¬w'.Works a m t := by
  obtain ⟨ls, es, -, rfl⟩ := h
  exact World.not_works hp

theorem works_callManager (hp : w.pending.find? a = none) {i : Nat} {c : ManagerCall}
    (h : (w.callManager a i c).Works a m t) : i = m := by
  have asks {v : World} {next : Next} {q : Hook} (h : (v.ask a (.told next) q).Works a m t) :
      False := by
    rcases works_ask.mp h with ⟨-, h⟩ | ⟨hne, -⟩
    · cases h
    · exact hne rfl
  cases c with
  | add j =>
    cases j with
    | none => exact (not_works hp h).elim
    | some j =>
      simp only [callManager, add] at h
      split at h
      · exact (not_works hp h).elim
      · exact (asks h).elim
  | runNext => exact works_next hp h
  | runUntilIdle => exact works_next hp h
  | cancel id =>
    simp only [callManager, cancel] at h
    split at h
    · exact (not_works hp h).elim
    · rename_i s _ _
      have hw := wrote_note (a := a) { w with toStore := s } i .warn id "cancel requested"
        [("event", "job_cancel"), ("state", "Running")]
      exact ((hw.trans (wrote_give ..)).not_works hp h).elim
    · rename_i s x _
      have hw := wrote_note (a := a) { w with toStore := s } i .warn id "cancelled"
        [("event", "job_cancel"), ("state", "Queued")]
      obtain ⟨ls, es, -, hw⟩ := hw
      have hp' := (congrArg (·.pending.find? a) hw).trans hp
      cases works_tell hp' h
  | recover ts => exact ((wrote_recovered w a i ts).not_works hp h).elim
  | network up => exact ((wrote_setNetwork w a i up).not_works hp h).elim
  | stop => exact ((wrote_stop w a i).not_works hp h).elim

theorem works_perform (hp : w.pending.find? a = none) {c : Call}
    (h : (w.perform a c).Works a m t) : ∃ d, c = .manager m d := by
  have commit {v : Value} {s : Except Fault Store} (h : (w.commit a v s).Works a m t) : False := by
    cases s <;> exact not_works hp h
  cases c with
  | makeJob p => exact (commit h).elim
  | editJob j e => exact (not_works hp h).elim
  | build d => exact (commit h).elim
  | editTicket t e => exact (commit h).elim
  | tell x => cases works_tell hp h
  | run x n =>
    rcases works_enter.mp h with ⟨-, h⟩ | ⟨hne, -⟩
    · cases h
    · exact (hne rfl).elim
  | attempt x n =>
    rcases works_ask.mp h with ⟨-, h⟩ | ⟨hne, -⟩
    · cases h
    · exact (hne rfl).elim
  | makeQueue => exact (not_works hp h).elim
  | queue q c => exact (not_works hp h).elim
  | makeManager c =>
    have hw := wrote_announce (a := a) { w with toStore := w.establish c } w.managers.size
      "job manager started"
      [("session", toString ((w.establish c).manager w.managers.size).session)]
    exact ((hw.trans (wrote_give ..)).not_works hp h).elim
  | manager i d =>
    obtain rfl := works_callManager hp h
    exact ⟨d, rfl⟩
  | makeLogger => exact (not_works hp h).elim
  | logger l c => exact ((wrote_callLogger ..).not_works hp h).elim

/-- Whoever works for a manager after its step was called there, or went on with it. -/
theorem step_works (hf : w.Founded) {mv : Move} (h : (w.step mv).Works (w.acting mv) m t) :
    (∃ d, mv = .call (.manager m d)) ∨
      ∃ r g, mv = .reply (w.acting mv) r ∧ w.pending.find? (w.acting mv) = some g ∧
        g.serves = some m := by
  have hnew : w.pending.find? w.calls = none :=
    Option.eq_none_iff_forall_ne_some.mpr fun f hw => Nat.lt_irrefl _ (hf.numbered _ f hw)
  cases mv with
  | call c =>
    simp only [step] at h
    split at h
    · obtain ⟨d, rfl⟩ := works_perform (w := { w with calls := w.calls + 1 }) hnew h
      exact .inl ⟨d, rfl⟩
    · exact (not_works hnew h).elim
  | clock now => exact (not_works (w := { w with now }) hnew h).elim
  | elapse nanos => exact (not_works (w := { w with uptime := w.uptime + nanos }) hnew h).elim
  | reply b r =>
    right
    suffices ∃ g, w.pending.find? b = some g ∧ g.serves = some m by
      obtain ⟨g, hg, hs⟩ := this
      exact ⟨r, g, rfl, hg, hs⟩
    change (w.step (.reply b r)).Works b m t at h
    rcases step_resumes w b r with ⟨hs, -⟩ | ⟨f, hfr, -, hres⟩
    · rw [hs] at h
      cases hfr : w.pending.find? b with
      | none => exact (not_works hfr h).elim
      | some f => exact ⟨f, rfl, Frame.serves_of_work ((works_of_frame hfr).mp h)⟩
    refine ⟨f, hfr, ?_⟩
    have hp : (w.pending.erase b).find? b = none := Table.find?_erase_same ..
    generalize w.effect (.reply b r) = e, w.step (.reply b r) = w' at h hres
    have closed {u v : World} {c : Caller} {o : Outcome}
        (hv : Rules { w with pending := w.pending.erase b } f r v c o)
        (hu : (v.close c o).Logged u) : u.pending.find? b = none := by
      obtain ⟨ls, es, -, rfl⟩ := hu
      exact (congrArg (·.find? b) hv.replanned.pending).trans hp
    cases hres with
    | asked j x n reason c q hj hl =>
      subst hj
      rcases works_ask.mp h with ⟨-, hw⟩ | ⟨hne, -⟩
      · exact Frame.serves_of_work hw
      · exact (hne rfl).elim
    | threw next y hj hr => exact (not_works hp h).elim
    | done next hj hr =>
      subst hj
      exact works_resumeNext hp h
    | failed u v c o i x fault hv hc hs hu => exact (not_works (closed hv hu) h).elim
    | told u v c o i x j hv hc hu hn =>
      rcases works_ask.mp h with ⟨-, hw⟩ | ⟨hne, -⟩
      · cases hw
      · exact (hne rfl).elim
    | went u v c o hv hu =>
      have hs := works_resumeNext (closed hv hu) h
      rw [Caller.serves_next, hv.work] at hs
      obtain ⟨⟨i, x⟩, hw, rfl⟩ := Option.map_eq_some_iff.mp hs
      exact Frame.serves_of_work hw

end World

end Backlog
