import Backlog.Proofs.Clamping
import Backlog.Proofs.Doubling
import Backlog.Proofs.Requeueing

/-!
# How long a new ticket waits

A job that is added waits for its own delay. One that is retried waits for the delay that its plan
names, or else for the backoff of the manager after so many attempts. From the attempts to the
deadline nothing leaves its word, and what is longer or later on the way never comes out earlier.
-/

namespace Backlog

/-- What a new ticket waits for: a delay that somebody named, or a backoff. -/
inductive Wait where
  | named (delay : Int)
  | backoff (kind : Backoff) (runs base cap : Int)
  deriving DecidableEq

namespace Wait

variable {x : Wait} {now : Int}

/-- A narrow word holds the number of attempts. -/
def Fits : Wait → Prop
  | named _ => True
  | backoff _ runs _ _ => Width.narrow.Holds runs

section

variable {m : Type → Type} [Monad m] {keep : Keep m}

/-- In milliseconds. -/
def lengthBy (keep : Keep m) : Wait → m Int
  | named delay => pure delay
  | backoff kind runs base cap => kind.delayBy keep runs base cap

def length (x : Wait) : Int := (x.lengthBy exactly).run

/-- The deadline of a wait that starts at `now`. -/
def deadlineBy (keep : Keep m) (now : Int) (x : Wait) : m (Option Int) := do
  Backlog.deadlineBy keep now (← x.lengthBy keep)

variable [LawfulMonad m]

theorem lengthBy_lenient (hk : keep.Lenient) (hx : x.Fits) : x.lengthBy keep = pure x.length := by
  cases x with
  | named delay => rfl
  | backoff kind runs base cap => exact Backoff.delayBy_lenient hk hx kind base cap

theorem deadlineBy_lenient (hk : keep.Lenient) (hx : x.Fits) (hn : Width.wide.Holds now) :
    x.deadlineBy keep now = pure (deadline now x.length) := by
  rw [deadlineBy, lengthBy_lenient hk hx, pure_bind]
  exact Backlog.deadlineBy_lenient hk hn x.length

end

end Wait

namespace Store

variable {s : Store} {m t : Nat}

/-- What the next ticket for the work of ticket `t` waits for. -/
def wait (s : Store) (m t : Nat) : Wait :=
  let c := (s.manager m).config
  ((s.plan t).bind (·.delay)).elim
    (.backoff c.backoff (s.ticket t).runs c.backoffBase c.longestBackoff) .named

theorem length_wait (s : Store) (m t : Nat) : (s.wait m t).length = s.retryDelay m t := by
  simp only [wait, retryDelay]
  cases (s.plan t).bind (·.delay) <;> rfl

theorem notBefore_requeued (s : Store) (m t : Nat) :
    ((s.requeued m t).ticket s.tickets.size).notBefore =
      deadline (s.time m) (s.wait m t).length := by
  rw [requeued, ticket_onManager, renewed, ticket_stampTicket_eq, if_pos rfl, ticket_wrap,
    if_pos rfl, length_wait]
  rfl

/-- A member that its group waits for does not wait longer itself. -/
theorem notBefore_spread (s : Store) (m t : Nat) (plan : Option RetryPlan) :
    ((s.spread m t plan).ticket t).notBefore = (s.ticket t).notBefore := by
  rw [ticket_spread]
  split
  · exact later_self _
  · rfl

theorem retry_deadline {d : Int} (h : (s.retry m t).2 = .ok (.retried d)) :
    ((s.retry m t).1.ticket s.tickets.size).notBefore =
      deadline (s.time m) (s.wait m t).length := by
  rw [retry_eq_requeued h, notBefore_spread, notBefore_requeued]

theorem settle_deadline {o : Outcome} {d : Int} (h : (s.settle m t o).2 = .ok (.retried d)) :
    ((s.settle m t o).1.ticket s.tickets.size).notBefore =
      deadline (s.time m) (s.wait m t).length := by
  obtain ⟨w, hw⟩ : ∃ w, w = s.onManager m (·.release (s.ticket t)) := ⟨_, rfl⟩
  have hg : w.manager m = (s.manager m).release (s.ticket t) := by
    rw [hw, manager_onManager, if_pos rfl]
  have htime : w.time m = s.time m := by rw [time, hg, hw]; rfl
  have hwait : w.wait m t = s.wait m t := by rw [wait, hg, hw]; rfl
  have ended {s : Store} {m t : Nat} {status : Status} {tell : Bool}
      (h : (s.finish m t status tell).2 = .ok (.retried d)) : False := by cases h
  refine settle_induction (s := s) (m := m) (t := t) (P := fun r => r.2 = .ok (.retried d) →
    (r.1.ticket s.tickets.size).notBefore = deadline (s.time m) (s.wait m t).length) hw
    (fun h => (ended h).elim) (fun status tell _ h => (ended h).elim) (fun h => ?_) o h
  rw [← htime, ← hwait, ← retry_deadline h, hw]
  rfl

end Store

namespace World

variable {w w' : World} {a m m' t : Nat} {mv mv' : Move} {x x' : Wait}

/-- What follows a move sets no deadline. -/
theorem notBefore_sequels (hs : Sequels a w w') (t : Nat) :
    (w'.ticket t).notBefore = (w.ticket t).notBefore := by
  induction hs with
  | refl => rfl
  | tail _ hs ih =>
    refine .trans ?_ ih
    cases hs with
    | wrote ls es he => rfl
    | told j u next ha hu hn =>
      change (Store.ticket (Store.onTicket ..) t).notBefore = _
      rw [Store.ticket_onTicket]
      split
      · rename_i ht
        rw [ht]
      · rfl
    | welcomed j u ha => rfl
    | departed i u s tally ha hc =>
      rw [toStore_depart]
      have hb := Store.claim_begins hc
      by_cases ht : t = u
      · rw [ht, hb.ticket]
      · rw [hb.others t ht]

/-- In this move manager `m` queues a new ticket that waits: for a job that is added, or for one
that is retried. -/
inductive Postpones (m : Nat) (w : World) : Move → Wait → Prop
  | added {j : Nat} {s : Store} (hm : m < w.managers.size) (hj : j < w.jobs.size)
    (hs : w.enlist m j = some s) :
    Postpones m w (.call (.manager m (.add (some j)))) (.named (w.job j).delay)
  | retried {a t : Nat} {f : Frame} {r : Reply} {v : World} {k : Caller} {o : Outcome} {d : Int}
    (hf : w.pending.find? a = some f) (hr : w.Rules f r v k o) (hk : k.work = some (m, t))
    (hs : (v.settle m t o).2 = .ok (.retried d)) :
    Postpones m w (.reply a r) (v.wait m t)

theorem Postpones.notBefore (h : w.Postpones m mv x) (hw : w.Founded) :
    ((w.step mv).ticket w.tickets.size).notBefore = deadline (w.time m) x.length := by
  rw [notBefore_sequels (step_sequels hw mv)]
  cases h with
  | @added j s hm hj hs =>
    rw [toStore_manage (by simp [Call.inScope, hm, hj])]
    change (((w.enlist m j).getD w.toStore).ticket _).notBefore = _
    rw [hs]
    exact Store.enlist_deadline hs
  | retried hf hr hk hs =>
    obtain ⟨n, since, tally, rfl⟩ := Caller.eq_of_work hk
    rw [effect_rules hf hr]
    obtain ⟨jobs, rfl, -⟩ := hr.replanned
    exact Store.settle_deadline hs

/-- The deadline that a move sets its new ticket, as a wide word. -/
def newDeadline (w : World) (mv : Move) : Int :=
  deadlineWord ((w.step mv).ticket w.tickets.size).notBefore

theorem Postpones.newDeadline (h : w.Postpones m mv x) (hw : w.Founded) :
    w.newDeadline mv = deadlineWord (deadline (w.time m) x.length) :=
  congrArg deadlineWord (h.notBefore hw)

/-- A new ticket, for a job that is added or for one that is retried, gets a deadline that is
computed without leaving a word. There is none exactly if the delay is not positive, and else it
lies between the present, or `latest` if that is earlier, and `latest`. Later on and with a longer
delay it is not earlier, nor is it after more attempts under the same backoff. The delay of a plan
that doubles a first delay is computed without leaving a word as well. -/
theorem delays_never_wrap (h : w.Reachable) (hp : w.Postpones m mv x) (hx : x.Fits)
    (hn : Width.wide.Holds (w.time m)) :
    x.deadlineBy checked (w.time m) = some ((w.step mv).ticket w.tickets.size).notBefore ∧
    (w.newDeadline mv = Width.wide.least ↔ x.length ≤ 0) ∧
    (0 < x.length → min (w.time m) (2 ^ 63 - 2) ≤ w.newDeadline mv ∧
      w.newDeadline mv ≤ 2 ^ 63 - 2) ∧
    (∀ (w' : World) m' mv' (x' : Wait), w'.Reachable → w'.Postpones m' mv' x' → x'.Fits →
      Width.wide.Holds (w'.time m') → w.time m ≤ w'.time m' →
      (x.length ≤ x'.length ∨ ∃ kind runs runs' base cap, x = .backoff kind runs base cap ∧
        x' = .backoff kind runs' base cap ∧ runs ≤ runs') →
      w.newDeadline mv ≤ w'.newDeadline mv') ∧
    ∀ runs first, Width.narrow.Holds runs →
      Backoff.delayBy checked .doubling runs first 0 = (RetryPlan.doubling runs first).delay := by
  have hw := h.grounded.founded
  have hd := hp.newDeadline hw
  rw [hd]
  refine ⟨?_, deadlineWord_eq_least_iff hn, fun hpos => deadlineWord_bounds hn hpos,
    fun w' m' mv' x' h' hp' hx' hn' hnow hle => ?_, fun runs first hr =>
      Backoff.delayBy_lenient lenient_checked hr .doubling first 0⟩
  · rw [hp.notBefore hw]
    exact Wait.deadlineBy_lenient lenient_checked hx hn
  rw [hp'.newDeadline h'.grounded.founded]
  refine deadlineWord_mono hn hn' hnow ?_
  rcases hle with hle | ⟨kind, runs, runs', base, cap, rfl, rfl, hruns⟩
  · exact hle
  · exact Backoff.delay_mono hx hx' hruns (le_refl base)

/-- A job fails at time 0 and waits for 3 ms, which double with every attempt. -/
def doublings : World := (start 0).run
  [.call (.makeJob { id := "a" }),
    .call (.makeManager { clock := .given, backoff := .doubling, backoffBase := 3 }),
    .call (.manager 0 (.add (some 0))), .call (.manager 0 .runNext)]

/-- The same job in its second attempt. The clock has gone back to 0 since it began. -/
def doublingsLater : World := doublings.run
  [.reply 3 (.failed "x"), .clock 3000000, .call (.manager 0 .runNext), .clock 0]

/-- The second deadline is not earlier than the first, which is not read as none. -/
theorem delays_never_wrap_doublings :
    doublings.newDeadline (.reply 3 (.failed "x")) ≤
        doublingsLater.newDeadline (.reply 4 (.failed "x")) ∧
      0 ≤ doublings.newDeadline (.reply 3 (.failed "x")) ∧
      doublings.newDeadline (.reply 3 (.failed "x")) ≠ Width.wide.least := by
  have hr : doublings.Reachable := ⟨0, _, rfl⟩
  have hr' : doublingsLater.Reachable := ⟨0, _, (run_append ..).symm⟩
  have hp : doublings.Postpones 0 (.reply 3 (.failed "x")) (.backoff .doubling 1 3 5000) := by
    have hp := Postpones.retried (m := 0) (t := 0) (d := 3) (w := doublings) (a := 3)
      (f := .body 0 0 1 (.manager 0 0 1 0 none)) (by decide +kernel)
      (.unasked 0 0 1 _ (.failed "x") rfl (by decide +kernel) (by decide +kernel)
        (by decide +kernel)) rfl (by decide +kernel)
    rwa [show Store.wait _ 0 0 = .backoff .doubling 1 3 5000 by decide +kernel] at hp
  have hp' : doublingsLater.Postpones 0 (.reply 4 (.failed "x")) (.backoff .doubling 2 3 5000) := by
    have hp := Postpones.retried (m := 0) (t := 1) (d := 6) (w := doublingsLater) (a := 4)
      (f := .body 0 1 2 (.manager 0 1 2 0 none)) (by decide +kernel)
      (.unasked 0 1 2 _ (.failed "x") rfl (by decide +kernel) (by decide +kernel)
        (by decide +kernel)) rfl (by decide +kernel)
    rwa [show Store.wait _ 0 1 = .backoff .doubling 2 3 5000 by decide +kernel] at hp
  have hn : Width.wide.Holds (doublings.time 0) := by decide +kernel
  have hn' : Width.wide.Holds (doublingsLater.time 0) := by decide +kernel
  obtain ⟨-, hleast, hbounds, hmono, -⟩ := delays_never_wrap hr hp
    (by decide : Width.narrow.Holds 1) hn
  have hlength : (Wait.backoff .doubling 1 3 5000).length = 3 := by decide
  rw [hlength] at hleast hbounds
  refine ⟨hmono _ 0 _ _ hr' hp' (by decide : Width.narrow.Holds 2) hn' (by decide +kernel)
    (.inr ⟨.doubling, 1, 2, 3, 5000, rfl, rfl, by decide⟩), ?_, fun h => ?_⟩
  · have htime : doublings.time 0 = 0 := by decide +kernel
    have hlow := (hbounds (by decide)).1
    rw [htime] at hlow
    exact hlow
  · exact absurd (hleast.mp h) (by decide)

end World

end Backlog
