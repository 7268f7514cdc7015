import Backlog.Proofs.Allowance
import Backlog.Proofs.TicketLife

/-!
# What jobs are asked

An operation asks a job for a plan only by the reply that ends the body of an attempt, and then it
waits for the plan. As long as an operation waits it asks nothing, whatever else happens. An attempt
that ends leaves every job the plan it has.
-/

namespace Backlog

/-- The question if operation `a` asks a job for a plan. -/
def Event.question? (a : Nat) : Event → Option Hook
  | .asked b (.plan j t n reason limit) => if b = a then some (.plan j t n reason limit) else none
  | _ => none

theorem Event.question?_of_isNote {a b : Nat} {e : Event} (h : e.isNote b = true) :
    e.question? a = none := by
  cases e with
  | asked => cases h
  | _ => rfl

theorem Event.question?_asked {a b : Nat} (hne : a ≠ b) (q : Hook) :
    (Event.asked b q).question? a = none := by
  cases q with
  | plan => exact if_neg (Ne.symm hne)
  | _ => rfl

namespace Store

/-- Settling leaves every job the plan it has. -/
theorem plan_settle (s : Store) (m t : Nat) (o : Outcome) (j : Nat) :
    ((s.settle m t o).1.job j).plan = (s.job j).plan := by
  have wrap (s : Store) (k : Ticket) : ((s.wrap k).job j).plan = (s.job j).plan := by
    have h : (s.wrap k).job j = if j = k.job then _ else s.job j := Registry.get_put ..
    rw [h]
    split
    · rename_i hj
      rw [hj]
    · rfl
  obtain ⟨w, hw⟩ : ∃ w, w = s.onManager m (·.release (s.ticket t)) := ⟨_, rfl⟩
  have hs : (w.job j).plan = (s.job j).plan := by rw [hw]; rfl
  rw [← hs]
  apply settle_induction (P := fun r => (r.1.job j).plan = (w.job j).plan) hw
  · rfl
  · exact fun _ _ _ => rfl
  · rcases retry_cases w m t with ⟨f, h⟩ | ⟨k, -, -, h | ⟨next, d, rfl, h⟩⟩ <;> rw [h]
    · exact wrap w k
    · refine .trans ?_ (wrap w k)
      rw [spread_eq, onManager, stampTicket_eq]
      rfl

end Store

namespace World

variable {w w' x : World} {a b m t : Nat} {f : Frame} {r : Reply} {k : Caller} {o : Outcome}

/-- The questions by which operation `a` asked a job for a plan, the latest first. -/
def questions (w : World) (a : Nat) : List Hook := w.history.filterMap (Event.question? a)

theorem questions_eq {es : List Event} (h : w'.history = es ++ w.history)
    (hn : ∀ e ∈ es, e.question? a = none) : w'.questions a = w.questions a := by
  rw [questions, h, List.filterMap_append, List.filterMap_eq_nil_iff.mpr hn]
  rfl

theorem questions_enter (w : World) (b t : Nat) (n : Int) (k : Caller) (a : Nat) :
    (w.enter b t n k).questions a = w.questions a := by
  simp only [enter]
  split <;> rfl

/-- What follows a move asks for no plan and changes no job. -/
theorem questions_sequels (hs : Sequels b w w') (a : Nat) :
    w'.questions a = w.questions a ∧ w'.jobs = w.jobs := by
  induction hs with
  | refl => exact ⟨rfl, rfl⟩
  | tail _ hs ih =>
    suffices ∀ {v v' : World}, Sequel b v v' → v'.questions a = v.questions a ∧ v'.jobs = v.jobs from
      ⟨(this hs).1.trans ih.1, (this hs).2.trans ih.2⟩
    intro v v' hs
    cases hs with
    | wrote ls es he => exact ⟨questions_eq rfl fun e hm => Event.question?_of_isNote (he e hm), rfl⟩
    | told j t next ha ht hn => exact ⟨rfl, rfl⟩
    | welcomed j t ha => exact ⟨rfl, rfl⟩
    | departed m t s tally ha hc =>
      refine ⟨questions_enter .., ?_⟩
      rw [toStore_depart]
      exact (Store.claim_begins hc).jobs

/-- A call asks for no plan at once, and neither does a reply to another operation. -/
theorem questions_effect {mv : Move} (hne : ∀ r, mv ≠ .reply a r) :
    (w.effect mv).questions a = w.questions a := by
  cases mv with
  | call c =>
    simp only [effect]
    split
    · cases c with
      | run t n => exact questions_enter ..
      | _ => rfl
    · rfl
  | reply b r =>
    have hab : a ≠ b := fun h => hne r (h ▸ rfl)
    obtain ⟨-, es, hh, hq⟩ := history_reply w b r
    refine questions_eq hh fun e he => ?_
    obtain ⟨q, rfl⟩ := hq e he
    exact Event.question?_asked hab q
  | clock now => rfl
  | elapse nanos => rfl

/-- An operation that is not replied to asks for no plan. -/
theorem questions_step (h : w.Founded) {mv : Move} (hn : ∀ r, mv ≠ .reply a r) :
    (w.step mv).questions a = w.questions a :=
  (questions_sequels (step_sequels h mv) a).1.trans (questions_effect hn)

/-- Moves lead from `w` to `x`, and operation `a` waits in frame `f` all along. -/
def Awaits (a : Nat) (f : Frame) (w x : World) : Prop :=
  w.pending.find? a = some f ∧ ∃ moves, reply? a f moves = none ∧ x = w.run moves

/-- While an operation waits it asks nothing, and what lasts of a job lasts. -/
structure Stays (a : Nat) (f : Frame) (w x : World) : Prop where
  grounded : x.Grounded
  waits : x.pending.find? a = some f
  questions : x.questions a = w.questions a
  job : ∀ j < w.jobs.size, j < x.jobs.size ∧ (x.job j).lasting = (w.job j).lasting

theorem Stays.step (h : Stays a f w x) {mv : Move}
    (hn : ∀ r, mv = .reply a r → f.takes r = false) : Stays a f w (x.step mv) where
  grounded := h.grounded.step mv
  waits := (waits_step h.grounded.founded h.waits hn).2
  questions := by
    rw [← h.questions]
    by_cases hr : ∃ r, mv = .reply a r
    · obtain ⟨r, rfl⟩ := hr
      rw [step_untaken h.waits (hn r rfl)]
    · exact questions_step h.grounded.founded fun r he => hr ⟨r, he⟩
  job j hj := by
    obtain ⟨hx, hl⟩ := h.job j hj
    obtain ⟨hx', hl'⟩ := job_step h.grounded.founded mv hx
    exact ⟨hx', hl'.trans hl⟩

theorem Awaits.stays (h : Awaits a f w x) (hw : w.Grounded) : Stays a f w x := by
  obtain ⟨hf, moves, hr, rfl⟩ := h
  have hj := reply?_run (a := a) (f := f) (P := fun _ _ => True)
    (J := fun o x => o = none → Stays a f w x) (fun _ _ h _ hn _ => (h rfl).step hn)
    (fun _ _ _ _ _ => nofun) (fun _ _ _ _ _ => nofun) (along_true w moves)
    fun _ => ⟨hw, hf, rfl, fun _ hj => ⟨hj, rfl⟩⟩
  exact hj hr

/-- Reply `r` ends the attempt of operation `a` with outcome `o`. Before the caller has it, jobs
may get other plans and lines may be written, but nothing else changes. -/
structure Ends (w : World) (a : Nat) (r : Reply) (k : Caller) (o : Outcome) : Prop where
  concludes : ∃ v u, Replanned { w with pending := w.pending.erase a } v ∧ v.Logged u ∧
    w.step (.reply a r) = u.conclude a k o
  /-- A client is given the outcome and no fault. -/
  returns : k = .client →
    (w.step (.reply a r)).answers a = .returned a (.outcome (some o)) :: w.answers a

theorem ends_of_conclude {v u : World} (hv : Replanned { w with pending := w.pending.erase a } v)
    (hu : v.Logged u) (hs : w.step (.reply a r) = u.conclude a k o) : w.Ends a r k o where
  concludes := ⟨v, u, hv, hu, hs⟩
  returns hk := by
    subst hk
    obtain ⟨jobs, rfl, -⟩ := hv
    rw [hs, conclude, answers_give, hu.answers]
    rfl

/-- An attempt that ends asks for no plan, and every job is left the plan it has by then. -/
theorem conclude_leaves (hw : w.Founded) (hf : w.pending.find? a = some f) {v u : World}
    (hv : Replanned { w with pending := w.pending.erase a } v) (hu : v.Logged u)
    (hk : k.work = f.work) (o : Outcome) :
    (u.conclude a k o).questions a = w.questions a ∧
      ∀ j, ((u.conclude a k o).job j).plan = (v.job j).plan := by
  obtain ⟨jobs, rfl, -⟩ := hv
  obtain ⟨ls, es, he, rfl⟩ := hu
  have hs := questions_sequels (sequels_conclude (k := k) (o := o)
    (w := { w with jobs, pending := w.pending.erase a, loggers := ls, history := es ++ w.history })
    ⟨hw.numbered a f hf, Table.find?_erase_same ..⟩
    (fun m t h => hw.works a m t ((works_of_frame hf).mpr (hk ▸ h)))) a
  refine ⟨hs.1.trans (questions_eq rfl fun e hm => ?_), fun j => ?_⟩
  · obtain ⟨l, y, rfl⟩ := he e hm
    rfl
  · rw [Store.job, hs.2]
    cases k with
    | client => rfl
    | manager m t n since tally => exact Store.plan_settle ..

end World

end Backlog
