import Backlog.Proofs.Balance
import Backlog.Proofs.Cancellation
import Backlog.Proofs.Draining
import Backlog.Proofs.Rulings

/-!
# Faults and the works behind them

A work that a manager has taken in is accounted for whatever happens: its id is queued or running,
or the work has ended with a status that means something. Two things stand against this. A ticket
that counts a negative number of attempts cannot be followed by another, and an outcome without a
meaning ends a work with the status unknown.
-/

namespace Backlog

/-- The outcome has a meaning. -/
def Outcome.named : Outcome → Bool
  | .other _ => false
  | _ => true

namespace World

/-- No job decides on an outcome that has no meaning. -/
def named : Move → Prop
  | .reply _ (.outcome o) => o.named = true
  | _ => True

/-- Manager `m` holds the id, or the work under it is over with a status that `S` allows. -/
def Accounts (S : Status → Prop) (m : Nat) (id : String) (w : World) : Prop :=
  (w.manager m).free id = false ∨ ∃ status, S status ∧ w.Over m id status

variable {S : Status → Prop} {w w' v : World} {a b m t : Nat} {id : String} {f : Frame}
  {r : Reply} {mv : Move} {moves : List Move}

theorem Accounts.agrees (h : w.Accounts S m id) (ha : (w.manager m).Agrees (w'.manager m) id) :
    w'.Accounts S m id :=
  h.imp (fun hf => ha.free.trans hf) fun ⟨status, hs, ho⟩ => ⟨status, hs, ho.agrees ha⟩

theorem Accounts.sequels (h : w.Accounts S m id) (hw : w.Sound m) (hs : Sequels a w w') :
    w'.Accounts S m id := by
  rcases h with hf | ⟨status, hst, ho⟩
  · left
    induction hs with
    | refl => exact hf
    | tail _ hs ih => exact held_sequel hs ih
  · exact .inr ⟨status, hst, ho.sequels hw hs⟩

/-- A cancellation leaves its id held, or its work has ended as cancelled. -/
theorem Accounts.cancel (h : w.Accounts S m id) (hS : S .cancelled) :
    (w.effect (.cancel m id)).Accounts S m id := by
  by_cases hm : m < w.managers.size
  · cases hw : w.withdraw m id with
    | none =>
      refine h.agrees (.of_eq ?_)
      rw [toStore_cancel hm, hw]
      rfl
    | some p =>
      obtain ⟨s, d⟩ := p
      have hs : (w.effect (.cancel m id)).toStore = s := by
        rw [toStore_cancel hm, hw]
        rfl
      rcases Store.withdraw_cases hw with ⟨u, -, hc, -⟩ | ⟨-, u, queue, -, -, rfl⟩
      · refine h.agrees (.of_eq ?_)
        rw [hs, hc]
        rfl
      · obtain ⟨hf, hd⟩ := Store.withdraw_dropped_ended hw
        exact .inr ⟨.cancelled, hS, hs ▸ hf, hs ▸ hd⟩
  · simp only [World.effect]
    rw [if_neg (by simp [Call.inScope, hm])]
    exact h

/-- A reply to an attempt ends it with an outcome, or leaves the managers as they are. -/
theorem effect_work (hwork : w.Works a m t) (r : Reply) :
    (w.effect (.reply a r)).manager = w.manager ∨ ∃ f v k o, w.pending.find? a = some f ∧
      Rules { w with pending := w.pending.erase a } f r v k o ∧ k.work = some (m, t) ∧
      w.effect (.reply a r) = v.close k o := by
  rcases step_resumes w a r with ⟨-, he⟩ | ⟨f, hf, -, hr⟩
  · exact .inl (by rw [he])
  have hwf := (works_of_frame hf).mp hwork
  generalize w.effect (.reply a r) = e, w.step (.reply a r) = w' at hr
  have ends {v : World} {k : Caller} {o : Outcome}
      (hv : Rules { w with pending := w.pending.erase a } f r v k o) :
      (v.close k o).manager = w.manager ∨ ∃ f' v' k' o', w.pending.find? a = some f' ∧
        Rules { w with pending := w.pending.erase a } f' r v' k' o' ∧ k'.work = some (m, t) ∧
        v.close k o = v'.close k' o' :=
    .inr ⟨f, v, k, o, hf, hv, hv.work.trans hwf, rfl⟩
  cases hr with
  | asked j u n reason k q hfr hl => exact .inl rfl
  | threw next x hfr hr => exact .inl rfl
  | done next hfr hr => exact .inl rfl
  | failed u v k o i x fault hv hk hs hu => exact ends hv
  | told u v k o i x j hv hk hu hn => exact ends hv
  | went u v k o hv hu => exact ends hv

/-- Only an outcome without a meaning ends a work with the status unknown. -/
theorem Rules.verdict_named {k : Caller} {o : Outcome} (h : w.Rules f r v k o) {s : Store}
    (hu : s.verdict m t o = some .unknown) : ¬named (.reply a r) := by
  have again : Store.verdict.again s m t ≠ some .unknown := by
    simp only [Store.verdict.again]
    split
    · simp
    · split <;> simp
  have failing {p : Prop} [Decidable p] :
      s.verdict m t (if p then .cancelled else .runLimit) ≠ some .unknown := by
    split <;> simp [Store.verdict]
  cases h with
  | decided k o =>
    intro hn
    cases o with
    | other code => cases hn
    | again => exact again hu
    | declined =>
      simp only [Store.verdict] at hu
      split at hu
      · cases hu
      · exact again hu
    | _ => cases hu
  | succeeded => cases hu
  | unasked => exact (again hu).elim
  | exhausted => exact (failing hu).elim
  | planned j u n reason k p r hr =>
    rw [failureOutcome_intend] at hu
    split at hu
    · cases hu
    · split at hu
      · exact (again hu).elim
      · split at hu
        · simp only [Store.verdict] at hu
          split at hu
          · cases hu
          · exact (again hu).elim
        · cases hu

/-- To settle an attempt leaves its id held, or its work has ended. -/
theorem accounts_reply (hw : w.Sound m) (hwork : w.Works a m t) (hn : 0 ≤ (w.ticket t).runs)
    (hS : ∀ status, (status = .unknown → ¬named (.reply a r)) → S status) :
    (w.effect (.reply a r)).Accounts S m (w.ticket t).id := by
  rcases effect_work hwork r with hm | ⟨f, v, k, o, hf, hv, hk, he⟩
  · left
    rw [hm]
    apply Bool.eq_false_iff.mpr
    intro hfree
    have := hw.tended.runs a t hwork
    rw [(Manager.free_iff.mp hfree).1] at this
    cases this
  · rw [he]
    rcases close_own hw hwork hk hv.replanned o with ⟨status, _, hs, -, -, ho⟩ | ⟨-, -, hr⟩ |
      ⟨hneg, -⟩
    · refine .inr ⟨status, hS status ?_, ho⟩
      rintro rfl
      exact hv.verdict_named hs
    · left
      have hnamed := ((hw.founded.erase a).replanned hv.replanned).store.named t
        (hv.replanned.tickets ▸ hw.founded.works a m t hwork)
      apply Bool.eq_false_iff.mpr
      intro hfree
      have hq := (Manager.free_iff.mp hfree).2
      rw [show w.ticket t = v.ticket t from (congrFun hv.replanned.ticket t).symm,
        hr.queued hnamed] at hq
      cases hq
    · exact absurd hn (Int.not_le.mpr hneg)

theorem Accounts.effect (h : w.Accounts S m id) (hw : w.Sound m) (hn : w.Counted)
    (hS : ∀ status, (status = .unknown → ¬named mv) → S status) :
    (w.effect mv).Accounts S m id := by
  by_cases hc : mv = .cancel m id
  · subst hc
    exact h.cancel (hS _ (by simp))
  by_cases hr : ∃ a r t, mv = .reply a r ∧ w.Works a m t ∧ (w.ticket t).id = id
  · obtain ⟨a, r, t, rfl, hwork, rfl⟩ := hr
    exact accounts_reply hw hwork (hn t) hS
  · rcases effect_agrees hw.founded hc fun a r t he hw hid => hr ⟨a, r, t, he, hw, hid⟩ with ha | ha
    · exact h.agrees ha
    · exact .inl ha.2

theorem Accounts.step (h : w.Accounts S m id) (hw : w.InBalance m) (hl : lawful m w mv)
    (hS : ∀ status, (status = .unknown → ¬named mv) → S status) :
    (w.step mv).Accounts S m id :=
  (h.effect hw.sound hw.counted hS).sequels (hw.sound.effect hl) (step_sequels hw.sound.founded mv)

/-- What was taken in stays accounted for. -/
theorem Accounts.run (h : w.Accounts S m id) (hw : w.InBalance m)
    (hl : w.Along (fun w mv => lawful m w mv ∧ counted mv) moves)
    (hS : ∀ mv ∈ moves, ∀ status, (status = .unknown → ¬named mv) → S status) :
    (w.run moves).Accounts S m id := by
  induction moves generalizing w with
  | nil => exact h
  | cons mv moves ih =>
    have hstep := h.step hw hl.1.1 (hS mv List.mem_cons_self)
    exact ih hstep (hw.step hl.1.1 hl.1.2) hl.2 fun mv hm => hS mv (List.mem_cons_of_mem _ hm)

theorem Accounts.status (h : w.Accounts S m id) (hS : ¬S .unknown) (ticket : Nat → Ticket)
    (now : Int) : (w.manager m).status ticket now id ≠ .unknown := by
  rcases h with hf | ⟨status, hs, ho⟩
  · -- what is queued or running has a status of its own
    rw [Manager.status]
    split
    · simp
    · rename_i hr
      cases hq : (w.manager m).queue.find? id with
      | none =>
        rw [Bool.eq_false_iff] at hf
        refine absurd (Manager.free_iff.mpr ⟨?_, hq⟩) hf
        simpa [Table.contains] using hr
      | some t =>
        dsimp only
        split <;> simp
  · rw [ho.status_eq]
    rintro rfl
    exact hS hs

/-- What the manager has under an id that it accounts for. -/
theorem Accounts.place (h : w.Accounts S m id) :
    (w.manager m).running.contains id = true ∨ (w.manager m).queue.index.contains id = true ∨
      (w.manager m).finished.contains id = true := by
  rcases h with hf | ⟨status, -, ho⟩
  · simp only [Manager.free, Bool.and_eq_false_iff, Bool.not_eq_false'] at hf
    exact hf.imp_right .inl
  · exact .inr (.inr ((Table.contains_iff ..).mpr ⟨status, ho.finished⟩))

/-- An operation that goes on ends with a value if it ends at once. -/
theorem answers_next (w : World) (a m : Nat) (tally : Option Nat) :
    (w.next a m tally).answers a = w.answers a ∨
      ∃ x, (w.next a m tally).answers a = .returned a x :: w.answers a := by
  cases hc : w.claim m with
  | none =>
    right
    refine ⟨tally.elim (.outcome none) .count, ?_⟩
    simp only [next]
    rw [hc]
    exact answers_give ..
  | some p =>
    left
    obtain ⟨v, -, ha, hn⟩ := next_claimed hc a tally
    rw [hn, ← ha]
    obtain ⟨g, q, -, he⟩ := enter_eq v a p.2 (p.1.ticket p.2).runs
      (.manager m p.2 (p.1.ticket p.2).runs p.1.uptime tally)
    exact answers_eq (l := [.asked a q, .entered a (v.ticket p.2).job p.2 (p.1.ticket p.2).runs])
      (congrArg World.history he) (by simp [Event.ends])

theorem answers_resumeNext (w : World) (a : Nat) (next : Next) :
    (w.resumeNext a next).answers a = w.answers a ∨
      ∃ x, (w.resumeNext a next).answers a = .returned a x :: w.answers a := by
  cases next with
  | give x => exact .inr ⟨x, answers_give ..⟩
  | proceed m o tally =>
    cases tally with
    | none => exact .inr ⟨_, answers_give ..⟩
    | some n => exact answers_next ..

/-- While no count of attempts is negative, an operation that waited ends with a fault only if a
hook throws. -/
theorem raised_reply (hw : w.Founded) (hn : w.Counted) {x : Fault}
    (h : .raised a x ∈ (w.step (.reply a r)).answers a) (hx : .raised a x ∉ w.answers a) :
    ∃ y, r = .threw y ∧ x = .thrown y := by
  rcases step_resumes w a r with ⟨hs, -⟩ | ⟨f, hf, -, hr⟩
  · rw [hs] at h
    exact (hx h).elim
  generalize w.effect (.reply a r) = e, w.step (.reply a r) = w' at hr h
  have went {u : World} {next : Next} (hu : u.answers a = w.answers a)
      (h : .raised a x ∈ (u.resumeNext a next).answers a) : False := by
    rcases answers_resumeNext u a next with ha | ⟨y, ha⟩ <;> rw [ha, hu] at h
    · exact hx h
    · rcases List.mem_cons.mp h with he | h
      · cases he
      · exact hx h
  have closed {u v : World} {k : Caller} {o : Outcome}
      (hv : Rules { w with pending := w.pending.erase a } f r v k o) (hu : (v.close k o).Logged u) :
      u.answers a = w.answers a := by
    rw [hu.answers]
    obtain ⟨jobs, rfl, -⟩ := hv.replanned
    rfl
  cases hr with
  | asked j t n reason k q hfr hl =>
    rw [answers_eq (w := w) (l := [.asked a q]) rfl (by simp [Event.ends])] at h
    exact (hx h).elim
  | threw next y hfr hr =>
    rw [answers_raise] at h
    rcases List.mem_cons.mp h with he | h
    · exact ⟨y, hr, (Event.raised.inj he).2⟩
    · exact (hx h).elim
  | done next hfr hr => exact (went (u := { w with pending := w.pending.erase a }) rfl h).elim
  | failed u v k o m t fault hv hk hs hu =>
    have made : t < v.tickets.size := by
      rw [hv.replanned.tickets]
      exact hw.works a m t ((works_of_frame hf).mpr (hv.work ▸ hk))
    have hneg := Store.settle_error made hs
    rw [hv.replanned.ticket] at hneg
    exact absurd (hn t) (Int.not_le.mpr hneg)
  | told u v k o m t j hv hk hu hnt =>
    rw [answers_eq (w := u) (l := [.asked a (.ended j t)]) rfl (by simp [Event.ends]),
      closed hv hu] at h
    exact (hx h).elim
  | went u v k o hv hu => exact (went (closed hv hu) h).elim

/-- An operation ends by a step of its own. -/
theorem raised_step (hw : w.Founded) (hn : w.Counted) (ha : a < w.calls) {x : Fault}
    (h : .raised a x ∈ (w.step mv).answers a) (hx : .raised a x ∉ w.answers a) :
    ∃ y, x = .thrown y := by
  by_cases hne : a = w.acting mv
  · cases mv with
    | reply b r =>
      have hb : a = b := hne
      subst hb
      obtain ⟨y, -, hy⟩ := raised_reply hw hn h hx
      exact ⟨y, hy⟩
    | _ => exact absurd hne (Nat.ne_of_lt ha)
  · rw [(step_other hw hne).1] at h
    exact (hx h).elim

/-- An operation that ends with a fault has lost no work that it was on, as long as no count of
attempts is set to a negative number: only a hook has thrown, the id is running, queued or
finished, not with the status unknown unless some job decided on an outcome without a meaning,
and all that the manager took in has ended or is held. -/
theorem faults_lose_nothing (h : ReachableBy (fun w mv => lawful m w mv ∧ counted mv) w)
    (hwork : w.Works a m t)
    (hl : w.Along (fun w mv => lawful m w mv ∧ counted mv) (moves ++ [mv])) (hv : v = w.run moves)
    {x : Fault} (hnew : .raised a x ∉ v.answers a) (hx : .raised a x ∈ (v.step mv).answers a)
    (hw' : w' = v.step mv) (hid : id = (w.ticket t).id) :
    (∃ y, x = .thrown y) ∧
    ((w'.manager m).running.contains id = true ∨ (w'.manager m).queue.index.contains id = true ∨
      (w'.manager m).finished.contains id = true) ∧
    ((∀ mv' ∈ moves ++ [mv], named mv') →
      ∀ now, (w'.manager m).status w'.ticket now id ≠ .unknown) ∧
    (w'.manager m).counts.added + (w'.manager m).counts.recovered =
      (w'.manager m).counts.succeeded + (w'.manager m).counts.failed +
        (w'.manager m).counts.cancelled + (w'.manager m).queue.size +
        (w'.manager m).running.size := by
  have hb := h.inBalance
  have hkeep (w : World) (mv : Move) (hw : w.InBalance m) (hl : lawful m w mv ∧ counted mv) :
      (w.step mv).InBalance m := hw.step hl.1 hl.2
  have hbv : v.InBalance m := hv ▸ (along_append.mp hl).1.run hkeep hb
  have hend : w' = w.run (moves ++ [mv]) := by rw [hw', run_append, hv, run_cons, run_nil]
  have held : (w.manager m).free (w.ticket t).id = false := by
    apply Bool.eq_false_iff.mpr
    intro hf
    have hr := hb.sound.tended.runs a t hwork
    rw [(Manager.free_iff.mp hf).1] at hr
    cases hr
  have accounts {S : Status → Prop} (hS : ∀ mv' ∈ moves ++ [mv], ∀ status,
      (status = .unknown → ¬named mv') → S status) : w'.Accounts S m id := by
    rw [hend, hid]
    exact Accounts.run (.inl held) hb hl hS
  refine ⟨?_, (accounts (S := fun _ => True) fun _ _ _ _ => trivial).place, fun hn now => ?_, ?_⟩
  · obtain ⟨f, hf, -⟩ := Option.bind_eq_some_iff.mp hwork
    refine raised_step hbv.sound.founded hbv.counted ?_ hx hnew
    rw [hv]
    exact Nat.lt_of_lt_of_le (hb.sound.founded.numbered a f hf) (calls_le_run hb.sound.founded _)
  · exact (accounts (S := (· ≠ .unknown)) fun mv' hm _ hu he => hu he (hn mv' hm)).status (by simp)
      w'.ticket now
  · have hbal := (hend ▸ hl.run hkeep hb : w'.InBalance m).balanced
    simp only [Manager.Balanced, Counts.Leaves] at hbal
    omega

/-- A recovered ticket whose count of attempts was set to `n` begins an attempt. -/
def resumed (n : Int) : List Move :=
  [.call (.makeManager {}), .call (.makeJob { id := "a" }),
    .call (.build { job := some 0, priority := some 0, created := some 0, session := some 0 }),
    .call (.editTicket 0 (.runs n)), .call (.manager 0 (.recover [some 0])),
    .call (.manager 0 .runNext)]

/-- The attempt is the last one, and the job throws when it is told. -/
theorem faults_lose_nothing_told :
    .raised 5 (.thrown .silent) ∈
        (((start 0).run (resumed 19)).run [.reply 5 (.failed "x"), .reply 5 (.threw .silent)]).answers
          5 ∧
      ∃ w', w' = (((start 0).run (resumed 19)).run [.reply 5 (.failed "x")]).step
          (.reply 5 (.threw .silent)) ∧
        (w'.manager 0).counts.added + (w'.manager 0).counts.recovered =
          (w'.manager 0).counts.succeeded + (w'.manager 0).counts.failed +
            (w'.manager 0).counts.cancelled + (w'.manager 0).queue.size +
            (w'.manager 0).running.size := by
  have h : ReachableBy (fun w mv => lawful 0 w mv ∧ counted mv) ((start 0).run (resumed 19)) :=
    ⟨0, resumed 19, by simp [resumed, Along, lawful, counted], rfl⟩
  have hl : ((start 0).run (resumed 19)).Along (fun w mv => lawful 0 w mv ∧ counted mv)
      ([.reply 5 (.failed "x")] ++ [.reply 5 (.threw .silent)]) :=
    ⟨⟨trivial, trivial⟩, ⟨trivial, trivial⟩, trivial⟩
  refine ⟨by decide, _, rfl, ?_⟩
  exact (faults_lose_nothing (a := 5) (t := 0) (x := .thrown .silent) h (by decide) hl rfl
    (by decide) (by decide) rfl rfl).2.2.2

/-- With a negative count a failed attempt is lost: the operation ends with a fault, and the id is
unknown to the manager that has taken it in. -/
theorem negative_count_lost :
    ∃ w, w = (start 0).run (resumed (-5) ++ [.reply 5 (.failed "x")]) ∧
      w.answers 5 = [.raised 5 .negativeRuns] ∧
      (w.manager 0).status w.ticket 0 "a" = .unknown ∧
      (w.manager 0).counts = { recovered := 1 } ∧ (w.manager 0).queue.size = 0 ∧
      (w.manager 0).running.size = 0 :=
  ⟨_, rfl, by decide, by decide, by decide, by decide, by decide⟩

end World

end Backlog
