import Backlog.Proofs.Accounting
import Backlog.Proofs.Departures
import Backlog.Proofs.Hooks

/-!
# What the end of an attempt comes to

When an attempt ends and its work is not queued again, three things say how: the status of the id,
the counter that grows, and whether the job is told. They agree, unless a job decides on an outcome
that has no meaning.
-/

namespace Backlog.World

variable {w w' v : World} {a m t : Nat} {id : String} {r : Reply} {moves : List Move}

/-- The statuses that works can end with. -/
theorem verdict_cases {s : Store} {o : Outcome} {status : Status}
    (h : s.verdict m t o = some status) :
    status = .unknown ∨ status ∈ [Status.succeeded, .failed, .cancelled] := by
  have again (h : Store.verdict.again s m t = some status) :
      status ∈ [Status.succeeded, .failed, .cancelled] := by
    simp only [Store.verdict.again] at h
    split at h
    · simp [← Option.some.inj h]
    · split at h
      · cases h
      · simp [← Option.some.inj h]
  cases o with
  | again => exact .inr (again h)
  | declined =>
    simp only [Store.verdict] at h
    split at h
    · simp [← Option.some.inj h]
    · exact .inr (again h)
  | _ => simp [← Option.some.inj h]

/-- An attempt that gets a reply goes on or is followed by another, and then nothing is counted and
nobody is told; or it ends its work, which is counted, and its job is told if it did not succeed. -/
theorem reply_settles (hw : w.Sound m) (hn : 0 ≤ (w.ticket t).runs) (hwork : w.Works a m t)
    (r : Reply) :
    ((w.effect (.reply a r)).manager m).free (w.ticket t).id = false ∧
        ((w.effect (.reply a r)).manager m).counts = (w.manager m).counts ∧
        Notifies none w (w.step (.reply a r)) ∨
      ∃ status, (w.effect (.reply a r)).Over m (w.ticket t).id status ∧
        (status = .unknown ∨ status ∈ [Status.succeeded, .failed, .cancelled]) ∧
        ((w.effect (.reply a r)).manager m).counts = (w.manager m).counts.ended status ∧
        Notifies (if status = .failed ∨ status = .cancelled then some t else none) w
          (w.step (.reply a r)) := by
  have hrun := hw.tended.runs a t hwork
  have held {u : World} (hu : u.manager m = w.manager m) :
      (u.manager m).free (w.ticket t).id = false := by
    apply Bool.eq_false_iff.mpr
    intro hf
    rw [hu, Manager.free_iff, hrun] at hf
    cases hf.1
  rcases step_reply w a r with ⟨he, hs⟩ | ⟨f, hf, hx⟩
  · rw [he, hs]
    exact .inl ⟨held rfl, rfl, .refl w⟩
  have hwf := (works_of_frame hf).mp hwork
  generalize w.effect (.reply a r) = e, w.step (.reply a r) = w' at hx
  cases hx with
  | passed w' hnone =>
    rw [hnone] at hwf
    cases hwf
  | asked v w' g q hv hg hns =>
    have hm : (v.ask a g q).manager m = w.manager m := congrFun hv.manager m
    exact .inl ⟨held hm, by rw [hm], hns.notified, hns.notices, hns.events⟩
  | closed v w' k o hv hk hns =>
    have hsettled := close_own hw hwork (hk.trans hwf) hv o
    have hm : v.manager m = w.manager m := congrFun hv.manager m
    have htk : v.ticket t = w.ticket t := congrFun hv.ticket t
    have hns : Notifies (v.tells o k) w w' := ⟨hns.notified, hns.notices, hns.events⟩
    obtain ⟨n, since, tally, rfl⟩ := Caller.eq_of_work (hk.trans hwf)
    generalize v.close (.manager m t n since tally) o = e at hsettled
    rcases hsettled with ⟨status, tell, hst, hend, hends, hover⟩ | ⟨-, ⟨d, hd⟩, hr⟩ | ⟨hneg, -⟩
    · refine .inr ⟨status, hover, verdict_cases hst, ?_, ?_⟩
      · rw [hends.manager, hm]
        rfl
      · have htell := Store.settle_tell hend
        rw [Store.tells_ended hend] at hns
        simpa only [← htell] using hns
    · have hnamed := ((hw.founded.erase a).replanned hv).store.named t
        (hv.tickets ▸ hw.founded.works a m t hwork)
      refine .inl ⟨?_, ?_, by rwa [Store.tells_retried hd] at hns⟩
      · apply Bool.eq_false_iff.mpr
        intro hfree
        have hq := (Manager.free_iff.mp hfree).2
        rw [← htk, hr.queued hnamed] at hq
        cases hq
      · obtain ⟨_, -, hg⟩ := hr.manager
        rw [hg, hm]
        rfl
    · exact absurd hn (Int.not_le.mpr hneg)

/-- As long as no job decides on an outcome without a meaning and no count of attempts is negative,
the end of an attempt is told in one way. If its id is free then, the work has succeeded, failed or
was cancelled: this is the status of the id, this counter has grown by one and no other has, and the
job is told, unless it was told before on account of the ticket, if and only if the work has not
succeeded. If the attempt goes on or its work is queued again, nothing is counted and nobody is told.
An id that the manager has taken in is never unknown again. -/
theorem ends_agree (h : ReachableBy (fun w mv => lawful m w mv ∧ counted mv) w) :
    (∀ a t r w' id, w.Works a m t → named (.reply a r) → w' = w.step (.reply a r) →
      id = (w.ticket t).id →
      ((w'.manager m).free id = true → ∃ status ∈ [Status.succeeded, .failed, .cancelled],
        (∀ now, (w'.manager m).status w'.ticket now id = status) ∧
        (w'.manager m).counts.succeeded =
          (w.manager m).counts.succeeded + (if status = .succeeded then 1 else 0) ∧
        (w'.manager m).counts.failed =
          (w.manager m).counts.failed + (if status = .failed then 1 else 0) ∧
        (w'.manager m).counts.cancelled =
          (w.manager m).counts.cancelled + (if status = .cancelled then 1 else 0) ∧
        w'.notices =
          (if status ≠ .succeeded ∧ (w.ticket t).notified = false then [t] else []) ++ w.notices) ∧
      ((w'.manager m).free id = false →
        (w'.manager m).counts.succeeded = (w.manager m).counts.succeeded ∧
        (w'.manager m).counts.failed = (w.manager m).counts.failed ∧
        (w'.manager m).counts.cancelled = (w.manager m).counts.cancelled ∧
        w'.notices = w.notices)) ∧
    ∀ id moves, (w.manager m).free id = false →
      w.Along (fun w mv => lawful m w mv ∧ counted mv) moves → (∀ mv ∈ moves, named mv) →
      ∀ now, ((w.run moves).manager m).status (w.run moves).ticket now id ≠ .unknown := by
  have hb := h.inBalance
  have hw := hb.sound
  refine ⟨?_, fun id moves hf hl hn now => ?_⟩
  · rintro a t r w' id hwork hnamed rfl rfl
    have hl : lawful m w (.reply a r) := trivial
    have hseq := step_sequels hw.founded (.reply a r)
    have hacc : (w.effect (.reply a r)).Accounts (· ≠ .unknown) m (w.ticket t).id :=
      accounts_reply hw hwork (hb.counted t) fun status hu he => hu he hnamed
    obtain ⟨retries, hc⟩ := counts_step hw.founded m (.reply a r)
    rcases reply_settles hw (hb.counted t) hwork r with ⟨hheld, hcounts, hn⟩ |
      ⟨status, hover, hst, hcounts, hn⟩
    · have hstay : ((w.step (.reply a r)).manager m).free (w.ticket t).id = false := by
        generalize w.step (.reply a r) = w' at hseq
        induction hseq with
        | refl => exact hheld
        | tail _ hs ih => exact held_sequel hs ih
      refine ⟨fun hf => ?_, fun _ => ?_⟩
      · rw [hstay] at hf
        cases hf
      · rw [hc, hcounts]
        exact ⟨rfl, rfl, rfl, hn.silent.notices⟩
    · have hfinal := hover.sequels (hw.effect hl) hseq
      -- the status has a meaning, since the outcome has
      have hmem : status ∈ [Status.succeeded, .failed, .cancelled] := by
        refine hst.resolve_left fun hu => ?_
        rcases hacc with hf | ⟨s, hs, ho⟩
        · rw [hover.free] at hf
          cases hf
        · exact hs ((ho.unique.mp hover).trans hu)
      refine ⟨fun _ => ⟨status, hmem, hfinal.status_eq _, ?_⟩, fun hf => ?_⟩
      · rw [hc, hcounts, hn.notices]
        simp only [List.mem_cons, List.not_mem_nil, or_false] at hmem
        rcases hmem with rfl | rfl | rfl <;>
          cases hno : (w.ticket t).notified <;> simp [Counts.ended, Option.filter_some, hno]
      · rw [hfinal.free] at hf
        cases hf
  · have hacc : w.Accounts (· ≠ .unknown) m id := .inl hf
    exact (hacc.run hb hl fun mv hm _ hu he => hu he (hn mv hm)).status (by simp) _ now

/-- A job that decides itself is queued and its attempt begins. -/
def deciding : List Move :=
  [.call (.makeJob { id := "a", custom := true }), .call (.makeManager {}),
    .call (.manager 0 (.add (some 0))), .reply 2 .done, .call (.manager 0 .runNext)]

/-- The job decides that the limit is reached. -/
theorem ends_agree_decided :
    (((start 0).run deciding).step (.reply 3 (.outcome .runLimit))).notices = [0] ∧
      ∃ status ∈ [Status.succeeded, .failed, .cancelled], ∀ now,
        ((((start 0).run deciding).step (.reply 3 (.outcome .runLimit))).manager 0).status
          (((start 0).run deciding).step (.reply 3 (.outcome .runLimit))).ticket now "a" =
            status := by
  have h : ReachableBy (fun w mv => lawful 0 w mv ∧ counted mv) ((start 0).run deciding) :=
    ⟨0, deciding, by simp [deciding, Along, lawful, counted], rfl⟩
  obtain ⟨status, hm, hs, -⟩ := ((ends_agree h).1 3 0 (.outcome .runLimit) _ "a" (by decide) rfl rfl
    (by decide)).1 (by decide)
  exact ⟨by decide, status, hm, hs⟩

/-- The job decides on an outcome without a meaning: its work counts as failed, but the manager does
not know what became of it, and nobody is told. -/
theorem unnamed_end_unknown :
    ∃ w, w = ((start 0).run deciding).step (.reply 3 (.outcome (.other 9))) ∧
      w.answers 3 = [.returned 3 (.outcome (some (.other 9)))] ∧
      (w.manager 0).status w.ticket 0 "a" = .unknown ∧
      (w.manager 0).counts = { added := 1, failed := 1 } ∧ w.notices = [] :=
  ⟨_, rfl, by decide, by decide, by decide, by decide⟩

end Backlog.World
