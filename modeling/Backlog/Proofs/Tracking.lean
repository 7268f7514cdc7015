import Backlog.Proofs.Admissions
import Backlog.Proofs.Cancellation
import Backlog.Proofs.RetryLoop

/-!
# The loop behind a work

What happens to the work of an id is read off the moves, and the retry loop follows it: the
work is queued where the loop is ready, its attempt waits for the body or the plan of the job
where the loop does, and both end alike.
-/

namespace Backlog

/-- Manager `m` is stopped. -/
abbrev Move.stop (m : Nat) : Move := .call (.manager m .stop)

/-- What a reply says about the attempt that waits in the frame. -/
def Frame.hears : Frame → Reply → Option Signal
  | .body .., .succeeded => some .succeeded
  | .body .., .failed _ | .body .., .threw _ => some .failed
  | .plan .., .plan p => some (.planned p.retry)
  | .plan .., .threw _ => some (.planned false)
  | _, _ => none

/-- What is tried of a job: its limit, whether it is asked after a failure, and that its
attempts are of the standard kind. -/
def Store.Tried (s : Store) (j : Nat) (limit : Int) (asks : Bool) : Prop :=
  j < s.jobs.size ∧ (s.job j).custom = false ∧ (s.job j).retryLimit = limit ∧
    (s.job j).asksPlan = asks

theorem Store.Keeps.tried {x : Option Nat} {s s' : Store} {j : Nat} {limit : Int} {asks : Bool}
    (h : Keeps x s s') (ht : s.Tried j limit asks) : s'.Tried j limit asks := by
  obtain ⟨hj, hc, hl, ha⟩ := ht
  have hk := h.job j hj
  exact ⟨Nat.lt_of_lt_of_le hj h.jobs, (Job.custom_of_lasting hk).trans hc,
    (Job.retryLimit_of_lasting hk).trans hl, (Job.asksPlan_of_lasting hk).trans ha⟩

namespace World

/-- What a move means for the work that manager `m` has under the id. -/
def cue (w : World) (m : Nat) (id : String) : Move → Option Signal
  | .call (.manager i (.cancel d)) => if i = m ∧ d = id then some .cancel else none
  | .call (.manager i .stop) => if i = m then some .stop else none
  | .reply a r => (w.pending.find? a).bind fun f => f.work.bind fun (i, t) =>
      if i = m ∧ (w.ticket t).id = id then f.hears r else none
  | _ => none

/-- The client leaves the ticket of the id to manager `m`: it edits it not, and offers it to
no other manager. -/
def leftAlone (m : Nat) (id : String) (w : World) : Move → Prop
  | .call (.editTicket t _) => (w.manager m).held? id ≠ some t
  | .call (.manager i (.recover ts)) =>
    i ≠ m → ∀ t, (w.manager m).held? id = some t → some t ∉ ts
  | _ => True

/-- Ticket `t` carries the work of the id after `n` attempts, and no other manager has it. -/
structure Carries (m : Nat) (id : String) (j t : Nat) (n : Int) (cancelled : Bool) (w : World) :
    Prop where
  id : (w.ticket t).id = id
  job : (w.ticket t).job = j
  runs : (w.ticket t).runs = n
  cancelled : (w.ticket t).cancelled = cancelled
  alone : ∀ i, i ≠ m → ¬(w.manager i).knows t

/-- The work of the id stands where the loop does. -/
inductive Stands (m : Nat) (id : String) (j : Nat) (limit : Int) (w : World) :
    Stage → Bool → Prop
  | ready (t : Nat) (n : Int) (hq : (w.manager m).queue.find? id = some t)
    (hc : w.Carries m id j t n false) (hn : 0 ≤ n) : Stands m id j limit w (.ready n) false
  | trying (a t : Nat) (n : Int) (since : Nat) (tally : Option Nat) (c : Bool)
    (hf : w.pending.find? a = some (.body j t n (.manager m t n since tally)))
    (hc : w.Carries m id j t n c) (hn : 0 ≤ n) : Stands m id j limit w (.trying n) c
  | asking (a t : Nat) (n : Int) (reason : String) (since : Nat) (tally : Option Nat) (c : Bool)
    (hf : w.pending.find? a = some (.plan j t n reason (.manager m t n since tally)))
    (hc : w.Carries m id j t n c) (hn : 0 ≤ n) (hl : n < limit) :
    Stands m id j limit w (.asking n) c
  | ended (status : Status) (c : Bool) (ho : w.Over m id status) :
    Stands m id j limit w (.ended status) c

/-- Manager `m` tries job `j` under the id as the loop does. -/
structure Tracks (m : Nat) (id : String) (j : Nat) (limit : Int) (asks : Bool) (l : Loop)
    (w : World) : Prop where
  accepting : (w.manager m).accepting = !l.stopped
  tried : w.Tried j limit asks
  stands : w.Stands m id j limit l.stage l.cancelled

variable {w w' v : World} {a b m j t u : Nat} {id : String} {n limit : Int} {asks c : Bool}
  {l l' : Loop} {stage : Stage} {status : Status} {mv : Move}

theorem held?_running (hr : (w.manager m).running.find? id = some t) :
    (w.manager m).held? id = some t := by
  rw [Manager.held?, hr]
  rfl

theorem held?_queued (hw : w.Sound m) (hq : (w.manager m).queue.find? id = some t) :
    (w.manager m).held? id = some t := by
  rw [Manager.held?, hw.custody.queued_apart hq, hq]
  rfl

/-- What a manager holds under an id is held, and has the id. -/
theorem holds_of_held? (hw : w.Sound m) (hh : (w.manager m).held? id = some t) :
    (w.manager m).holds t ∧ (w.ticket t).id = id := by
  rcases Option.or_eq_some_iff.mp hh with hr | ⟨-, hq⟩
  · exact ⟨.inr ⟨id, hr⟩, hw.custody.own id t hr⟩
  · obtain ⟨hm, hid⟩ := (hw.custody.queue.find id t).mp hq
    exact ⟨.inl hm, hid⟩

theorem knows_of_held? (hh : (w.manager m).held? id = some t) : (w.manager m).knows t := by
  rcases Option.or_eq_some_iff.mp hh with hr | ⟨-, hq⟩
  · exact .inr (.inr ⟨id, hr⟩)
  · exact .inr (.inl ⟨id, hq⟩)

/-- The attempt of an id waits in one operation. -/
theorem works_unique (hw : w.Sound m) (ha : w.Works a m t) (hb : w.Works b m u)
    (hid : (w.ticket t).id = (w.ticket u).id) : a = b ∧ t = u := by
  have ht := hw.tended.runs a t ha
  rw [hid, hw.tended.runs b u hb] at ht
  obtain rfl := Option.some.inj ht
  exact ⟨hw.tended.sole a b u ha hb, rfl⟩

theorem Carries.keep (h : w.Carries m id j t n c)
    (hl : (w'.ticket t).lasting = (w.ticket t).lasting)
    (hk : ∀ i, i ≠ m → (w'.manager i).knows t → (w.manager i).knows t) :
    w'.Carries m id j t n c where
  id := (Ticket.id_of_lasting hl).trans h.id
  job := (Ticket.job_of_lasting hl).trans h.job
  runs := (Ticket.runs_of_lasting hl).trans h.runs
  cancelled := (Ticket.cancelled_of_lasting hl).trans h.cancelled
  alone i hi ht := h.alone i hi (hk i hi ht)

/-- The ticket of an attempt runs under the id. -/
theorem Carries.running (h : w.Carries m id j t n c) (hw : w.Sound m) {f : Frame}
    (hf : w.pending.find? a = some f) (hwork : f.work = some (m, t)) :
    (w.manager m).running.find? id = some t :=
  h.id ▸ hw.tended.runs a t ((works_of_frame hf).mpr hwork)

/-- The work is queued, running or over, as the stage says. -/
theorem Stands.place (h : w.Stands m id j limit stage c) (hw : w.Sound m) :
    (∃ n t, stage = .ready n ∧ (w.manager m).queue.find? id = some t) ∨
    (∃ n t, (stage = .trying n ∨ stage = .asking n) ∧
      (w.manager m).running.find? id = some t) ∨
    ∃ status, stage = .ended status ∧ w.Over m id status := by
  cases h with
  | ready t n hq hc hn => exact .inl ⟨n, t, rfl, hq⟩
  | trying b t n since tally c hf hc hn => exact .inr (.inl ⟨n, t, .inl rfl, hc.running hw hf rfl⟩)
  | asking b t n reason since tally c hf hc hn hl =>
    exact .inr (.inl ⟨n, t, .inr rfl, hc.running hw hf rfl⟩)
  | ended status c ho => exact .inr (.inr ⟨status, rfl, ho⟩)

theorem Stands.keep (h : w.Stands m id j limit stage c) (hw : w.Sound m)
    (ha : (w.manager m).Agrees (w'.manager m) id)
    (hp : ∀ b f t, w.pending.find? b = some f → w.Works b m t → (w.ticket t).id = id →
      w'.pending.find? b = some f)
    (hk : ∀ t n c, (w.manager m).held? id = some t → w.Carries m id j t n c →
      w'.Carries m id j t n c) : w'.Stands m id j limit stage c := by
  have running {b t : Nat} {f : Frame} {n : Int} {c : Bool} (hf : w.pending.find? b = some f)
      (hwork : f.work = some (m, t)) (hc : w.Carries m id j t n c) :
      w'.pending.find? b = some f ∧ w'.Carries m id j t n c :=
    ⟨hp b f t hf ((works_of_frame hf).mpr hwork) hc.id,
      hk t n c (held?_running (hc.running hw hf hwork)) hc⟩
  cases h with
  | ready t n hq hc hn =>
    exact .ready t n (ha.queue.trans hq) (hk t n false (held?_queued hw hq) hc) hn
  | trying b t n since tally c hf hc hn =>
    obtain ⟨hf, hc⟩ := running hf rfl hc
    exact .trying b t n since tally c hf hc hn
  | asking b t n reason since tally c hf hc hn hl =>
    obtain ⟨hf, hc⟩ := running hf rfl hc
    exact .asking b t n reason since tally c hf hc hn hl
  | ended status c ho => exact .ended status c (ho.agrees ha)

/-- A move leaves alone what carries the work of an id, unless it cancels the id. -/
theorem Carries.effect (h : w.Carries m id j t n c) (hw : w.Sound m)
    (hh : (w.manager m).held? id = some t) (hl : leftAlone m id w mv) (hc : mv ≠ .cancel m id) :
    (w.effect mv).Carries m id j t n c := by
  have made := hw.custody.made t (holds_of_held? hw hh).1
  refine h.keep ((keeps_effect w mv).ticket t made fun ht => ?_) fun i hi hk => ?_
  · cases mv with
    | call d =>
      cases d with
      | editTicket u e =>
        obtain rfl := Option.some.inj ht
        exact hl hh
      | manager i d =>
        cases d with
        | cancel id' =>
          have ht : (w.manager i).held? id' = some t := ht.symm
          by_cases hi : i = m
          · subst hi
            have hid := (holds_of_held? hw ht).2
            rw [h.id] at hid
            exact hc (by rw [hid])
          · exact h.alone i hi (knows_of_held? ht)
        | _ => cases ht
      | _ => cases ht
    | _ => cases ht
  · rcases gains_effect hw.founded mv i t hk with hk | hz | ⟨ts, rfl, hm⟩
    · exact hk
    · exact absurd made (Nat.not_lt_of_le hz)
    · exact absurd hm (hl hi t hh)

/-- What follows a move leaves alone what carries the work of an id, unless it begins an
attempt. -/
theorem Carries.sequel (h : w.Carries m id j t n c) (hw : w.Sound m)
    (hh : (w.manager m).held? id = some t) (hs : Sequel a w w') (hn : ¬Starts m id a w w') :
    w'.Carries m id j t n c := by
  have made := hw.custody.made t (holds_of_held? hw hh).1
  obtain ⟨x, hk, hx⟩ := keeps_sequel hs
  refine h.keep (hk.ticket t made fun ht => ?_) fun i _ => knows_sequel hs
  obtain ⟨i, s, tally, ha, hc, he⟩ := hx t ht.symm
  have hq := (Store.claim_begins hc).queued
  by_cases hi : i = m
  · subst hi
    exact hn ⟨t, s, tally, ha, hc, h.id, he⟩
  · exact h.alone i hi (.inl hq)

theorem Tracks.quiet (h : w.Tracks m id j limit asks l) (hw : w.Sound m) (hs : Sequel a w w')
    (hn : ¬Starts m id a w w') : w'.Tracks m id j limit asks l where
  accepting := (accepting_sequel hs).trans h.accepting
  tried := by
    obtain ⟨x, hk, -⟩ := keeps_sequel hs
    exact hk.tried h.tried
  stands := h.stands.keep hw (sequel_agrees hs hn) (fun b f t hf _ _ => waits_sequel hs hf)
    fun t n c hh hc => hc.sequel hw hh hs hn

/-- The standard attempt of a claimed ticket waits for the body of its job. -/
theorem depart_body (h : w.Carries m id j t n c) (hj : (w.job j).custom = false) {s : Store}
    (hc : w.claim m = some (s, t)) (tally : Option Nat) :
    (w.depart a m s t tally).pending.find? a =
      some (.body j t (n + 1) (.manager m t (n + 1) s.uptime tally)) := by
  have hb := Store.claim_begins hc
  have hruns : (s.ticket t).runs = n + 1 := by rw [hb.ticket, ← h.runs]
  have hjob : (s.ticket t).job = j := by rw [hb.ticket, ← h.job]
  have hcustom : (s.job (s.ticket t).job).custom = false := by
    rw [Store.job, hb.jobs, hjob]
    exact hj
  obtain ⟨f, q, hf, he⟩ := enter_eq { w with toStore := s } a t (s.ticket t).runs
    (.manager m t (s.ticket t).runs s.uptime tally)
  rcases hf with ⟨-, hcus⟩ | ⟨rfl, -⟩
  · rw [hcustom] at hcus
    cases hcus
  · refine (congrArg (·.pending.find? a) he).trans ((Table.find?_insert_same ..).trans ?_)
    dsimp only
    rw [hruns, hjob]

/-- An attempt begins where the loop is ready for it. -/
theorem Tracks.starts (h : w.Tracks m id j limit asks l) (hw : w.Sound m) {s : Store}
    {tally : Option Nat} (ha : w.Active a) (hc : w.claim m = some (s, t))
    (hid : (w.ticket t).id = id) :
    ∃ l', l.step limit asks (.attempt (s.ticket t).runs) = some l' ∧
      (w.depart a m s t tally).Tracks m id j limit asks l' := by
  have hb := Store.claim_begins hc
  have hq := (hw.custody.queue.find id t).mpr ⟨hb.queued, hid⟩
  have running {u : Nat} (hr : (w.manager m).running.find? id = some u) : False := by
    rw [hw.custody.apart id u hr] at hq
    cases hq
  obtain ⟨hacc, htried, hstands⟩ := h
  obtain ⟨stage, cancelled, stopped⟩ := l
  cases hstands with
  | ready u n hu hcar hn =>
    obtain rfl : u = t := Option.some.inj (hu.symm.trans hq)
    have hs : (w.depart a m s u tally).toStore = s := toStore_depart ..
    have hruns : (s.ticket u).runs = n + 1 := by rw [hb.ticket, ← hcar.runs]
    refine ⟨⟨.trying (n + 1), false, stopped⟩, by rw [hruns]; exact if_pos rfl, ?_, ?_, ?_⟩
    · obtain ⟨counts, -, hm⟩ := hb.manager
      rw [hs, hm]
      exact hacc
    · rw [hs]
      exact hb.keeps.tried htried
    · refine .trying a u (n + 1) s.uptime tally false (depart_body hcar htried.2.1 hc tally) ?_
        (by omega)
      rw [show (n + 1) = (s.ticket u).runs from hruns.symm]
      refine ⟨?_, ?_, by rw [hs], ?_, fun i hi hk => ?_⟩
      · rw [hs, hb.ticket]
        exact hid
      · rw [hs, hb.ticket]
        exact hcar.job
      · rw [hs, hb.ticket]
        exact hcar.cancelled
      · exact hcar.alone i hi (knows_sequel (.departed w m u s tally ha hc) hk)
  | trying b u n since tally c hf hcar hn => exact (running (hcar.running hw hf rfl)).elim
  | asking b u n reason since tally c hf hcar hn hl =>
    exact (running (hcar.running hw hf rfl)).elim
  | ended status c ho =>
    rw [(Manager.free_iff.mp ho.free).2] at hq
    cases hq

/-- A reply for the attempt of the id means what the frame hears. -/
theorem cue_own {f : Frame} (hf : w.pending.find? a = some f) (hwork : f.work = some (m, t))
    (hid : (w.ticket t).id = id) (r : Reply) : w.cue m id (.reply a r) = f.hears r := by
  simp only [cue]
  rw [hf, Option.bind_some, hwork, Option.bind_some]
  exact if_pos ⟨rfl, hid⟩

theorem Replanned.tried (h : w.Replanned v) (ht : w.Tried j limit asks) :
    v.Tried j limit asks := by
  obtain ⟨jobs, rfl, hk⟩ := h
  exact hk.tried ht

theorem verdict_again (hw : w.Sound m) (hwork : w.Works a m t)
    (hv : Replanned { w with pending := w.pending.erase a } v)
    (hc : (w.ticket t).cancelled = false) :
    v.verdict m t .again = if (w.manager m).accepting then none else some .failed := by
  have made : t < v.tickets.size := hv.tickets ▸ hw.founded.works a m t hwork
  have hnamed := ((hw.founded.erase a).replanned hv).store.named t made
  have ht : v.ticket t = w.ticket t := congrFun hv.ticket t
  have hm : v.manager m = w.manager m := congrFun hv.manager m
  simp only [Store.verdict, Store.verdict.again]
  rw [← hnamed, ht, hm, hc, if_neg Bool.false_ne_true]
  cases ha : (w.manager m).accepting with
  | true =>
    exact if_pos ⟨rfl, hw.custody.accepts ha (hw.custody.apart _ t (hw.tended.runs a t hwork))⟩
  | false => exact if_neg fun h => Bool.false_ne_true h.1

section Attempt

variable {k : Caller} (hw : w.Sound m) (hwork : w.Works a m t) (hk : k.work = some (m, t))
  (hv : Replanned { w with pending := w.pending.erase a } v) (hcar : w.Carries m id j t n c)
  (hn : 0 ≤ n)
include hw hwork hk hv hcar hn

theorem stands_ended {o : Outcome} (ho : v.verdict m t o = some status) :
    (v.close k o).Stands m id j limit (.ended status) c := by
  refine .ended status c (hcar.id ▸ over_of_verdict hw hwork hk hv (fun hr => ?_) ho)
  rw [hcar.runs] at hr
  exact absurd hn (Int.not_le.mpr hr)

/-- A work whose job wants another attempt is queued again unless its manager has stopped. -/
theorem stands_again (hc : c = false) (hacc : (w.manager m).accepting = !l.stopped) :
    (v.close k .again).Stands m id j limit (l.again n) c := by
  subst hc
  have hverdict := verdict_again hw hwork hv hcar.cancelled
  rw [hacc] at hverdict
  simp only [Loop.again]
  cases hl : l.stopped with
  | true =>
    rw [hl] at hverdict
    exact stands_ended hw hwork hk hv hcar hn hverdict
  | false =>
    rw [hl] at hverdict
    have made : t < v.tickets.size := hv.tickets ▸ hw.founded.works a m t hwork
    have hf := ((hw.founded.erase a).replanned hv).store
    have ht : v.ticket t = w.ticket t := congrFun hv.ticket t
    rcases close_own hw hwork hk hv .again with ⟨_, _, hs, -⟩ | ⟨-, -, hr⟩ | ⟨hr, -⟩
    · rw [hverdict] at hs
      cases hs
    · have hid : (v.ticket t).id = id := ht ▸ hcar.id
      have hnamed := hf.named t made
      refine .ready v.tickets.size n (hid ▸ hr.queued hnamed) ⟨?_, ?_, ?_, hr.live, ?_⟩ hn
      · rw [hr.id, ← hnamed, hid]
      · rw [hr.job, ht, hcar.job]
      · rw [hr.runs, ht, hcar.runs]
      · intro i hi hknows
        rw [hr.other i hi] at hknows
        exact Nat.lt_irrefl _ (hf.known i _ hknows)
    · rw [hcar.runs] at hr
      exact absurd hn (Int.not_le.mpr hr)

/-- The job has a plan for the attempt that failed below the limit. -/
theorem stands_answer (p : RetryPlan) (ht : w.Tried j limit asks) (hlt : n < limit)
    (hl : l.cancelled = c) (hacc : (w.manager m).accepting = !l.stopped) :
    ((v.intend j (some p)).closeFailed j t n k).Stands m id j limit (l.answer n p.retry) c := by
  have hv' := hv.intend j (some p)
  have hlimit : ((v.intend j (some p)).job j).retryLimit = limit := (hv'.tried ht).2.2.1
  have hplan : ((v.intend j (some p)).job j).plan = some p := by
    change ((v.onJob j _).job j).plan = _
    rw [Store.job_onJob, if_pos rfl]
  have hout : (v.intend j (some p)).failureOutcome j t n =
      if c then .cancelled else if p.retry then .again else .declined := by
    simp only [failureOutcome]
    rw [hv'.ticket, hplan, hlimit, if_pos hlt]
    simp only [hcar.cancelled, Option.any_some]
  simp only [Loop.answer, closeFailed]
  rw [hout, hl]
  cases c with
  | true => exact stands_ended hw hwork hk hv' hcar hn rfl
  | false =>
    cases hr : p.retry with
    | true => exact stands_again hw hwork hk hv' hcar hn rfl hacc
    | false =>
      apply stands_ended hw hwork hk hv' hcar hn
      have hjob : ((v.intend j (some p)).ticket t).job = j := by rw [hv'.ticket]; exact hcar.job
      unfold Store.verdict Store.plan
      rw [hjob, hplan, hv'.ticket, hcar.cancelled]
      exact if_pos ⟨rfl, by simp [hr]⟩

end Attempt

/-- The body of the attempt failed. -/
theorem stands_falter (hw : w.Sound m) (hwork : w.Works a m t) (hcar : w.Carries m id j t n c)
    (hn : 0 ≤ n) (ht : w.Tried j limit asks) (hl : l.cancelled = c)
    (hacc : (w.manager m).accepting = !l.stopped) (reason : String) (since : Nat)
    (tally : Option Nat) :
    (World.falter { w with pending := w.pending.erase a } a j t n reason
      (.manager m t n since tally)).Stands m id j limit (l.fail limit asks n) c := by
  obtain ⟨u, hu⟩ : ∃ u : World, u = { w with pending := w.pending.erase a } := ⟨_, rfl⟩
  have hv : Replanned { w with pending := w.pending.erase a } u := hu ▸ .refl _
  have hv' := hv.intend j none
  have hticket : u.ticket t = w.ticket t := congrFun hv.ticket t
  have hplan : ((u.intend j none).job j).plan = none := by
    change ((u.onJob j _).job j).plan = _
    rw [Store.job_onJob, if_pos rfl]
  have hout : (u.intend j none).failureOutcome j t n =
      if c then .cancelled else if n < limit then .declined else .runLimit := by
    simp only [failureOutcome]
    rw [hv'.ticket, hplan, (hv'.tried ht).2.2.1]
    simp only [hcar.cancelled, Option.any_none, Bool.false_eq_true, ↓reduceIte]
  rw [← hu]
  simp only [Loop.fail, World.falter, closeFailed]
  rw [(hv.tried ht).2.2.1, (hv.tried ht).2.2.2, hticket, hcar.cancelled, hl, hout]
  cases c with
  | true =>
    rw [if_neg fun h => h.2 rfl]
    exact stands_ended hw hwork rfl hv' hcar hn rfl
  | false =>
    by_cases hlim : limit ≤ n
    · rw [if_neg fun h => Int.not_lt.mpr hlim h.1, if_neg Bool.false_ne_true,
        if_neg (Int.not_lt.mpr hlim), if_neg Bool.false_ne_true, if_pos hlim]
      exact stands_ended hw hwork rfl hv' hcar hn rfl
    have hlt := Int.not_le.mp hlim
    rw [if_pos ⟨hlt, Bool.false_ne_true⟩, if_neg Bool.false_ne_true, if_neg hlim]
    cases asks with
    | true =>
      refine .asking a t n reason since tally false (Table.find?_insert_same ..) ?_ hn hlt
      refine hcar.keep (congrArg Ticket.lasting (congrFun hv'.ticket t)) fun i _ hi => ?_
      change ((u.intend j none).manager i).knows t at hi
      rwa [hv'.manager] at hi
    | false =>
      rw [if_neg Bool.false_ne_true, if_neg Bool.false_ne_true]
      have ha := stands_answer (k := .manager m t n since tally) hw hwork rfl hv' hcar hn .again ht hlt hl hacc
      rw [Loop.answer, hl, if_neg Bool.false_ne_true] at ha
      exact ha

/-- A reply for the attempt of the id means to the loop what it does to the work. -/
theorem Tracks.reply (h : w.Tracks m id j limit asks l) (hw : w.Sound m) (hwork : w.Works a m t)
    (hid : (w.ticket t).id = id) (r : Reply) :
    ∃ stage, l.run limit asks (w.cue m id (.reply a r)).toList = some { l with stage } ∧
      (w.effect (.reply a r)).Stands m id j limit stage l.cancelled := by
  obtain ⟨hacc, htried, hstands⟩ := h
  have hrun := hw.tended.runs a t hwork
  rw [hid] at hrun
  -- the frame in which the loop has the attempt is the one that gets the reply
  have own {b u : Nat} {f : Frame} {n : Int} {c : Bool} (hf : w.pending.find? b = some f)
      (hu : f.work = some (m, u)) (hc : w.Carries m id j u n c) : a = b ∧ t = u := by
    exact works_unique hw hwork ((works_of_frame hf).mpr hu) (hid.trans hc.id.symm)
  obtain ⟨stage, cancelled, stopped⟩ := l
  have untaken {f : Frame} (hf : w.pending.find? a = some f) (hu : f.work = some (m, t))
      (hr : f.takes r = false) (hh : f.hears r = none) :
      ∃ s, Loop.run limit asks ⟨stage, cancelled, stopped⟩ (w.cue m id (.reply a r)).toList =
        some ⟨s, cancelled, stopped⟩ ∧
        (w.effect (.reply a r)).Stands m id j limit s cancelled := by
    rw [cue_own hf hu hid, hh, effect_untaken hf hr]
    exact ⟨stage, rfl, hstands⟩
  cases hstands with
  | ready u n hq hcar hn =>
    rw [hw.custody.apart id t hrun] at hq
    cases hq
  | ended status c ho =>
    rw [(Manager.free_iff.mp ho.free).1] at hrun
    cases hrun
  | trying b u n since tally c hf hcar hn =>
    obtain ⟨rfl, rfl⟩ := own hf rfl hcar
    cases r with
    | succeeded =>
      rw [cue_own hf rfl hid, effect_taken hf rfl]
      exact ⟨.ended .succeeded, rfl, stands_ended hw hwork rfl (.refl _) hcar hn rfl⟩
    | failed reason =>
      rw [cue_own hf rfl hid, effect_taken hf rfl]
      exact ⟨_, rfl, stands_falter hw hwork hcar hn htried rfl hacc reason since tally⟩
    | threw x =>
      rw [cue_own hf rfl hid, effect_taken hf rfl]
      exact ⟨_, rfl, stands_falter hw hwork hcar hn htried rfl hacc _ since tally⟩
    | _ => exact untaken hf rfl rfl rfl
  | asking b u n reason since tally c hf hcar hn hlt =>
    obtain ⟨rfl, rfl⟩ := own hf rfl hcar
    cases r with
    | plan p =>
      rw [cue_own hf rfl hid, effect_taken hf rfl]
      exact ⟨_, rfl, stands_answer hw hwork rfl (.refl _) hcar hn p htried hlt rfl hacc⟩
    | threw x =>
      rw [cue_own hf rfl hid, effect_taken hf rfl]
      exact ⟨_, rfl, stands_answer hw hwork rfl (.refl _) hcar hn .never htried hlt rfl hacc⟩
    | _ => exact untaken hf rfl rfl rfl

/-- A manager that has work exists. -/
theorem Stands.made (h : w.Stands m id j limit stage c) (hw : w.Sound m) :
    m < w.managers.size := by
  apply Nat.lt_of_not_le
  intro hm
  have hd : w.manager m = default := Registry.get_of_size_le hm
  rcases h.place hw with ⟨n, t, -, hq⟩ | ⟨n, t, -, hr⟩ | ⟨status, -, ho⟩
  · rw [hd] at hq
    cases hq
  · rw [hd] at hr
    cases hr
  · have hfin := ho.finished
    rw [hd] at hfin
    cases hfin

theorem Carries.mark (h : w.Carries m id j t n c) (hs : w'.toStore = w.cancelTicket t) :
    w'.Carries m id j t n true := by
  have ht : w'.ticket t = { w.ticket t with cancelled := true } := by
    rw [hs]
    change (w.onTicket t _).ticket t = _
    rw [Store.ticket_onTicket, if_pos rfl]
  refine ⟨?_, ?_, ?_, by rw [ht], fun i hi hk => ?_⟩
  · rw [ht]; exact h.id
  · rw [ht]; exact h.job
  · rw [ht]; exact h.runs
  · rw [hs] at hk
    exact h.alone i hi hk

theorem stands_cancel (h : w.Stands m id j limit l.stage l.cancelled) (hw : w.Sound m) :
    (w.effect (.cancel m id)).Stands m id j limit l.cancel.stage l.cancel.cancelled := by
  have hm := h.made hw
  have running {b t : Nat} {f : Frame} {n : Int} {c : Bool} (hf : w.pending.find? b = some f)
      (hwork : f.work = some (m, t)) (hc : w.Carries m id j t n c) :
      (w.effect (.cancel m id)).pending.find? b = some f ∧
        (w.effect (.cancel m id)).Carries m id j t n true := by
    refine ⟨waits_effect hw.founded hf nofun, hc.mark ?_⟩
    rw [toStore_cancel hm, Store.withdraw_running (hc.running hw hf hwork)]
    rfl
  obtain ⟨stage, cancelled, stopped⟩ := l
  cases h with
  | ready t n hq hc hn => exact .ended .cancelled false (over_cancel_queued hw hm hq)
  | trying b t n since tally c hf hc hn =>
    obtain ⟨hf, hc⟩ := running hf rfl hc
    exact .trying b t n since tally true hf hc hn
  | asking b t n reason since tally c hf hc hn hl =>
    obtain ⟨hf, hc⟩ := running hf rfl hc
    exact .asking b t n reason since tally true hf hc hn hl
  | ended status c ho =>
    refine .ended status cancelled (ho.agrees (.of_eq ?_))
    rw [toStore_cancel hm, Store.withdraw_eq_none.mpr ho.free]
    rfl

/-- A manager that was stopped accepts nothing. -/
theorem accepting_stop (hm : m < w.managers.size) :
    ((w.effect (.stop m)).manager m).accepting = false := by
  rw [toStore_manage (by simp [Call.inScope, hm])]
  simp only [Store.manage]
  split
  · rw [Store.manager_onManager, if_pos rfl]
    rfl
  · rename_i ha
    exact Bool.eq_false_iff.mpr ha

/-- What means something to a work: a cancellation, a stop, or a reply for its attempt. -/
theorem cue_cases {x : Signal} (h : w.cue m id mv = some x) :
    mv = .cancel m id ∧ x = .cancel ∨ mv = .stop m ∧ x = .stop ∨
      ∃ a r f t, mv = .reply a r ∧ w.Works a m t ∧ (w.ticket t).id = id ∧
        Frame.hears f r = some x := by
  simp only [cue] at h
  split at h
  · split at h
    · rename_i hc
      obtain ⟨rfl, rfl⟩ := hc
      exact .inl ⟨rfl, (Option.some.inj h).symm⟩
    · cases h
  · split at h
    · rename_i hs
      obtain rfl := hs
      exact .inr (.inl ⟨rfl, (Option.some.inj h).symm⟩)
    · cases h
  · rename_i a r
    obtain ⟨f, hf, hb⟩ := Option.bind_eq_some_iff.mp h
    obtain ⟨⟨i, t⟩, hwork, hx⟩ := Option.bind_eq_some_iff.mp hb
    dsimp only at hx
    split at hx
    · rename_i hid
      obtain ⟨rfl, hid⟩ := hid
      exact .inr (.inr ⟨a, r, f, t, rfl, (works_of_frame hf).mpr hwork, hid, hx⟩)
    · cases hx
  · cases h

/-- What a move means to the loop is what it does to the work. -/
theorem Tracks.effect (h : w.Tracks m id j limit asks l) (hw : w.Sound m)
    (ha : leftAlone m id w mv) (hn : ¬w.Admits m id (w.effect mv).toStore) :
    ∃ l', l.run limit asks (w.cue m id mv).toList = some l' ∧
      (w.effect mv).Tracks m id j limit asks l' := by
  have htried := (keeps_effect w mv).tried h.tried
  by_cases hs : mv = .stop m
  · subst hs
    have hne : Move.stop m ≠ .cancel m id := nofun
    have hag := (effect_agrees hw.founded hne nofun).resolve_right hn
    refine ⟨{ l with stopped := true }, ?_, accepting_stop (h.stands.made hw), htried, ?_⟩
    · rw [show w.cue m id (.stop m) = some .stop from if_pos rfl]
      rfl
    · exact h.stands.keep hw hag (fun b f t hf _ _ => waits_effect hw.founded hf nofun)
        fun t n c hh hc => hc.effect hw hh ha nofun
  have hacc := (accepting_effect hw.founded hs).trans h.accepting
  by_cases hc : mv = .cancel m id
  · subst hc
    refine ⟨l.cancel, ?_, ?_, htried, stands_cancel h.stands hw⟩
    · rw [show w.cue m id (.cancel m id) = some .cancel from if_pos ⟨rfl, rfl⟩]
      rfl
    · rw [hacc]
      simp only [Loop.cancel]
      split <;> rfl
  by_cases hr : ∃ a r t, mv = .reply a r ∧ w.Works a m t ∧ (w.ticket t).id = id
  · obtain ⟨a, r, t, rfl, hwork, hid⟩ := hr
    obtain ⟨stage, hrun, hstands⟩ := h.reply hw hwork hid r
    exact ⟨{ l with stage }, hrun, hacc, htried, hstands⟩
  have hr (a : Nat) (r : Reply) (t : Nat) (he : mv = .reply a r) (hwork : w.Works a m t) :
      (w.ticket t).id ≠ id := fun hid => hr ⟨a, r, t, he, hwork, hid⟩
  have hag := (effect_agrees hw.founded hc hr).resolve_right hn
  have hcue : w.cue m id mv = none := Option.eq_none_iff_forall_ne_some.mpr fun x hx => by
    rcases cue_cases hx with ⟨he, -⟩ | ⟨he, -⟩ | ⟨a, r, f, t, he, hwork, hid, -⟩
    · exact hc he
    · exact hs he
    · exact hr a r t he hwork hid
  rw [hcue]
  refine ⟨l, rfl, hacc, htried, h.stands.keep hw hag (fun b f t hf hwork hid => ?_)
    fun t n c hh hcar => hcar.effect hw hh ha hc⟩
  exact waits_effect hw.founded hf fun r he => hr b r t he hwork hid

end World

end Backlog
