import Backlog.Proofs.Ageing
import Backlog.Proofs.Faces
import Backlog.Proofs.Notices

/-!
# The life of a ticket

A ticket has the id of its job, which is never empty, and the priority of its job as long as
nobody else sets that. The rest that it took over stays with it when it wraps another job. A second
stamp is refused, and so is no job at all.
-/

namespace Backlog

theorem Job.id_of_make {p : Params} {j : Job} (h : Job.make p = .ok j) : j.id ≠ "" := by
  simp only [Job.make] at h
  split at h
  · cases h
  rename_i hid
  split at h
  · cases h
  split at h
  · cases h
  obtain rfl := Except.ok.inj h
  rintro (he : p.id = "")
  rw [he] at hid
  exact hid rfl

namespace World

variable {w w' : World} {a t j : Nat} {mv : Move} {moves : List Move}

/-- A move makes a job or leaves their number alone. -/
theorem jobs_effect (h : w.Grounded) (mv : Move) : (w.effect mv).jobs.size = w.jobs.size ∨
    ∃ p j, mv = .call (.makeJob p) ∧ Job.make p = .ok j ∧
      (w.effect mv).toStore = { w.toStore with jobs := w.jobs.add j } := by
  rcases mints_effect h mv with hm | ⟨c, rfl, ha, hc, he⟩
  · exact .inl hm.jobs
  rw [he]
  have modify {j : Nat} (hj : j < w.jobs.size) (f : Job → Job) :
      (w.onJob j f).jobs.size = w.jobs.size := by
    rw [Store.onJob, Registry.size_modify]
    omega
  cases c with
  | makeJob p =>
    rw [Store.call]
    cases hj : Job.make p with
    | error f => exact .inl rfl
    | ok j => exact .inr ⟨p, j, rfl, hj, rfl⟩
  | editJob j e => exact .inl (modify (by simpa [Call.inScope] using hc) _)
  | editTicket t e =>
    simp only [Call.inScope, Bool.and_eq_true, decide_eq_true_eq] at hc
    cases e with
    | priority p => exact .inl (modify (h.founded.store.job t hc.1) _)
    | job j =>
      cases j with
      | none => exact .inl rfl
      | some j => exact .inl (modify (by simpa using hc.2) _)
    | _ => cases ha
  | _ => cases ha

/-- An attempt that begins asks the job of its ticket. -/
theorem asks_enter {b : Nat} {n : Int} {k : Caller} {f : Frame}
    (hf : (w.enter a t n k).pending.find? b = some f) (hj : f.job? = some j) :
    w.pending.find? b = some f ∨ (w.ticket t).job = j := by
  obtain ⟨g, q, hg, he⟩ := enter_eq w a t n k
  rw [he] at hf
  rcases Table.find?_of_insert hf with ⟨-, rfl⟩ | hf
  · rcases hg with ⟨rfl, -⟩ | ⟨rfl, -⟩
    · cases hj
    · exact .inr (Option.some.inj hj)
  · exact .inl hf

/-- The job that an operation waits for after the effect of a move was waited for before, or it is
that of a ticket. -/
theorem asks_effect {f : Frame} (hf : (w.effect mv).pending.find? a = some f)
    (hj : f.job? = some j) :
    (∃ b g, w.pending.find? b = some g ∧ g.job? = some j) ∨
      ∃ t < w.tickets.size, (w.ticket t).job = j := by
  have was (hf : w.pending.find? a = some f) :
      (∃ b g, w.pending.find? b = some g ∧ g.job? = some j) ∨
        ∃ t < w.tickets.size, (w.ticket t).job = j :=
    .inl ⟨a, f, hf, hj⟩
  cases mv with
  | call c =>
    simp only [effect] at hf
    split at hf
    · rename_i hc
      cases c with
      | run t n =>
        rcases asks_enter hf hj with hf | he
        · exact was hf
        · exact .inr ⟨t, by simpa [Call.inScope] using hc, he⟩
      | attempt t n =>
        rcases Table.find?_of_insert hf with ⟨-, rfl⟩ | hf
        · exact .inr ⟨t, by simpa [Call.inScope] using hc, Option.some.inj hj⟩
        · exact was hf
      | _ => exact was hf
    · exact was hf
  | reply b r =>
    rcases effect_reply_cases w b r with he | ⟨g, u, hg, rfl, he | ⟨i, t, n, reason, k, q, rfl, he⟩ |
      ⟨v, k, o, hv, he⟩⟩ <;> rw [he] at hf
    · exact was hf
    · exact was (Table.find?_of_erase hf)
    · rcases Table.find?_of_insert hf with ⟨-, rfl⟩ | hf
      · exact .inl ⟨b, _, hg, hj⟩
      · exact was (Table.find?_of_erase hf)
    · change v.pending.find? a = some f at hf
      rw [hv.replanned.pending] at hf
      exact was (Table.find?_of_erase hf)
  | clock now => exact was hf
  | elapse nanos => exact was hf

namespace Grounded

theorem start (now : Int) : (start now).Grounded where
  founded := .start now
  named := nofun
  asks := nofun

theorem effect (h : w.Grounded) (mv : Move) : (w.effect mv).Grounded := by
  have hk := keeps_effect w mv
  refine ⟨h.founded.effect mv, fun j hz => ?_, fun a f j hf hj => ?_⟩
  · by_cases hj : j < w.jobs.size
    · rw [Job.id_of_lasting (hk.job j hj)]
      exact h.named j hj
    · rcases jobs_effect h mv with he | ⟨p, k, -, hp, he⟩
      · exact absurd (he ▸ hz) hj
      · rw [he, Registry.size_add] at hz
        obtain rfl : j = w.jobs.size := by omega
        rw [he]
        rw [show Store.job { w.toStore with jobs := w.jobs.add k } w.jobs.size = k from
          (Registry.get_add ..).trans (if_pos rfl)]
        exact Job.id_of_make hp
  · rcases asks_effect hf hj with ⟨b, g, hg, hq⟩ | ⟨t, ht, rfl⟩
    · exact Nat.lt_of_lt_of_le (h.asks b g j hg hq) hk.jobs
    · exact Nat.lt_of_lt_of_le (h.founded.store.job t ht) hk.jobs

theorem sequel (h : w.Grounded) (hs : Sequel a w w') : w'.Grounded := by
  have hf := h.founded.sequel hs
  have hsame := sameFaces_sequel h.founded hs
  refine ⟨hf, fun j hj => ?_, fun b f j hb hj => ?_⟩
  · rw [show (w'.job j).id = (w.job j).id from congrArg Face.id (hsame.job j)]
    exact h.named j (hsame.jobs ▸ hj)
  · rw [hsame.jobs]
    cases hs with
    | wrote ls es he => exact h.asks b f j hb hj
    | told i t next ha ht hn =>
      rcases Table.find?_of_insert hb with ⟨-, rfl⟩ | hb
      · cases hj
      · exact h.asks b f j hb hj
    | welcomed i t ha =>
      rcases Table.find?_of_insert hb with ⟨-, rfl⟩ | hb
      · cases hj
      · exact h.asks b f j hb hj
    | departed m t s tally ha hc =>
      rcases asks_enter hb hj with hb | he
      · exact h.asks b f j hb hj
      · -- a claim leaves the ticket with its job
        have ht := h.founded.store.known m t (.inl (Store.claim_begins hc).queued)
        rw [← ((Store.sameFaces_claim h.founded.store hc).ticket t).1.symm.trans he]
        exact h.founded.store.job t ht

theorem step (h : w.Grounded) (mv : Move) : (w.step mv).Grounded := by
  suffices ∀ v, Sequels (w.acting mv) (w.effect mv) v → v.Grounded from
    this _ (step_sequels h.founded mv)
  intro v hs
  induction hs with
  | refl => exact h.effect mv
  | tail _ hs ih => exact ih.sequel hs

theorem run (h : w.Grounded) (moves : List Move) : (w.run moves).Grounded :=
  (along_true w moves).run (I := Grounded) (fun _ mv h _ => h.step mv) h

end Grounded

theorem Reachable.grounded (h : w.Reachable) : w.Grounded :=
  h.induction Grounded.start fun _ mv h => h.step mv

/-- No other ticket is made for the job of ticket `t`, gets that job or prices it, and neither
does a client. -/
def leavesPrice (t : Nat) (w : World) (mv : Move) : Prop :=
  (∀ u, w.tickets.size ≤ u → u < (w.step mv).tickets.size →
    ((w.step mv).ticket u).job ≠ (w.ticket t).job) ∧
  (∀ u p, mv = .call (.editTicket u (.priority p)) → (w.ticket u).job = (w.ticket t).job → u = t) ∧
  (∀ u, mv = .call (.editTicket u (.job (some (w.ticket t).job))) → u = t) ∧
  ∀ p, mv ≠ .call (.editJob (w.ticket t).job (.priority p))

/-- A ticket that is priced by its job stays so where what is shown is altered. -/
theorem priced_alter (h : w.Founded) (ht : t < w.tickets.size) {c : Call} (ha : c.alters = true)
    (hl : w.leavesPrice t (.call c)) (hp : w.Priced t) : (w.call c).Priced t := by
  obtain ⟨-, hprice, hjob, hedit⟩ := hl
  cases c with
  | makeJob p =>
    rw [Store.call]
    cases hj : Job.make p with
    | error f => exact hp
    | ok j =>
      have hne : (w.ticket t).job ≠ w.jobs.size := Nat.ne_of_lt (h.store.job t ht)
      exact hp.trans (congrArg Job.priority ((Registry.get_add ..).trans (if_neg hne))).symm
  | editJob j e =>
    refine hp.trans ?_
    change _ = ((w.onJob j e.apply).job (w.ticket t).job).priority
    rw [Store.job_onJob]
    split
    · rename_i he
      cases e with
      | priority p => exact absurd (by rw [he]) (hedit p)
      | _ => rw [he]; rfl
    · rfl
  | editTicket u e =>
    cases e with
    | priority p =>
      by_cases hu : t = u
      · rw [← hu]
        simp [Store.call, Store.after, Store.editTicket, Store.setPriority, Store.Priced]
      · have hj : (w.ticket t).job ≠ (w.ticket u).job := fun hj => hu (hprice u p rfl hj.symm).symm
        simpa [Store.call, Store.after, Store.editTicket, Store.setPriority, Store.Priced, hu, hj]
          using hp
    | job j =>
      cases j with
      | none => exact hp
      | some j =>
        by_cases hu : t = u
        · rw [← hu]
          simp [Store.call, Store.after, Store.editTicket, Store.setJob, Store.Priced]
        · have hj : (w.ticket t).job ≠ j := fun hj => hu (hjob u (by rw [hj])).symm
          simpa [Store.call, Store.after, Store.editTicket, Store.setJob, Store.Priced, hu, hj]
            using hp
    | _ => cases ha
  | _ => cases ha

theorem priced_step (h : w.Grounded) (ht : t < w.tickets.size) (hl : w.leavesPrice t mv)
    (hp : w.Priced t) : (w.step mv).Priced t := by
  have hs := sameFaces_step h.founded mv
  refine hs.priced ?_
  rcases mints_effect h mv with hm | ⟨c, rfl, ha, -, he⟩
  · refine hm.priced ht hp fun u hu hz he => ?_
    exact hl.1 u hu (hs.tickets ▸ hz) ((hs.ticket u).1.trans he)
  · rw [he]
    exact priced_alter h.founded ht ha hl hp

theorem priced_run (h : w.Grounded) (ht : t < w.tickets.size)
    (hl : w.Along (leavesPrice t) moves) (hp : w.Priced t) : (w.run moves).Priced t :=
  (hl.run (I := fun v => v.Grounded ∧ t < v.tickets.size ∧ v.Priced t)
    (fun _ mv hv hl => ⟨hv.1.step mv, Nat.lt_of_lt_of_le hv.2.1 (tickets_step hv.1.founded mv),
      priced_step hv.1 hv.2.1 hl hv.2.2⟩) ⟨h, ht, hp⟩).2.2

/-- No ticket is made where what is shown is altered. -/
theorem tickets_alter {c : Call} (hc : c.inScope w.toStore = true) (ha : c.alters = true) :
    (w.call c).tickets.size = w.tickets.size := by
  cases c with
  | makeJob p =>
    rw [Store.call]
    cases Job.make p <;> rfl
  | editJob j e => rfl
  | editTicket u e =>
    simp only [Call.inScope, Bool.and_eq_true, decide_eq_true_eq] at hc
    cases e with
    | priority p => exact Store.size_onTicket hc.1
    | job j =>
      cases j with
      | none => rfl
      | some j => exact Store.size_onTicket hc.1
    | _ => cases ha
  | _ => cases ha

/-- A ticket that a step makes shows what its job does. -/
theorem mirrors_made (h : w.Grounded) (hz : w.tickets.size ≤ t)
    (ht : t < (w.step mv).tickets.size) : (w.step mv).Mirrors t := by
  have hs := sameFaces_step h.founded mv
  rw [hs.tickets] at ht
  apply hs.mirrors
  rcases mints_effect h mv with hm | ⟨c, rfl, ha, hc, he⟩
  · exact hm.fresh t hz ht
  · rw [he, tickets_alter hc ha] at ht
    exact absurd hz (Nat.not_le_of_lt ht)

/-- An edit that a ticket refuses changes nothing but that it was begun and has failed. -/
theorem step_editTicket_error {e : TicketEdit} {f : Fault}
    (hc : (Call.editTicket t e).inScope w.toStore = true)
    (he : w.toStore.editTicket t e = .error f) :
    w.step (.call (.editTicket t e)) =
      { w with calls := w.calls + 1, history := .raised w.calls f :: w.history } := by
  simp only [step]
  rw [if_pos hc]
  change World.commit { w with calls := w.calls + 1 } w.calls .unit (w.toStore.editTicket t e) = _
  rw [he]
  rfl

/-- Whoever makes a ticket, it shows at first what its job does. Whatever happens to it afterwards,
its id is that of the job it wraps and is not empty, and its priority is that of the job as long as
nobody else sets it. The network need, the tags and the group stay with the ticket when it gets
another job. Its job, or its jobs, are told once at most that the work ended. No job at all and a
second stamp are refused and leave everything as it was; a stamp, a cancellation and a success are
for good. -/
theorem ticket_for_life (hw : w.Reachable) (hnew : w.tickets.size ≤ t)
    (hmade : t < (w.step mv).tickets.size) : (w.step mv).Mirrors t ∧
    ∀ moves, let v := (w.step mv).run moves
      ((v.ticket t).id ≠ "" ∧ (v.ticket t).id = (v.job (v.ticket t).job).id) ∧
      ((w.step mv).Along (leavesPrice t) moves →
        (v.ticket t).priority = (v.job (v.ticket t).job).priority) ∧
      ((v.ticket t).needsNetwork = ((w.step mv).ticket t).needsNetwork ∧
        (v.ticket t).tags = ((w.step mv).ticket t).tags ∧
        (v.ticket t).group = ((w.step mv).ticket t).group) ∧
      v.notices.count t ≤ 1 ∧
      v.step (.call (.editTicket t (.job none))) =
        { v with calls := v.calls + 1, history := .raised v.calls .noJob :: v.history } ∧
      (∀ n i, (v.ticket t).stamp = some n → v.step (.call (.editTicket t (.stamp i))) =
        { v with
          calls := v.calls + 1
          history := .raised v.calls (.stamped (v.ticket t).id) :: v.history }) ∧
      ∀ more, let u := v.run more
        (∀ n, (v.ticket t).stamp = some n → (u.ticket t).stamp = some n) ∧
        ((v.ticket t).cancelled = true → (u.ticket t).cancelled = true) ∧
        ((v.ticket t).successful = true → (u.ticket t).successful = true) := by
  have hg := hw.grounded
  have hm := mirrors_made hg hnew hmade
  refine ⟨hm, fun moves => ?_⟩
  have hg := hg.step mv
  have hage := (ages_run hg.founded moves).ticket t hmade
  have hz := Nat.lt_of_lt_of_le hmade (ages_run hg.founded moves).size
  have hcount : ((w.step mv).run moves).notices.count t ≤ 1 := by
    obtain ⟨now, before, rfl⟩ := hw
    rw [notices_count (P := fun _ _ => True) ⟨now, before ++ mv :: moves, along_true .., by
      rw [run_append, run_cons]⟩ t]
    split <;> decide
  have hpriced (hl : (w.step mv).Along (leavesPrice t) moves) := priced_run hg hmade hl hm.priced
  have hv := hg.run moves
  generalize (w.step mv).run moves = v at *
  have hid := hv.founded.store.named t hz
  refine ⟨⟨?_, hid⟩, hpriced, ⟨hage.needsNetwork, hage.tags, hage.group⟩, hcount, ?_, ?_, ?_⟩
  · rw [hid]
    exact hv.named _ (hv.founded.store.job t hz)
  · exact step_editTicket_error (by simpa [Call.inScope] using hz) rfl
  · intro n i hn
    refine step_editTicket_error (by simpa [Call.inScope] using hz) ?_
    simp only [Store.editTicket]
    rw [hn]
  · intro more
    have hlater := (ages_run hv.founded more).ticket t hz
    exact ⟨hlater.stamp, hlater.cancelled, hlater.successful⟩

def twoJobs : List Move := [.call (.makeJob { id := "a" }), .call (.makeJob { id := "b" })]

/-- A ticket is made for the first job. -/
abbrev firstDraft : Move :=
  .call (.build { job := some 0, priority := some 3, created := some 0, session := some 0 })

/-- The ticket gets a priority, a stamp and the other job, which needs the network from then on.
Twice the job is to be told that the work of the ticket ended. -/
def career : List Move :=
  [.call (.editTicket 0 (.priority 7)), .call (.editTicket 0 (.stamp 4)),
    .call (.editTicket 0 (.job (some 1))), .call (.editJob 1 (.network true)), .call (.tell 0),
    .reply 7 .done, .call (.tell 0)]

/-- A move that makes no ticket, and is no such edit of another ticket or of a job. -/
theorem leavesPrice_of_still (hz : (w.step mv).tickets.size ≤ w.tickets.size)
    (hp : ∀ u p, mv = .call (.editTicket u (.priority p)) → u = t)
    (hj : ∀ u j, mv = .call (.editTicket u (.job j)) → u = t)
    (he : ∀ j p, mv ≠ .call (.editJob j (.priority p))) : w.leavesPrice t mv :=
  ⟨fun _ hu ht => absurd (Nat.lt_of_lt_of_le ht hz) (Nat.not_lt_of_le hu),
    fun u p h _ => hp u p h, fun u h => hj u _ h, he _⟩

theorem ticket_for_life_career :
    let w := (start 0).run twoJobs
    let v := (w.step firstDraft).run career
    (v.ticket 0).job = 1 ∧ (v.ticket 0).id = "b" ∧ (v.ticket 0).priority = 7 ∧
      (v.job 1).priority = 7 ∧ (v.job 1).needsNetwork = true ∧
      (v.ticket 0).needsNetwork = false ∧ v.notices.count 0 = 1 ∧
      (v.step (.call (.editTicket 0 (.stamp 9)))).toStore = v.toStore ∧
      ∀ more, ((v.run more).ticket 0).stamp = some 4 := by
  intro w v
  have hl : (w.step firstDraft).Along (leavesPrice 0) career := by
    refine ⟨leavesPrice_of_still ?_ ?_ ?_ ?_, leavesPrice_of_still ?_ ?_ ?_ ?_,
      leavesPrice_of_still ?_ ?_ ?_ ?_, leavesPrice_of_still ?_ ?_ ?_ ?_,
      leavesPrice_of_still ?_ ?_ ?_ ?_, leavesPrice_of_still ?_ ?_ ?_ ?_,
      leavesPrice_of_still ?_ ?_ ?_ ?_, trivial⟩
    all_goals first | decide +kernel | exact fun _ _ h => by cases h; rfl | exact nofun
  have hnew : w.tickets.size ≤ 0 := by decide +kernel
  have hmade : 0 < (w.step firstDraft).tickets.size := by decide +kernel
  obtain ⟨-, hlife⟩ := ticket_for_life ⟨0, twoJobs, rfl⟩ hnew hmade
  obtain ⟨hid, hprice, hkept, hcount, -, hstamp, hlater⟩ := hlife career
  have hs : (v.ticket 0).stamp = some 4 := by decide +kernel
  have hp : (v.ticket 0).priority = 7 := by decide +kernel
  have hj : (v.ticket 0).job = 1 := by decide +kernel
  have hjob := hprice hl
  rw [hp, hj] at hjob
  refine ⟨hj, ?_, hp, hjob.symm, by decide +kernel, hkept.1.trans (by decide +kernel), ?_, ?_,
    fun more => (hlater more).1 4 hs⟩
  · exact hid.2.trans (by decide +kernel)
  · exact Nat.le_antisymm hcount (by decide +kernel)
  · rw [hstamp 4 9 hs]

end World

end Backlog
