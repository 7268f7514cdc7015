import Backlog.Proofs.LifeCycle
import Backlog.Proofs.Rulings

/-!
# What tickets show of their jobs

A ticket is made with the id, the priority, the network need and the tags that its job has then.
Operations make one ticket at most, and what tickets and jobs show changes by nothing else than
edits.
-/

namespace Backlog

/-- What a ticket has from its job. -/
structure Face where
  id : String
  priority : Int
  needsNetwork : Bool
  tags : Option Names

def Job.face (j : Job) : Face := ⟨j.id, j.priority, j.needsNetwork, j.tags⟩

def Ticket.face (k : Ticket) : Face := ⟨k.id, k.priority, k.needsNetwork, k.tags⟩

namespace Store

variable {s s' s'' : Store} {m t j : Nat}

/-- The ticket shows what its job does. -/
def Mirrors (s : Store) (t : Nat) : Prop :=
  (s.ticket t).face = (s.job (s.ticket t).job).face

/-- The ticket has the priority of its job. -/
def Priced (s : Store) (t : Nat) : Prop :=
  (s.ticket t).priority = (s.job (s.ticket t).job).priority

theorem Mirrors.priced (h : s.Mirrors t) : s.Priced t := congrArg Face.priority h

/-- There are as many jobs and tickets, which wrap the same jobs, and all show the same. -/
structure SameFaces (s s' : Store) : Prop where
  jobs : s'.jobs.size = s.jobs.size
  tickets : s'.tickets.size = s.tickets.size
  job : ∀ j, (s'.job j).face = (s.job j).face
  ticket : ∀ t, (s'.ticket t).job = (s.ticket t).job ∧ (s'.ticket t).face = (s.ticket t).face

theorem sameFaces_of_eq (hj : s'.jobs = s.jobs) (ht : s'.tickets = s.tickets) :
    SameFaces s s' where
  jobs := congrArg Registry.size hj
  tickets := congrArg Registry.size ht
  job j := by rw [job, job, hj]
  ticket t := by
    rw [ticket, ticket, ht]
    exact ⟨rfl, rfl⟩

theorem SameFaces.refl (s : Store) : SameFaces s s := sameFaces_of_eq rfl rfl

theorem SameFaces.trans (h : SameFaces s s') (h' : SameFaces s' s'') : SameFaces s s'' where
  jobs := h'.jobs.trans h.jobs
  tickets := h'.tickets.trans h.tickets
  job j := (h'.job j).trans (h.job j)
  ticket t := ⟨(h'.ticket t).1.trans (h.ticket t).1, (h'.ticket t).2.trans (h.ticket t).2⟩

theorem SameFaces.mirrors (h : SameFaces s s') (hm : s.Mirrors t) : s'.Mirrors t := by
  rw [Mirrors, (h.ticket t).2, (h.ticket t).1, h.job]
  exact hm

theorem SameFaces.priced (h : SameFaces s s') (hp : s.Priced t) : s'.Priced t := by
  have hj := congrArg Face.priority (h.job (s.ticket t).job)
  have ht := congrArg Face.priority (h.ticket t).2
  rw [Priced, (h.ticket t).1]
  exact ht.trans (hp.trans hj.symm)

theorem sameFaces_onManager (s : Store) (m : Nat) (f : Manager → Manager) :
    SameFaces s (s.onManager m f) :=
  sameFaces_of_eq rfl rfl

theorem sameFaces_onJob (hj : j < s.jobs.size) {f : Job → Job}
    (hf : (f (s.job j)).face = (s.job j).face) : SameFaces s (s.onJob j f) where
  jobs := by
    rw [onJob, Registry.size_modify]
    omega
  tickets := rfl
  job i := by
    rw [job_onJob]
    split
    · rename_i h
      rw [hf, h]
    · rfl
  ticket _ := ⟨rfl, rfl⟩

theorem sameFaces_onTicket (ht : t < s.tickets.size) {f : Ticket → Ticket}
    (hj : (f (s.ticket t)).job = (s.ticket t).job)
    (hf : (f (s.ticket t)).face = (s.ticket t).face) : SameFaces s (s.onTicket t f) where
  jobs := rfl
  tickets := size_onTicket ht
  job _ := rfl
  ticket u := by
    rw [ticket_onTicket]
    split
    · rename_i h
      rw [h]
      exact ⟨hj, hf⟩
    · exact ⟨rfl, rfl⟩

theorem sameFaces_stampTicket (ht : t < s.tickets.size) : SameFaces s (s.stampTicket t) := by
  simp only [stampTicket]
  split
  · exact .refl s
  · exact (sameFaces_onTicket ht (f := ({ · with stamp := some s.nextStamp })) rfl rfl).trans
      (sameFaces_of_eq rfl rfl)

theorem sameFaces_setContext (hj : (s.ticket t).job < s.jobs.size) (logger : Option Nat)
    (session : Int) : SameFaces s (s.setContext t logger session) :=
  sameFaces_onJob hj rfl

theorem sameFaces_cancelTicket (ht : t < s.tickets.size) (hj : (s.ticket t).job < s.jobs.size) :
    SameFaces s (s.cancelTicket t) :=
  (sameFaces_onTicket ht (f := ({ · with cancelled := true })) rfl rfl).trans
    (sameFaces_onJob (s := s.onTicket t _) hj (f := ({ · with cancelled := true })) rfl)

theorem sameFaces_delayGroup {q : Queue} (hq : ∀ t ∈ q.order, t < s.tickets.size)
    (group : String) (d : Option Int) :
    SameFaces s { s with tickets := q.delayGroup s.tickets group d } := by
  simp only [Queue.delayGroup]
  generalize q.order = order at hq
  induction order generalizing s with
  | nil => exact .refl s
  | cons t order ih =>
    have ht := hq t List.mem_cons_self
    have hs : SameFaces s (s.onTicket t (Queue.delayMember group d)) := by
      apply sameFaces_onTicket ht <;> simp only [Queue.delayMember] <;> split <;> rfl
    refine hs.trans (ih (s := s.onTicket t _) fun u hu => ?_)
    rw [hs.tickets]
    exact hq u (List.mem_cons_of_mem t hu)

theorem sameFaces_spread (hk : ∀ u ∈ (s.manager m).queue.order, u < s.tickets.size)
    (plan : Option RetryPlan) : SameFaces s (s.spread m t plan) := by
  simp only [spread]
  split
  · split
    · exact sameFaces_delayGroup hk ..
    · exact .refl s
  · exact .refl s

theorem sameFaces_withdraw (h : s.Founded) {id : String} {v : Withdrawal}
    (hw : s.withdraw m id = some (s', v)) : SameFaces s s' := by
  have cancel {u : Nat} (hu : (s.manager m).knows u) : SameFaces s (s.cancelTicket u) :=
    sameFaces_cancelTicket (h.known m u hu) (h.job u (h.known m u hu))
  rcases withdraw_cases hw with ⟨u, hu, rfl, -⟩ | ⟨-, u, queue, hq, rfl, -⟩
  · exact cancel (.inr (.inr ⟨id, hu⟩))
  · exact (cancel (Manager.knows_of_removed hq)).trans (sameFaces_onManager ..)

theorem sameFaces_reclaim (h : s.Founded) (ht : t < s.tickets.size) :
    SameFaces s (s.reclaim m t).1 := by
  rcases reclaim_eq s m t with ⟨he, -⟩ | ⟨-, w, next, rfl, rfl, he⟩ <;> rw [he]
  · exact .refl s
  have hw := sameFaces_onTicket ht (f := ({ · with session := (s.manager m).session })) rfl rfl
  have hs := hw.trans (sameFaces_stampTicket (t := t) (hw.tickets ▸ ht))
  refine hs.trans (.trans (sameFaces_setContext (t := t) ?_ ..) (sameFaces_onManager ..))
  rw [(hs.ticket t).1, hs.jobs]
  exact h.job t ht

theorem sameFaces_recover (h : s.Founded) {ts : List (Option Nat)}
    (hts : ∀ t ∈ ts, t.all (· < s.tickets.size) = true) :
    SameFaces s (s.manage m (.recover ts)) :=
  (recover_induction (P := fun r => r.Founded ∧ SameFaces s r)
    (fun _ _ hr _ ht => ⟨hr.1.reclaim ht, hr.2.trans (sameFaces_reclaim hr.1 ht)⟩)
    ⟨h, .refl s⟩ hts).2

theorem sameFaces_claim (h : s.Founded) (hc : s.claim m = some (s', t)) : SameFaces s s' := by
  have ht := h.known m t (.inl (claim_begins hc).queued)
  simp only [claim] at hc
  split at hc
  · cases hc
  · obtain ⟨rfl, rfl⟩ := Prod.mk.inj (Option.some.inj hc)
    exact (sameFaces_onTicket ht rfl rfl).trans (sameFaces_onManager ..)

/-- At most one ticket is made. It shows what its job does, to which it has given its priority;
other jobs and tickets keep theirs. -/
structure Mints (s s' : Store) : Prop where
  jobs : s'.jobs.size = s.jobs.size
  tickets : s.tickets.size ≤ s'.tickets.size
  kept : ∀ t < s.tickets.size,
    (s'.ticket t).job = (s.ticket t).job ∧ (s'.ticket t).face = (s.ticket t).face
  fresh : ∀ t, s.tickets.size ≤ t → t < s'.tickets.size → s'.Mirrors t
  price : ∀ j, (s'.job j).priority = (s.job j).priority ∨
    ∃ t, s.tickets.size ≤ t ∧ t < s'.tickets.size ∧ (s'.ticket t).job = j

theorem SameFaces.mints (h : SameFaces s s') : Mints s s' where
  jobs := h.jobs
  tickets := Nat.le_of_eq h.tickets.symm
  kept t _ := h.ticket t
  fresh _ hz ht := absurd (h.tickets ▸ ht) (Nat.not_lt_of_le hz)
  price j := .inl (congrArg Face.priority (h.job j))

theorem mints_of_eq (hj : s'.jobs = s.jobs) (ht : s'.tickets = s.tickets) : Mints s s' :=
  (sameFaces_of_eq hj ht).mints

theorem Mints.refl (s : Store) : Mints s s := mints_of_eq rfl rfl

theorem Mints.trans (h : Mints s s') (h' : SameFaces s' s'') : Mints s s'' where
  jobs := h'.jobs.trans h.jobs
  tickets := h'.tickets ▸ h.tickets
  kept t ht :=
    ⟨(h'.ticket t).1.trans (h.kept t ht).1, (h'.ticket t).2.trans (h.kept t ht).2⟩
  fresh t hz ht := h'.mirrors (h.fresh t hz (h'.tickets ▸ ht))
  price j := by
    rw [show (s''.job j).priority = (s'.job j).priority from congrArg Face.priority (h'.job j),
      h'.tickets]
    simp only [(h'.ticket _).1]
    exact h.price j

theorem SameFaces.trans_mints (h : SameFaces s s') (h' : Mints s' s'') : Mints s s'' where
  jobs := h'.jobs.trans h.jobs
  tickets := h.tickets ▸ h'.tickets
  kept t ht :=
    have hk := h'.kept t (h.tickets ▸ ht)
    ⟨hk.1.trans (h.ticket t).1, hk.2.trans (h.ticket t).2⟩
  fresh t hz ht := h'.fresh t (h.tickets ▸ hz) ht
  price j := by
    rw [← show (s'.job j).priority = (s.job j).priority from congrArg Face.priority (h.job j),
      ← h.tickets]
    exact h'.price j

/-- A ticket is priced by its job until another one is made for that. -/
theorem Mints.priced (h : Mints s s') (ht : t < s.tickets.size) (hp : s.Priced t)
    (hn : ∀ u, s.tickets.size ≤ u → u < s'.tickets.size → (s'.ticket u).job ≠ (s.ticket t).job) :
    s'.Priced t := by
  obtain ⟨hj, hf⟩ := h.kept t ht
  rw [Priced, hj]
  refine (congrArg Face.priority hf).trans (hp.trans ?_)
  rcases h.price (s.ticket t).job with he | ⟨u, hu, hz, he⟩
  · exact he.symm
  · exact absurd he (hn u hu hz)

theorem mints_wrap {k : Ticket} (hk : k.job < s.jobs.size) : Mints s (s.wrap k) where
  jobs := by
    rw [wrap, Registry.size_put]
    omega
  tickets := Nat.le_of_lt (lt_size_wrap s k)
  kept t ht := by
    rw [ticket_wrap, if_neg (Nat.ne_of_lt ht)]
    exact ⟨rfl, rfl⟩
  fresh t hz ht := by
    rw [size_wrap] at ht
    obtain rfl : t = s.tickets.size := by omega
    rw [Mirrors, ticket_wrap, if_pos rfl]
    refine .trans ?_ (congrArg Job.face (Registry.get_put_same ..)).symm
    rfl
  price j := by
    by_cases hj : j = k.job
    · refine .inr ⟨s.tickets.size, Nat.le_refl _, lt_size_wrap s k, ?_⟩
      rw [ticket_wrap, if_pos rfl, hj]
    · exact .inl (congrArg Job.priority (Registry.get_put_other _ _ hj))

theorem mints_build {d : Draft} (hd : d.job.all (· < s.jobs.size) = true)
    (h : s.build d = .ok s') : Mints s s' := by
  obtain ⟨k, rfl, hk, -⟩ := build_eq_ok h
  rw [← hk] at hd
  exact mints_wrap (by simpa using hd)

theorem mints_enlist (hj : j < s.jobs.size) (h : s.enlist m j = some s') : Mints s s' := by
  obtain ⟨-, k, next, ⟨rfl, -⟩, rfl, rfl⟩ := enlist_eq_some h
  have hw := mints_wrap hj
  have hs := sameFaces_stampTicket (lt_size_wrap s k)
  refine (hw.trans hs).trans (.trans (sameFaces_setContext (t := s.tickets.size) ?_ ..)
    (sameFaces_onManager ..))
  rw [(hs.ticket _).1, ticket_wrap, if_pos rfl, hs.jobs, hw.jobs]
  exact hj

theorem mints_retry (h : s.Founded) (ht : t < s.tickets.size) : Mints s (s.retry m t).1 := by
  have hw : Mints s (s.wrap (s.renewal m t)) := mints_wrap (h.job t ht)
  rcases retry_eq s m t with ⟨f, he⟩ | ⟨-, he | ⟨next, rfl, -, he⟩⟩ <;> rw [he]
  · exact .refl s
  · exact hw.trans (sameFaces_onManager ..)
  have hz := lt_size_wrap s (s.renewal m t)
  have hs := sameFaces_stampTicket hz
  refine (hw.trans hs).trans ((sameFaces_onManager ..).trans (sameFaces_spread (fun u hu => ?_) _))
  rw [manager_onManager, if_pos rfl] at hu
  change u < ((s.wrap (s.renewal m t)).stampTicket s.tickets.size).tickets.size
  rw [hs.tickets]
  rcases mem_insertOrdered hu with rfl | hu
  · exact hz
  · exact Nat.lt_of_lt_of_le (h.known m u (.inl hu)) hw.tickets

theorem mints_settle (h : s.Founded) (ht : t < s.tickets.size) (o : Outcome) :
    Mints s (s.settle m t o).1 := by
  obtain ⟨w, hw⟩ : ∃ w, w = s.onManager m (·.release (s.ticket t)) := ⟨_, rfl⟩
  have hf : w.Founded := hw ▸ h.onManager fun u hu => h.known m u (Manager.knows_of_release hu)
  have hs : SameFaces s w := hw ▸ sameFaces_onManager ..
  have ht : t < w.tickets.size := hw ▸ ht
  apply hs.trans_mints
  apply settle_induction (P := fun r => Mints w r.1) hw
  · exact ((sameFaces_onTicket ht rfl rfl).trans (sameFaces_onManager ..)).mints
  · intro status tell _
    exact (sameFaces_onManager ..).mints
  · exact mints_retry hf ht

theorem mints_close (h : s.Founded) {k : Caller}
    (hk : ∀ m t, k.work = some (m, t) → t < s.tickets.size) (o : Outcome) :
    Mints s (s.close k o) := by
  cases k with
  | client => exact .refl s
  | manager m t n since tally => exact mints_settle h (hk m t rfl) o

theorem mints_manage (h : s.Founded) {c : ManagerCall}
    (hc : (Call.manager m c).inScope s = true) : Mints s (s.manage m c) := by
  simp only [Call.inScope, Bool.and_eq_true] at hc
  cases c with
  | add j =>
    cases j with
    | none => exact .refl s
    | some j =>
      change Mints s ((s.enlist m j).getD s)
      cases he : s.enlist m j with
      | none => exact .refl s
      | some s' => exact mints_enlist (by simpa using hc.2) he
  | runNext => exact .refl s
  | runUntilIdle => exact .refl s
  | cancel id =>
    change Mints s (((s.withdraw m id).map Prod.fst).getD s)
    cases hw : s.withdraw m id with
    | none => exact .refl s
    | some p => exact (sameFaces_withdraw h hw).mints
  | recover ts => exact (sameFaces_recover h (List.all_eq_true.mp hc.2)).mints
  | network up => exact (sameFaces_onManager ..).mints
  | stop =>
    change Mints s (if (s.manager m).accepting then s.onManager m (·.stop) else s)
    split
    · exact (sameFaces_onManager ..).mints
    · exact .refl s

theorem sameFaces_callQueue (h : s.Founded) {q : Nat} {c : QueueCall}
    (hc : (Call.queue q c).inScope s = true) : SameFaces s (s.callQueue q c).1 := by
  simp only [Call.inScope, Bool.and_eq_true] at hc
  cases c with
  | push t =>
    cases t with
    | none => exact .refl s
    | some t =>
      simp only [callQueue]
      split
      · exact .refl s
      · rename_i hp
        obtain ⟨-, rfl, -⟩ := push_eq_some.mp hp
        exact (sameFaces_stampTicket (by simpa using hc.2)).trans (sameFaces_of_eq rfl rfl)
  | next now network busy =>
    simp only [callQueue]
    split
    · exact .refl s
    · exact sameFaces_of_eq rfl rfl
  | remove id =>
    simp only [callQueue]
    split
    · exact .refl s
    · exact sameFaces_of_eq rfl rfl
  | delayGroup group d => exact sameFaces_delayGroup (h.queued q) ..
  | close => exact sameFaces_of_eq rfl rfl

theorem sameFaces_editTicket (h : s.Founded) {e : TicketEdit}
    (hc : (Call.editTicket t e).inScope s = true) (hp : ∀ p, e ≠ .priority p)
    (hj : ∀ j, e ≠ .job (some j)) : SameFaces s (s.after (s.editTicket t e)) := by
  simp only [Call.inScope, Bool.and_eq_true, decide_eq_true_eq] at hc
  have ht := hc.1
  cases e with
  | priority p => exact absurd rfl (hp p)
  | runs n => exact sameFaces_onTicket ht rfl rfl
  | created c => exact sameFaces_onTicket ht rfl rfl
  | notBefore d => exact sameFaces_onTicket ht rfl rfl
  | session id => exact sameFaces_onTicket ht rfl rfl
  | stamp n =>
    simp only [editTicket]
    split
    · exact .refl s
    · exact sameFaces_onTicket ht rfl rfl
  | job j =>
    cases j with
    | none => exact .refl s
    | some j => exact absurd rfl (hj j)
  | context l session => exact sameFaces_setContext (h.job t ht) ..
  | cancel => exact sameFaces_cancelTicket ht (h.job t ht)
  | success => exact sameFaces_onTicket ht rfl rfl

end Store

/-- A job is made, or it is edited what a job or a ticket shows. -/
def Call.alters : Call → Bool
  | .makeJob _ | .editJob .. | .editTicket _ (.priority _) | .editTicket _ (.job (some _)) => true
  | _ => false

namespace Store

variable {s s' : Store}

theorem mints_after {r : Except Fault Store} (h : ∀ s', r = .ok s' → Mints s s') :
    Mints s (s.after r) := by
  cases r with
  | ok s' => exact h s' rfl
  | error f => exact .refl s

theorem mints_call (h : s.Founded) {c : Call} (hc : c.inScope s = true) (ha : c.alters = false) :
    Mints s (s.call c) := by
  cases c with
  | makeJob p => cases ha
  | editJob j e => cases ha
  | build d => exact mints_after fun s' hs => mints_build hc hs
  | editTicket t e =>
    refine (sameFaces_editTicket h hc ?_ ?_).mints
    · rintro p rfl
      cases ha
    · rintro j rfl
      cases ha
  | queue q c => exact (sameFaces_callQueue h hc).mints
  | manager m c => exact mints_manage h hc
  | _ => exact mints_of_eq rfl rfl

end Store

/-- The job that the operation asked. -/
def Frame.job? : Frame → Option Nat
  | .body j .. | .plan j .. => some j
  | _ => none

namespace World

variable {w w' v : World} {a : Nat} {mv : Move} {f : Frame} {r : Reply} {k : Caller} {o : Outcome}

/-- Every job has an id, and operations wait for jobs that exist. -/
structure Grounded (w : World) : Prop where
  founded : w.Founded
  named : ∀ j < w.jobs.size, (w.job j).id ≠ ""
  asks : ∀ a f j, w.pending.find? a = some f → f.job? = some j → j < w.jobs.size

theorem sameFaces_intend {j : Nat} (hj : j < w.jobs.size) (p : Option RetryPlan) :
    Store.SameFaces w.toStore (w.intend j p).toStore :=
  Store.sameFaces_onJob hj rfl

/-- A reply that ends an attempt gives its job no other face. -/
theorem Rules.sameFaces (h : w.Rules f r v k o) (hf : ∀ j, f.job? = some j → j < w.jobs.size) :
    Store.SameFaces w.toStore v.toStore := by
  cases h with
  | decided => exact .refl _
  | succeeded => exact .refl _
  | unasked j t n k r hr hl hc ha =>
    have hs := sameFaces_intend (hf j rfl) none
    exact hs.trans (sameFaces_intend (hs.jobs ▸ hf j rfl) _)
  | exhausted j t n k r hr hl => exact sameFaces_intend (hf j rfl) none
  | planned j t n reason k p r hr => exact sameFaces_intend (hf j rfl) _

/-- What a move does at once: it makes one ticket at most, unless it alters what is shown. -/
theorem mints_effect (h : w.Grounded) (mv : Move) :
    Store.Mints w.toStore (w.effect mv).toStore ∨
      ∃ c, mv = .call c ∧ c.alters = true ∧ c.inScope w.toStore = true ∧
        (w.effect mv).toStore = w.call c := by
  cases mv with
  | call c =>
    rcases effect_call w c with ⟨hc, he⟩ | he
    · cases ha : c.alters with
      | true => exact .inr ⟨c, rfl, ha, hc, he⟩
      | false =>
        rw [he]
        exact .inl (Store.mints_call h.founded.store hc ha)
    · rw [he]
      exact .inl (.refl _)
  | reply a r =>
    left
    rcases effect_reply_cases w a r with he | ⟨f, u, hf, rfl, he | ⟨j, t, n, reason, k, q, rfl, he⟩ |
      ⟨v, k, o, hv, he⟩⟩ <;> rw [he]
    · exact .refl _
    · exact .refl _
    · exact (sameFaces_intend (w := { w with pending := w.pending.erase a })
        (h.asks a _ j hf rfl) none).mints
    · refine (hv.sameFaces fun j hj => h.asks a f j hf hj).trans_mints
        (Store.mints_close ?_ (fun m t hk => ?_) o)
      · exact ((h.founded.erase a).replanned hv.replanned).store
      · rw [hv.replanned.tickets]
        exact h.founded.works a m t ((works_of_frame hf).mpr (hv.work ▸ hk))
  | clock now => exact .inl (Store.mints_of_eq rfl rfl)
  | elapse nanos => exact .inl (Store.mints_of_eq rfl rfl)

theorem sameFaces_sequel (h : w.Founded) (hs : Sequel a w w') :
    Store.SameFaces w.toStore w'.toStore := by
  cases hs with
  | wrote ls es he => exact Store.sameFaces_of_eq rfl rfl
  | told j t next ha ht hn =>
    exact Store.sameFaces_onTicket ht (f := ({ · with notified := true })) rfl rfl
  | welcomed j t ha => exact .refl _
  | departed m t s tally ha hc =>
    rw [toStore_depart]
    exact Store.sameFaces_claim h.store hc

theorem sameFaces_sequels (h : w.Founded) (hs : Sequels a w w') :
    Store.SameFaces w.toStore w'.toStore := by
  suffices w'.Founded ∧ Store.SameFaces w.toStore w'.toStore from this.2
  induction hs with
  | refl => exact ⟨h, .refl _⟩
  | tail _ hs ih => exact ⟨ih.1.sequel hs, ih.2.trans (sameFaces_sequel ih.1 hs)⟩

theorem sameFaces_step (h : w.Founded) (mv : Move) :
    Store.SameFaces (w.effect mv).toStore (w.step mv).toStore :=
  sameFaces_sequels (h.effect mv) (step_sequels h mv)

end World

end Backlog
