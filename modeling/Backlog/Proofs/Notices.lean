import Backlog.Proofs.Endings
import Backlog.Proofs.Retention

/-!
# What jobs are told

A job is welcomed by the operation that queues it and by no other. On account of a ticket it is
told at most once that its work ended without success, and a step tells on account of one ticket
at most.
-/

namespace Backlog

/-- The job and the ticket if operation `a` welcomes a job. -/
def Event.welcome? (a : Nat) : Event → Option (Nat × Nat)
  | .asked b (.added j t) => if b = a then some (j, t) else none
  | _ => none

/-- The ticket on account of which a job is told that its work ended without success. -/
def Event.notice? : Event → Option Nat
  | .asked _ (.ended _ t) => some t
  | _ => none

/-- The event neither welcomes a job nor tells it that its work ended. -/
def Event.silent : Event → Bool
  | .asked _ (.added ..) | .asked _ (.ended ..) => false
  | _ => true

theorem Event.silent_of_isNote {a : Nat} {e : Event} (h : e.isNote a = true) : e.silent = true := by
  cases e with
  | asked => cases h
  | _ => rfl

theorem Event.welcome?_of_silent {e : Event} (h : e.silent = true) (a : Nat) :
    e.welcome? a = none := by
  unfold welcome?
  split
  · cases h
  · rfl

theorem Event.notice?_of_silent {e : Event} (h : e.silent = true) : e.notice? = none := by
  unfold notice?
  split
  · cases h
  · rfl

namespace Store

/-- The ticket on account of which a job is to be told once an attempt has its outcome. -/
def tells (s : Store) (o : Outcome) : Caller → Option Nat
  | .client => none
  | .manager m t .. =>
    match (s.settle m t o).2 with
    | .ok (.ended _ true) => some t
    | _ => none

section Tells

variable {s : Store} {m t since : Nat} {n : Int} {tally : Option Nat} {o : Outcome}

theorem tells_ended {status : Status} {tell : Bool}
    (h : (s.settle m t o).2 = .ok (.ended status tell)) :
    s.tells o (.manager m t n since tally) = if tell then some t else none := by
  simp only [tells]
  rw [h]
  cases tell <;> rfl

theorem tells_retried {delay : Int} (h : (s.settle m t o).2 = .ok (.retried delay)) :
    s.tells o (.manager m t n since tally) = none := by
  simp only [tells]
  rw [h]

theorem tells_error {f : Fault} (h : (s.settle m t o).2 = .error f) :
    s.tells o (.manager m t n since tally) = none := by
  simp only [tells]
  rw [h]

end Tells

theorem tells_logging (s : Store) (ls : Registry Logger) (o : Outcome) (k : Caller) :
    (s.logging ls).tells o k = s.tells o k := by
  cases k with
  | client => rfl
  | manager m t n since tally =>
    simp only [tells]
    rw [settle_logging]

/-- The ticket on account of which a job is to be told by a call. -/
def dismisses (s : Store) : Call → Option Nat
  | .tell t => some t
  | .manager m (.cancel id) =>
    match s.withdraw m id with
    | some (_, .dropped t) => some t
    | _ => none
  | _ => none

/-- The job and the ticket that a call welcomes. -/
def greets (s : Store) : Call → List (Nat × Nat)
  | .manager m (.add (some j)) => if (s.enlist m j).isSome then [(j, s.tickets.size)] else []
  | _ => []

end Store

namespace World

/-- The jobs that operation `a` welcomed, each with its ticket, the latest first. -/
def welcomes (w : World) (a : Nat) : List (Nat × Nat) := w.history.filterMap (Event.welcome? a)

/-- The tickets on account of which jobs were told that their work ended without success, the
latest first. -/
def notices (w : World) : List Nat := w.history.filterMap Event.notice?

/-- From one world to the other no job is welcomed or told. -/
def Silent (w w' : World) : Prop :=
  ∃ es, w'.history = es ++ w.history ∧ ∀ e ∈ es, e.silent = true

/-- From one world to the other no job is welcomed, and the job of the ticket that is due is told,
unless it was told before. The operation that tells it waits. -/
structure Notifies (due : Option Nat) (w w' : World) : Prop where
  notified : ∀ t, (w'.ticket t).notified = true ↔ (w.ticket t).notified = true ∨ due = some t
  notices : w'.notices = (due.filter fun t => !(w.ticket t).notified).toList ++ w.notices
  events : ∃ es, w'.history = es ++ w.history ∧ ∀ e ∈ es, e.silent = true ∨
    ∃ a t next, due = some t ∧ e = .asked a (.ended (w'.ticket t).job t) ∧
      w'.pending.find? a = some (.told next)

variable {w w' w'' v : World} {a b j m t : Nat} {due : Option Nat} {f : Frame} {r : Reply}

theorem silent_of_eq (h : w'.history = w.history) : w.Silent w' := ⟨[], h, nofun⟩

theorem silent_enter (w : World) (a t : Nat) (n : Int) (k : Caller) :
    w.Silent (w.enter a t n k) := by
  simp only [enter]
  split <;> exact ⟨[_, _], rfl, by simp [Event.silent]⟩

theorem Silent.notices (h : w.Silent w') : w'.notices = w.notices := by
  obtain ⟨es, hh, he⟩ := h
  have hnone : es.filterMap Event.notice? = [] :=
    List.filterMap_eq_nil_iff.mpr fun e hm => Event.notice?_of_silent (he e hm)
  rw [World.notices, hh, List.filterMap_append, hnone]
  rfl

theorem Silent.notifies {x : Option Nat} (h : w.Silent w')
    (hr : Store.Retains x w.toStore w'.toStore) : Notifies none w w' where
  notified t := by simp [hr.notified]
  notices := h.notices
  events := by
    obtain ⟨es, hh, he⟩ := h
    exact ⟨es, hh, fun e hm => .inl (he e hm)⟩

/-- What an operation does to the store tells nobody. -/
theorem notifies_store {x : Option Nat} {s : Store} (hr : Store.Retains x w.toStore s) :
    Notifies none w { w with toStore := s } :=
  Silent.notifies (silent_of_eq rfl) hr

theorem Notifies.refl (w : World) : Notifies none w w := notifies_store (.refl none _)

theorem Notifies.silent (h : Notifies none w w') : w.Silent w' := by
  obtain ⟨es, hh, he⟩ := h.events
  refine ⟨es, hh, ?_⟩
  intro e hm
  rcases he e hm with he | ⟨_, _, _, hd, -⟩
  · exact he
  · cases hd

theorem Notifies.trans (h : Notifies none w w') (h' : Notifies due w' w'') :
    Notifies due w w'' where
  notified t := by rw [h'.notified, h.notified]; simp
  notices := by
    have hn (t : Nat) : (w'.ticket t).notified = (w.ticket t).notified := by
      rw [Bool.eq_iff_iff, h.notified]
      simp
    simp only [h'.notices, h.silent.notices, hn]
  events := by
    obtain ⟨es, hh, he⟩ := h.silent
    obtain ⟨es', hh', he'⟩ := h'.events
    refine ⟨es' ++ es, by rw [hh', hh, List.append_assoc], ?_⟩
    intro e hm
    rcases List.mem_append.mp hm with hm | hm
    · exact he' e hm
    · exact .inl (he e hm)

/-- If jobs were told once on account of the tickets that were used for that, and on account of no
others, this is still so. -/
theorem Notifies.count (h : Notifies due w w') {t : Nat}
    (hc : w.notices.count t = if (w.ticket t).notified then 1 else 0) :
    w'.notices.count t = if (w'.ticket t).notified then 1 else 0 := by
  have hn := h.notified t
  rw [h.notices, List.count_append, hc]
  cases due with
  | none => simp_all
  | some u =>
    rw [Option.filter_some]
    by_cases hu : u = t
    · subst hu
      cases hw : (w.ticket u).notified <;> simp_all
    · cases hw : (w.ticket u).notified <;> simp_all

theorem Notifies.welcomes (h : Notifies due w w') (a : Nat) : w'.welcomes a = w.welcomes a := by
  obtain ⟨es, hh, he⟩ := h.events
  have hnone : es.filterMap (Event.welcome? a) = [] := by
    apply List.filterMap_eq_nil_iff.mpr
    intro e hm
    rcases he e hm with he | ⟨b, t, next, -, rfl, -⟩
    · exact Event.welcome?_of_silent he a
    · rfl
  rw [World.welcomes, hh, List.filterMap_append, hnone]
  rfl

theorem Wrote.notifies (h : Wrote a w w') : Notifies none w w' := by
  obtain ⟨ls, es, he, rfl⟩ := h
  exact Silent.notifies (x := none) ⟨es, rfl, fun e hm => Event.silent_of_isNote (he e hm)⟩
    (Store.retains_of_eq (fun _ _ => rfl) rfl)

theorem notifies_enter (w : World) (a t : Nat) (n : Int) (k : Caller) :
    Notifies none w (w.enter a t n k) :=
  (silent_enter w a t n k).notifies (x := none) (by rw [toStore_enter]; exact .refl ..)

theorem notifies_next (w : World) (a m : Nat) (tally : Option Nat) :
    Notifies none w (w.next a m tally) := by
  unfold next
  split
  · exact (wrote_give ..).notifies
  · rename_i s t hc
    have hs : Notifies none w { w with toStore := s } :=
      notifies_store (x := none) ((Store.claim_begins hc).retains (Store.queues_claim hc))
    exact hs.trans ((wrote_note (a := a) ..).notifies.trans (notifies_enter ..))

theorem notifies_proceed (w : World) (a m : Nat) (o : Outcome) (tally : Option Nat) :
    Notifies none w (w.proceed a m o tally) := by
  cases tally with
  | none => exact (wrote_give ..).notifies
  | some n => exact notifies_next ..

theorem notifies_resumeNext (w : World) (a : Nat) (next : Next) :
    Notifies none w (w.resumeNext a next) := by
  cases next with
  | give v => exact (wrote_give ..).notifies
  | proceed m o tally => exact notifies_proceed ..

theorem notifies_tell (w : World) (a t : Nat) (next : Next) :
    Notifies (some t) w (w.tell a t next) := by
  simp only [tell]
  split
  · -- the job was told before, and the operation goes on
    rename_i hn
    have h := notifies_resumeNext w a next
    obtain ⟨es, hh, he⟩ := h.silent
    refine ⟨?_, ?_, es, hh, fun e hm => .inl (he e hm)⟩
    · intro u
      rw [h.notified]
      simp only [reduceCtorEq, or_false, Option.some.injEq, iff_self_or]
      rintro rfl
      exact hn
    · rw [h.silent.notices, Option.filter_some, if_neg (by simpa using hn)]
      rfl
  · rename_i hn
    refine ⟨?_, ?_, [_], rfl, ?_⟩
    · intro u
      change ((w.onTicket t _).ticket u).notified = true ↔ _
      rw [Store.ticket_onTicket]
      by_cases hu : u = t
      · simp [hu]
      · simp [hu, Ne.symm hu]
    · rw [Option.filter_some, if_pos (by simpa using hn)]
      rfl
    · intro e hm
      exact .inr ⟨a, t, next, rfl, List.mem_singleton.mp hm, Table.find?_insert_same ..⟩

theorem notifies_conclude (w : World) (a : Nat) (k : Caller) (o : Outcome) :
    Notifies (w.tells o k) w (w.conclude a k o) := by
  cases k with
  | client => exact (wrote_give ..).notifies
  | manager m t n since tally =>
    have hs : Notifies none w { w with toStore := (w.settle m t o).1 } :=
      notifies_store (Store.retains_custody (Store.reaches_settle trivial fun _ _ => trivial))
    simp only [conclude]
    cases he : (w.settle m t o).2 with
    | error f =>
      rw [Store.tells_error he]
      exact hs.trans (wrote_raise (a := a) ..).notifies
    | ok e =>
      have hr := hs.trans (wrote_report (a := a) _ m t n since o e).notifies
      cases e with
      | retried d =>
        rw [Store.tells_retried he]
        exact hr.trans (notifies_proceed ..)
      | ended status tell =>
        rw [Store.tells_ended he]
        cases tell with
        | true => exact hr.trans (notifies_tell ..)
        | false => exact hr.trans (notifies_proceed ..)

/-- What the job writes about its failed attempt does not matter to who is told. -/
theorem notifies_conclusion (w : World) (a j t : Nat) (n : Int) (reason : String) (k : Caller) :
    Notifies (w.tells (w.failureOutcome j t n) k) w (w.conclusion a j t n reason k) := by
  obtain ⟨u, hu, hc⟩ := conclusion_eq w a j t n reason k
  refine (hu.wrote a).notifies.trans ?_
  obtain ⟨ls, es, -, rfl⟩ := hu
  rw [hc]
  have h := notifies_conclude { w with loggers := ls, history := es ++ w.history } a k
    (w.failureOutcome j t n)
  rw [show ({ w with loggers := ls, history := es ++ w.history } : World).toStore =
    w.toStore.logging ls from rfl, Store.tells_logging] at h
  exact h

/-- What comes of a reply to an operation that waited in frame `f`, at once and when the
operation has gone on. -/
inductive Heeded (w : World) (a : Nat) (f : Frame) : World → World → Prop
  | closed (v w' : World) (k : Caller) (o : Outcome) (hv : w.Replanned v) (hk : k.work = f.work)
    (hn : Notifies (v.tells o k) w w') : Heeded w a f (v.close k o) w'
  | asked (v w' : World) (g : Frame) (q : Hook) (hv : w.Replanned v) (hg : g.work = f.work)
    (hn : Notifies none w w') : Heeded w a f (v.ask a g q) w'
  | passed (w' : World) (hf : f.work = none) (hn : Notifies none w w') : Heeded w a f w w'

theorem Replanned.notifies (h : w.Replanned v) : Notifies none w v := by
  obtain ⟨jobs, rfl, -⟩ := h
  exact notifies_store (x := none) (Store.retains_of_eq (fun _ _ => rfl) rfl)

theorem heeded_conclusion (hv : w.Replanned v) (a j t : Nat) (n : Int) (reason : String)
    {k : Caller} (hk : k.work = f.work) :
    Heeded w a f (v.closeFailed j t n k) (v.conclusion a j t n reason k) :=
  .closed v _ k _ hv hk (hv.notifies.trans (notifies_conclusion ..))

theorem heeded_failed (w : World) (a j t : Nat) (n : Int) (reason : String) (k : Caller) :
    Heeded w a (.body j t n k) (w.falter a j t n reason k) (w.failed a j t n reason k) := by
  have hv := (Replanned.refl w).intend j none
  refine falter_cases (P := Heeded w a _) (fun _ _ => ?_) (fun _ _ _ => ?_) fun _ => ?_
  · refine .asked _ _ (.plan j t n reason k) _ hv rfl ?_
    exact Silent.notifies (x := none) ⟨[_], rfl, by simp [Event.silent]⟩
      (Store.retains_of_eq (fun _ _ => rfl) rfl)
  · exact heeded_conclusion (hv.intend j (some .again)) a j t n reason rfl
  · exact heeded_conclusion hv a j t n reason rfl

theorem heeded (w : World) (a : Nat) (ht : f.takes r = true) :
    Heeded w a f (w.hear a f r) (w.resume a f r) := by
  cases f with
  | told next =>
    cases r with
    | done => exact .passed _ rfl (notifies_resumeNext ..)
    | threw x => exact .passed _ rfl (wrote_raise ..).notifies
    | _ => cases ht
  | attempt k =>
    cases r with
    | outcome o => exact .closed w _ k o (.refl w) rfl (notifies_conclude ..)
    | _ => cases ht
  | body j t n k =>
    cases r with
    | succeeded => exact .closed w _ k .success (.refl w) rfl (notifies_conclude ..)
    | failed reason => exact heeded_failed ..
    | threw x => exact heeded_failed ..
    | _ => cases ht
  | plan j t n reason k =>
    have hv (p : RetryPlan) := (Replanned.refl w).intend j (some p)
    cases r with
    | plan p => exact heeded_conclusion (hv p) a j t n reason rfl
    | threw x => exact heeded_conclusion (hv .never) a j t n (unplannedReason reason x) rfl
    | _ => cases ht

/-- A reply that nobody waits for changes nothing. -/
theorem step_reply (w : World) (a : Nat) (r : Reply) :
    (w.effect (.reply a r) = w ∧ w.step (.reply a r) = w) ∨ ∃ f, w.pending.find? a = some f ∧
      Heeded { w with pending := w.pending.erase a } a f (w.effect (.reply a r))
        (w.step (.reply a r)) := by
  cases hf : w.pending.find? a with
  | none =>
    refine .inl ⟨?_, step_reply_none hf r⟩
    simp only [effect]
    rw [hf]
  | some f =>
    cases hr : f.takes r with
    | false => exact .inl ⟨effect_untaken hf hr, step_untaken hf hr⟩
    | true =>
      right
      rw [effect_taken hf hr, step_taken hf hr]
      exact ⟨f, rfl, heeded _ a hr⟩

/-- What an operation of a manager did to the store comes before what it writes. -/
theorem Wrote.manages {c : ManagerCall} (h : Wrote a { w with toStore := w.manage m c } w') :
    Notifies none w w' := by
  refine .trans ?_ h.notifies
  exact notifies_store (Store.retains_custody (Store.reaches_manage _ _ fun _ _ _ _ => trivial))

theorem notifies_cancel (w : World) (a m : Nat) (id : String) :
    Notifies (w.dismisses (.manager m (.cancel id))) w (w.cancel a m id) := by
  simp only [World.cancel, Store.dismisses]
  cases hw : w.withdraw m id with
  | none => exact (wrote_give (a := a) ..).notifies
  | some p =>
    obtain ⟨s, d⟩ := p
    have hs : Notifies none w { w with toStore := s } :=
      notifies_store (Store.retains_custody (Store.reaches_withdraw hw))
    have hn := hs.trans (wrote_note (a := a) { w with toStore := s } m .warn id
      "cancelled" [("event", "job_cancel"), ("state", "Queued")]).notifies
    cases d with
    | marked t => exact hs.trans ((wrote_note (a := a) ..).trans (wrote_give ..)).notifies
    | dropped t => exact hn.trans (notifies_tell ..)

theorem notifies_manage (w : World) (a m : Nat) {c : ManagerCall}
    (hg : w.greets (.manager m c) = []) :
    Notifies (w.dismisses (.manager m c)) w (w.callManager a m c) := by
  cases c with
  | add j =>
    cases j with
    | none => exact (wrote_raise (a := a) ..).notifies
    | some j =>
      have hn : w.enlist m j = none := by
        cases he : w.enlist m j with
        | none => rfl
        | some s => simp [Store.greets, he] at hg
      simp only [callManager, add]
      rw [hn]
      exact (wrote_give (a := a) ..).notifies
  | runNext => exact notifies_next ..
  | runUntilIdle => exact notifies_next ..
  | cancel id => exact notifies_cancel ..
  | recover ts => exact (wrote_recovered w a m ts).manages
  | network up => exact (wrote_setNetwork w a m up).manages
  | stop => exact (wrote_stop w a m).manages

theorem notifies_commit {x : Option Nat} {p : Except Fault Store}
    (hr : Store.Retains x w.toStore (w.after p)) (a : Nat) (v : Value) :
    Notifies none w (w.commit a v p) := by
  cases p with
  | ok s =>
    have hs : Notifies none w { w with toStore := s } := notifies_store hr
    exact hs.trans (wrote_give (a := a) ..).notifies
  | error f => exact (wrote_raise (a := a) ..).notifies

/-- Calls tell on account of the ticket that they dismiss, and welcome nobody unless they add a
job. -/
theorem notifies_perform (w : World) (a : Nat) {c : Call} (hg : w.greets c = []) :
    Notifies (w.dismisses c) w (w.perform a c) := by
  have hr := Store.retains_call w.toStore c
  have hc : Notifies none w { w with toStore := w.toStore.call c } :=
    notifies_store hr
  cases c with
  | makeJob p => exact notifies_commit hr ..
  | build d => exact notifies_commit hr ..
  | editTicket t e => exact notifies_commit hr ..
  | tell t => exact notifies_tell ..
  | run t n => exact notifies_enter ..
  | attempt t n => exact Silent.notifies (x := none) ⟨[_], rfl, by simp [Event.silent]⟩ (.refl ..)
  | makeManager d =>
    exact hc.trans ((wrote_announce (a := a) ..).trans (wrote_give ..)).notifies
  | manager m c => exact notifies_manage w a m hg
  | logger l c => exact (wrote_callLogger ..).notifies
  | _ => exact hc.trans (wrote_give (a := a) ..).notifies

/-- The job and the ticket that a move welcomes. -/
def greets (w : World) : Move → List (Nat × Nat)
  | .call c => if c.inScope w.toStore then w.toStore.greets c else []
  | _ => []

/-- The move may tell the job of the ticket that its work ended without success. -/
def Dismisses (w : World) (t : Nat) : Move → Prop
  | .call c => w.dismisses c = some t
  | .reply a _ => ∃ m, w.Works a m t
  | _ => False

theorem tells_work {s : Store} {o : Outcome} {k : Caller} (h : s.tells o k = some t) :
    ∃ m, k.work = some (m, t) := by
  cases k with
  | client => cases h
  | manager m u n since tally =>
    simp only [Store.tells] at h
    split at h
    · exact ⟨m, by rw [← Option.some.inj h]; rfl⟩
    · cases h

theorem notifies_call {c : Call} (hc : c.inScope w.toStore = true) (hg : w.toStore.greets c = []) :
    Notifies (w.dismisses c) w (w.step (.call c)) := by
  have hs : w.step (.call c) = World.perform { w with calls := w.calls + 1 } w.calls c := if_pos hc
  have hn := notifies_perform { w with calls := w.calls + 1 } w.calls hg
  rw [hs]
  exact ⟨hn.notified, hn.notices, hn.events⟩

/-- A move that greets nobody tells on account of what it dismisses. -/
theorem step_notifies {mv : Move} (hg : w.greets mv = []) :
    ∃ due, Notifies due w (w.step mv) ∧ ∀ t, due = some t → w.Dismisses t mv := by
  have still (hs : w.step mv = w) :
      ∃ due, Notifies due w (w.step mv) ∧ ∀ t, due = some t → w.Dismisses t mv :=
    ⟨none, hs.symm ▸ .refl w, nofun⟩
  have timed {s : Store} (hs : w.step mv = { w with toStore := s })
      (ht : s.tickets = w.tickets) (hq : s.queues = w.queues) :
      ∃ due, Notifies due w (w.step mv) ∧ ∀ t, due = some t → w.Dismisses t mv := by
    refine ⟨none, ?_, nofun⟩
    rw [hs]
    exact notifies_store (x := none)
      (Store.retains_of_eq (fun q _ => congrArg (Registry.get · q) hq) ht)
  cases mv with
  | call c =>
    by_cases hc : c.inScope w.toStore = true
    · exact ⟨_, notifies_call hc ((if_pos hc).symm.trans hg), fun _ h => h⟩
    · exact still (if_neg hc)
  | reply a r =>
    rcases step_reply w a r with ⟨-, hs⟩ | ⟨f, hf, hh⟩
    · exact still hs
    generalize w.effect (.reply a r) = e at hh
    generalize w.step (.reply a r) = w' at hh
    cases hh with
    | closed v w' k o hv hk hn =>
      refine ⟨_, ⟨hn.notified, hn.notices, hn.events⟩, fun t ht => ?_⟩
      obtain ⟨m, hwork⟩ := tells_work ht
      exact ⟨m, (works_of_frame hf).mpr (hk ▸ hwork)⟩
    | asked v w' g q hv hg hn => exact ⟨none, ⟨hn.notified, hn.notices, hn.events⟩, nofun⟩
    | passed w' hf hn => exact ⟨none, ⟨hn.notified, hn.notices, hn.events⟩, nofun⟩
  | clock now => exact timed rfl rfl rfl
  | elapse nanos => exact timed rfl rfl rfl

/-- Only a job that is added is greeted, and it is welcomed last. -/
theorem step_greets {mv : Move} (hg : w.greets mv ≠ []) :
    ∃ m j v, mv = .call (.manager m (.add (some j))) ∧ w.greets mv = [(j, w.tickets.size)] ∧
      Notifies none w v ∧ v.pending = w.pending ∧ (∀ a, v.answers a = w.answers a) ∧
      w.step mv =
        v.ask w.calls (.told (.give (.flag true))) (.added j w.tickets.size) := by
  cases mv with
  | call c =>
    simp only [greets] at hg ⊢
    split at hg
    · rename_i hc
      rw [if_pos hc]
      unfold Store.greets at hg ⊢
      split at hg
      · rename_i m j
        split at hg
        · rename_i he
          obtain ⟨s, he⟩ := Option.isSome_iff_exists.mp he
          have hs : Notifies none w { w with toStore := s, calls := w.calls + 1 } :=
            Silent.notifies (x := none) (silent_of_eq rfl) (Store.retains_custody (Store.reaches_enlist he))
          have hn (a : Nat) := answers_note (a := a) { w with toStore := s, calls := w.calls + 1 } m .info
            (w.job j).id "added"
            [("event", "job_added"), ("priority", toString (w.job j).priority),
              ("group", (w.job j).group.getD ""), ("delay_ms", toString (w.job j).delay)]
          refine ⟨m, j, _, rfl, if_pos (by simp [he]), hs.trans (wrote_note (a := 0) ..).notifies,
            (hn 0).2, fun a => (hn a).1, ?_⟩
          have hstep : w.step (.call (.manager m (.add (some j)))) =
              World.add { w with calls := w.calls + 1 } w.calls m (some j) := if_pos hc
          rw [hstep]
          simp only [add]
          rw [he]
        · exact absurd rfl hg
      · exact absurd rfl hg
    · exact absurd rfl hg
  | _ => exact absurd rfl hg

/-- What jobs were told stays so, and a step adds to it what the move dismisses. -/
theorem notified_step (w : World) (mv : Move) (t : Nat) :
    ((w.ticket t).notified = true → ((w.step mv).ticket t).notified = true) ∧
      (((w.step mv).ticket t).notified = true →
        (w.ticket t).notified = true ∨ w.Dismisses t mv) := by
  by_cases hg : w.greets mv = []
  · obtain ⟨due, hn, hd⟩ := step_notifies hg
    rw [hn.notified]
    exact ⟨.inl, .imp_right (hd t)⟩
  · obtain ⟨m, j, v, -, -, hn, -, -, hs⟩ := step_greets hg
    rw [hs]
    change (_ → (v.ticket t).notified = true) ∧ ((v.ticket t).notified = true → _)
    rw [hn.notified]
    exact ⟨.inl, .imp_right nofun⟩

theorem welcomes_step (w : World) (mv : Move) (a : Nat) :
    (w.step mv).welcomes a = (if a = w.calls then w.greets mv else []) ++ w.welcomes a := by
  by_cases hg : w.greets mv = []
  · obtain ⟨due, hn, -⟩ := step_notifies hg
    rw [hn.welcomes, hg, ite_self, List.nil_append]
  · obtain ⟨m, j, v, -, hg, hn, -, -, hs⟩ := step_greets hg
    have hask : (w.step mv).welcomes a =
        (if w.calls = a then some (j, w.tickets.size) else none).toList ++ v.welcomes a := by
      rw [hs]
      by_cases ha : w.calls = a <;> simp [welcomes, ask, emit, Event.welcome?, ha]
    rw [hask, hg, hn.welcomes]
    by_cases ha : w.calls = a
    · simp [ha]
    · simp [ha, Ne.symm ha]

/-- On account of a ticket the job is told that the ticket has then, and the operation that tells
it waits. -/
theorem told_step {mv : Move} (he : .asked a (.ended j t) ∈ w.news (w.step mv)) :
    t ∈ (w.step mv).notices ∧ ((w.step mv).ticket t).job = j ∧
      ∃ next, (w.step mv).pending.find? a = some (.told next) := by
  have quiet {e : Event} (hs : e.silent = true) (hx : e = .asked a (.ended j t)) : False := by
    rw [hx] at hs
    cases hs
  by_cases hg : w.greets mv = []
  · obtain ⟨due, hn, -⟩ := step_notifies hg
    obtain ⟨es, hh, hes⟩ := hn.events
    rw [news_eq hh, List.mem_reverse] at he
    refine ⟨?_, ?_⟩
    · rw [notices, hh, List.mem_filterMap]
      exact ⟨_, List.mem_append_left _ he, rfl⟩
    rcases hes _ he with hs | ⟨b, u, next, -, hx, hp⟩
    · exact (quiet hs rfl).elim
    · obtain ⟨rfl, hq⟩ := Event.asked.inj hx
      obtain ⟨rfl, rfl⟩ := Hook.ended.inj hq
      exact ⟨rfl, next, hp⟩
  · obtain ⟨m, i, v, -, -, hn, -, -, hs⟩ := step_greets hg
    obtain ⟨es, hh, hes⟩ := hn.silent
    have hh : (w.step mv).history = .asked w.calls (.added i w.tickets.size) :: es ++ w.history := by
      rw [hs, List.cons_append, ← hh]
      rfl
    rw [news_eq hh, List.mem_reverse] at he
    rcases List.mem_cons.mp he with hx | he
    · cases hx
    · exact (quiet (hes _ he) rfl).elim

theorem welcomes_run (h : w.Founded) (ha : a < w.calls) (moves : List Move) :
    (w.run moves).welcomes a = w.welcomes a := by
  induction moves generalizing w with
  | nil => rfl
  | cons mv moves ih =>
    rw [run_cons, ih (h.step mv) (Nat.lt_of_lt_of_le ha (calls_le_step h mv)), welcomes_step,
      if_neg (Nat.ne_of_lt ha), List.nil_append]

/-- Operations that were not begun have welcomed nobody. -/
theorem welcomes_of_calls_le {P : World → Move → Prop} (h : ReachableBy P w) (ha : w.calls ≤ a) :
    w.welcomes a = [] := by
  suffices w.Founded ∧ ∀ a, w.calls ≤ a → w.welcomes a = [] from this.2 a ha
  refine h.induction (I := fun w => w.Founded ∧ ∀ a, w.calls ≤ a → w.welcomes a = [])
    (fun now => ⟨.start now, fun _ _ => rfl⟩) fun w mv ⟨hf, hw⟩ _ =>
    ⟨hf.step mv, fun a ha => ?_⟩
  have hle := calls_le_step hf mv
  rw [welcomes_step, hw a (Nat.le_trans hle ha), List.append_nil]
  split
  · rename_i hne
    -- an operation that greets somebody was begun
    cases mv with
    | call c =>
      rw [calls_step hf, calls_effect] at ha
      split at ha
      · exact absurd (hne ▸ ha) (Nat.not_succ_le_self _)
      · rename_i hc
        exact if_neg hc
    | _ => rfl
  · rfl

/-- A call welcomes the job that it adds, and nobody later. -/
theorem welcomes_call {P : World → Move → Prop} (h : ReachableBy P w) (hw : w.Founded) {c : Call}
    (hc : c.inScope w.toStore = true) (moves : List Move) :
    ((w.step (.call c)).run moves).welcomes w.calls = w.toStore.greets c := by
  have hcalls : w.calls < (w.step (.call c)).calls := by
    rw [calls_step hw, calls_effect, if_pos hc]
    exact Nat.lt_succ_self _
  rw [welcomes_run (hw.step _) hcalls, welcomes_step, if_pos rfl,
    welcomes_of_calls_le h (Nat.le_refl _), List.append_nil]
  exact if_pos hc

/-- A job was told once on account of a ticket that was used for that, and on account of the
others never. -/
theorem notices_count {P : World → Move → Prop} (h : ReachableBy P w) (t : Nat) :
    w.notices.count t = if (w.ticket t).notified then 1 else 0 := by
  refine h.induction (I := fun w => w.notices.count t = if (w.ticket t).notified then 1 else 0)
    (fun now => rfl) ?_
  intro w mv hc _
  by_cases hg : w.greets mv = []
  · obtain ⟨due, hn, -⟩ := step_notifies hg
    exact hn.count hc
  · -- to welcome a job is not to tell it
    obtain ⟨m, j, v, -, -, hn, -, -, hs⟩ := step_greets hg
    rw [hs]
    exact hn.count hc

theorem notified_of_notice {P : World → Move → Prop} (h : ReachableBy P w) (ht : t ∈ w.notices) :
    (w.ticket t).notified = true := by
  have hc := notices_count h t
  have hp := List.count_pos_iff.mpr ht
  by_contra hn
  rw [if_neg hn] at hc
  omega

end World

end Backlog
