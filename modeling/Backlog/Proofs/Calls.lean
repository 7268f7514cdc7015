import Backlog.Proofs.Effects

/-!
# What calls leave alone

A call changes at most one ticket beyond what managers write on it, and keeps tickets in order
as long as no count of attempts is set that is negative.
-/

namespace Backlog

namespace Store

variable {s s' : Store} {m t : Nat}

/-- The ticket that a call edits or cancels. -/
def touched (s : Store) : Call → Option Nat
  | .editTicket t _ => some t
  | .manager m (.cancel id) => (s.manager m).held? id
  | _ => none

theorem keeps_after {x : Option Nat} {r : Except Fault Store}
    (h : ∀ s', r = .ok s' → Keeps x s s') : Keeps x s (s.after r) := by
  cases r with
  | ok s' => exact h s' rfl
  | error f => exact .refl ..

theorem keeps_editTicket (s : Store) (t : Nat) (e : TicketEdit) :
    Keeps (some t) s (s.after (s.editTicket t e)) := by
  have same (f : Ticket → Ticket) : Keeps (some t) s (s.onTicket t f) :=
    keeps_onTicket s t fun h => absurd rfl h
  cases e with
  | priority p => exact (same _).trans (keeps_onJob _ _ fun _ => rfl)
  | runs n => exact same _
  | created c => exact same _
  | notBefore d => exact same _
  | session id => exact same _
  | stamp n =>
    simp only [editTicket]
    split
    · exact .refl ..
    · exact same _
  | job j =>
    cases j with
    | none => exact .refl ..
    | some j => exact (same _).trans (keeps_onJob _ _ fun _ => rfl)
  | context l session => exact keeps_setContext ..
  | cancel => exact keeps_cancelTicket s t
  | success => exact same _

theorem keeps_callQueue (s : Store) (q : Nat) (c : QueueCall) : Keeps none s (s.callQueue q c).1 := by
  cases c with
  | push t =>
    cases t with
    | none => exact .refl ..
    | some t =>
      simp only [callQueue]
      split
      · exact .refl ..
      · rename_i hp
        exact (keeps_push hp).trans (keeps_of_eq rfl rfl)
  | next now network busy =>
    simp only [callQueue]
    split
    · exact .refl ..
    · exact keeps_of_eq rfl rfl
  | remove id =>
    simp only [callQueue]
    split
    · exact .refl ..
    · exact keeps_of_eq rfl rfl
  | delayGroup group d => exact keeps_delayGroup ..
  | close => exact keeps_of_eq rfl rfl

theorem keeps_reclaim (s : Store) (m t : Nat) : Keeps none s (s.reclaim m t).1 := by
  rcases reclaim_eq s m t with ⟨h, -⟩ | ⟨-, w, next, rfl, rfl, h⟩ <;> rw [h]
  · exact .refl ..
  · refine .trans (keeps_onTicket s t
      (f := ({ · with session := (s.manager m).session })) fun _ _ => rfl) ?_
    exact (keeps_stampTicket ..).trans ((keeps_setContext ..).trans (keeps_onManager ..))

theorem keeps_recover (s : Store) (m : Nat) (ts : List (Option Nat)) :
    Keeps none s (s.manage m (.recover ts)) := by
  induction ts generalizing s with
  | nil => exact .refl ..
  | cons t ts ih =>
    cases t with
    | none => exact ih s
    | some t => exact (keeps_reclaim s m t).trans (ih _)

/-- Tickets that exist go on to exist as one of them is offered for recovery. -/
theorem scope_reclaim (s : Store) (m t : Nat) {ts : List (Option Nat)}
    (hts : ∀ u ∈ ts, u.all (· < s.tickets.size) = true) :
    ∀ u ∈ ts, u.all (· < (s.reclaim m t).1.tickets.size) = true := by
  intro u hu
  have := hts u hu
  simp only [Option.all_eq_true, decide_eq_true_eq] at this ⊢
  exact fun v hv => Nat.lt_of_lt_of_le (this v hv) (keeps_reclaim s m t).tickets

/-- What holds of the store and is kept whenever an existing ticket is offered for recovery
holds after all are. -/
theorem recover_induction {P : Store → Prop} {ts : List (Option Nat)}
    (step : ∀ s t, P s → some t ∈ ts → t < s.tickets.size → P (s.reclaim m t).1) (h : P s)
    (hts : ∀ t ∈ ts, t.all (· < s.tickets.size) = true) : P (s.manage m (.recover ts)) := by
  induction ts generalizing s with
  | nil => exact h
  | cons t ts ih =>
    have step' (s : Store) (u : Nat) (hs : P s) (hu : some u ∈ ts) (hz : u < s.tickets.size) :
        P (s.reclaim m u).1 := step s u hs (List.mem_cons_of_mem _ hu) hz
    cases t with
    | none => exact ih step' h fun u hu => hts u (List.mem_cons_of_mem _ hu)
    | some t =>
      have ht : t < s.tickets.size := by simpa using hts _ List.mem_cons_self
      exact ih step' (step s t h List.mem_cons_self ht)
        (scope_reclaim s m t fun u hu => hts u (List.mem_cons_of_mem _ hu))

/-- What an operation of a manager can do at once: take in new tickets or those that it is
offered, withdraw one, or change what the manager knows of the network and whether it accepts. -/
theorem manage_induction {P : Store → Prop} {c : ManagerCall}
    (hc : (Call.manager m c).inScope s = true) (h : P s)
    (takesIn : ∀ r r' t, P r →
      ((∃ j, c = .add j) ∧ t = r.tickets.size ∨ ∃ ts, c = .recover ts ∧ some t ∈ ts) →
      TakesIn m t r r' → P r')
    (withdraw : ∀ id s' v, c = .cancel id → s.withdraw m id = some (s', v) → P s')
    (network : ∀ up, c = .network up → P (s.onManager m ({ · with network := up })))
    (stop : c = .stop → P (s.onManager m (·.stop))) : P (s.manage m c) := by
  simp only [Call.inScope, Bool.and_eq_true] at hc
  cases c with
  | add j =>
    cases j with
    | none => exact h
    | some j =>
      simp only [manage]
      dsimp only [Option.bind_some]
      cases he : s.enlist m j with
      | none => exact h
      | some s' => exact takesIn s s' _ h (.inl ⟨⟨_, rfl⟩, rfl⟩) (enlist_takesIn he).1
  | runNext => exact h
  | runUntilIdle => exact h
  | cancel id =>
    simp only [manage]
    cases hw : s.withdraw m id with
    | none => exact h
    | some p => exact withdraw id p.1 p.2 rfl hw
  | recover ts =>
    refine recover_induction (fun r t hr hm ht => ?_) h (List.all_eq_true.mp hc.2)
    rcases reclaim_cases r m ht with ⟨he, -⟩ | ⟨-, hi, -⟩
    · rwa [he]
    · exact takesIn r _ t hr (.inr ⟨ts, rfl, hm⟩) hi
  | network up => exact network up rfl
  | stop =>
    simp only [manage]
    split
    · exact stop rfl
    · exact h

/-- No attempt begins or ends by what a manager does at once. It learns of the network and stops
only as it is told to, and its settings stay. -/
theorem manager_manage_self {c : ManagerCall} (hc : (Call.manager m c).inScope s = true) :
    ∃ queue finished counts network accepting, (s.manage m c).manager m =
        { s.manager m with queue, finished, counts, network, accepting } ∧
      ((∀ up, c ≠ .network up) → network = (s.manager m).network) ∧
      (c ≠ .stop → accepting = (s.manager m).accepting) := by
  refine manage_induction (P := fun r => ∃ queue finished counts network accepting,
    r.manager m = { s.manager m with queue, finished, counts, network, accepting } ∧
      ((∀ up, c ≠ .network up) → network = (s.manager m).network) ∧
      (c ≠ .stop → accepting = (s.manager m).accepting)) hc
    ⟨_, _, _, _, _, rfl, fun _ => rfl, fun _ => rfl⟩ (fun r r' t h _ hi => ?_)
    (fun id s' v _ hw => ?_) (fun up he => ?_) fun he => ?_
  · obtain ⟨_, _, _, _, _, hr, hn, ha⟩ := h
    obtain ⟨counts, -, hm⟩ := hi.manager
    rw [hm, hr]
    exact ⟨_, _, _, _, _, rfl, hn, ha⟩
  · rcases withdraw_cases hw with ⟨u, -, rfl, -⟩ | ⟨-, u, queue, -, rfl, -⟩
    · exact ⟨_, _, _, _, _, rfl, fun _ => rfl, fun _ => rfl⟩
    · rw [manager_onManager, if_pos rfl]
      exact ⟨_, _, _, _, _, rfl, fun _ => rfl, fun _ => rfl⟩
  · rw [manager_onManager, if_pos rfl]
    exact ⟨_, _, _, _, _, rfl, fun hn => absurd he (hn up), fun _ => rfl⟩
  · rw [manager_onManager, if_pos rfl]
    exact ⟨_, _, _, _, _, rfl, fun _ => rfl, fun hn => absurd he hn⟩

theorem manager_reclaim {i : Nat} (hi : i ≠ m) (s : Store) (t : Nat) :
    (s.reclaim m t).1.manager i = s.manager i := by
  rcases reclaim_eq s m t with ⟨h, -⟩ | ⟨-, w, next, rfl, rfl, h⟩ <;> rw [h]
  rw [manager_onManager, if_neg hi, manager_setContext, manager_stampTicket, manager_onTicket]

theorem manager_withdraw {i : Nat} (hi : i ≠ m) {id : String} {v : Withdrawal}
    (h : s.withdraw m id = some (s', v)) : s'.manager i = s.manager i := by
  rcases withdraw_cases h with ⟨t, -, rfl, -⟩ | ⟨-, t, queue, -, rfl, -⟩
  · rfl
  · rw [manager_onManager, if_neg hi, manager_cancelTicket]

/-- An operation of a manager changes no other. -/
theorem manager_manage {i : Nat} (hi : i ≠ m) (s : Store) (c : ManagerCall) :
    (s.manage m c).manager i = s.manager i := by
  cases c with
  | add j =>
    cases j with
    | none => rfl
    | some j =>
      change ((s.enlist m j).getD s).manager i = _
      cases he : s.enlist m j with
      | none => rfl
      | some s' => exact (enlist_takesIn he).1.other i hi
  | runNext => rfl
  | runUntilIdle => rfl
  | cancel id =>
    change (((s.withdraw m id).map Prod.fst).getD s).manager i = _
    cases hw : s.withdraw m id with
    | none => rfl
    | some p => exact manager_withdraw hi hw
  | recover ts =>
    induction ts generalizing s with
    | nil => rfl
    | cons t ts ih =>
      cases t with
      | none => exact ih s
      | some t => exact (ih _).trans (manager_reclaim hi s t)
  | network up => rw [manage, manager_onManager, if_neg hi]
  | stop =>
    change (if (s.manager m).accepting then s.onManager m (·.stop) else s).manager i = _
    split
    · rw [manager_onManager, if_neg hi]
    · rfl

theorem managers_editTicket (s : Store) (t : Nat) (e : TicketEdit) :
    (s.after (s.editTicket t e)).managers = s.managers := by
  cases e with
  | stamp n =>
    simp only [editTicket]
    split <;> rfl
  | job j => cases j <;> rfl
  | _ => rfl

theorem managers_callQueue (s : Store) (q : Nat) (c : QueueCall) :
    (s.callQueue q c).1.managers = s.managers := by
  have hstamp (s : Store) (t : Nat) : (s.stampTicket t).managers = s.managers := by
    simp only [stampTicket]
    split <;> rfl
  cases c with
  | push t =>
    cases t with
    | none => rfl
    | some t =>
      simp only [callQueue]
      split
      · rfl
      · rename_i hp
        obtain ⟨-, rfl, -⟩ := push_eq_some.mp hp
        exact hstamp s t
  | next now network busy =>
    simp only [callQueue]
    split <;> rfl
  | remove id =>
    simp only [callQueue]
    split <;> rfl
  | delayGroup group d => rfl
  | close => rfl

/-- A new manager is idle. -/
theorem manager_establish (s : Store) (c : Config) (hm : m = s.managers.size) :
    (s.establish c).manager m = {
      config := c, logger := s.loggers.size, network := c.network
      session := max (s.read c.clock) (s.lastSession + 1) } :=
  (Registry.get_add ..).trans (if_pos hm)

theorem manager_establish_of_ne (s : Store) (c : Config) (hm : m ≠ s.managers.size) :
    (s.establish c).manager m = s.manager m :=
  (Registry.get_add ..).trans (if_neg hm)

/-- A manager that is made gets its settings, and for the rest is what it was before. -/
theorem manager_make (s : Store) (c : Config) (hm : m = s.managers.size) :
    (s.call (.makeManager c)).manager m = { s.manager m with
      config := c, logger := s.loggers.size, network := c.network
      session := max (s.read c.clock) (s.lastSession + 1) } := by
  rw [show s.manager m = default from Registry.get_of_size_le (Nat.le_of_eq hm.symm)]
  exact manager_establish s c hm

/-- A manager changes by its own operations and when it is made. -/
theorem manager_call (s : Store) (c : Call) (i : Nat) :
    (s.call c).manager i = s.manager i ∨ (∃ d, c = .manager i d) ∨
      ∃ config, c = .makeManager config ∧ i = s.managers.size := by
  have same {s' : Store} (h : s'.managers = s.managers) : s'.manager i = s.manager i :=
    congrArg (Registry.get · i) h
  have hafter {r : Except Fault Store} (h : ∀ s', r = .ok s' → s'.managers = s.managers) :
      (s.after r).managers = s.managers := by
    cases r with
    | ok s' => exact h s' rfl
    | error f => rfl
  cases c with
  | makeJob p =>
    refine .inl (same (hafter fun s' hs => ?_))
    cases hj : Job.make p with
    | error f => rw [hj] at hs; cases hs
    | ok j => rw [hj] at hs; cases hs; rfl
  | build d =>
    refine .inl (same (hafter fun s' hs => ?_))
    obtain ⟨k, rfl, -⟩ := build_eq_ok hs
    rfl
  | editTicket t e => exact .inl (same (managers_editTicket s t e))
  | queue q c => exact .inl (same (managers_callQueue s q c))
  | makeManager config =>
    by_cases hi : i = s.managers.size
    · exact .inr (.inr ⟨config, rfl, hi⟩)
    · exact .inl ((Registry.get_add ..).trans (if_neg hi))
  | manager m d =>
    by_cases hi : i = m
    · exact .inr (.inl ⟨d, by rw [hi]⟩)
    · exact .inl (manager_manage hi s d)
  | _ => exact .inl rfl

theorem keeps_withdraw {id : String} {v : Withdrawal} (h : s.withdraw m id = some (s', v)) :
    Keeps ((s.manager m).held? id) s s' := by
  simp only [Manager.held?]
  rcases withdraw_cases h with ⟨t, ht, rfl, -⟩ | ⟨hn, t, queue, hq, rfl, -⟩
  · rw [ht]
    exact keeps_cancelTicket s t
  · rw [hn, Queue.find?_of_remove hq]
    exact (keeps_cancelTicket s t).trans (keeps_onManager ..)

theorem keeps_addJob (s : Store) (j : Job) : Keeps x s { s with jobs := s.jobs.add j } where
  jobs := Nat.le_of_lt (by simp)
  tickets := Nat.le_refl _
  job i hi := congrArg Job.lasting ((Registry.get_add ..).trans (if_neg (Nat.ne_of_lt hi)))
  ticket _ _ _ := rfl
  fresh _ ht _ := runs_of_size_le ht

theorem keeps_call (s : Store) (c : Call) : Keeps (s.touched c) s (s.call c) := by
  cases c with
  | makeJob p =>
    apply keeps_after
    intro s' hs
    cases hj : Job.make p with
    | error f => rw [hj] at hs; cases hs
    | ok j =>
      rw [hj] at hs
      cases hs
      exact keeps_addJob s j
  | editJob j e =>
    apply keeps_onJob
    intro k
    cases e <;> rfl
  | build d => exact keeps_after fun s' hs => keeps_build hs
  | editTicket t e => exact keeps_editTicket s t e
  | makeQueue => exact keeps_of_eq rfl rfl
  | queue q c => exact keeps_callQueue s q c
  | makeManager c => exact keeps_of_eq rfl rfl
  | manager m c =>
    cases c with
    | add j =>
      cases j with
      | none => exact .refl ..
      | some j =>
        change Keeps none s ((s.enlist m j).getD s)
        cases he : s.enlist m j with
        | none => exact .refl ..
        | some s' => exact (enlist_takesIn he).1.keeps
    | cancel id =>
      change Keeps _ s (((s.withdraw m id).map Prod.fst).getD s)
      cases hw : s.withdraw m id with
      | none => exact .refl ..
      | some p => exact keeps_withdraw hw
    | recover ts => exact keeps_recover s m ts
    | stop =>
      change Keeps none s (if (s.manager m).accepting then s.onManager m (·.stop) else s)
      split
      · exact keeps_onManager ..
      · exact .refl ..
    | _ => exact keeps_of_eq rfl rfl
  | _ => exact keeps_of_eq rfl rfl

/-- The ticket after an edit. -/
def edited (s : Store) (k : Ticket) : TicketEdit → Ticket
  | .priority p => { k with priority := p }
  | .runs n => { k with runs := n }
  | .created c => { k with created := c }
  | .notBefore d => { k with notBefore := d }
  | .session id => { k with session := id }
  | .stamp n => { k with stamp := k.stamp.or (some n) }
  | .job j => j.elim k fun j => { k with job := j, id := (s.job j).id }
  | .context .. => k
  | .cancel => { k with cancelled := true }
  | .success => { k with successful := true }

theorem ticket_editTicket (s : Store) (t : Nat) (e : TicketEdit) :
    (s.after (s.editTicket t e)).ticket t = s.edited (s.ticket t) e := by
  have same (f : Ticket → Ticket) : (s.onTicket t f).ticket t = f (s.ticket t) := by
    rw [ticket_onTicket, if_pos rfl]
  cases e with
  | stamp n =>
    simp only [editTicket]
    split
    · rename_i i hi
      change s.ticket t = { s.ticket t with stamp := (s.ticket t).stamp.or (some n) }
      rw [hi, Option.some_or, ← hi]
    · rename_i hi
      apply (same _).trans
      rw [edited, hi, Option.none_or]
  | job j =>
    cases j with
    | none => rfl
    | some j => exact same _
  | context l session => rfl
  | _ => exact same _

/-- A call edits or cancels the ticket that it touches. -/
theorem ticket_call {c : Call} (hx : some t = s.touched c) :
    (∃ e, c = .editTicket t e ∧ (s.call c).ticket t = s.edited (s.ticket t) e) ∨
      (s.call c).ticket t = { s.ticket t with cancelled := true } := by
  have mark : (s.cancelTicket t).ticket t = { s.ticket t with cancelled := true } := by
    change (s.onTicket t _).ticket t = _
    rw [ticket_onTicket, if_pos rfl]
  cases c with
  | editTicket u e =>
    obtain rfl := Option.some.inj hx
    exact .inl ⟨e, rfl, ticket_editTicket s t e⟩
  | manager m d =>
    cases d with
    | cancel id =>
      right
      change (((s.withdraw m id).map Prod.fst).getD s).ticket t = _
      have hx : (s.manager m).held? id = some t := hx.symm
      simp only [Manager.held?] at hx
      cases hw : s.withdraw m id with
      | none =>
        obtain ⟨hr, hq⟩ := Manager.free_iff.mp (withdraw_eq_none.mp hw)
        rw [hr, hq] at hx
        cases hx
      | some p =>
        rw [Option.map_some, Option.getD_some]
        rcases withdraw_cases hw with ⟨u, hu, hp, -⟩ | ⟨hn, u, queue, hq, hp, -⟩
        · rw [hu] at hx
          obtain rfl := Option.some.inj hx
          rw [hp, mark]
        · rw [hn, Queue.find?_of_remove hq] at hx
          obtain rfl := Option.some.inj hx
          rw [hp]
          exact mark
    | _ => cases hx
  | _ => cases hx

/-- Only to wrap another job gives a ticket another id. -/
theorem id_call (ht : t < s.tickets.size) {c : Call}
    (he : ∀ j, c = .editTicket t (.job (some j)) → (s.job j).id = (s.ticket t).id) :
    ((s.call c).ticket t).id = (s.ticket t).id := by
  by_cases hx : some t = s.touched c
  · rcases ticket_call hx with ⟨e, rfl, hk⟩ | hk <;> rw [hk]
    cases e with
    | job j =>
      cases j with
      | none => rfl
      | some j => exact he j rfl
    | _ => rfl
  · exact Ticket.id_of_lasting ((keeps_call s c).ticket t ht hx)

/-- No call takes a cancellation back. -/
theorem cancelled_call (ht : t < s.tickets.size) (h : (s.ticket t).cancelled = true) (c : Call) :
    ((s.call c).ticket t).cancelled = true := by
  by_cases hx : some t = s.touched c
  · rcases ticket_call hx with ⟨e, rfl, hk⟩ | hk <;> rw [hk]
    cases e with
    | job j => cases j <;> exact h
    | cancel => rfl
    | _ => exact h
  · rw [Ticket.cancelled_of_lasting ((keeps_call s c).ticket t ht hx), h]

/-- No count of attempts gets negative unless an edit makes it so. -/
theorem runs_call (h : ∀ t, 0 ≤ (s.ticket t).runs) {c : Call}
    (he : ∀ t n, c = .editTicket t (.runs n) → 0 ≤ n) (t : Nat) :
    0 ≤ ((s.call c).ticket t).runs := by
  by_cases hx : some t = s.touched c
  · rcases ticket_call hx with ⟨e, rfl, hk⟩ | hk <;> rw [hk]
    · cases e with
      | runs n => exact he t n rfl
      | job j => cases j <;> exact h t
      | _ => exact h t
    · exact h t
  · exact (keeps_call s c).runs h hx

namespace Founded

theorem after (h : s.Founded) {r : Except Fault Store} (hr : ∀ s', r = .ok s' → s'.Founded) :
    (s.after r).Founded := by
  cases r with
  | ok s' => exact hr s' rfl
  | error f => exact h

theorem setJob (h : s.Founded) (ht : t < s.tickets.size) {j : Nat} (hj : j < s.jobs.size) :
    (s.setJob t j).Founded :=
  (h.onTicket ht hj rfl).keepSame (keeps_onJob _ _ fun _ => rfl) rfl rfl rfl

theorem editTicket (h : s.Founded) {e : TicketEdit}
    (hc : (Call.editTicket t e).inScope s = true) : (s.after (s.editTicket t e)).Founded := by
  simp only [Call.inScope, Bool.and_eq_true, decide_eq_true_eq] at hc
  obtain ⟨ht, hc⟩ := hc
  have same {f : Ticket → Ticket} (hj : (f (s.ticket t)).job = (s.ticket t).job)
      (hi : (f (s.ticket t)).id = (s.ticket t).id) : (s.onTicket t f).Founded :=
    h.onTicket ht (hj ▸ h.job t ht) (by rw [hj, hi, h.named t ht])
  cases e with
  | priority p =>
    exact (same rfl rfl).keepSame (keeps_onJob _ _ fun _ => rfl) rfl rfl rfl
  | runs n => exact same rfl rfl
  | created c => exact same rfl rfl
  | notBefore d => exact same rfl rfl
  | session id => exact same rfl rfl
  | stamp n =>
    simp only [Store.editTicket]
    split
    · exact h
    · exact same rfl rfl
  | job j =>
    cases j with
    | none => exact h
    | some j => exact h.setJob ht (by simpa using hc)
  | context l session => exact h.setContext ..
  | cancel => exact h.cancelTicket ht
  | success => exact same rfl rfl

theorem setQueue (h : s.Founded) {q : Nat} {queue : Queue}
    (hq : ∀ t ∈ queue.order, t < s.tickets.size) : (s.setQueue q queue).Founded := by
  refine h.keep (keeps_of_eq rfl rfl) rfl h.known fun i t ht => ?_
  change t ∈ (Registry.get (s.queues.put q queue) i).order at ht
  rw [Registry.get_put] at ht
  split at ht
  · exact hq t ht
  · exact h.queued i t ht

theorem callQueue (h : s.Founded) {q : Nat} {c : QueueCall}
    (hc : (Call.queue q c).inScope s = true) : (s.callQueue q c).1.Founded := by
  simp only [Call.inScope, Bool.and_eq_true] at hc
  cases c with
  | push t =>
    cases t with
    | none => exact h
    | some t =>
      have ht : t < s.tickets.size := by simpa using hc.2
      simp only [Store.callQueue]
      split
      · exact h
      · rename_i hp
        obtain ⟨-, rfl, rfl⟩ := push_eq_some.mp hp
        apply (h.stampTicket ht).setQueue
        intro u hu
        rw [size_stampTicket ht]
        rcases mem_insertOrdered hu with rfl | hu
        · exact ht
        · exact h.queued q u hu
  | next now network busy =>
    simp only [Store.callQueue]
    split
    · exact h
    · exact h.setQueue fun u hu => h.queued q u (List.mem_of_mem_erase hu)
  | remove id =>
    simp only [Store.callQueue]
    split
    · exact h
    · rename_i t queue hr
      exact h.setQueue fun u hu => h.queued q u ((Queue.remove_sublist hr).subset hu)
  | delayGroup group d => exact h.delayGroup (h.queued q) group d
  | close => exact h.setQueue (h.queued q)

theorem establish (h : s.Founded) (c : Config) : (s.establish c).Founded := by
  refine h.keep (keeps_of_eq rfl rfl) rfl (fun i t ht => ?_) h.queued
  change (Registry.get (s.managers.add _) i).knows t at ht
  rw [Registry.get_add] at ht
  split at ht
  · exact absurd ((Manager.knows_congr rfl rfl rfl).mp ht) Manager.knows_default
  · exact h.known i t ht

theorem manage (h : s.Founded) {c : ManagerCall} (hc : (Call.manager m c).inScope s = true) :
    (s.manage m c).Founded := by
  simp only [Call.inScope, Bool.and_eq_true] at hc
  cases c with
  | add j =>
    cases j with
    | none => exact h
    | some j =>
      change ((s.enlist m j).getD s).Founded
      cases he : s.enlist m j with
      | none => exact h
      | some s' => exact h.enlist he
  | runNext => exact h
  | runUntilIdle => exact h
  | cancel id =>
    change (((s.withdraw m id).map Prod.fst).getD s).Founded
    cases hw : s.withdraw m id with
    | none => exact h
    | some p => exact h.withdraw hw
  | recover ts => exact recover_induction (fun _ _ h _ ht => h.reclaim ht) h (List.all_eq_true.mp hc.2)
  | network up => exact h.onManager fun t ht => h.known m t ht
  | stop =>
    change (if (s.manager m).accepting then s.onManager m (·.stop) else s).Founded
    split
    · exact h.onManager fun t ht => h.known m t ht
    · exact h

theorem call (h : s.Founded) {c : Call} (hc : c.inScope s = true) : (s.call c).Founded := by
  cases c with
  | makeJob p =>
    apply h.after
    intro s' hs
    cases hj : Job.make p with
    | error f => rw [hj] at hs; cases hs
    | ok j =>
      rw [hj] at hs
      cases hs
      exact h.keepSame (keeps_addJob s j) rfl rfl rfl
  | editJob j e =>
    refine h.keepSame (keeps_onJob _ _ fun k => ?_) rfl rfl rfl
    cases e <;> rfl
  | build d => exact h.after fun s' hs => h.build hs
  | editTicket t e => exact h.editTicket hc
  | makeQueue =>
    refine h.keep (keeps_of_eq rfl rfl) rfl h.known fun i t ht => ?_
    change t ∈ (Registry.get (s.queues.add _) i).order at ht
    rw [Registry.get_add] at ht
    split at ht
    · cases ht
    · exact h.queued i t ht
  | queue q c => exact h.callQueue hc
  | makeManager c => exact h.establish c
  | manager m c => exact h.manage hc
  | makeLogger => exact h.keepSame (keeps_of_eq rfl rfl) rfl rfl rfl
  | tell t => exact h
  | run t n => exact h
  | attempt t n => exact h
  | logger l c => exact h

end Founded

end Store

end Backlog
