import Backlog.Proofs.Soundness

/-!
# The life of an id

An id of a manager is free, queued or running. It comes in by an admission, begins an attempt
by a claim, and leaves when its ticket is settled or withdrawn. Whatever concerns another id
leaves it where it is.
-/

namespace Backlog

/-- The managers agree on where the id is. -/
structure Manager.Agrees (g g' : Manager) (id : String) : Prop where
  queue : g'.queue.find? id = g.queue.find? id
  running : g'.running.find? id = g.running.find? id
  finished : g'.finished.find? id = g.finished.find? id

namespace Manager.Agrees

variable {g g' g'' : Manager} {id : String}

theorem refl (g : Manager) (id : String) : g.Agrees g id := ⟨rfl, rfl, rfl⟩

theorem trans (h : g.Agrees g' id) (h' : g'.Agrees g'' id) : g.Agrees g'' id :=
  ⟨h'.queue.trans h.queue, h'.running.trans h.running, h'.finished.trans h.finished⟩

theorem of_eq (h : g' = g) : g.Agrees g' id := h ▸ refl g id

theorem free (h : g.Agrees g' id) : g'.free id = g.free id := by
  rw [Bool.eq_iff_iff, Manager.free_iff, Manager.free_iff, h.queue, h.running]

theorem held? (h : g.Agrees g' id) : g'.held? id = g.held? id := by
  rw [Manager.held?, Manager.held?, h.running, h.queue]

end Manager.Agrees

namespace Store

variable {s s' : Store} {m t : Nat} {id : String} {status : Status}

theorem find?_insert (q : Queue) (ticket : Nat → Ticket) (t : Nat) (id : String) :
    (q.insert ticket t).find? id = if id = (ticket t).id then some t else q.find? id :=
  Table.find?_insert ..

theorem TakesIn.agrees (h : TakesIn m t s s') (hne : id ≠ (s'.ticket t).id) :
    (s.manager m).Agrees (s'.manager m) id := by
  obtain ⟨counts, -, hm⟩ := h.manager
  rw [hm]
  refine ⟨?_, rfl, ?_⟩
  · rw [find?_insert, if_neg hne]
  · exact (Table.find?_erase ..).trans (if_neg hne)

theorem TakesIn.queued (h : TakesIn m t s s') :
    (s'.manager m).queue.find? (s'.ticket t).id = some t := by
  obtain ⟨counts, -, hm⟩ := h.manager
  rw [hm, find?_insert, if_pos rfl]

theorem Begins.agrees (h : Begins m t s s') (hne : id ≠ (s'.ticket t).id) :
    (s.manager m).Agrees (s'.manager m) id := by
  obtain ⟨counts, -, hm⟩ := h.manager
  rw [hm]
  refine ⟨?_, ?_, rfl⟩
  · exact (Table.find?_erase ..).trans (if_neg hne)
  · exact (Table.find?_insert ..).trans (if_neg hne)

theorem Ends.agrees (h : Ends m t status s s') (hne : id ≠ (s.ticket t).id) :
    (s.manager m).Agrees (s'.manager m) id := by
  rw [h.manager]
  refine ⟨rfl, ?_, ?_⟩
  · exact (Table.find?_erase ..).trans (if_neg hne)
  · exact (Table.find?_insert ..).trans (if_neg hne)

/-- The id is free once its work has ended. -/
theorem Ends.ended (h : Ends m t status s s')
    (hq : (s.manager m).queue.find? (s.ticket t).id = none) :
    (s'.manager m).free (s.ticket t).id = true ∧
      (s'.manager m).finished.find? (s.ticket t).id = some status := by
  rw [h.manager]
  exact ⟨Manager.free_iff.mpr ⟨Table.find?_erase_same .., hq⟩, Table.find?_insert_same ..⟩

theorem Renews.agrees (h : Renews m t s s') (hn : (s.ticket t).id = (s.job (s.ticket t).job).id)
    (hne : id ≠ (s.ticket t).id) : (s.manager m).Agrees (s'.manager m) id := by
  obtain ⟨f, hf, hm⟩ := h.manager
  have hid : (f s.tickets.size).id = (s.ticket t).id := by
    rw [← Ticket.id_of_lasting (hf _ (Nat.le_refl _)), h.id, hn]
  rw [hm]
  refine ⟨?_, ?_, rfl⟩
  · rw [find?_insert, hid, if_neg hne]
  · exact (Table.find?_erase ..).trans (if_neg hne)

/-- The new ticket waits under the id of the old one. -/
theorem Renews.queued (h : Renews m t s s')
    (hn : (s.ticket t).id = (s.job (s.ticket t).job).id) :
    (s'.manager m).queue.find? (s.ticket t).id = some s.tickets.size := by
  obtain ⟨f, hf, hm⟩ := h.manager
  have hid : (f s.tickets.size).id = (s.ticket t).id := by
    rw [← Ticket.id_of_lasting (hf _ (Nat.le_refl _)), h.id, hn]
  rw [hm, find?_insert, hid, if_pos rfl]

theorem Loses.agrees (h : Loses m t s s') (hne : id ≠ (s.ticket t).id) :
    (s.manager m).Agrees (s'.manager m) id := by
  rw [h.manager]
  exact ⟨rfl, (Table.find?_erase ..).trans (if_neg hne), rfl⟩

/-- To withdraw one id leaves the others where they are. -/
theorem withdraw_agrees {i : String} {v : Withdrawal} (h : s.withdraw m i = some (s', v))
    (hne : id ≠ i) : (s.manager m).Agrees (s'.manager m) id := by
  rcases withdraw_cases h with ⟨t, -, rfl, -⟩ | ⟨-, t, queue, hq, rfl, -⟩
  · exact .refl ..
  · rw [manager_onManager, if_pos rfl, manager_cancelTicket]
    refine ⟨?_, rfl, ?_⟩
    · obtain ⟨-, rfl⟩ := Queue.remove_eq_some.mp hq
      exact (Table.find?_erase ..).trans (if_neg hne)
    · exact (Table.find?_insert ..).trans (if_neg hne)

/-- A queued ticket that is withdrawn leaves its id free. -/
theorem withdraw_dropped_ended {t : Nat} (h : s.withdraw m id = some (s', .dropped t)) :
    (s'.manager m).free id = true ∧ (s'.manager m).finished.find? id = some .cancelled := by
  rcases withdraw_cases h with ⟨u, -, -, hv⟩ | ⟨hn, u, queue, hq, rfl, -⟩
  · cases hv
  · rw [manager_onManager, if_pos rfl, manager_cancelTicket]
    refine ⟨Manager.free_iff.mpr ⟨hn, ?_⟩, Table.find?_insert_same ..⟩
    obtain ⟨-, rfl⟩ := Queue.remove_eq_some.mp hq
    exact Table.find?_erase_same ..

/-- The operation admits the id, which was free. -/
def Admits (s : Store) (m : Nat) (id : String) (s' : Store) : Prop :=
  (s.manager m).free id = true ∧ (s'.manager m).free id = false

/-- What is taken in is not free any more. -/
theorem TakesIn.not_free (h : TakesIn m t s s') :
    (s'.manager m).free (s'.ticket t).id = false := by
  apply Bool.eq_false_iff.mpr
  intro hf
  have := (Manager.free_iff.mp hf).2
  rw [h.queued] at this
  cases this

/-- An operation of a manager other than the withdrawal of the id leaves the id where it is
or admits it. -/
theorem manage_agrees {c : ManagerCall} (hc : (Call.manager m c).inScope s = true)
    (hn : c ≠ .cancel id) :
    (s.manager m).Agrees ((s.manage m c).manager m) id ∨ s.Admits m id (s.manage m c) := by
  have same {f : Manager → Manager} (h : (s.manager m).Agrees (f (s.manager m)) id) :
      (s.manager m).Agrees ((s.onManager m f).manager m) id ∨ s.Admits m id (s.onManager m f) := by
    rw [manager_onManager, if_pos rfl]
    exact .inl h
  refine manage_induction
    (P := fun r => (s.manager m).Agrees (r.manager m) id ∨ s.Admits m id r)
    hc (.inl (.refl ..)) (fun r r' t h _ hi => ?_) (fun i s' v he hw => ?_)
    (fun up _ => same ⟨rfl, rfl, rfl⟩) fun _ => same ⟨rfl, rfl, rfl⟩
  · -- once the id is admitted, nothing that follows frees it
    by_cases hid : id = (r'.ticket t).id
    · subst hid
      exact .inr ⟨h.elim (fun ha => ha.free ▸ hi.free) And.left, hi.not_free⟩
    · have hb := hi.agrees hid
      exact h.imp (fun ha => ha.trans hb) fun ha => ⟨ha.1, hb.free ▸ ha.2⟩
  · exact .inl (withdraw_agrees hw fun e => hn (by rw [he, e]))

theorem call_agrees {c : Call} (hc : c.inScope s = true) (hn : c ≠ .manager m (.cancel id)) :
    (s.manager m).Agrees ((s.call c).manager m) id ∨ s.Admits m id (s.call c) := by
  rcases manager_call s c m with hm | ⟨d, rfl⟩ | ⟨config, rfl, hi⟩
  · exact .inl (.of_eq hm)
  · exact manage_agrees hc fun he => hn (by rw [he])
  · rw [manager_make s config hi]
    exact .inl ⟨rfl, rfl, rfl⟩

/-- To settle one ticket leaves the ids of others where they are. -/
theorem settle_agrees (hs : s.Founded) (made : t < s.tickets.size) {i : Nat} (o : Outcome)
    (hn : i = m → (s.ticket t).id ≠ id) :
    (s.manager m).Agrees ((s.settle i t o).1.manager m) id := by
  by_cases hi : i = m
  · subst hi
    have hne := (hn rfl).symm
    rcases settle_spec (m := i) made o with ⟨_, _, -, -, he⟩ | ⟨-, -, hr⟩ | ⟨-, -, -, -, hl⟩
    · exact he.agrees hne
    · exact hr.agrees (hs.named t made) hne
    · exact hl.agrees hne
  · exact .of_eq (manager_settle made o (Ne.symm hi))

/-- A manager stops by a call to stop it and by nothing else. -/
theorem accepting_call {c : Call} (hc : c.inScope s = true) (hn : c ≠ .manager m .stop) :
    ((s.call c).manager m).accepting = (s.manager m).accepting := by
  rcases manager_call s c m with hm | ⟨d, rfl⟩ | ⟨config, rfl, hi⟩
  · rw [hm]
  · obtain ⟨_, _, _, _, _, hm, -, ha⟩ := manager_manage_self hc
    rw [show s.call (.manager m d) = s.manage m d from rfl, hm]
    exact ha fun he => hn (by rw [he])
  · rw [manager_make s config hi]

theorem accepting_settle (made : t < s.tickets.size) (i : Nat) (o : Outcome) :
    ((s.settle i t o).1.manager m).accepting = (s.manager m).accepting := by
  by_cases hi : i = m
  · subst hi
    obtain ⟨_, _, _, hm⟩ := released_settle (m := i) made o
    rw [hm]
    rfl
  · rw [manager_settle made o (Ne.symm hi)]

end Store

namespace World

variable {w w' v : World} {a b m t : Nat} {id : String}

theorem toStore_manage {c : ManagerCall} (hc : (Call.manager m c).inScope w.toStore = true) :
    (w.effect (.call (.manager m c))).toStore = w.manage m c := by
  simp only [effect]
  rw [if_pos hc]
  rfl

/-- A reply leaves an id where it is, unless it is for the attempt of the id. -/
theorem reply_agrees (h : w.Founded) (hn : ∀ t, w.Works a m t → (w.ticket t).id ≠ id)
    (r : Reply) : (w.manager m).Agrees ((w.effect (.reply a r)).manager m) id := by
  have hr := replied w a r
  generalize (w.effect (.reply a r)).toStore = s at hr ⊢
  cases hr with
  | planned jobs hj => exact .refl ..
  | settled jobs hj i t o hw =>
    have hs : Store.Founded { w.toStore with jobs } := h.store.keepSame hj rfl rfl rfl
    exact Store.settle_agrees hs (h.works a i t hw) o fun hi => hn t (hi ▸ hw)

/-- A move leaves an id where it is, unless it admits or cancels the id or ends its attempt. -/
theorem effect_agrees (h : w.Founded) {mv : Move}
    (hc : mv ≠ .call (.manager m (.cancel id)))
    (hr : ∀ a r t, mv = .reply a r → w.Works a m t → (w.ticket t).id ≠ id) :
    (w.manager m).Agrees ((w.effect mv).manager m) id ∨
      w.Admits m id (w.effect mv).toStore := by
  cases mv with
  | call c =>
    rcases effect_call w c with ⟨hs, he⟩ | he <;> rw [he]
    · exact Store.call_agrees hs fun he => hc (by rw [he])
    · exact .inl (.refl ..)
  | reply a r => exact .inl (reply_agrees h (fun t => hr a r t rfl) r)
  | clock now => exact .inl (.refl ..)
  | elapse nanos => exact .inl (.refl ..)

/-- The ticket that a move edits or cancels. -/
def touched (w : World) : Move → Option Nat
  | .call c => w.toStore.touched c
  | _ => none

theorem keeps_effect (w : World) (mv : Move) :
    Store.Keeps (w.touched mv) w.toStore (w.effect mv).toStore := by
  cases mv with
  | call c =>
    rcases effect_call w c with ⟨-, he⟩ | he <;> rw [he]
    · exact Store.keeps_call ..
    · exact .refl ..
  | reply a r =>
    have hr := replied w a r
    generalize (w.effect (.reply a r)).toStore = s at hr ⊢
    cases hr with
    | planned jobs hj => exact hj
    | settled jobs hj m t o hw => exact hj.trans (Store.keeps_settle ..)
  | clock now => exact Store.keeps_of_eq rfl rfl
  | elapse nanos => exact Store.keeps_of_eq rfl rfl

/-- Held tickets keep their ids. -/
theorem Sound.id_effect (h : w.Sound m) {mv : Move} (hl : lawful m w mv)
    (ht : (w.manager m).holds t) : ((w.effect mv).ticket t).id = (w.ticket t).id := by
  have made := h.custody.made t ht
  cases mv with
  | call c =>
    rcases effect_call w c with ⟨-, he⟩ | he <;> rw [he]
    apply Store.id_call (s := w.toStore) made
    intro j he
    subst he
    exact hl ht
  | _ => exact Ticket.id_of_lasting ((keeps_effect w _).ticket t made (Option.some_ne_none t))

/-- A manager goes on accepting until it is stopped. -/
theorem accepting_effect (h : w.Founded) {mv : Move} (hn : mv ≠ .call (.manager m .stop)) :
    ((w.effect mv).manager m).accepting = (w.manager m).accepting := by
  cases mv with
  | call c =>
    rcases effect_call w c with ⟨hs, he⟩ | he <;> rw [he]
    exact Store.accepting_call hs fun he => hn (by rw [he])
  | reply a r =>
    have hr := replied w a r
    generalize (w.effect (.reply a r)).toStore = s at hr ⊢
    cases hr with
    | planned jobs hj => rfl
    | settled jobs hj i t o hw =>
      exact Store.accepting_settle (s := { w.toStore with jobs }) (h.works a i t hw) i o
  | clock now => rfl
  | elapse nanos => rfl

/-- Nobody else answers for an operation. -/
theorem pending_effect {mv : Move} (hb : b ≠ w.acting mv) :
    (w.effect mv).pending.find? b = w.pending.find? b := by
  cases mv with
  | call c =>
    have hb : b ≠ w.calls := hb
    have hnew (g : Frame) : (w.pending.insert w.calls g).find? b = w.pending.find? b := by
      rw [Table.find?_insert, if_neg hb]
    simp only [effect]
    split
    · cases c with
      | run t n =>
        obtain ⟨g, q, -, he⟩ := enter_eq { w with calls := w.calls + 1 } w.calls t n .client
        exact (congrArg (·.pending.find? b) he).trans (hnew g)
      | attempt t n => exact hnew _
      | _ => rfl
    · rfl
  | reply a r =>
    have hb : b ≠ a := hb
    have hold : (w.pending.erase a).find? b = w.pending.find? b := by
      rw [Table.find?_erase, if_neg hb]
    rcases effect_reply w a r with he | ⟨g, -, hh⟩
    · rw [he]
    generalize w.effect (.reply a r) = w' at hh
    cases hh with
    | closed v k o hv hk => exact (congrArg (·.find? b) hv.pending).trans hold
    | asked v g q hv hg hc =>
      refine (Table.find?_insert ..).trans ((if_neg hb).trans ?_)
      exact (congrArg (·.find? b) hv.pending).trans hold
    | passed hf => exact hold
  | clock now => rfl
  | elapse nanos => rfl

/-- An operation waits until somebody replies. -/
theorem waits_effect (h : w.Founded) {f : Frame} (hf : w.pending.find? b = some f) {mv : Move}
    (hn : ∀ r, mv ≠ .reply b r) : (w.effect mv).pending.find? b = some f := by
  rw [pending_effect, hf]
  have hb := Nat.ne_of_lt (h.numbered b f hf)
  cases mv with
  | reply a r =>
    rintro rfl
    exact hn r rfl
  | _ => exact hb

theorem cancelled_effect (ht : t < w.tickets.size) (h : (w.ticket t).cancelled = true)
    (mv : Move) : ((w.effect mv).ticket t).cancelled = true := by
  cases mv with
  | call c =>
    rcases effect_call w c with ⟨-, he⟩ | he <;> rw [he]
    · exact Store.cancelled_call ht h c
    · exact h
  | _ => rw [Ticket.cancelled_of_lasting ((keeps_effect w _).ticket t ht (by simp [touched])), h]

/-- The sequel is an attempt that manager `m` begins under the id. -/
def Starts (m : Nat) (id : String) (a : Nat) (w w' : World) : Prop :=
  ∃ t s tally, w.Active a ∧ w.claim m = some (s, t) ∧ (w.ticket t).id = id ∧
    w' = w.depart a m s t tally

/-- A sequel leaves an id where it is, unless it begins an attempt under it. -/
theorem sequel_agrees (hs : Sequel a w w') (hn : ¬Starts m id a w w') :
    (w.manager m).Agrees (w'.manager m) id := by
  cases hs with
  | wrote ls es he => exact .refl ..
  | told j t next ha ht hn => exact .refl ..
  | welcomed j t ha => exact .refl ..
  | departed i t s tally ha hc =>
    have hb := Store.claim_begins hc
    rw [toStore_depart]
    by_cases hi : i = m
    · subst hi
      refine hb.agrees fun he => hn ⟨t, s, tally, ha, hc, ?_, rfl⟩
      rw [he, hb.ticket]
    · exact .of_eq (hb.other m (Ne.symm hi))

/-- At most the ticket that a manager claims changes in a sequel. -/
theorem keeps_sequel (hs : Sequel a w w') :
    ∃ x, Store.Keeps x w.toStore w'.toStore ∧
      ∀ t, x = some t → ∃ i s tally, w.Active a ∧ w.claim i = some (s, t) ∧
        w' = w.depart a i s t tally := by
  cases hs with
  | wrote ls es he => exact ⟨none, Store.keeps_of_eq rfl rfl, nofun⟩
  | told j t next ha ht hn => exact ⟨none, Store.keeps_onTicket _ t fun _ _ => rfl, nofun⟩
  | welcomed j t ha => exact ⟨none, .refl .., nofun⟩
  | departed i t s tally ha hc =>
    refine ⟨some t, ?_, fun u hu =>
      ⟨i, s, tally, ha, Option.some.inj hu ▸ hc, Option.some.inj hu ▸ rfl⟩⟩
    rw [toStore_depart]
    exact (Store.claim_begins hc).keeps

theorem size_sequels (hs : Sequels a w w') : w.tickets.size ≤ w'.tickets.size := by
  induction hs with
  | refl => exact Nat.le_refl _
  | tail _ hs ih =>
    obtain ⟨x, hk, -⟩ := keeps_sequel hs
    exact Nat.le_trans ih hk.tickets

theorem tickets_step (h : w.Founded) (mv : Move) : w.tickets.size ≤ (w.step mv).tickets.size :=
  Nat.le_trans (keeps_effect w mv).tickets (size_sequels (step_sequels h mv))

/-- What lasts of a job lasts. -/
theorem job_sequels (hs : Sequels a w w') {j : Nat} (hj : j < w.jobs.size) :
    j < w'.jobs.size ∧ (w'.job j).lasting = (w.job j).lasting := by
  induction hs with
  | refl => exact ⟨hj, rfl⟩
  | tail _ hs ih =>
    obtain ⟨x, hk, -⟩ := keeps_sequel hs
    exact ⟨Nat.lt_of_lt_of_le ih.1 hk.jobs, (hk.job j ih.1).trans ih.2⟩

theorem accepting_sequel (hs : Sequel a w w') :
    (w'.manager m).accepting = (w.manager m).accepting := by
  cases hs with
  | departed i t s tally ha hc =>
    have hb := Store.claim_begins hc
    rw [toStore_depart]
    by_cases hi : i = m
    · subst hi
      obtain ⟨counts, -, hm⟩ := hb.manager
      rw [hm]
      rfl
    · rw [hb.other m (Ne.symm hi)]
  | _ => rfl

theorem accepting_sequels (hs : Sequels a w w') :
    (w'.manager m).accepting = (w.manager m).accepting := by
  induction hs with
  | refl => rfl
  | tail _ hs ih => exact (accepting_sequel hs).trans ih

/-- A sequel of one operation answers no other. -/
theorem pending_sequel (hs : Sequel a w w') (hb : b ≠ a) :
    w'.pending.find? b = w.pending.find? b := by
  have ask (g : Frame) : (w.pending.insert a g).find? b = w.pending.find? b := by
    rw [Table.find?_insert, if_neg hb]
  cases hs with
  | wrote ls es he => rfl
  | told j t next ha ht hn => exact ask _
  | welcomed j t ha => exact ask _
  | departed i t s tally ha hc =>
    obtain ⟨g, q, -, he⟩ := enter_eq { w with toStore := s } a t (s.ticket t).runs
      (.manager i t (s.ticket t).runs s.uptime tally)
    exact (congrArg (·.pending.find? b) he).trans (ask g)

theorem waits_sequel (hs : Sequel a w w') {f : Frame} (hf : w.pending.find? b = some f) :
    w'.pending.find? b = some f := by
  by_cases hb : b = a
  · subst hb
    cases hs with
    | wrote ls es he => exact hf
    | told j t next ha ht hn => rw [ha.2] at hf; cases hf
    | welcomed j t ha => rw [ha.2] at hf; cases hf
    | departed i t s tally ha hc => rw [ha.2] at hf; cases hf
  · rw [pending_sequel hs hb, hf]

/-- No sequel gives a ticket another id. -/
theorem id_sequel (hs : Sequel a w w') (ht : t < w.tickets.size) :
    (w'.ticket t).id = (w.ticket t).id := by
  obtain ⟨x, hk, hx⟩ := keeps_sequel hs
  by_cases he : some t = x
  · obtain ⟨i, s, tally, -, hc, rfl⟩ := hx t he.symm
    rw [toStore_depart, (Store.claim_begins hc).ticket]
  · exact Ticket.id_of_lasting (hk.ticket t ht he)

theorem cancelled_sequel (hs : Sequel a w w') (ht : t < w.tickets.size) :
    (w'.ticket t).cancelled = (w.ticket t).cancelled := by
  obtain ⟨x, hk, hx⟩ := keeps_sequel hs
  by_cases he : some t = x
  · obtain ⟨i, s, tally, -, hc, rfl⟩ := hx t he.symm
    rw [toStore_depart, (Store.claim_begins hc).ticket]
  · exact Ticket.cancelled_of_lasting (hk.ticket t ht he)

/-- What follows a move gives no ticket another id and cancels none. -/
theorem ticket_sequels (hs : Sequels a w w') (ht : t < w.tickets.size) :
    (w'.ticket t).id = (w.ticket t).id ∧ (w'.ticket t).cancelled = (w.ticket t).cancelled := by
  suffices t < w'.tickets.size ∧ (w'.ticket t).id = (w.ticket t).id ∧
      (w'.ticket t).cancelled = (w.ticket t).cancelled from this.2
  induction hs with
  | refl => exact ⟨ht, rfl, rfl⟩
  | tail _ hs ih =>
    obtain ⟨x, hk, -⟩ := keeps_sequel hs
    exact ⟨Nat.lt_of_lt_of_le ih.1 hk.tickets, (id_sequel hs ih.1).trans ih.2.1,
      (cancelled_sequel hs ih.1).trans ih.2.2⟩

theorem Sound.id_step (h : w.Sound m) {mv : Move} (hl : lawful m w mv)
    (ht : (w.manager m).holds t) : ((w.step mv).ticket t).id = (w.ticket t).id := by
  have made := Nat.lt_of_lt_of_le (h.custody.made t ht) (keeps_effect w mv).tickets
  exact (ticket_sequels (step_sequels h.founded mv) made).1.trans (h.id_effect hl ht)

theorem cancelled_step (h : w.Founded) (ht : t < w.tickets.size)
    (hc : (w.ticket t).cancelled = true) (mv : Move) :
    ((w.step mv).ticket t).cancelled = true := by
  have made := Nat.lt_of_lt_of_le ht (keeps_effect w mv).tickets
  exact (ticket_sequels (step_sequels h mv) made).2.trans (cancelled_effect ht hc mv)

end World

end Backlog
