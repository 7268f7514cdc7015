import Backlog.Proofs.Admissions
import Backlog.Proofs.Crews
import Backlog.Proofs.HandOuts

/-!
# Sessions tell whose a ticket is

A manager signs what it takes in with its session. As long as no ticket is with two managers and
clients do not sign what managers have, every ticket that a manager has carries its session, and so
does every ticket that it had until another manager takes it in. That is what recovery goes by.
-/

namespace Backlog

namespace Manager

variable {g : Manager} {ticket : Nat → Ticket} {finished : Table String Status} {counts : Counts}
  {t u : Nat}

theorem knows_inserted :
    Manager.knows { g with queue := g.queue.insert ticket t, finished, counts } t :=
  .inr (.inl ⟨(ticket t).id, (Table.find?_insert ..).trans (if_pos rfl)⟩)

/-- A ticket that is queued under a free id displaces no other. -/
theorem knows_beside (hn : g.queue.find? (ticket t).id = none) (h : g.knows u) :
    Manager.knows { g with queue := g.queue.insert ticket t, finished, counts } u := by
  rcases h with h | ⟨id, h⟩ | h
  · exact .inl ((sublist_insertOrdered ..).subset h)
  · refine .inr (.inl ⟨id, (Table.find?_insert ..).trans ?_⟩)
    rw [if_neg]
    · exact h
    · rintro rfl
      rw [hn] at h
      cases h
  · exact .inr (.inr h)

/-- The numbers of tickets that the manager has, as often as it has them. -/
def mentions (g : Manager) : List Nat :=
  g.queue.order ++ g.queue.index.entries.map Prod.snd ++ g.running.entries.map Prod.snd

theorem mem_mentions (h : g.knows t) : t ∈ g.mentions := by
  have mem {l : List (String × Nat)} {id : String} (h : l.lookup id = some t) :
      t ∈ l.map Prod.snd := by
    obtain ⟨l₁, l₂, rfl, -⟩ := List.lookup_eq_some_iff.mp h
    simp
  simp only [mentions, List.mem_append]
  rcases h with h | ⟨id, h⟩ | ⟨id, h⟩
  · exact .inl (.inl h)
  · exact .inl (.inr (mem h))
  · exact .inr (mem h)

end Manager

namespace Store

variable {s s' s'' : Store} {m t u : Nat}

/-- No ticket is with two managers. -/
def Unshared (s : Store) : Prop :=
  ∀ t i j, (s.manager i).knows t → (s.manager j).knows t → i = j

/-- No number is mentioned by two managers. -/
def Disjoint (s : Store) : Prop :=
  ∀ i < s.managers.size, ∀ j < i, ∀ t ∈ (s.manager i).mentions, t ∉ (s.manager j).mentions

instance (s : Store) : Decidable s.Disjoint :=
  inferInstanceAs (Decidable (∀ i < s.managers.size, ∀ j < i, ∀ t ∈ (s.manager i).mentions,
    t ∉ (s.manager j).mentions))

theorem Disjoint.unshared (h : s.Disjoint) : s.Unshared := by
  intro t i j hi hj
  have hi' := Manager.mem_mentions hi
  have hj' := Manager.mem_mentions hj
  rcases Nat.lt_trichotomy i j with hlt | he | hlt
  · exact absurd hi' (h j (made_of_knows hj) i hlt t hj')
  · exact he
  · exact absurd hj' (h i (made_of_knows hi) j hlt t hi')

/-- Every ticket that a manager has carries its session. -/
def Signed (s : Store) : Prop :=
  ∀ m t, (s.manager m).knows t → (s.ticket t).session = (s.manager m).session

/-- Manager `m` has taken tickets in and signed them. -/
structure Signs (m : Nat) (s s' : Store) : Prop where
  other : ∀ i, i ≠ m → s'.manager i = s.manager i
  session : (s'.manager m).session = (s.manager m).session
  stays : ∀ t, (s.manager m).knows t → (s'.manager m).knows t
  taken : ∀ t, (s'.manager m).knows t →
    (s.manager m).knows t ∨ (s'.ticket t).session = (s.manager m).session
  ticket : ∀ t, (s'.ticket t).session = (s.ticket t).session ∨
    (s'.ticket t).session = (s.manager m).session ∧ (s'.manager m).knows t

theorem Signs.refl (m : Nat) (s : Store) : Signs m s s :=
  ⟨fun _ _ => rfl, rfl, fun _ h => h, fun _ h => .inl h, fun _ => .inl rfl⟩

theorem Signs.trans (h : Signs m s s') (h' : Signs m s' s'') : Signs m s s'' where
  other i hi := (h'.other i hi).trans (h.other i hi)
  session := h'.session.trans h.session
  stays t ht := h'.stays t (h.stays t ht)
  taken t ht := by
    rcases h'.taken t ht with ht | hs
    · rcases h.taken t ht with ht | hs
      · exact .inl ht
      · rcases h'.ticket t with he | ⟨he, -⟩
        · exact .inr (he.trans hs)
        · exact .inr (he.trans h.session)
    · exact .inr (hs.trans h.session)
  ticket t := by
    rcases h'.ticket t with he | ⟨he, hk⟩
    · rcases h.ticket t with hs | ⟨hs, hk⟩
      · exact .inl (he.trans hs)
      · exact .inr ⟨he.trans hs, h'.stays t hk⟩
    · exact .inr ⟨he.trans h.session, hk⟩

theorem TakesIn.signs (h : TakesIn m t s s') (hs : (s'.ticket t).session = (s.manager m).session)
    (ho : ∀ u, u ≠ t → (s'.ticket u).session = (s.ticket u).session) : Signs m s s' := by
  obtain ⟨counts, -, hm⟩ := h.manager
  have hn : (s.manager m).queue.find? (s'.ticket t).id = none := (Manager.free_iff.mp h.free).2
  refine ⟨h.other, by rw [hm]; rfl, fun u hu => ?_, fun u hu => ?_, fun u => ?_⟩
  · rw [hm]
    exact Manager.knows_beside (g := s.manager m) hn hu
  · rw [hm] at hu
    rcases Manager.knows_of_insert (g := s.manager m) hu with hu | rfl
    · exact .inl hu
    · exact .inr hs
  · by_cases hu : u = t
    · subst hu
      refine .inr ⟨hs, ?_⟩
      rw [hm]
      exact Manager.knows_inserted (g := s.manager m)
    · exact .inl (ho u hu)

theorem signs_reclaim (made : t < s.tickets.size) : Signs m s (s.reclaim m t).1 := by
  rcases reclaim_cases s m made with ⟨he, -⟩ | ⟨⟨stale, hr⟩, hi, -⟩
  · rw [he]
    exact .refl m s
  refine hi.signs ?_ fun u hu => session_reclaim hu
  rcases reclaim_eq s m t with ⟨-, hn⟩ | ⟨-, w, next, rfl, rfl, he⟩
  · exact absurd hr (hn stale)
  obtain ⟨stamp, hs⟩ := ticket_stampTicket (s.onTicket t ({ · with session := _ })) t t
  rw [he]
  refine (congrArg Ticket.session hs).trans ?_
  rw [ticket_onTicket, if_pos rfl]

theorem signs_recover {ts : List (Option Nat)}
    (hc : (Call.manager m (.recover ts)).inScope s = true) :
    Signs m s (s.manage m (.recover ts)) := by
  simp only [Call.inScope, Bool.and_eq_true] at hc
  exact recover_induction (P := Signs m s) (fun r t hr _ ht => hr.trans (signs_reclaim ht))
    (.refl m s) (List.all_eq_true.mp hc.2)

theorem signs_enlist {j : Nat} (h : s.enlist m j = some s') : Signs m s s' := by
  have session (u : Nat) : (s'.ticket u).session =
      if u = s.tickets.size then (s.manager m).session else (s.ticket u).session := by
    simp only [enlist] at h
    split at h
    · cases h
    split at h
    · cases h
    rename_i next queue hp
    obtain ⟨-, rfl, rfl⟩ := push_eq_some.mp hp
    obtain rfl := Option.some.inj h
    obtain ⟨stamp, hs⟩ := ticket_stampTicket (s.wrap {
      job := j, priority := (s.job j).priority, group := (s.job j).group, created := s.time m
      notBefore := deadline (s.time m) (s.job j).delay, session := (s.manager m).session })
      s.tickets.size u
    refine (congrArg Ticket.session hs).trans ?_
    rw [ticket_wrap]
    split <;> rfl
  refine (enlist_takesIn h).1.signs ?_ fun u hu => ?_
  · rw [session, if_pos rfl]
  · rw [session, if_neg hu]

/-- The ticket that carries on a work is signed by the manager. -/
theorem session_settle (made : t < s.tickets.size) (o : Outcome)
    (hz : s.tickets.size < (s.settle m t o).1.tickets.size) :
    ((s.settle m t o).1.ticket s.tickets.size).session = (s.manager m).session := by
  obtain ⟨w, hw⟩ : ∃ w, w = s.onManager m (·.release (s.ticket t)) := ⟨_, rfl⟩
  have ht : w.tickets = s.tickets := by rw [hw]; rfl
  have hm : (w.manager m).session = (s.manager m).session := by
    rw [hw, manager_onManager, if_pos rfl]
    rfl
  rw [← ht] at hz ⊢
  rw [← hm]
  revert hz
  apply settle_induction (P := fun r => w.tickets.size < r.1.tickets.size →
    (r.1.ticket w.tickets.size).session = (w.manager m).session) hw
  · intro hz
    have : (w.onTicket t ({ · with successful := true })).tickets.size = w.tickets.size :=
      size_onTicket (ht ▸ made)
    exact absurd (this ▸ hz :) (Nat.lt_irrefl _)
  · exact fun status tell _ hz => absurd hz (Nat.lt_irrefl _)
  intro hz
  have hnew : ((w.wrap (w.renewal m t)).ticket w.tickets.size).session =
      (w.manager m).session := by
    rw [ticket_wrap, if_pos rfl]
    rfl
  have later {v : Store} (hv : Reaches { holds := fun _ => True } (w.wrap (w.renewal m t)) v) :
      (v.ticket w.tickets.size).session = (w.manager m).session := by
    exact ((hv.ages.ticket _ (lt_size_wrap ..)).session.resolve_right id).trans hnew
  rcases retry_eq w m t with ⟨f, h⟩ | ⟨-, h | ⟨next, rfl, -, h⟩⟩
  · rw [h] at hz
    exact absurd hz (Nat.lt_irrefl _)
  · rw [h]
    exact later (reaches_onManager ..)
  · rw [h]
    exact later ((reaches_stampTicket ..).trans ((reaches_onManager ..).trans
      (reaches_spread _ fun _ _ _ _ _ _ _ _ => trivial)))

/-- What a manager comes to know by settling is the ticket that carries on, which it signs. -/
theorem taken_settle (made : t < s.tickets.size) {i u : Nat} (o : Outcome)
    (hu : ((s.settle i t o).1.manager m).knows u) :
    (s.manager m).knows u ∨ ((s.settle i t o).1.ticket u).session = (s.manager m).session := by
  rcases settle_spec (m := i) made o with ⟨_, _, -, -, he⟩ | ⟨-, -, hr⟩ | ⟨-, -, -, -, hl⟩
  · exact .inl ((he.gains m u hu).resolve_right not_false)
  · refine (hr.gains m u hu).imp_right ?_
    rintro ⟨rfl, rfl⟩
    exact session_settle made o hr.made
  · exact .inl ((hl.gains m u hu).resolve_right not_false)

/-- What a manager comes to know by its own operation is signed by it. -/
theorem taken_manage {c : ManagerCall} (hc : (Call.manager m c).inScope s = true)
    (ht : ((s.manage m c).manager m).knows t) :
    (s.manager m).knows t ∨ ((s.manage m c).ticket t).session = (s.manager m).session := by
  have same {f : Manager → Manager} (h : ((s.onManager m f).manager m).knows t)
      (hf : (f (s.manager m)).knows t → (s.manager m).knows t) : (s.manager m).knows t := by
    rw [manager_onManager, if_pos rfl] at h
    exact hf h
  cases c with
  | add j =>
    cases j with
    | none => exact .inl ht
    | some j =>
      change (((s.enlist m j).getD s).manager m).knows t at ht
      change _ ∨ (((s.enlist m j).getD s).ticket t).session = _
      cases he : s.enlist m j with
      | none =>
        rw [he] at ht
        exact .inl ht
      | some s' =>
        rw [he] at ht
        exact (signs_enlist he).taken t ht
  | runNext => exact .inl ht
  | runUntilIdle => exact .inl ht
  | cancel id =>
    change ((((s.withdraw m id).map Prod.fst).getD s).manager m).knows t at ht
    cases hw : s.withdraw m id with
    | none =>
      rw [hw] at ht
      exact .inl ht
    | some p =>
      rw [hw] at ht
      exact .inl ((withdraw_gains hw m t ht).resolve_right not_false)
  | recover ts => exact (signs_recover hc).taken t ht
  | network up => exact .inl (same ht id)
  | stop =>
    change ((if (s.manager m).accepting then s.onManager m (·.stop) else s).manager m).knows t at ht
    split at ht
    · exact .inl (same ht id)
    · exact .inl ht

/-- What becomes of ticket `t` if it is offered to manager `m` after others. -/
def offer (s : Store) (m : Nat) (ts : List (Option Nat)) (t : Nat) : Recovery :=
  ((s.manage m (.recover ts)).reclaim m t).2

end Store

namespace World

variable {w w' : World} {a m t : Nat} {mv : Move} {moves : List Move}

/-- The move gives the ticket another session from outside. -/
def reassigns (t : Nat) (mv : Move) : Prop := ∃ id, mv = .call (.editTicket t (.session id))

/-- After the move no ticket is with two managers, and it gives no other session to a ticket that
a manager has. -/
def separate (w : World) (mv : Move) : Prop :=
  (w.step mv).Unshared ∧ ∀ t, reassigns t mv → ∀ m, ¬(w.manager m).knows t

/-- What a manager comes to know by a move is signed by it. -/
theorem taken_effect (h : w.Manned) (ht : ((w.effect mv).manager m).knows t) :
    (w.manager m).knows t ∨ ((w.effect mv).ticket t).session = (w.manager m).session := by
  cases mv with
  | call c =>
    rcases effect_call w c with ⟨hc, he⟩ | he <;> rw [he] at ht ⊢
    · rcases Store.manager_call w.toStore c m with hm | ⟨d, rfl⟩ | ⟨config, rfl, hi⟩
      · rw [hm] at ht
        exact .inl ht
      · exact Store.taken_manage hc ht
      · rw [Store.manager_make w.toStore config hi] at ht
        exact .inl ((Manager.knows_congr rfl rfl rfl).mp ht)
    · exact .inl ht
  | reply a r =>
    have hr := replied w a r
    generalize (w.effect (.reply a r)).toStore = s at hr ht ⊢
    cases hr with
    | planned jobs hj => exact .inl ht
    | settled jobs hj i u o hw =>
      exact Store.taken_settle (s := { w.toStore with jobs }) (h.founded.works a i u hw) o ht
  | clock now => exact .inl ht
  | elapse nanos => exact .inl ht

/-- A manager that has tickets after a move had the same session before. -/
theorem session_manager_effect (h : w.Manned) (ht : ((w.effect mv).manager m).knows t) :
    ((w.effect mv).manager m).session = (w.manager m).session := by
  rcases crew_effect h mv with hc | ⟨c, rfl, hs⟩
  · exact hc.session m
  · by_cases hm : m = w.managers.size
    · rw [hs, Store.manager_establish w.toStore c hm] at ht
      exact absurd ((Manager.knows_congr rfl rfl rfl).mp ht) Manager.knows_default
    · rw [hs, Store.manager_establish_of_ne _ _ hm]

/-- The effect of a move signs a ticket only if it recovers it. -/
theorem session_effect (ht : t < w.tickets.size) (hr : ¬reassigns t mv) :
    ((w.effect mv).ticket t).session = (w.ticket t).session ∨
      ∃ m ts, mv = .call (.manager m (.recover ts)) ∧
        (Call.manager m (.recover ts)).inScope w.toStore = true ∧
        ((w.effect mv).ticket t).session = (w.manager m).session ∧
        ((w.effect mv).manager m).knows t := by
  rcases ((ages_effect w mv).ticket t ht).session with hs | hs
  · exact .inl hs
  cases mv with
  | call c =>
    cases c with
    | editTicket u e =>
      obtain ⟨id, rfl, rfl⟩ := hs
      exact absurd ⟨id, rfl⟩ hr
    | manager m d =>
      obtain ⟨ts, rfl, -⟩ := hs
      rcases effect_call w (.manager m (.recover ts)) with ⟨hc, he⟩ | he
      · rw [he]
        refine ((Store.signs_recover hc).ticket t).imp_right fun hs => ?_
        exact ⟨m, ts, rfl, hc, hs⟩
      · rw [he]
        exact .inl rfl
    | _ => exact hs.elim
  | _ => exact hs.elim

/-- A call that recovers tickets ends with its effect on managers and tickets. -/
theorem step_recover {ts : List (Option Nat)}
    (hc : (Call.manager m (.recover ts)).inScope w.toStore = true) :
    ∃ ls, (w.step (.call (.manager m (.recover ts)))).toStore =
      (w.effect (.call (.manager m (.recover ts)))).toStore.logging ls := by
  obtain ⟨ls, es, hs, -⟩ := idle_recover { w with calls := w.calls + 1 } w.calls m ts
  rw [toStore_manage hc]
  have hstep : w.step (.call (.manager m (.recover ts))) =
      World.callManager { w with calls := w.calls + 1 } w.calls m (.recover ts) := if_pos hc
  exact ⟨ls, hstep ▸ hs⟩

theorem signed_effect (h : w.Manned) (hs : w.Signed) (ha : w.separate mv) :
    (w.effect mv).Signed := by
  intro m t ht
  have hm := session_manager_effect h ht
  rcases taken_effect h ht with hk | he
  · have hr : ¬reassigns t mv := fun hr => ha.2 t hr m hk
    rcases session_effect (h.founded.store.known m t hk) hr with he | ⟨i, ts, rfl, hc, he, hi⟩
    · rw [he, hm]
      exact hs m t hk
    · -- manager `i` has just taken the ticket in, so that no other has it
      obtain ⟨ls, hstep⟩ := step_recover hc
      have hu : (w.effect (.call (.manager i (.recover ts)))).Unshared := by
        have := ha.1
        rwa [hstep] at this
      obtain rfl := hu t i m hi ht
      rw [he, hm]
  · rw [he, hm]

/-- What follows a move signs nothing that is not signed so already. -/
theorem session_sequel (hs : Sequel a w w') (h : w.Signed) (t : Nat) :
    (w'.ticket t).session = (w.ticket t).session := by
  cases hs with
  | wrote ls es he => rfl
  | told j u next ha hu hn =>
    refine (congrArg Ticket.session (Store.ticket_onTicket ..)).trans ?_
    split
    · rename_i hut
      rw [hut]
    · rfl
  | welcomed j u ha => rfl
  | departed m u s tally ha hc =>
    have hb := Store.claim_begins hc
    rw [toStore_depart]
    by_cases hu : t = u
    · subst hu
      rw [hb.ticket]
      exact (h m t (.inl hb.queued)).symm
    · rw [hb.others t hu]

theorem signed_sequel (hs : Sequel a w w') (h : w.Signed) : w'.Signed := by
  intro m t ht
  rw [session_sequel hs h, (crew_sequel hs).session]
  exact h m t (knows_sequel hs ht)

theorem signed_sequels (hs : Sequels a w w') (h : w.Signed) :
    w'.Signed ∧ ∀ t, (w'.ticket t).session = (w.ticket t).session := by
  induction hs with
  | refl => exact ⟨h, fun _ => rfl⟩
  | tail _ hs ih =>
    exact ⟨signed_sequel hs ih.1, fun t => (session_sequel hs ih.1 t).trans (ih.2 t)⟩

/-- A step signs a ticket only for a manager that has it then. -/
theorem session_step (h : w.Manned) (hs : w.Signed) (ha : w.separate mv) (ht : t < w.tickets.size)
    (hr : ¬reassigns t mv) :
    ((w.step mv).ticket t).session = (w.ticket t).session ∨
      ∃ m, ((w.step mv).manager m).knows t := by
  rcases session_effect ht hr with he | ⟨m, ts, rfl, hc, -, hk⟩
  · exact .inl (((signed_sequels (step_sequels h.founded mv) (signed_effect h hs ha)).2 t).trans he)
  · obtain ⟨ls, hstep⟩ := step_recover hc
    refine .inr ⟨m, ?_⟩
    rwa [hstep]

/-- Sessions grow with the managers, and managers have signed what they have. -/
structure Orderly (w : World) : Prop where
  manned : w.Manned
  signed : w.Signed

theorem Orderly.start (now : Int) : (start now).Orderly :=
  ⟨.start now, fun _ _ h => (Manager.knows_default h).elim⟩

theorem Orderly.step (h : w.Orderly) (ha : w.separate mv) : (w.step mv).Orderly where
  manned := h.manned.step mv
  signed :=
    (signed_sequels (step_sequels h.manned.founded mv) (signed_effect h.manned h.signed ha)).1

theorem ReachableBy.orderly (h : ReachableBy separate w) : w.Orderly :=
  h.induction Orderly.start fun _ _ h ha => h.step ha

/-- The move is in order, and no manager but `m` has ticket `t` after it. -/
def leavesTo (m t : Nat) (w : World) (mv : Move) : Prop :=
  w.separate mv ∧ ¬reassigns t mv ∧ ∀ i, ((w.step mv).manager i).knows t → i = m

/-- Ticket `t` carries the session of manager `m`. -/
structure SignedBy (m t : Nat) (w : World) : Prop extends w.Orderly where
  hired : m < w.managers.size
  made : t < w.tickets.size
  session : (w.ticket t).session = (w.manager m).session

namespace SignedBy

theorem of_knows (h : w.Orderly) (ht : (w.manager m).knows t) : w.SignedBy m t where
  toOrderly := h
  hired := Store.made_of_knows ht
  made := h.manned.founded.store.known m t ht
  session := h.signed m t ht

/-- A manager that signed a ticket last has still signed it last, unless another takes it in. -/
theorem step (h : w.SignedBy m t) (hl : w.leavesTo m t mv) : (w.step mv).SignedBy m t where
  toOrderly := h.toOrderly.step hl.1
  hired := Nat.lt_of_lt_of_le h.hired (crew_step h.manned mv).1
  made := Nat.lt_of_lt_of_le h.made (ages_step h.manned.founded mv).size
  session := by
    rcases session_step h.manned h.signed hl.1 h.made hl.2.1 with hs | ⟨i, hi⟩
    · rw [hs, (crew_step h.manned mv).2 m h.hired]
      exact h.session
    · obtain rfl := hl.2.2 i hi
      exact (h.toOrderly.step hl.1).signed i t hi

theorem run (h : w.SignedBy m t) (hl : w.Along (leavesTo m t) moves) :
    (w.run moves).SignedBy m t :=
  hl.run (fun _ _ h hl => h.step hl) h

/-- The manager itself leaves the ticket as it is when it is offered, whatever it was offered
before. -/
theorem offer_own (h : w.SignedBy m t) {ts : List (Option Nat)}
    (hc : (Call.manager m (.recover ts)).inScope w.toStore = true) :
    w.offer m ts t = .ignored := by
  have hr := Store.signs_recover hc
  have hs : ((w.manage m (.recover ts)).ticket t).session =
      ((w.manage m (.recover ts)).manager m).session := by
    rcases hr.ticket t with he | ⟨he, -⟩
    · rw [he, hr.session]
      exact h.session
    · rw [he, hr.session]
  rw [Store.offer, Store.reclaim_own hs]

theorem foreign {i : Nat} (h : w.SignedBy m t) (hi : i ≠ m) (hz : i < w.managers.size) :
    (w.ticket t).session ≠ (w.manager i).session := by
  rw [h.session]
  rcases Nat.lt_or_gt_of_ne hi with hlt | hlt
  · exact Int.ne_of_gt (h.manned.ascending i m hlt h.hired)
  · exact Int.ne_of_lt (h.manned.ascending m i hlt hz)

/-- Another manager takes the ticket for an abandoned one. -/
theorem offer_other {i : Nat} (h : w.SignedBy m t) (hi : i ≠ m) {ts : List (Option Nat)}
    (hc : (Call.manager i (.recover ts)).inScope w.toStore = true) (ht : some t ∉ ts)
    (hl : (w.ticket t).cancelled = false) :
    w.offer i ts t =
      if ((w.manage i (.recover ts)).manager i).accepting &&
          ((w.manage i (.recover ts)).manager i).free ((w.manage i (.recover ts)).ticket t).id then
        .requeued (w.manager m).session
      else .refused := by
  have hscope := hc
  simp only [Call.inScope, Bool.and_eq_true, decide_eq_true_eq] at hscope
  have hages := (Store.reaches_recover (r := { signs := (some · ∈ ts) }) w.toStore i
    fun _ h => h).ages
  have hsession : ((w.manage i (.recover ts)).ticket t).session = (w.manager m).session :=
    ((hages.ticket t h.made).session.resolve_right ht).trans h.session
  have hcrew := Store.sameCrew_recover hscope.1 ts
  have hne := h.foreign hi hscope.1
  rw [Store.offer, Store.reclaim_stale ?_ ?_ (hcrew.opened i (h.manned.opened i)), hsession]
  · rwa [Ticket.cancelled_of_lasting ((Store.keeps_recover w.toStore i ts).lasting h.made)]
  · rwa [hsession, hcrew.session, ← h.session]

end SignedBy

/-- Sessions tell whose a ticket is. They are positive and grow in the order that managers are made,
whatever clocks show. As long as no ticket is with two managers and clients sign nothing that a
manager has, every ticket that a manager has queued or runs carries its session, and keeps it until
another manager takes it in. Offered to the manager itself, the ticket is left alone; any other
manager takes it for one that the session left behind. -/
theorem sessions_identify_owners :
    (w.Reachable → (∀ m < w.managers.size, 1 ≤ (w.manager m).session) ∧
      ∀ i j, i < j → j < w.managers.size → (w.manager i).session < (w.manager j).session) ∧
    (ReachableBy separate w → ∀ m t, (w.manager m).knows t →
      (w.ticket t).session = (w.manager m).session ∧
      ∀ moves, w.Along (leavesTo m t) moves → let v := w.run moves
        (v.ticket t).session = (v.manager m).session ∧
        ∀ i ts, (Call.manager i (.recover ts)).inScope v.toStore = true →
          (i = m → v.offer i ts t = .ignored) ∧
          (i ≠ m → (v.ticket t).session ≠ (v.manager i).session ∧
            (some t ∉ ts → (v.ticket t).cancelled = false → v.offer i ts t =
              if ((v.manage i (.recover ts)).manager i).accepting &&
                  ((v.manage i (.recover ts)).manager i).free
                    ((v.manage i (.recover ts)).ticket t).id then
                .requeued (v.manager m).session
              else .refused))) := by
  refine ⟨fun h => ⟨fun m hm => (h.manned.within m hm).1, h.manned.ascending⟩, fun h m t ht => ?_⟩
  have hs := SignedBy.of_knows h.orderly ht
  refine ⟨hs.session, fun moves hl => ?_⟩
  have hv := hs.run hl
  refine ⟨hv.session, fun i ts hc => ⟨?_, fun hi => ⟨?_, fun hts hlive =>
    hv.offer_other hi hc hts hlive⟩⟩⟩
  · rintro rfl
    exact hv.offer_own hc
  · exact hv.foreign hi (of_decide_eq_true (Bool.and_eq_true_iff.mp hc).1)

/-- The second manager is made after the clock went back. The first one has a ticket. -/
def succession : List Move :=
  [.call (.makeManager { clock := .given }), .clock (-5), .call (.makeManager { clock := .given }),
    .call (.makeJob { id := "a" }), .call (.manager 0 (.add (some 0))), .reply 3 .done]

/-- It runs the ticket to its end, but does not take it back. The other manager takes it. -/
theorem sessions_identify_owners_succession :
    let w := (start 5).run succession
    let v := w.run [.call (.manager 0 .runNext), .reply 4 .succeeded]
    ((w.manager 0).session = 5 ∧ (w.manager 0).session < (w.manager 1).session) ∧
      (w.manager 0).knows 0 ∧ ¬(v.manager 0).knows 0 ∧ v.offer 0 [] 0 = .ignored ∧
      v.offer 1 [] 0 = .requeued 5 := by
  intro w v
  have inOrder {w : World} {mv : Move} (hu : (w.step mv).Disjoint)
      (hn : ∀ t id, mv ≠ .call (.editTicket t (.session id))) : w.separate mv :=
    ⟨hu.unshared, fun t ⟨id, h⟩ => (hn t id h).elim⟩
  have hw : (start 5).Along separate succession := by
    refine ⟨inOrder ?_ ?_, inOrder ?_ ?_, inOrder ?_ ?_, inOrder ?_ ?_, inOrder ?_ ?_,
      inOrder ?_ ?_, trivial⟩
    all_goals first | decide +kernel | exact nofun
  have hk : (w.manager 0).knows 0 := .inl (by decide +kernel)
  have alone {v : World} (h : ∀ i < v.managers.size, 0 ∈ (v.manager i).mentions → i = 0) (i : Nat)
      (hi : (v.manager i).knows 0) : i = 0 :=
    h i (Store.made_of_knows hi) (Manager.mem_mentions hi)
  have hv : w.Along (leavesTo 0 0) [.call (.manager 0 .runNext), .reply 4 .succeeded] := by
    refine ⟨⟨inOrder ?_ ?_, ?_, alone ?_⟩, ⟨inOrder ?_ ?_, ?_, alone ?_⟩, trivial⟩
    all_goals first | decide +kernel | exact nofun
  obtain ⟨ordered, signed⟩ := sessions_identify_owners (w := w)
  have ho := (signed ⟨5, succession, hw, rfl⟩ 0 0 hk).2 _ hv
  have hs : (v.manager 0).session = 5 := by decide +kernel
  refine ⟨⟨by decide +kernel, (ordered ⟨5, succession, rfl⟩).2 0 1 (by decide) (by decide +kernel)⟩,
    hk, fun h => ?_, (ho.2 0 [] (by decide +kernel)).1 rfl, ?_⟩
  · exact absurd (Manager.mem_mentions h) (by decide +kernel)
  · rw [((ho.2 1 [] (by decide +kernel)).2 (by decide)).2 (by decide) (by decide +kernel), ← hs,
      if_pos (by decide +kernel)]

end World

end Backlog
