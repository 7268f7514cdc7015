import Backlog.Proofs.HandOuts
import Mathlib.Data.List.Nodup

/-!
# Stamps in order of arrival

One counter gives all stamps. A ticket gets its stamp when a queue accepts it, if it has none, and
keeps it. So the stamps that queues and managers give are one, two, three and so on, in the order in
which the tickets have come, and a ticket that is refused uses up none.
-/

namespace Backlog

namespace Store

variable {s s' s'' : Store} {m t u : Nat} {ts us : List Nat} {P : Nat → Prop}

/-- The ticket has got its stamp in between. -/
def newly (s s' : Store) (t : Nat) : Bool :=
  (s.ticket t).stamp.isNone && (s'.ticket t).stamp.isSome

/-- These tickets have got the next stamps, one after the other, and no others have. -/
structure Stamps (ts : List Nat) (s s' : Store) : Prop where
  next : s'.nextStamp = s.nextStamp + ts.length
  given : ts.map (fun t => (s'.ticket t).stamp) = (List.range' s.nextStamp ts.length).map some
  fresh : ∀ t ∈ ts, (s.ticket t).stamp = none
  kept : ∀ t, t ∉ ts → (s'.ticket t).stamp = (s.ticket t).stamp

namespace Stamps

theorem still (hn : s'.nextStamp = s.nextStamp)
    (ht : ∀ t, (s'.ticket t).stamp = (s.ticket t).stamp) : Stamps [] s s' :=
  ⟨hn, rfl, nofun, fun t _ => ht t⟩

theorem of_eq (hn : s'.nextStamp = s.nextStamp) (ht : s'.tickets = s.tickets) : Stamps [] s s' :=
  still hn fun t => by rw [ticket, ticket, ht]

theorem refl (s : Store) : Stamps [] s s := of_eq rfl rfl

/-- A ticket of the list has its stamp afterwards. -/
theorem stamp (h : Stamps ts s s') (ht : t ∈ ts) :
    ∃ n, (s'.ticket t).stamp = some n ∧ s.nextStamp ≤ n ∧ n < s'.nextStamp := by
  have hm : (s'.ticket t).stamp ∈ (List.range' s.nextStamp ts.length).map some :=
    h.given ▸ List.mem_map_of_mem ht
  obtain ⟨n, hn, he⟩ := List.mem_map.mp hm
  have hr := List.mem_range'_1.mp hn
  exact ⟨n, he.symm, hr.1, by rw [h.next]; exact hr.2⟩

theorem mem_iff (h : Stamps ts s s') : t ∈ ts ↔ s.newly s' t = true := by
  rw [newly, Bool.and_eq_true, Option.isNone_iff_eq_none]
  refine ⟨fun ht => ?_, fun ⟨hn, hs⟩ => ?_⟩
  · obtain ⟨n, hn, -⟩ := h.stamp ht
    exact ⟨h.fresh t ht, by rw [hn]; rfl⟩
  · by_contra ht
    rw [h.kept t ht, hn] at hs
    cases hs

theorem trans (h : Stamps ts s s') (h' : Stamps us s' s'') : Stamps (ts ++ us) s s'' := by
  have first (t : Nat) (ht : t ∈ ts) : t ∉ us := by
    intro hu
    obtain ⟨n, hn, -⟩ := h.stamp ht
    rw [h'.fresh t hu] at hn
    cases hn
  refine ⟨?_, ?_, fun t ht => ?_, fun t ht => ?_⟩
  · rw [h'.next, h.next, List.length_append, Nat.add_assoc]
  · have hts : ts.map (fun t => (s''.ticket t).stamp) = ts.map fun t => (s'.ticket t).stamp :=
      List.map_congr_left fun t ht => h'.kept t (first t ht)
    rw [List.map_append, hts, h.given, h'.given, h.next, List.length_append, ← List.map_append,
      List.range'_append_1]
  · rcases List.mem_append.mp ht with ht | ht
    · exact h.fresh t ht
    · have hn : t ∉ ts := fun h' => first t h' ht
      rw [← h.kept t hn]
      exact h'.fresh t ht
  · rw [List.mem_append, not_or] at ht
    rw [h'.kept t ht.2, h.kept t ht.1]

theorem comp (h : Stamps [] s s') (h' : Stamps ts s' s'') : Stamps ts s s'' := h.trans h'

theorem append (h : Stamps ts s s') (h' : Stamps [] s' s'') : Stamps ts s s'' := by
  have := h.trans h'
  rwa [List.append_nil] at this

end Stamps

theorem stamps_onJob (s : Store) (j : Nat) (f : Job → Job) : Stamps [] s (s.onJob j f) :=
  .of_eq rfl rfl

theorem stamps_onManager (s : Store) (m : Nat) (f : Manager → Manager) :
    Stamps [] s (s.onManager m f) := .of_eq rfl rfl

theorem stamps_onTicket (s : Store) (t : Nat) {f : Ticket → Ticket}
    (hf : (f (s.ticket t)).stamp = (s.ticket t).stamp) : Stamps [] s (s.onTicket t f) :=
  .still rfl fun u => by
    rw [ticket_onTicket]
    split
    · rename_i hu
      rw [hu, hf]
    · rfl

/-- A ticket in the making that has no stamp. -/
theorem stamps_wrap (s : Store) {k : Ticket} (hk : k.stamp = none) : Stamps [] s (s.wrap k) :=
  .still rfl fun t => by
    rw [ticket_wrap]
    split
    · rename_i ht
      rw [ht, show s.ticket s.tickets.size = default from Registry.get_of_size_le (Nat.le_refl _)]
      exact hk
    · rfl

theorem stamps_stampTicket (s : Store) (t : Nat) :
    Stamps (if (s.ticket t).stamp = none then [t] else []) s (s.stampTicket t) := by
  cases hs : (s.ticket t).stamp with
  | some n =>
    have he : s.stampTicket t = s := by rw [stampTicket, hs]
    rw [he, if_neg (Option.some_ne_none n)]
    exact .refl s
  | none =>
    have he : s.stampTicket t = { s.onTicket t ({ · with stamp := some s.nextStamp }) with
      nextStamp := s.nextStamp + 1 } := by rw [stampTicket, hs]
    have ht (u : Nat) : ((s.stampTicket t).ticket u).stamp =
        if u = t then some s.nextStamp else (s.ticket u).stamp := by
      rw [he]
      change ((s.onTicket t _).ticket u).stamp = _
      rw [ticket_onTicket]
      split <;> rfl
    rw [if_pos rfl]
    refine ⟨by rw [he]; rfl, ?_, fun u hu => ?_, fun u hu => ?_⟩
    · rw [List.map_singleton, ht, if_pos rfl]
      rfl
    · rw [List.mem_singleton.mp hu, hs]
    · rw [ht, if_neg fun h => hu (List.mem_singleton.mpr h)]

/-- One ticket at most has got a stamp, and `P` holds of it. -/
def Stamped (P : Nat → Prop) (s s' : Store) : Prop :=
  ∃ ts : List Nat, ts.length ≤ 1 ∧ (∀ t ∈ ts, P t) ∧ Stamps ts s s'

theorem Stamps.none (h : Stamps [] s s') : Stamped P s s' := ⟨[], Nat.zero_le 1, nofun, h⟩

theorem Stamps.one (h : Stamps [t] s s') (ht : P t) : Stamped P s s' :=
  ⟨[t], Nat.le_refl 1, fun _ hu => List.mem_singleton.mp hu ▸ ht, h⟩

namespace Stamped

theorem of_eq (hn : s'.nextStamp = s.nextStamp) (ht : s'.tickets = s.tickets) : Stamped P s s' :=
  (Stamps.of_eq hn ht).none

theorem append (h : Stamped P s s') (h' : Stamps [] s' s'') : Stamped P s s'' :=
  h.imp fun _ h => ⟨h.1, h.2.1, h.2.2.append h'⟩

theorem comp (h : Stamps [] s s') (h' : Stamped P s' s'') : Stamped P s s'' :=
  h'.imp fun _ h' => ⟨h'.1, h'.2.1, h.comp h'.2.2⟩

theorem mono (h : Stamped P s s') {Q : Nat → Prop} (hq : ∀ t, P t → Q t) : Stamped Q s s' :=
  h.imp fun _ h => ⟨h.1, fun t ht => hq t (h.2.1 t ht), h.2.2⟩

end Stamped

theorem stamped_one (s : Store) (ht : P t) : Stamped P s (s.stampTicket t) := by
  have h := stamps_stampTicket s t
  split at h
  · exact h.one ht
  · exact h.none

theorem stamps_delayGroup (s : Store) (q : Queue) (group : String) (d : Option Int) :
    Stamps [] s { s with tickets := q.delayGroup s.tickets group d } := by
  simp only [Queue.delayGroup]
  generalize q.order = order
  induction order generalizing s with
  | nil => exact .refl s
  | cons t order ih =>
    refine (stamps_onTicket s t (f := Queue.delayMember group d) ?_).comp (ih (s.onTicket t _))
    simp only [Queue.delayMember]
    split <;> rfl

theorem stamps_spread (s : Store) (m t : Nat) (plan : Option RetryPlan) :
    Stamps [] s (s.spread m t plan) := by
  simp only [spread]
  split
  · split
    · exact stamps_delayGroup ..
    · exact .refl s
  · exact .refl s

/-- The queue of manager `m` has accepted the ticket. -/
def Enrolls (m t : Nat) (s s' : Store) : Prop :=
  ∃ id, (s.manager m).queue.find? id = none ∧ (s'.manager m).queue.find? id = some t

theorem TakesIn.enrolls (h : TakesIn m t s s') : Enrolls m t s s' :=
  ⟨_, (Manager.free_iff.mp h.free).2, h.enters.entry⟩

/-- The store with the new ticket of a retry, which has its stamp. -/
def renewed (s : Store) (m t : Nat) : Store :=
  (s.wrap (s.renewal m t)).stampTicket s.tickets.size

theorem stamps_renewed (s : Store) (m t : Nat) : Stamps [s.tickets.size] s (s.renewed m t) := by
  have h := stamps_stampTicket (s.wrap (s.renewal m t)) s.tickets.size
  rw [if_pos (by rw [ticket_wrap, if_pos rfl]; rfl)] at h
  exact (stamps_wrap s rfl).comp h

theorem stamped_retry (s : Store) (m t : Nat) :
    Stamped (Enrolls m · s (s.retry m t).1) s (s.retry m t).1 := by
  rcases retry_eq s m t with ⟨f, h⟩ | ⟨-, h | ⟨next, hn, ha, h⟩⟩ <;> rw [h]
  · exact .of_eq rfl rfl
  · exact ((stamps_wrap s rfl).append (stamps_onManager ..)).none
  · obtain rfl : next = s.renewed m t := hn
    refine (((stamps_renewed s m t).append (stamps_onManager ..)).append (stamps_spread ..)).one ?_
    obtain ⟨stamp, hst⟩ := ticket_stampTicket (s.wrap (s.renewal m t)) s.tickets.size s.tickets.size
    refine ⟨((s.renewed m t).ticket s.tickets.size).id, ?_, ?_⟩
    · rw [renewed, hst]
      refine Option.eq_none_iff_forall_ne_some.mpr fun v hv => ?_
      rw [Queue.accepts, (Table.contains_iff ..).mpr ⟨v, hv⟩, Bool.and_comm] at ha
      cases ha
    · rw [manager_spread, manager_onManager, if_pos rfl]
      exact Table.find?_insert_same ..

theorem stamped_settle (s : Store) (m t : Nat) (o : Outcome) :
    Stamped (Enrolls m · s (s.settle m t o).1) s (s.settle m t o).1 := by
  obtain ⟨w, hw⟩ : ∃ w, w = s.onManager m (·.release (s.ticket t)) := ⟨_, rfl⟩
  have hs : Stamps [] s w := hw ▸ stamps_onManager ..
  apply settle_induction (P := fun r => Stamped (Enrolls m · s r.1) s r.1) hw
  · have ht := stamps_onTicket w t (f := ({ · with successful := true })) rfl
    exact ((hs.comp ht).append (stamps_onManager ..)).none
  · intro status tell _
    exact (hs.append (stamps_onManager ..)).none
  · have hq : (w.manager m).queue = (s.manager m).queue := by
      rw [hw, manager_onManager, if_pos rfl]
      rfl
    refine ((stamped_retry w m t).comp hs).mono fun u ⟨id, hn, hu⟩ => ⟨id, ?_, hu⟩
    rwa [← hq]

theorem stamps_cancelTicket (s : Store) (t : Nat) : Stamps [] s (s.cancelTicket t) :=
  (stamps_onTicket s t (f := ({ · with cancelled := true })) rfl).append (stamps_onJob ..)

theorem stamps_enlist {j : Nat} (h : s.enlist m j = some s') : Stamps [s.tickets.size] s s' := by
  obtain ⟨-, k, next, ⟨-, -, -, -, hk, -⟩, rfl, rfl⟩ := enlist_eq_some h
  have hs := stamps_stampTicket (s.wrap k) s.tickets.size
  rw [if_pos (by rw [ticket_wrap, if_pos rfl]; exact hk)] at hs
  exact ((stamps_wrap s hk).comp hs).append ((stamps_onJob ..).append (stamps_onManager ..))

theorem stamps_reclaim (s : Store) (m t : Nat) :
    Stamps (if s.newly (s.reclaim m t).1 t then [t] else []) s (s.reclaim m t).1 := by
  rcases reclaim_eq s m t with ⟨h, -⟩ | ⟨-, w, next, hw, rfl, h⟩
  · rw [h, if_neg]
    · exact .refl s
    · simp [newly]
  obtain ⟨r, hr⟩ : ∃ r, r = (s.reclaim m t).1 := ⟨_, rfl⟩
  have hsw : Stamps [] s w := hw ▸ stamps_onTicket s t rfl
  have hs : Stamps (if (w.ticket t).stamp = none then [t] else []) s r := by
    rw [hr, h]
    refine (hsw.comp (stamps_stampTicket w t)).append ?_
    exact (stamps_onJob ..).append (stamps_onManager ..)
  have hn : s.newly r t = true ↔ (w.ticket t).stamp = none := by
    rw [← hs.mem_iff]
    split
    · rename_i hn
      exact iff_of_true List.mem_cons_self hn
    · rename_i hn
      exact iff_of_false List.not_mem_nil hn
  rw [← hr, if_congr hn rfl rfl]
  exact hs

/-- The tickets of the list that get a stamp as manager `m` goes through it for recovery. -/
def recovered (m : Nat) : Store → List (Option Nat) → List Nat
  | _, [] => []
  | s, none :: ts => recovered m s ts
  | s, some t :: ts =>
    (if s.newly (s.reclaim m t).1 t then [t] else []) ++ recovered m (s.reclaim m t).1 ts

/-- What is in the index stays there as a ticket is offered for recovery. -/
theorem find?_reclaim (ht : t < s.tickets.size) {id : String}
    (h : (s.manager m).queue.find? id = some u) :
    ((s.reclaim m t).1.manager m).queue.find? id = some u := by
  rcases reclaim_cases s m ht with ⟨he, -⟩ | ⟨-, hi, -⟩
  · rwa [he]
  · exact hi.enters.stayed u id h

/-- A ticket that gets its stamp as it is offered was queued. -/
theorem enrolls_reclaim (ht : t < s.tickets.size) (hn : s.newly (s.reclaim m t).1 t = true) :
    Enrolls m t s (s.reclaim m t).1 := by
  rcases reclaim_cases s m ht with ⟨he, -⟩ | ⟨-, hi, -⟩
  · rw [he, newly] at hn
    cases hs : (s.ticket t).stamp <;> simp [hs] at hn
  · exact hi.enrolls

theorem enrolls_recover {ts : List (Option Nat)}
    (hts : ∀ t ∈ ts, t.all (· < s.tickets.size) = true) (hu : u ∈ s.recovered m ts) :
    Enrolls m u s (s.manage m (.recover ts)) := by
  induction ts generalizing s with
  | nil => cases hu
  | cons t ts ih =>
    have hrest (t : Option Nat) (ht : t ∈ ts) : t.all (· < s.tickets.size) = true :=
      hts t (List.mem_cons_of_mem _ ht)
    cases t with
    | none => exact ih hrest hu
    | some t =>
      have hz : t < s.tickets.size := by simpa using hts _ List.mem_cons_self
      have hrest' := scope_reclaim s m t hrest
      rcases List.mem_append.mp hu with hu | hu
      · split at hu
        · rename_i hn
          obtain rfl := List.mem_singleton.mp hu
          obtain ⟨id, hnone, hentry⟩ := enrolls_reclaim hz hn
          exact ⟨id, hnone, recover_induction (s := (s.reclaim m u).1)
            (P := fun r => (r.manager m).queue.find? id = some u)
            (fun r t hr _ ht => find?_reclaim ht hr) hentry hrest'⟩
        · cases hu
      · obtain ⟨id, hnone, hentry⟩ := ih hrest' hu
        refine ⟨id, Option.eq_none_iff_forall_ne_some.mpr fun v hv => ?_, hentry⟩
        rw [find?_reclaim hz hv] at hnone
        cases hnone

theorem stamps_recover (s : Store) (m : Nat) (ts : List (Option Nat)) :
    Stamps (s.recovered m ts) s (s.manage m (.recover ts)) := by
  induction ts generalizing s with
  | nil => exact .refl s
  | cons t ts ih =>
    cases t with
    | none => exact ih s
    | some t => exact (stamps_reclaim s m t).trans (ih _)

/-- What a manager does at once, recovery apart, gives a stamp to one ticket at most. -/
theorem stamped_manage (s : Store) (m : Nat) {c : ManagerCall} (hc : ∀ ts, c ≠ .recover ts) :
    Stamped (Enrolls m · s (s.manage m c)) s (s.manage m c) := by
  cases c with
  | add j =>
    simp only [manage]
    cases he : j.bind (s.enlist m) with
    | none => exact .of_eq rfl rfl
    | some s' =>
      obtain ⟨j, -, he⟩ := Option.bind_eq_some_iff.mp he
      exact (stamps_enlist he).one (enlist_takesIn he).1.enrolls
  | cancel id =>
    simp only [manage]
    cases hw : s.withdraw m id with
    | none => exact .of_eq rfl rfl
    | some p =>
      obtain ⟨s', v⟩ := p
      rcases withdraw_cases hw with ⟨t, -, rfl, -⟩ | ⟨-, t, queue, -, rfl, -⟩
      · exact (stamps_cancelTicket s t).none
      · exact ((stamps_cancelTicket s t).append (stamps_onManager ..)).none
  | recover ts => exact absurd rfl (hc ts)
  | stop =>
    simp only [manage]
    split <;> exact .of_eq rfl rfl
  | _ => exact .of_eq rfl rfl

theorem stamps_after {r : Except Fault Store} (h : ∀ s', r = .ok s' → Stamps [] s s') :
    Stamps [] s (s.after r) := by
  cases r with
  | ok s' => exact h s' rfl
  | error f => exact .refl s

/-- The client gives no stamp: neither to a ticket that it builds, nor to one that has none. -/
def stampless (s : Store) : Call → Prop
  | .build d => d.stamp = none
  | .editTicket t (.stamp _) => (s.ticket t).stamp.isSome = true
  | _ => True

theorem stamps_editTicket (s : Store) (t : Nat) {e : TicketEdit}
    (h : s.stampless (.editTicket t e)) : Stamps [] s (s.after (s.editTicket t e)) := by
  have same {f : Ticket → Ticket} (hs : (f (s.ticket t)).stamp = (s.ticket t).stamp) :
      Stamps [] s (s.onTicket t f) := stamps_onTicket s t hs
  cases e with
  | priority p => exact (same rfl).append (stamps_onJob ..)
  | stamp n =>
    obtain ⟨i, hi⟩ := Option.isSome_iff_exists.mp h
    simp only [editTicket]
    rw [hi]
    exact .refl s
  | job j =>
    cases j with
    | none => exact .refl s
    | some j => exact (same rfl).append (stamps_onJob ..)
  | context l session => exact .of_eq rfl rfl
  | cancel => exact stamps_cancelTicket s t
  | _ => exact same rfl

theorem stamped_callQueue (s : Store) (q : Nat) (c : QueueCall) :
    Stamped (fun t => c.taken (s.callQueue q c).2 = some t) s (s.callQueue q c).1 := by
  cases c with
  | push t =>
    cases t with
    | none => exact .of_eq rfl rfl
    | some t =>
      simp only [callQueue]
      split
      · exact .of_eq rfl rfl
      · rename_i hp
        obtain ⟨-, rfl, -⟩ := push_eq_some.mp hp
        refine Stamped.append (stamped_one s ?_) (.of_eq rfl rfl)
        rfl
  | next now network busy =>
    simp only [callQueue]
    split <;> exact .of_eq rfl rfl
  | remove id =>
    simp only [callQueue]
    split <;> exact .of_eq rfl rfl
  | delayGroup group d => exact (stamps_delayGroup ..).none
  | close => exact .of_eq rfl rfl

/-- What is stamped by a call was accepted by the queue that it was pushed into, or by a manager. -/
theorem stamped_call {c : Call} (h : s.stampless c) (hc : ∀ m ts, c ≠ .manager m (.recover ts)) :
    Stamped (fun t => (∃ q d, c = .queue q d ∧ d.taken (s.callQueue q d).2 = some t) ∨
      ∃ m, Enrolls m t s (s.call c)) s (s.call c) := by
  cases c with
  | makeJob p =>
    refine (stamps_after fun s' hs => ?_).none
    cases hj : Job.make p with
    | error f => rw [hj] at hs; cases hs
    | ok j => rw [hj] at hs; cases hs; exact .of_eq rfl rfl
  | build d =>
    refine (stamps_after fun s' hs => ?_).none
    obtain ⟨k, rfl, -, -, -, hk⟩ := build_eq_ok hs
    exact stamps_wrap s (hk.trans h)
  | editTicket t e => exact (stamps_editTicket s t h).none
  | queue q c => exact (stamped_callQueue s q c).mono fun t ht => .inl ⟨q, c, rfl, ht⟩
  | manager m c =>
    exact (stamped_manage s m fun ts he => hc m ts (by rw [he])).mono fun t ht => .inr ⟨m, ht⟩
  | _ => exact .of_eq rfl rfl

theorem stamps_claim (h : s.claim m = some (s', t)) : Stamps [] s s' := by
  have hb := claim_begins h
  refine .still ?_ fun u => Ticket.stamp_of_place (hb.place u)
  simp only [claim] at h
  split at h
  · cases h
  · obtain ⟨rfl, -⟩ := Prod.mk.inj (Option.some.inj h)
    rfl

/-- All stamps are below the next one, and no two tickets have the same. -/
structure Numbered (s : Store) : Prop where
  below : ∀ t n, (s.ticket t).stamp = some n → n < s.nextStamp
  single : ∀ t u n, (s.ticket t).stamp = some n → (s.ticket u).stamp = some n → t = u

theorem Stamps.numbered (h : Stamps ts s s') (hs : s.Numbered) : s'.Numbered := by
  have hle : s.nextStamp ≤ s'.nextStamp := h.next ▸ Nat.le_add_right ..
  -- a stamp is new or old, and the old ones are below the new ones
  have old {t n : Nat} (ht : t ∉ ts) (hn : (s'.ticket t).stamp = some n) :
      (s.ticket t).stamp = some n ∧ n < s.nextStamp := by
    rw [h.kept t ht] at hn
    exact ⟨hn, hs.below t n hn⟩
  have new {t n : Nat} (ht : t ∈ ts) (hn : (s'.ticket t).stamp = some n) :
      s.nextStamp ≤ n ∧ n < s'.nextStamp := by
    obtain ⟨i, hi, hr⟩ := h.stamp ht
    obtain rfl := Option.some.inj (hi.symm.trans hn)
    exact hr
  refine ⟨fun t n hn => ?_, fun t u n ht hu => ?_⟩
  · by_cases hmem : t ∈ ts
    · exact (new hmem hn).2
    · exact Nat.lt_of_lt_of_le (old hmem hn).2 hle
  · by_cases hmt : t ∈ ts <;> by_cases hmu : u ∈ ts
    · have hnodup : (ts.map fun t => (s'.ticket t).stamp).Nodup := by
        rw [h.given]
        exact (List.nodup_range' ..).map fun _ _ => Option.some.inj
      exact List.inj_on_of_nodup_map hnodup hmt hmu (ht.trans hu.symm)
    · have := (old hmu hu).2
      have := (new hmt ht).1
      omega
    · have := (old hmt ht).2
      have := (new hmu hu).1
      omega
    · exact hs.single t u n (old hmt ht).1 (old hmu hu).1

end Store

namespace World

variable {w w' : World} {a t : Nat} {mv : Move} {moves : List Move}

/-- The client gives no stamp by the move. -/
def stampless (w : World) : Move → Prop
  | .call c => w.toStore.stampless c
  | _ => True

/-- The tickets that get stamps by the move, in the order in which they get them. -/
def stampings (w : World) (mv : Move) : List Nat :=
  match mv with
  | .call (.manager m (.recover ts)) =>
    if (Call.manager m (.recover ts)).inScope w.toStore then w.recovered m ts else []
  | _ => (List.range (w.step mv).tickets.size).filter (w.newly (w.step mv).toStore)

/-- The tickets that get stamps along a run, in the order in which they get them. -/
def arrivals : World → List Move → List Nat
  | _, [] => []
  | w, mv :: moves => w.stampings mv ++ arrivals (w.step mv) moves

theorem stamps_sequels (hs : Sequels a w w') : Store.Stamps [] w.toStore w'.toStore := by
  induction hs with
  | refl => exact .refl _
  | tail _ hs ih =>
    apply ih.comp
    cases hs with
    | wrote ls es he => exact .of_eq rfl rfl
    | told j t next ha ht hn =>
      exact Store.stamps_onTicket _ t (f := ({ · with notified := true })) rfl
    | welcomed j t ha => exact .of_eq rfl rfl
    | departed i t s tally ha hc =>
      rw [toStore_depart]
      exact Store.stamps_claim hc

/-- The ticket was accepted by the queue that it was pushed into, or by a manager. -/
def settlesIn (w : World) (mv : Move) (t : Nat) : Prop :=
  (∃ q, w.accepted q mv = some t) ∨ ∃ m, Store.Enrolls m t w.toStore (w.effect mv).toStore

/-- A move gives a stamp to one ticket at most, unless it is a recovery. -/
theorem stamped_effect (h : w.stampless mv) (hc : ∀ m ts, mv ≠ .call (.manager m (.recover ts))) :
    Store.Stamped (w.settlesIn mv) w.toStore (w.effect mv).toStore := by
  cases mv with
  | call c =>
    rcases effect_call w c with ⟨hs, he⟩ | he
    · rw [he]
      refine (Store.stamped_call h fun m ts hr => hc m ts (by rw [hr])).mono fun t ht => ?_
      rcases ht with ⟨q, d, rfl, ht⟩ | ⟨m, ht⟩
      · refine .inl ⟨q, ?_⟩
        simp only [accepted, if_pos, (step_queue hs).2, Option.bind_some]
        exact ht
      · exact .inr ⟨m, by rwa [he]⟩
    · rw [he]
      exact .of_eq rfl rfl
  | reply a r =>
    have hr := replied w a r
    have hin (m t : Nat) (ht : Store.Enrolls m t w.toStore (w.effect (.reply a r)).toStore) :
        w.settlesIn (.reply a r) t := .inr ⟨m, ht⟩
    generalize (w.effect (.reply a r)).toStore = s at hr hin ⊢
    cases hr with
    | planned jobs hj => exact .of_eq rfl rfl
    | settled jobs hj i t o hw =>
      have hj : Store.Stamps [] w.toStore { w.toStore with jobs } := .of_eq rfl rfl
      exact ((Store.stamped_settle _ i t o).comp hj).mono (hin i)
  | clock now => exact .of_eq rfl rfl
  | elapse nanos => exact .of_eq rfl rfl

/-- A list of at most one ticket is what is newly stamped among all. -/
theorem filter_newly {s s' : Store} {ts : List Nat} (hl : ts.length ≤ 1) (h : s.Stamps ts s') :
    (List.range s'.tickets.size).filter (s.newly s') = ts := by
  have made (t : Nat) (ht : t ∈ ts) : t < s'.tickets.size := by
    obtain ⟨n, hn, -⟩ := h.stamp ht
    by_contra hlt
    rw [show s'.ticket t = default from Registry.get_of_size_le (Nat.not_lt.mp hlt)] at hn
    cases hn
  have hmem (t : Nat) : t ∈ (List.range s'.tickets.size).filter (s.newly s') ↔ t ∈ ts := by
    rw [List.mem_filter, List.mem_range, ← h.mem_iff]
    exact and_iff_right_of_imp (made t)
  have hnodup : ts.Nodup := by
    match ts, hl with
    | [], _ => exact .nil
    | [t], _ => exact List.nodup_singleton t
  have hp := (List.perm_ext_iff_of_nodup (List.nodup_range.filter _) hnodup).mpr hmem
  match ts, hl with
  | [], _ => exact List.perm_nil.mp hp
  | [t], _ => exact List.perm_singleton.mp hp

/-- What a move that gives no stamp by hand does to the stamps. -/
theorem stamps_step (hf : w.Founded) (h : w.stampless mv) :
    Store.Stamps (w.stampings mv) w.toStore (w.step mv).toStore ∧
      ∀ t ∈ w.stampings mv, w.settlesIn mv t := by
  have hs := stamps_sequels (step_sequels hf mv)
  by_cases hr : ∃ m ts, mv = .call (.manager m (.recover ts))
  · obtain ⟨m, ts, rfl⟩ := hr
    simp only [stampings]
    split
    · rename_i hc
      have he := toStore_manage hc
      refine ⟨(he ▸ Store.stamps_recover w.toStore m ts :).append hs, fun t ht => .inr ⟨m, ?_⟩⟩
      rw [he]
      simp only [Call.inScope, Bool.and_eq_true] at hc
      exact Store.enrolls_recover (List.all_eq_true.mp hc.2) ht
    · rename_i hc
      rw [show w.step (.call (.manager m (.recover ts))) = w from if_neg hc]
      exact ⟨.refl _, fun _ h => by cases h⟩
  · have hne (m : Nat) (ts : List (Option Nat)) : mv ≠ .call (.manager m (.recover ts)) :=
      fun he => hr ⟨m, ts, he⟩
    obtain ⟨ts, hl, hp, hts⟩ := (stamped_effect h hne).append hs
    have he : w.stampings mv = ts := by
      rw [← filter_newly hl hts]
      unfold stampings
      split
      · exact absurd rfl (hne _ _)
      · rfl
    rw [he]
    exact ⟨hts, hp⟩

/-- Where nothing is accepted, no stamp is used up. -/
theorem nextStamp_step (hf : w.Founded) (h : w.stampless mv) (hn : ∀ t, ¬w.settlesIn mv t) :
    (w.step mv).nextStamp = w.nextStamp := by
  obtain ⟨hst, hin⟩ := stamps_step hf h
  have hnil : w.stampings mv = [] :=
    List.eq_nil_iff_forall_not_mem.mpr fun t ht => hn t (hin t ht)
  rw [hst.next, hnil]
  rfl

theorem stamps_run (hf : w.Founded) (h : w.Along stampless moves) :
    Store.Stamps (arrivals w moves) w.toStore (w.run moves).toStore := by
  induction moves generalizing w with
  | nil => exact .refl _
  | cons mv moves ih => exact (stamps_step hf h.1).1.trans (ih (hf.step mv) h.2)

theorem numbered_start (now : Int) : (start now).Numbered := ⟨nofun, nofun⟩

end World

end Backlog
