import Backlog.Proofs.HandOuts

/-!
# The queue of a manager by id

A manager finds whatever waits for it under the id that it has, as long as the client gives no
ticket that waits another id. What is running may be renamed: it does not come back under an id that
is taken.
-/

namespace Backlog

namespace Store

variable {s s' : Store} {m t : Nat}

/-- Whatever waits for manager `m` exists and is found under the id that it has. As long as the
manager accepts work its queue is open. -/
structure Filed (m : Nat) (s : Store) : Prop where
  made : ∀ t ∈ (s.manager m).queue.order, t < s.tickets.size
  indexed : (s.manager m).queue.Indexed s.ticket
  opened : (s.manager m).accepting = true → (s.manager m).queue.closed = false

namespace Filed

/-- Only the queue and the ids of its tickets matter. -/
theorem congr (h : s.Filed m) (hq : (s'.manager m).queue = (s.manager m).queue)
    (ha : (s'.manager m).accepting = true → (s.manager m).accepting = true)
    (hz : s.tickets.size ≤ s'.tickets.size)
    (hid : ∀ t ∈ (s.manager m).queue.order, (s'.ticket t).id = (s.ticket t).id) : s'.Filed m where
  made t ht := Nat.lt_of_lt_of_le (h.made t (hq ▸ ht)) hz
  indexed := hq ▸ h.indexed.congr hid
  opened hacc := hq ▸ h.opened (ha hacc)

theorem keep (h : s.Filed m) (hk : Keeps none s s')
    (hq : (s'.manager m).queue = (s.manager m).queue)
    (ha : (s'.manager m).accepting = true → (s.manager m).accepting = true) : s'.Filed m :=
  h.congr hq ha hk.tickets fun t ht => Ticket.id_of_lasting (hk.lasting (h.made t ht))

/-- A manager that has just been made, or none. -/
theorem idle (hq : (s.manager m).queue = {}) : s.Filed m where
  made t ht := by rw [hq] at ht; cases ht
  indexed := hq ▸ Queue.indexed_empty s.ticket
  opened _ := hq ▸ rfl

/-- A ticket whose id no other has is put where it belongs, which does not depend on its id. -/
theorem insert (h : s.Filed m) (hk : Keeps none s s') {ticket : Nat → Ticket}
    (hq : (s'.manager m).queue = (s.manager m).queue.insert ticket t)
    (ha : (s'.manager m).accepting = true → (s.manager m).accepting = true)
    (hid : ∀ u, u ∈ (s.manager m).queue.order ∨ u = t → (ticket u).id = (s'.ticket u).id)
    (hn : (s.manager m).queue.index.contains (s'.ticket t).id = false)
    (made : t < s'.tickets.size) : s'.Filed m := by
  have hold (u : Nat) (hu : u ∈ (s.manager m).queue.order) : (ticket u).id = (s.ticket u).id :=
    (hid u (.inl hu)).trans (Ticket.id_of_lasting (hk.lasting (h.made u hu)))
  have hn : (s.manager m).queue.index.contains (ticket t).id = false := by rwa [hid t (.inr rfl)]
  have hi := h.indexed.congr hold
  have hp := hi.insert_perm hn
  refine ⟨fun u hu => ?_, ?_, fun hacc => ?_⟩
  · rw [hq, hp.mem_iff] at hu
    rcases List.mem_cons.mp hu with rfl | hu
    · exact made
    · exact Nat.lt_of_lt_of_le (h.made u hu) hk.tickets
  · rw [hq]
    refine (hi.insert hn).congr fun u hu => ?_
    exact (hid u (List.mem_cons.mp (hp.mem_iff.mp hu)).symm).symm
  · rw [hq]
    exact h.opened (ha hacc)

theorem takesIn (h : s.Filed m) (hi : TakesIn m t s s') : s'.Filed m := by
  obtain ⟨counts, -, hm⟩ := hi.manager
  refine h.insert hi.keeps (by rw [hm]) (by rw [hm]; exact id) (fun _ _ => rfl) ?_ hi.made
  rw [Table.contains, show (s.manager m).queue.index.find? _ = none from
    (Manager.free_iff.mp hi.free).2]
  rfl

/-- A ticket leaves the queue by the id that it has. -/
theorem leave (h : s.Filed m) (ht : t ∈ (s.manager m).queue.order)
    (hq : (s'.manager m).queue = { (s.manager m).queue with
      order := (s.manager m).queue.order.erase t
      index := (s.manager m).queue.index.erase (s.ticket t).id })
    (ha : (s'.manager m).accepting = true → (s.manager m).accepting = true)
    (hz : s.tickets.size ≤ s'.tickets.size)
    (hid : ∀ u ∈ (s.manager m).queue.order, (s'.ticket u).id = (s.ticket u).id) : s'.Filed m where
  made u hu := by
    rw [hq] at hu
    exact Nat.lt_of_lt_of_le (h.made u (List.mem_of_mem_erase hu)) hz
  indexed := by
    rw [hq]
    exact (h.indexed.leave ht _).congr fun u hu => hid u (List.mem_of_mem_erase hu)
  opened hacc := by
    rw [hq]
    exact h.opened (ha hacc)

theorem claim (h : s.Filed m) {i : Nat} (hc : s.claim i = some (s', t)) : s'.Filed m := by
  have hb := claim_begins hc
  by_cases hi : m = i
  · subst hi
    obtain ⟨counts, -, hm⟩ := hb.manager
    refine h.leave hb.queued ?_ (by rw [hm]; exact id) hb.size fun u _ => hb.id u
    rw [hm, ← hb.id t]
    rfl
  · exact h.congr (by rw [hb.other m hi]) (by rw [hb.other m hi]; exact id) hb.size
      fun u _ => hb.id u

theorem withdraw (h : s.Filed m) {id : String} {v : Withdrawal}
    (hw : s.withdraw m id = some (s', v)) : s'.Filed m := by
  have hz (t : Nat) := (keeps_cancelTicket s t).tickets
  rcases withdraw_cases hw with ⟨t, -, rfl, -⟩ | ⟨-, t, queue, hq, rfl, -⟩
  · exact h.congr rfl (fun h => h) (hz t) fun u _ => id_cancelTicket s t u
  · obtain ⟨ht, rfl, rfl⟩ := h.indexed.remove hq
    refine h.leave ht (by rw [manager_onManager, if_pos rfl]) ?_ (hz t) fun u _ => id_cancelTicket s t u
    rw [manager_onManager, if_pos rfl]
    exact fun h => h

theorem settle (h : s.Filed m) (made : t < s.tickets.size) {i : Nat} (o : Outcome) :
    (s.settle i t o).1.Filed m := by
  by_cases hi : m = i
  · subst hi
    rcases settle_spec (m := m) made o with ⟨_, _, -, -, he⟩ | ⟨hv, -, hr⟩ | ⟨-, -, -, -, hl⟩
    · exact h.keep he.keeps (by rw [he.manager]; rfl) (by rw [he.manager]; exact id)
    · obtain ⟨ticket, hlast, hm⟩ := hr.manager
      refine h.insert hr.keeps (by rw [hm]) (by rw [hm]; exact id) (fun u hu => ?_) ?_ hr.made
      · refine (Ticket.id_of_lasting (hlast u ?_)).symm
        rcases hu with hu | rfl
        · exact Nat.le_of_lt (h.made u hu)
        · exact Nat.le_refl _
      · have ha := accepts_of_verdict hv
        simp only [Queue.accepts, Bool.and_eq_true, Bool.not_eq_true'] at ha
        rw [hr.id]
        exact ha.2
    · exact h.keep hl.keeps (by rw [hl.manager]; rfl) (by rw [hl.manager]; exact id)
  · have hm := manager_settle made o hi
    exact h.keep (keeps_settle ..) (by rw [hm]) (by rw [hm]; exact id)

theorem manage (h : s.Filed m) {c : ManagerCall} (hc : (Call.manager m c).inScope s = true) :
    (s.manage m c).Filed m := by
  refine manage_induction hc h (fun _ _ _ h _ hi => h.takesIn hi) (fun _ _ _ _ hw => h.withdraw hw)
    (fun up _ => ?_) fun _ => ⟨?_, ?_, ?_⟩
  · refine h.keep (keeps_onManager ..) ?_ ?_ <;> rw [manager_onManager, if_pos rfl]
    exact id
  · rw [manager_onManager, if_pos rfl]
    exact h.made
  · rw [manager_onManager, if_pos rfl]
    exact h.indexed.close
  · rw [manager_onManager, if_pos rfl]
    exact nofun

end Filed

end Store

namespace World

variable {w w' : World} {a m : Nat} {mv : Move}

/-- The client gives no ticket that waits for manager `m` another id. That it leaves the priority and
the age of queued tickets alone is the contract of the queue, and no part of this. -/
def filed (m : Nat) (w : World) : Move → Prop
  | .call (.editTicket t (.job (some j))) =>
    t ∈ (w.manager m).queue.order → (w.job j).id = (w.ticket t).id
  | _ => True

theorem filed_effect (h : w.Filed m) (hf : w.Founded) (hl : filed m w mv) :
    (w.effect mv).Filed m := by
  cases mv with
  | call c =>
    rcases effect_call w c with ⟨hc, he⟩ | he <;> rw [he]
    · have hz := (Store.keeps_call w.toStore c).tickets
      rcases Store.manager_call w.toStore c m with hm | ⟨d, rfl⟩ | ⟨config, rfl, hi⟩
      · refine h.congr (by rw [hm]) (by rw [hm]; exact id) hz fun t ht => ?_
        refine Store.id_call (h.made t ht) fun j he => ?_
        subst he
        exact hl ht
      · exact h.manage hc
      · have hm := Store.manager_make w.toStore config hi
        exact h.congr (by rw [hm]) (by rw [hm]; exact id) hz fun _ _ => rfl
    · exact h
  | reply a r =>
    have hr := replied w a r
    generalize (w.effect (.reply a r)).toStore = s at hr ⊢
    cases hr with
    | planned jobs hj => exact ⟨h.made, h.indexed, h.opened⟩
    | settled jobs hj i t o hw =>
      have hs : Store.Filed m { w.toStore with jobs } := ⟨h.made, h.indexed, h.opened⟩
      exact hs.settle (hf.works a i t hw) o
  | clock now => exact ⟨h.made, h.indexed, h.opened⟩
  | elapse nanos => exact ⟨h.made, h.indexed, h.opened⟩

theorem filed_sequels (h : w.Filed m) (hs : Sequels a w w') : w'.Filed m := by
  induction hs with
  | refl => exact h
  | @tail v v' _ hs ih =>
    cases hs with
    | wrote ls es he => exact ⟨ih.made, ih.indexed, ih.opened⟩
    | told j t next ha ht hn =>
      exact ih.keep (Store.keeps_onTicket v.toStore t fun _ _ => rfl) rfl id
    | welcomed j t ha => exact ⟨ih.made, ih.indexed, ih.opened⟩
    | departed i t s tally ha hc =>
      rw [toStore_depart]
      exact ih.claim hc

/-- A manager finds what waits for it, whatever happens to the ids of other tickets. -/
theorem ReachableBy.filed (h : ReachableBy (filed m) w) : w.Founded ∧ w.Filed m :=
  h.induction (I := fun w => w.Founded ∧ w.Filed m) (fun now => ⟨.start now, .idle rfl⟩)
    fun _ mv ⟨hf, hs⟩ hl => ⟨hf.step mv, filed_sequels (filed_effect hs hf hl) (step_sequels hf mv)⟩

end World

end Backlog
