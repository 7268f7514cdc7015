import Backlog.Proofs.Retention

/-!
# The queue of a manager in run order

The tickets that wait for a manager stand in run order as long as the client leaves them at
their places, whatever managers and queues do with them.
-/

namespace Backlog

namespace Store

variable {s s' w : Store} {m t : Nat}

/-- The tickets that wait for manager `m` exist and stand in run order. -/
structure Standing (m : Nat) (s : Store) : Prop where
  made : ∀ t ∈ (s.manager m).queue.order, t < s.tickets.size
  ordered : (s.manager m).queue.Ordered s.ticket

namespace Standing

theorem congr (h : s.Standing m) (hq : (s'.manager m).queue.order = (s.manager m).queue.order)
    (hz : s.tickets.size ≤ s'.tickets.size)
    (hp : ∀ t ∈ (s.manager m).queue.order, (s'.ticket t).place = (s.ticket t).place) :
    s'.Standing m where
  made t ht := Nat.lt_of_lt_of_le (h.made t (hq ▸ ht)) hz
  ordered := (h.ordered.congr hp).sublist (hq ▸ .refl _)

/-- Tickets that neither edits nor claims touch keep their places. -/
theorem keep (h : s.Standing m) (hk : Keeps none s s') (hr : Retains none s s')
    (hq : (s'.manager m).queue.order = (s.manager m).queue.order) : s'.Standing m :=
  h.congr hq hk.tickets fun t ht =>
    hk.place hr (h.made t ht) (Option.some_ne_none t) (h.ordered.stamped t ht)

theorem onManager (h : s.Standing m) {f : Manager → Manager}
    (hf : (f (s.manager m)).queue.order.Sublist (s.manager m).queue.order) :
    (s.onManager m f).Standing m := by
  constructor <;> rw [manager_onManager, if_pos rfl]
  · intro t ht
    exact h.made t (hf.subset ht)
  · exact h.ordered.sublist hf

/-- A ticket that has just been stamped takes its place. -/
theorem push (h : s.Standing m) (hq : s'.ticket = (w.stampTicket t).ticket)
    (hm : (s'.manager m).queue = (s.manager m).queue.insert s'.ticket t)
    (hk : Keeps none s s') (hr : Retains none s s') (made : t < s'.tickets.size) :
    s'.Standing m where
  made u hu := by
    rw [hm] at hu
    rcases mem_insertOrdered hu with rfl | hu
    · exact made
    · exact Nat.lt_of_lt_of_le (h.made u hu) hk.tickets
  ordered := by
    rw [hm]
    refine (h.ordered.congr fun u hu => ?_).insert (hq ▸ stamped_stampTicket w t)
    exact hk.place hr (h.made u hu) (Option.some_ne_none u) (h.ordered.stamped u hu)

theorem enlist (h : s.Standing m) {j : Nat} (he : s.enlist m j = some s') : s'.Standing m := by
  have hi := (enlist_takesIn he).1
  obtain ⟨counts, -, hm⟩ := hi.manager
  have hr := retains_custody (reaches_enlist he)
  obtain ⟨-, k, next, -, rfl, rfl⟩ := enlist_eq_some he
  exact h.push rfl (by rw [hm]) hi.keeps hr hi.made

theorem reclaim (h : s.Standing m) (ht : t < s.tickets.size) : (s.reclaim m t).1.Standing m := by
  rcases reclaim_cases s m ht with ⟨he, -⟩ | ⟨⟨stale, hs⟩, hi, -⟩
  · rwa [he]
  obtain ⟨counts, -, hm⟩ := hi.manager
  have hk := hi.keeps
  have hr := retains_custody (reaches_reclaim s m (t := t) trivial)
  have made := hi.made
  rcases reclaim_eq s m t with ⟨-, hn⟩ | ⟨-, w, next, -, rfl, he⟩
  · exact absurd hs (hn stale)
  rw [he] at hm hk hr made ⊢
  exact h.push rfl (by rw [hm]) hk hr made

theorem claim (h : s.Standing m) {i : Nat} (hc : s.claim i = some (s', t)) : s'.Standing m := by
  have hb := claim_begins hc
  have hp : s'.tickets.size ≥ s.tickets.size := hb.size
  by_cases hi : m = i
  · subst hi
    obtain ⟨counts, -, hm⟩ := hb.manager
    have hs : (s'.manager m).queue.order.Sublist (s.manager m).queue.order := by
      rw [hm]
      exact List.erase_sublist
    exact ⟨fun u hu => Nat.lt_of_lt_of_le (h.made u (hs.subset hu)) hp,
      (h.ordered.congr fun u _ => hb.place u).sublist hs⟩
  · exact h.congr (by rw [hb.other m hi]) hp fun u _ => hb.place u

theorem withdraw (h : s.Standing m) {id : String} {v : Withdrawal}
    (hw : s.withdraw m id = some (s', v)) : s'.Standing m := by
  have mark (t : Nat) : (s.cancelTicket t).Standing m := by
    refine h.congr rfl (keeps_cancelTicket s t).tickets fun u _ => ?_
    change ((s.onTicket t _).ticket u).place = _
    rw [ticket_onTicket]
    split
    · rename_i hu
      rw [hu]
      rfl
    · rfl
  rcases withdraw_cases hw with ⟨t, -, rfl, -⟩ | ⟨-, t, queue, hq, rfl, -⟩
  · exact mark t
  · exact (mark t).onManager (Queue.remove_sublist hq)

theorem spread (h : s.Standing m) (t : Nat) (plan : Option RetryPlan) :
    (s.spread m t plan).Standing m :=
  h.keep (keeps_spread ..) (retains_custody (reaches_spread plan fun _ _ _ _ _ _ _ _ => trivial))
    (by rw [manager_spread])

theorem retry (h : s.Standing m) (t : Nat) : (s.retry m t).1.Standing m := by
  rcases retry_cases s m t with ⟨f, he⟩ | ⟨k, hr, hk, he | ⟨next, d, hn, he⟩⟩ <;> rw [he]
  · exact h
  · exact (h.keep (keeps_wrap s hr) (retains_wrap s hk) (by rw [manager_wrap])).onManager (.refl _)
  · have hz : s.tickets.size < (s.wrap k).tickets.size := by simp [wrap]
    have hs := hn ▸ keeps_stampTicket (x := none) (s.wrap k) s.tickets.size
    have hm : (next.manager m).queue = (s.manager m).queue := by
      rw [hn, manager_stampTicket, manager_wrap]
    apply Standing.spread
    apply h.push (w := s.wrap k) (t := s.tickets.size)
    · rw [← hn]
      rfl
    · rw [manager_onManager, if_pos rfl]
      rfl
    · exact (keeps_wrap s hr).trans (hs.trans (keeps_onManager ..))
    · exact retains_custody ((reaches_wrap s hk).trans
        (hn ▸ (reaches_stampTicket ..).trans (reaches_onManager ..)))
    · exact Nat.lt_of_lt_of_le hz hs.tickets

theorem settle (h : s.Standing m) (made : t < s.tickets.size) {i : Nat} (o : Outcome) :
    (s.settle i t o).1.Standing m := by
  by_cases hi : m = i
  · subst hi
    obtain ⟨w, hw⟩ : ∃ w, w = s.onManager m (·.release (s.ticket t)) := ⟨_, rfl⟩
    have hs : w.Standing m := hw ▸ h.onManager (.refl _)
    apply settle_induction (P := fun r => r.1.Standing m) hw
    · refine (hs.keep (keeps_onTicket w t (f := ({ · with successful := true })) fun _ _ => rfl)
        (retains_onTicket w t (fun _ h => h) rfl) rfl).onManager ?_
      exact .refl _
    · intro status tell _
      exact hs.onManager (.refl _)
    · exact hs.retry t
  · exact h.keep (keeps_settle ..) (retains_custody (reaches_settle trivial fun _ _ => trivial))
      (by rw [manager_settle made o hi])

theorem manage (h : s.Standing m) {c : ManagerCall} (hc : (Call.manager m c).inScope s = true) :
    (s.manage m c).Standing m := by
  simp only [Call.inScope, Bool.and_eq_true] at hc
  cases c with
  | add j =>
    cases j with
    | none => exact h
    | some j =>
      change ((s.enlist m j).getD s).Standing m
      cases he : s.enlist m j with
      | none => exact h
      | some s' => exact h.enlist he
  | runNext => exact h
  | runUntilIdle => exact h
  | cancel id =>
    change (((s.withdraw m id).map Prod.fst).getD s).Standing m
    cases hw : s.withdraw m id with
    | none => exact h
    | some p => exact h.withdraw hw
  | recover ts =>
    exact recover_induction (fun _ _ h _ ht => h.reclaim ht) h (List.all_eq_true.mp hc.2)
  | network up => exact h.onManager (.refl _)
  | stop =>
    change (if (s.manager m).accepting then s.onManager m (·.stop) else s).Standing m
    split
    · exact h.onManager (.refl _)
    · exact h

end Standing

end Store

namespace World

variable {w w' : World} {a m : Nat} {mv : Move}

theorem standing_effect (h : w.Standing m) (hf : w.Founded)
    (hu : unmoved (w.manager m).queue.order mv) : (w.effect mv).Standing m := by
  have still (hq : ((w.effect mv).manager m).queue.order = (w.manager m).queue.order) :
      (w.effect mv).Standing m := by
    refine h.congr hq (keeps_effect w mv).tickets fun t ht => ?_
    refine place_effect (h.made t ht) (h.ordered.stamped t ht) fun e he => ?_
    subst he
    exact hu ht
  cases mv with
  | call c =>
    rcases effect_call w c with ⟨hc, he⟩ | he
    · rcases Store.manager_call w.toStore c m with hm | ⟨d, rfl⟩ | ⟨config, rfl, hi⟩
      · exact still (by rw [he, hm])
      · rw [he]
        exact h.manage hc
      · exact still (by rw [he, Store.manager_make w.toStore config hi])
    · exact still (by rw [he])
  | reply a r =>
    have hr := replied w a r
    generalize (w.effect (.reply a r)).toStore = s at hr ⊢
    cases hr with
    | planned jobs hj => exact ⟨h.made, h.ordered⟩
    | settled jobs hj i t o hw =>
      have hs : Store.Standing m { w.toStore with jobs } := ⟨h.made, h.ordered⟩
      exact hs.settle (hf.works a i t hw) o
  | clock now => exact still rfl
  | elapse nanos => exact still rfl

theorem standing_sequels (h : w.Standing m) (hs : Sequels a w w') : w'.Standing m := by
  induction hs with
  | refl => exact h
  | @tail v _ _ hs ih =>
    cases hs with
    | wrote ls es he => exact ⟨ih.made, ih.ordered⟩
    | told j t next ha ht hn =>
      have hs : Sequel a v _ := .told v j t next ha ht hn
      have hk := Store.keeps_onTicket (x := none) v.toStore t (f := ({ · with notified := true }))
        fun _ _ => rfl
      exact ih.congr rfl hk.tickets fun u _ => place_sequels (.single hs) u
    | welcomed j t ha => exact ⟨ih.made, ih.ordered⟩
    | departed i t s tally ha hc =>
      rw [toStore_depart]
      exact ih.claim hc

/-- The tickets that wait for a manager stand in run order if nobody moves them. -/
theorem ReachableBy.standing
    (h : ReachableBy (fun w mv => unmoved (w.manager m).queue.order mv) w) : w.Standing m := by
  suffices w.Founded ∧ w.Standing m from this.2
  refine h.induction (I := fun w => w.Founded ∧ w.Standing m)
    (fun now => ⟨.start now, nofun, Queue.ordered_empty _⟩) fun w mv ⟨hf, hs⟩ hu => ?_
  exact ⟨hf.step mv, standing_sequels (standing_effect hs hf hu) (step_sequels hf mv)⟩

end World

end Backlog
