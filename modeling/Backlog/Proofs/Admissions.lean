import Backlog.Proofs.Endings

/-!
# How work comes in

A manager comes to know only tickets that it makes and tickets that it is offered for
recovery. An id is admitted by a call to its manager, and its ticket is still queued when the
call has returned.
-/

namespace Backlog

namespace Store

variable {s s' : Store} {m t : Nat} {id : String}

/-- A manager comes to know new tickets and those that it is offered. -/
theorem gains_manage {c : ManagerCall} (hc : (Call.manager m c).inScope s = true) :
    s.Gains (s.manage m c) fun i t =>
      i = m ∧ (s.tickets.size ≤ t ∨ ∃ ts, c = .recover ts ∧ some t ∈ ts) := by
  have same {f : Manager → Manager} {Q : Nat → Nat → Prop}
      (hf : ∀ t, (f (s.manager m)).knows t → (s.manager m).knows t) : s.Gains (s.onManager m f) Q := by
    refine gains_of_other (m := m) (fun i hi => by rw [manager_onManager, if_neg hi]) fun t ht => ?_
    rw [manager_onManager, if_pos rfl] at ht
    exact .inl (hf t ht)
  refine (manage_induction (P := fun r => s.tickets.size ≤ r.tickets.size ∧ s.Gains r fun i t =>
      i = m ∧ (s.tickets.size ≤ t ∨ ∃ ts, c = .recover ts ∧ some t ∈ ts)) hc
    ⟨Nat.le_refl _, fun _ _ ht => .inl ht⟩ (fun r r' t h hn hi => ?_)
    (fun i s' v _ hw => ?_) (fun up _ => ?_) fun _ => ?_).2
  · obtain ⟨hz, hg⟩ := h
    refine ⟨Nat.le_trans hz hi.keeps.tickets, fun i u hu => ?_⟩
    rcases hi.gains i u hu with hu | ⟨rfl, rfl⟩
    · exact hg i u hu
    · rcases hn with ⟨-, rfl⟩ | hn
      · exact .inr ⟨rfl, .inl hz⟩
      · exact .inr ⟨rfl, .inr hn⟩
  · exact ⟨(keeps_withdraw hw).tickets, fun i u hu =>
      .inl ((withdraw_gains hw i u hu).resolve_right id)⟩
  · exact ⟨Nat.le_refl _, same fun _ ht => ht⟩
  · exact ⟨Nat.le_refl _, same fun _ ht => ht⟩

theorem gains_call {c : Call} (hc : c.inScope s = true) : s.Gains (s.call c) fun i t =>
    s.tickets.size ≤ t ∨ ∃ ts, c = .manager i (.recover ts) ∧ some t ∈ ts := by
  intro i t ht
  rcases manager_call s c i with hm | ⟨d, rfl⟩ | ⟨config, rfl, hi⟩
  · rw [hm] at ht
    exact .inl ht
  · rcases gains_manage hc i t ht with ht | ⟨-, ht | ⟨ts, rfl, hm⟩⟩
    · exact .inl ht
    · exact .inr (.inl ht)
    · exact .inr (.inr ⟨ts, rfl, hm⟩)
  · rw [manager_make s config hi] at ht
    exact .inl ((Manager.knows_congr rfl rfl rfl).mp ht)

/-- A manager that settles a ticket comes to know at most the new one. -/
theorem gains_settle (made : t < s.tickets.size) (o : Outcome) :
    s.Gains (s.settle m t o).1 fun _ u => s.tickets.size ≤ u := by
  intro i u hu
  rcases settle_spec (m := m) made o with ⟨_, _, -, -, he⟩ | ⟨-, -, hr⟩ | ⟨-, -, -, -, hl⟩
  · exact (he.gains i u hu).imp_right False.elim
  · exact (hr.gains i u hu).imp_right fun h => Nat.le_of_eq h.2.symm
  · exact (hl.gains i u hu).imp_right False.elim

/-- The id is queued by a manager that accepts, and its ticket is not cancelled. -/
def Waits (s : Store) (m : Nat) (id : String) : Prop :=
  (s.manager m).accepting = true ∧ ∃ t < s.tickets.size,
    (s.manager m).queue.find? id = some t ∧ (s.ticket t).cancelled = false

theorem TakesIn.waits (h : TakesIn m t s s') : s'.Waits m (s'.ticket t).id := by
  obtain ⟨counts, -, hm⟩ := h.manager
  refine ⟨?_, t, h.made, h.queued, h.live⟩
  rw [hm]
  exact h.accepting

theorem Waits.takesIn (h : s.Waits m id) (hi : TakesIn m t s s') (hne : id ≠ (s'.ticket t).id) :
    s'.Waits m id := by
  obtain ⟨ha, u, hz, hq, hc⟩ := h
  obtain ⟨counts, -, hm⟩ := hi.manager
  refine ⟨?_, u, Nat.lt_of_lt_of_le hz hi.keeps.tickets, (hi.agrees hne).queue.trans hq, ?_⟩
  · rw [hm]
    exact ha
  · rw [Ticket.cancelled_of_lasting (hi.keeps.lasting hz), hc]

/-- An id that a manager comes to hold by an operation waits. -/
theorem manage_waits {c : ManagerCall} (hc : (Call.manager m c).inScope s = true)
    (hf : (s.manager m).free id = true) :
    ((s.manage m c).manager m).free id = true ∨
      ((∃ j, c = .add j) ∨ ∃ ts, c = .recover ts) ∧ (s.manage m c).Waits m id := by
  have same {f : Manager → Manager} (h : (f (s.manager m)).free id = true) :
      ((s.onManager m f).manager m).free id = true := by
    rwa [manager_onManager, if_pos rfl]
  refine manage_induction (P := fun r => (r.manager m).free id = true ∨
    ((∃ j, c = .add j) ∨ ∃ ts, c = .recover ts) ∧ r.Waits m id) hc (.inl hf)
    (fun r r' t h hn hi => ?_) (fun i s' v _ hw => .inl ?_) (fun up _ => .inl (same hf))
    fun _ => .inl (same hf)
  · by_cases hid : id = (r'.ticket t).id
    · subst hid
      exact .inr ⟨hn.imp And.left fun ⟨ts, hr, _⟩ => ⟨ts, hr⟩, hi.waits⟩
    · exact h.imp (fun h => (hi.agrees hid).free.trans h) fun h => ⟨h.1, h.2.takesIn hi hid⟩
  · by_cases hi : id = i
    · subst hi
      rw [withdraw_eq_none.mpr hf] at hw
      cases hw
    · exact (withdraw_agrees hw hi).free.trans hf

end Store

namespace World

variable {w w' : World} {a m t : Nat} {id : String}

/-- What a move brings a manager to know. -/
theorem gains_effect (h : w.Founded) (mv : Move) :
    w.Gains (w.effect mv).toStore fun i t =>
      w.tickets.size ≤ t ∨ ∃ ts, mv = .call (.manager i (.recover ts)) ∧ some t ∈ ts := by
  cases mv with
  | call c =>
    rcases effect_call w c with ⟨hc, he⟩ | he <;> rw [he]
    · refine fun i t ht => (Store.gains_call hc i t ht).imp_right (.imp_right ?_)
      rintro ⟨ts, rfl, hm⟩
      exact ⟨ts, rfl, hm⟩
    · exact fun _ _ ht => .inl ht
  | reply a r =>
    have hr := replied w a r
    generalize (w.effect (.reply a r)).toStore = s at hr ⊢
    cases hr with
    | planned jobs hj => exact fun _ _ ht => .inl ht
    | settled jobs hj m u o hw =>
      have hg := Store.gains_settle (s := { w.toStore with jobs }) (m := m) (h.works a m u hw) o
      exact fun i t ht => (hg i t ht).imp_right .inl
  | clock now => exact fun _ _ ht => .inl ht
  | elapse nanos => exact fun _ _ ht => .inl ht

/-- What follows a move brings no manager to know a ticket. -/
theorem knows_sequel (hs : Sequel a w w') {i : Nat} (h : (w'.manager i).knows t) :
    (w.manager i).knows t := by
  cases hs with
  | departed i' u s tally ha hc =>
    rw [toStore_depart] at h
    exact ((Store.claim_begins hc).gains i t h).resolve_right id
  | _ => exact h

/-- An id is admitted by a call to its manager. -/
theorem admits_call (hw : w.Sound m) {mv : Move} (ha : w.Admits m id (w.effect mv).toStore) :
    ∃ c, mv = .call (.manager m c) ∧ (Call.manager m c).inScope w.toStore = true := by
  have same (h : (w.manager m).Agrees ((w.effect mv).manager m) id) : False := by
    have := h.free.trans ha.1
    rw [ha.2] at this
    cases this
  cases mv with
  | call c =>
    rcases effect_call w c with ⟨hc, he⟩ | he
    · rw [he] at same ha
      rcases Store.manager_call w.toStore c m with hm | ⟨d, rfl⟩ | ⟨config, rfl, hi⟩
      · exact (same (.of_eq hm)).elim
      · exact ⟨d, rfl, hc⟩
      · rw [Store.manager_make w.toStore config hi] at same
        exact (same ⟨rfl, rfl, rfl⟩).elim
    · exact (same (.of_eq (by rw [he]))).elim
  | reply a r =>
    refine (same (reply_agrees hw.founded (fun t hwork hid => ?_) r)).elim
    have hr := hw.tended.runs a t hwork
    rw [hid, (Manager.free_iff.mp ha.1).1] at hr
    cases hr
  | clock now => exact (same (.refl ..)).elim
  | elapse nanos => exact (same (.refl ..)).elim

/-- The events begin no attempt. -/
def Idle (es : List Event) : Prop := ∀ e ∈ es, ∀ m id (w : World), w.attempt? m id e = none

theorem idle_of_isNote {es : List Event} (h : ∀ e ∈ es, e.isNote a = true) : Idle es :=
  fun e he _ _ _ => attempt?_of_isNote (h e he)

/-- No attempt begins by a call that adds a job. -/
theorem idle_add (w : World) (a m : Nat) (j : Option Nat) :
    ∃ ls es, (w.add a m j).toStore = (w.manage m (.add j)).logging ls ∧
      (w.add a m j).history = es ++ w.history ∧ Idle es := by
  have still {v : World} (hs : v.toStore = w.toStore) (e : Event) (he : e.isNote a = true) :
      ∃ ls es, (v.emit e).toStore = w.toStore.logging ls ∧
        (v.emit e).history = es ++ v.history ∧ Idle es :=
    ⟨w.loggers, [e], hs, rfl, idle_of_isNote (by simpa using he)⟩
  cases j with
  | none => exact still rfl (.raised a .noJob) (by simp [Event.isNote])
  | some j =>
    rw [show w.manage m (.add (some j)) = (w.enlist m j).getD w.toStore from rfl]
    simp only [add]
    cases w.enlist m j with
    | none => exact still rfl (.returned a (.flag false)) (by simp [Event.isNote])
    | some s =>
      obtain ⟨ls, es, he, hn⟩ := wrote_note (a := a) { w with toStore := s } m .info (w.job j).id
        "added" [("event", "job_added"), ("priority", toString (w.job j).priority),
          ("group", (w.job j).group.getD ""), ("delay_ms", toString (w.job j).delay)]
      dsimp only
      rw [hn]
      refine ⟨ls, .asked a (.added j w.tickets.size) :: es, rfl, rfl, fun e hm => ?_⟩
      rcases List.mem_cons.mp hm with rfl | hm
      · exact fun _ _ _ => rfl
      · exact idle_of_isNote he e hm

/-- No attempt begins by a call that recovers tickets. -/
theorem idle_recover (w : World) (a m : Nat) (ts : List (Option Nat)) :
    ∃ ls es, (w.recover a m ts).toStore = (w.manage m (.recover ts)).logging ls ∧
      (w.recover a m ts).history = es ++ w.history ∧ Idle es := by
  obtain ⟨ls, es, he, hw⟩ := (wrote_recover a m ts w 0).trans
    (wrote_give _ a (.count (ts.foldl (recoverOne m) (w, 0)).2))
  change ∃ ls es, (World.give (ts.foldl (recoverOne m) (w, 0)).1 a _).toStore = _ ∧
    (World.give (ts.foldl (recoverOne m) (w, 0)).1 a _).history = _ ∧ _
  rw [hw]
  exact ⟨ls, es, rfl, rfl, idle_of_isNote he⟩

/-- What a step admits waits, and the step begins no attempt. -/
theorem admission (hw : w.Sound m) {mv : Move} (hl : lawful m w mv)
    (ha : w.Admits m id (w.step mv).toStore) :
    (w.step mv).Waits m id ∧ w.begun m id mv = [] := by
  have he := admits_effect hw hl ha
  obtain ⟨c, rfl, hc⟩ := admits_call hw he
  rw [toStore_manage hc] at he
  obtain ⟨hcall, hwait⟩ := (Store.manage_waits hc he.1).resolve_left (Bool.eq_false_iff.mp he.2)
  obtain ⟨ls, es, hs, hh, hi⟩ : ∃ ls es,
      (w.step (.call (.manager m c))).toStore = (w.manage m c).logging ls ∧
      (w.step (.call (.manager m c))).history = es ++ w.history ∧ Idle es := by
    have hstep : w.step (.call (.manager m c)) =
        World.callManager { w with calls := w.calls + 1 } w.calls m c := if_pos hc
    rw [hstep]
    rcases hcall with ⟨j, rfl⟩ | ⟨ts, rfl⟩
    · exact idle_add { w with calls := w.calls + 1 } w.calls m j
    · exact idle_recover { w with calls := w.calls + 1 } w.calls m ts
  refine ⟨by rw [hs]; exact hwait, ?_⟩
  rw [begun, news_eq hh, List.filterMap_eq_nil_iff]
  exact fun e hm => hi e (List.mem_reverse.mp hm) ..

end World

end Backlog
