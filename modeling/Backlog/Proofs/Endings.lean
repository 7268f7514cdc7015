import Backlog.Proofs.Answers

/-!
# How work ends

The work of an id is over once the id is free and finished with a status. It stays over until
the id is admitted again. An operation that waits goes on by the first reply that it takes.
-/

namespace Backlog.World

variable {w w' v : World} {a m t : Nat} {id : String} {status : Status}

/-- The work of the id has ended with the status. -/
structure Over (m : Nat) (id : String) (status : Status) (w : World) : Prop where
  free : (w.manager m).free id = true
  finished : (w.manager m).finished.find? id = some status

theorem status_of_free (hf : (w.manager m).free id = true) (ticket : Nat → Ticket) (now : Int) :
    (w.manager m).status ticket now id = ((w.manager m).finished.find? id).getD .unknown := by
  obtain ⟨hr, hq⟩ := Manager.free_iff.mp hf
  rw [Manager.status, Table.contains, hr, hq]
  rfl

theorem Over.status_eq (h : w.Over m id status) (ticket : Nat → Ticket) (now : Int) :
    (w.manager m).status ticket now id = status := by
  rw [status_of_free h.free, h.finished]
  rfl

theorem Over.agrees (h : w.Over m id status) (ha : (w.manager m).Agrees (w'.manager m) id) :
    w'.Over m id status :=
  ⟨ha.free ▸ h.free, ha.finished.trans h.finished⟩

/-- No attempt begins under an id that is not queued. -/
theorem not_starts (h : w.Sound m) (hq : (w.manager m).queue.find? id = none) :
    ¬Starts m id a w w' := by
  rintro ⟨t, s, tally, -, hc, hid, -⟩
  rw [(h.custody.queue.find id t).mpr ⟨(Store.claim_begins hc).queued, hid⟩] at hq
  cases hq

/-- What is queued or running is so after what follows a move. -/
theorem held_sequel (hs : Sequel a w w') (hf : (w.manager m).free id = false) :
    (w'.manager m).free id = false := by
  by_cases hn : Starts m id a w w'
  · obtain ⟨t, s, tally, -, hc, hid, rfl⟩ := hn
    have hb := Store.claim_begins hc
    obtain ⟨counts, -, hm⟩ := hb.manager
    apply Bool.eq_false_iff.mpr
    intro hf
    rw [toStore_depart, hm] at hf
    have hr := (Manager.free_iff.mp hf).1
    rw [← hid, ← show (s.ticket t).id = (w.ticket t).id by rw [hb.ticket]] at hr
    exact absurd (hr.symm.trans (Table.find?_insert_same ..)) nofun
  · rw [(sequel_agrees hs hn).free, hf]

/-- What a move admits is admitted by the step. -/
theorem admits_step (h : w.Founded) {mv : Move} (ha : w.Admits m id (w.effect mv).toStore) :
    w.Admits m id (w.step mv).toStore := by
  have hs := step_sequels h mv
  generalize w.step mv = w' at hs
  refine ⟨ha.1, ?_⟩
  induction hs with
  | refl => exact ha.2
  | tail _ hs ih => exact held_sequel hs ih

/-- A move leaves a free id where it is, unless it admits it. -/
theorem effect_free (h : w.Sound m) (hf : (w.manager m).free id = true) (mv : Move) :
    (w.manager m).Agrees ((w.effect mv).manager m) id ∨
      w.Admits m id (w.effect mv).toStore := by
  by_cases hc : mv = .call (.manager m (.cancel id))
  · subst hc
    refine .inl (.of_eq ?_)
    simp only [effect]
    split
    · change ((((w.withdraw m id).map Prod.fst).getD w.toStore).manager m) = w.manager m
      rw [Store.withdraw_eq_none.mpr hf]
      rfl
    · rfl
  · apply effect_agrees h.founded hc
    intro a r t _ hw hid
    have hr := h.tended.runs a t hw
    rw [hid, (Manager.free_iff.mp hf).1] at hr
    cases hr

/-- What follows a move leaves a free id where it is. -/
theorem free_sequels (hf : (w.manager m).free id = true) (hw : w.Sound m) (hs : Sequels a w w') :
    (w.manager m).Agrees (w'.manager m) id := by
  induction hs with
  | refl => exact .refl ..
  | tail hv hs ih =>
    have hq := (Manager.free_iff.mp (ih.free.trans hf)).2
    exact ih.trans (sequel_agrees hs (not_starts (hw.sequels hv) hq))

theorem Over.sequels (h : w.Over m id status) (hw : w.Sound m) (hs : Sequels a w w') :
    w'.Over m id status :=
  h.agrees (free_sequels h.free hw hs)

/-- What a step admits is admitted by the move. -/
theorem admits_effect (hw : w.Sound m) {mv : Move} (hl : lawful m w mv)
    (ha : w.Admits m id (w.step mv).toStore) : w.Admits m id (w.effect mv).toStore := by
  refine ⟨ha.1, Bool.eq_false_iff.mpr fun hf => ?_⟩
  have hs := free_sequels hf (hw.effect hl) (step_sequels hw.founded mv)
  exact absurd (hs.free.trans hf) (Bool.eq_false_iff.mp ha.2)

/-- What is over stays so until the id is admitted again. -/
theorem Over.step (h : w.Over m id status) (hw : w.Sound m) {mv : Move} (hl : lawful m w mv)
    (hn : ¬w.Admits m id (w.step mv).toStore) : (w.step mv).Over m id status := by
  rcases effect_free hw h.free mv with ha | ha
  · exact (h.agrees ha).sequels (hw.effect hl) (step_sequels hw.founded mv)
  · exact absurd (admits_step hw.founded ha) hn

theorem Over.run (h : w.Over m id status) (hw : w.Sound m) {moves : List Move}
    (hl : w.Along (fun w mv => lawful m w mv ∧ ¬w.Admits m id (w.step mv).toStore) moves) :
    (w.run moves).Over m id status :=
  (hl.run (I := fun w => w.Sound m ∧ w.Over m id status)
    (fun _ _ h hl => ⟨h.1.step hl.1, h.2.step h.1 hl.1 hl.2⟩) ⟨hw, h⟩).2

/-- The attempt of operation `a` is settled: its work is over, or a new ticket is queued, or
no new ticket can be made. -/
theorem close_own (h : w.Sound m) (hw : w.Works a m t) {k : Caller} (hk : k.work = some (m, t))
    (hv : Replanned { w with pending := w.pending.erase a } v) (o : Outcome) :
    (∃ status tell, v.verdict m t o = some status ∧
      (v.settle m t o).2 = .ok (.ended status tell) ∧
      Store.Ends m t status v.toStore (v.close k o).toStore ∧
      (v.close k o).Over m (w.ticket t).id status) ∨
      (v.verdict m t o = none ∧ (∃ d, (v.settle m t o).2 = .ok (.retried d)) ∧
        Store.Renews m t v.toStore (v.close k o).toStore) ∨
      (w.ticket t).runs < 0 ∧ (w.ticket t).cancelled = false ∧
        (v.settle m t o).2 = .error .negativeRuns ∧
        Store.Loses m t v.toStore (v.close k o).toStore := by
  have hm : v.manager m = w.manager m := congrFun hv.manager m
  have ht : v.ticket t = w.ticket t := congrFun hv.ticket t
  have made : t < v.tickets.size := hv.tickets ▸ h.founded.works a m t hw
  obtain ⟨n, since, tally, rfl⟩ := Caller.eq_of_work hk
  rcases Store.settle_spec (m := m) made o with ⟨status, tell, hs, hend, he⟩ | hr |
    ⟨hn, hc, -, hl⟩
  · have hq : (v.manager m).queue.find? (v.ticket t).id = none := by
      rw [hm, ht]
      exact h.custody.apart _ t (h.tended.runs a t hw)
    obtain ⟨hfree, hfin⟩ := he.ended hq
    rw [ht] at hfree hfin
    exact .inl ⟨status, tell, hs, hend, he, hfree, hfin⟩
  · exact .inr (.inl hr)
  · rw [ht] at hn hc
    exact .inr (.inr ⟨hn, hc, hl⟩)

/-- The attempt of operation `a` is settled with a status. -/
theorem over_of_verdict (h : w.Sound m) (hw : w.Works a m t) {k : Caller}
    (hk : k.work = some (m, t)) (hv : Replanned { w with pending := w.pending.erase a } v)
    (hn : (w.ticket t).runs < 0 → (w.ticket t).cancelled = true) {o : Outcome}
    (ho : v.verdict m t o = some status) : (v.close k o).Over m (w.ticket t).id status := by
  rcases close_own h hw hk hv o with ⟨s, _, hs, -, -, hover⟩ | ⟨hs, -⟩ | ⟨hr, hc, -⟩
  · rw [ho] at hs
    exact Option.some.inj hs ▸ hover
  · rw [ho] at hs
    cases hs
  · rw [hn hr] at hc
    cases hc

end Backlog.World
