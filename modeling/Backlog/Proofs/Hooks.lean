import Backlog.Proofs.Notices
import Backlog.Proofs.Tracking

/-!
# The hooks of a work

A work may go through many tickets. Whatever becomes of them, its job is told once that it ended
without success if it did, on account of one of them, and never otherwise.
-/

namespace Backlog

/-- Only an end without success is to be told. -/
theorem Store.settle_tell {s : Store} {m t : Nat} {o : Outcome} {status : Status} {tell : Bool}
    (h : (s.settle m t o).2 = .ok (.ended status tell)) :
    tell = true ↔ status = .failed ∨ status = .cancelled := by
  have done {s : Store} {st : Status} {b : Bool} (hb : b = true ↔ st = .failed ∨ st = .cancelled)
      (h : (s.finish m t st b).2 = .ok (.ended status tell)) :
      tell = true ↔ status = .failed ∨ status = .cancelled := by
    obtain ⟨rfl, rfl⟩ := Ending.ended.inj (Except.ok.inj h)
    exact hb
  revert h
  apply settle_induction (P := fun r => r.2 = .ok (.ended status tell) →
    (tell = true ↔ status = .failed ∨ status = .cancelled)) rfl
  · exact done (by simp)
  · intro st b hb
    exact done hb
  · intro h
    rcases retry_cases (s.onManager m (·.release (s.ticket t))) m t with
      ⟨f, he⟩ | ⟨k, -, -, he | ⟨next, d, -, he⟩⟩ <;> rw [he] at h
    · cases h
    · exact done (by simp) h
    · cases h

namespace World

/-- The tickets that manager `m` holds under the id along a run. -/
def carriers (m : Nat) (id : String) : World → List Move → List Nat
  | w, [] => ((w.manager m).held? id).toList
  | w, mv :: moves => ((w.manager m).held? id).toList ++ carriers m id (w.step mv) moves

/-- The client gives no ticket that a manager holds another id. As in `lawful`, edits of the priority
and the age of queued tickets are left to the contract of the queue, which forbids them. -/
def orderly (w : World) (mv : Move) : Prop := ∀ m, lawful m w mv

/-- The client leaves it to manager `m` to tell the job of the ticket, gives the ticket no other
id, and offers it to no other manager. -/
def spares (m t : Nat) (w : World) : Move → Prop
  | .call (.tell u) => u ≠ t
  | .call (.editTicket u (.job (some j))) => u = t → (w.job j).id = (w.ticket t).id
  | .call (.manager i (.recover ts)) => i ≠ m → some t ∉ ts
  | _ => True

/-- The ticket has the id, and no other manager has the ticket. -/
structure Own (m : Nat) (id : String) (t : Nat) (w : World) : Prop where
  made : t < w.tickets.size
  id : (w.ticket t).id = id
  alone : ∀ i, i ≠ m → ¬(w.manager i).knows t

/-- The work of the id has ended without success. -/
def Failed (m : Nat) (id : String) (w : World) : Prop :=
  w.Over m id .failed ∨ w.Over m id .cancelled

/-- On account of one of the tickets the job was told that the work ended without success if it
did, and on account of the others never. -/
structure Heralded (m : Nat) (id : String) (ts : List Nat) (w : World) : Prop where
  own : ∀ t ∈ ts, w.Own m id t
  told : ∀ t ∈ ts, (w.ticket t).notified = true → w.Failed m id
  once : ∀ t ∈ ts, ∀ u ∈ ts, (w.ticket t).notified = true → (w.ticket u).notified = true → t = u
  done : w.Failed m id → ∃ t ∈ ts, (w.ticket t).notified = true

variable {w w' v : World} {a i m t : Nat} {id : String} {mv : Move} {ts old : List Nat}

theorem Over.unique {status status' : Status} (h : w.Over m id status) :
    w.Over m id status' ↔ status = status' :=
  ⟨fun h' => Option.some.inj (h.finished.symm.trans h'.finished), fun he => he ▸ h⟩

theorem Failed.held? (h : w.Failed m id) : (w.manager m).held? id = none :=
  Manager.held?_eq_none.mpr (h.elim Over.free Over.free)

/-- A work that goes on has not failed. -/
theorem not_failed_of_held? (h : (w.manager m).held? id = some t) : ¬w.Failed m id := by
  intro hf
  rw [hf.held?] at h
  cases h

theorem agrees_failed (h : (w.manager m).Agrees (w'.manager m) id) :
    w'.Failed m id ↔ w.Failed m id := by
  have hover (status : Status) : w'.Over m id status ↔ w.Over m id status :=
    ⟨fun ho => ⟨h.free ▸ ho.free, h.finished ▸ ho.finished⟩, fun ho => ho.agrees h⟩
  rw [Failed, Failed, hover, hover]

/-- What follows a move leaves the ticket of an id with its manager. -/
theorem held?_sequels (hw : w.Sound m) (hs : Sequels a w w') :
    (w'.manager m).held? id = (w.manager m).held? id := by
  induction hs with
  | refl => rfl
  | @tail v w' hv hs ih =>
    rw [← ih]
    have hv := hw.sequels hv
    by_cases hn : Starts m id a v w'
    · obtain ⟨t, s, tally, -, hc, hid, rfl⟩ := hn
      have hb := Store.claim_begins hc
      obtain ⟨counts, -, hm⟩ := hb.manager
      have hsid : (s.ticket t).id = id := by rw [hb.ticket]; exact hid
      rw [held?_queued hv ((hv.custody.queue.find id t).mpr ⟨hb.queued, hid⟩)]
      apply held?_running
      rw [toStore_depart, hm, ← hsid]
      exact Table.find?_insert_same ..
    · exact (sequel_agrees hs hn).held?

theorem failed_sequels (hw : w.Sound m) (hs : Sequels a w w') :
    w'.Failed m id ↔ w.Failed m id := by
  cases hf : (w.manager m).free id with
  | true => exact agrees_failed (free_sequels hf hw hs)
  | false =>
    have hh : (w.manager m).held? id ≠ none := fun h => by
      rw [Manager.held?_eq_none.mp h] at hf
      cases hf
    exact iff_of_false (fun h => hh (held?_sequels hw hs ▸ h.held?)) fun h => hh h.held?

theorem knows_sequels (hs : Sequels a w w') (h : (w'.manager i).knows t) :
    (w.manager i).knows t := by
  induction hs with
  | refl => exact h
  | tail _ hs ih => exact ih (knows_sequel hs h)

theorem Own.sequels (h : w.Own m id t) (hs : Sequels a w w') : w'.Own m id t where
  made := Nat.lt_of_lt_of_le h.made (size_sequels hs)
  id := (ticket_sequels hs h.made).1.trans h.id
  alone i hi hk := h.alone i hi (knows_sequels hs hk)

/-- A ticket that is spared stays as it is for its manager. -/
theorem Own.step (h : w.Own m id t) (hw : w.Founded) (hs : spares m t w mv) :
    (w.step mv).Own m id t := by
  suffices (w.effect mv).Own m id t from this.sequels (step_sequels hw mv)
  refine ⟨Nat.lt_of_lt_of_le h.made (keeps_effect w mv).tickets, .trans ?_ h.id,
    fun i hi hk => ?_⟩
  · cases mv with
    | call c =>
      rcases effect_call w c with ⟨-, he⟩ | he <;> rw [he]
      apply Store.id_call (s := w.toStore) h.made
      rintro j rfl
      exact hs rfl
    | _ => exact Ticket.id_of_lasting ((keeps_effect w _).ticket t h.made (Option.some_ne_none t))
  · rcases gains_effect hw mv i t hk with hk | hz | ⟨ts, rfl, hm⟩
    · exact h.alone i hi hk
    · exact Nat.not_lt_of_le hz h.made
    · exact hs hi hm

/-- Only the cancellation of its id and the end of its attempt dismiss a ticket that is spared. -/
theorem Own.dismisses (h : w.Own m id t) (hw : ∀ i, w.Sound i) (hs : spares m t w mv)
    (hd : w.Dismisses t mv) :
    (mv = .cancel m id ∧ ∃ s, w.withdraw m id = some (s, .dropped t)) ∨
      ∃ a r, mv = .reply a r ∧ w.Works a m t := by
  -- no other manager knows the ticket
  have own {i : Nat} (hk : (w.manager i).knows t) : i = m := by
    by_contra hi
    exact h.alone i hi hk
  cases mv with
  | call c =>
    cases c with
    | tell u => exact absurd (Option.some.inj hd) hs
    | manager i c =>
      cases c with
      | cancel d =>
        simp only [Dismisses, Store.dismisses] at hd
        split at hd
        · rename_i s u hx
          obtain rfl := Option.some.inj hd
          rcases Store.withdraw_cases hx with ⟨_, -, -, hv⟩ | ⟨-, _, queue, hq, -, hv⟩
          · cases hv
          · obtain rfl := Store.Withdrawal.dropped.inj hv
            have hf := Queue.find?_of_remove hq
            obtain rfl := own (.inr (.inl ⟨d, hf⟩))
            have hid := (((hw i).custody.queue.find d u).mp hf).2
            rw [h.id] at hid
            exact .inl ⟨by rw [hid], s, by rw [hid]; exact hx⟩
        · cases hd
      | _ => cases hd
    | _ => cases hd
  | reply a r =>
    obtain ⟨i, hwork⟩ := hd
    have hr := (hw i).tended.runs a t hwork
    obtain rfl := own (.inr (.inr ⟨_, hr⟩))
    exact .inr ⟨a, r, rfl, hwork⟩
  | clock now => cases hd
  | elapse nanos => cases hd

/-- Before the work fails nobody is told. -/
theorem Heralded.quiet (h : w.Heralded m id ts) (hf : ¬w.Failed m id) (ht : t ∈ ts) :
    (w.ticket t).notified = false :=
  Bool.eq_false_iff.mpr fun hn => hf (h.told t ht hn)

theorem heralded_none (hown : ∀ t ∈ ts, w.Own m id t) (hf : ¬w.Failed m id)
    (hn : ∀ t ∈ ts, (w.ticket t).notified = false) : w.Heralded m id ts where
  own := hown
  told t ht h := by simp [hn t ht] at h
  once t ht u _ h := by simp [hn t ht] at h
  done h := absurd h hf

theorem heralded_one (hown : ∀ t ∈ ts, w.Own m id t) (hf : w.Failed m id) (ht : t ∈ ts)
    (hn : ∀ u ∈ ts, (w.ticket u).notified = true ↔ t = u) : w.Heralded m id ts where
  own := hown
  told _ _ _ := hf
  once u hu v hv h h' := ((hn u hu).mp h).symm.trans ((hn v hv).mp h')
  done _ := ⟨t, ht, (hn t ht).mpr rfl⟩

/-- Nobody is told by a step that leaves the work where it is. -/
theorem Heralded.keep (h : w.Heralded m id ts) (hown : ∀ t ∈ ts, w'.Own m id t)
    (hf : w'.Failed m id ↔ w.Failed m id)
    (hn : ∀ t ∈ ts, (w'.ticket t).notified = (w.ticket t).notified) : w'.Heralded m id ts where
  own := hown
  told t ht h' := hf.mpr (h.told t ht (hn t ht ▸ h'))
  once t ht u hu h₁ h₂ := h.once t ht u hu (hn t ht ▸ h₁) (hn u hu ▸ h₂)
  done h' := by
    obtain ⟨t, ht, h'⟩ := h.done (hf.mp h')
    exact ⟨t, ht, (hn t ht).trans h'⟩

theorem Heralded.congr (h : w.Heralded m id ts) {us : List Nat} (hu : ∀ t, t ∈ us ↔ t ∈ ts) :
    w.Heralded m id us where
  own t ht := h.own t ((hu t).mp ht)
  told t ht := h.told t ((hu t).mp ht)
  once t ht u hu' := h.once t ((hu t).mp ht) u ((hu u).mp hu')
  done hf := by
    obtain ⟨t, ht, hn⟩ := h.done hf
    exact ⟨t, (hu t).mpr ht, hn⟩

/-- A move that leaves the work where it is, and is followed by nothing that tells its job. -/
theorem Heralded.follow (h : w.Heralded m id ts) (hh : ∀ t, (w.manager m).held? id = some t → t ∈ ts)
    (hv : v.Sound m) (ha : (w.manager m).Agrees (v.manager m) id) (hs : Sequels a v w')
    (hown : ∀ t ∈ ts, w'.Own m id t)
    (hn : ∀ t ∈ ts, (w'.ticket t).notified = (w.ticket t).notified) :
    w'.Heralded m id (ts ++ ((w'.manager m).held? id).toList) := by
  refine (h.keep hown ((failed_sequels hv hs).trans (agrees_failed ha)) hn).congr fun t => ?_
  rw [held?_sequels hv hs, ha.held?, List.mem_append, Option.mem_toList, or_iff_left_iff_imp]
  exact hh t

section Ending

variable {due : Option Nat} (h : w.Heralded m id ts) (hopen : ¬w.Failed m id)
  (hown : ∀ t ∈ ts, w'.Own m id t) (hv : v.Sound m) (hs : Sequels a v w')
  (hn : ∀ t, (w'.ticket t).notified = true ↔ (w.ticket t).notified = true ∨ due = some t)
include h hopen hown hv hs hn

/-- The work ends, and its job is told on account of its last ticket if it has failed. -/
theorem Heralded.ended (hfree : (v.manager m).free id = true) (ht : t ∈ ts)
    (hd : v.Failed m id ∧ due = some t ∨ ¬v.Failed m id ∧ due = none) :
    w'.Heralded m id (ts ++ ((w'.manager m).held? id).toList) := by
  have hq (u : Nat) (hu : u ∈ ts) : (w'.ticket u).notified = true ↔ due = some u := by
    rw [hn]
    exact or_iff_right (by simp [h.quiet hopen hu])
  rw [held?_sequels hv hs, Manager.held?_eq_none.mpr hfree, Option.toList_none, List.append_nil]
  rcases hd with ⟨hf, rfl⟩ | ⟨hf, rfl⟩
  · refine heralded_one hown ((failed_sequels hv hs).mpr hf) ht fun u hu => ?_
    rw [hq u hu, Option.some.injEq]
  · refine heralded_none hown (fun hx => hf ((failed_sequels hv hs).mp hx)) fun u hu => ?_
    exact Bool.eq_false_iff.mpr fun hx => nomatch (hq u hu).mp hx

/-- The work goes on with a ticket that was not used to tell the job. -/
theorem Heralded.renewed {n : Nat} (hq : (v.manager m).queue.find? id = some n)
    (hnew : v.Own m id n) (hnn : (w.ticket n).notified = false) (hd : due = none) :
    w'.Heralded m id (ts ++ ((w'.manager m).held? id).toList) := by
  have hheld := held?_queued hv hq
  rw [held?_sequels hv hs, hheld, Option.toList_some]
  apply heralded_none
  · intro u hu
    rcases List.mem_append.mp hu with hu | hu
    · exact hown u hu
    · exact List.mem_singleton.mp hu ▸ hnew.sequels hs
  · intro hx
    exact not_failed_of_held? hheld ((failed_sequels hv hs).mp hx)
  · intro u hu
    apply Bool.eq_false_iff.mpr
    intro hx
    rw [hn, hd] at hx
    have hx := hx.resolve_right nofun
    rcases List.mem_append.mp hu with hu | hu
    · rw [h.quiet hopen hu] at hx
      cases hx
    · rw [List.mem_singleton.mp hu, hnn] at hx
      cases hx

end Ending

section Step

variable (h : w.Heralded m id ts) (hw : ∀ i, w.Sound i)
  (hh : ∀ t, (w.manager m).held? id = some t → t ∈ ts)
include h hw hh

theorem Heralded.agree (hl : orderly w mv) (hs : ∀ t ∈ ts, spares m t w mv)
    (ha : (w.manager m).Agrees ((w.effect mv).manager m) id)
    (hn : ∀ t ∈ ts, ¬w.Dismisses t mv) :
    (w.step mv).Heralded m id (ts ++ (((w.step mv).manager m).held? id).toList) := by
  have hf := (hw m).founded
  refine h.follow hh ((hw m).effect (hl m)) ha (step_sequels hf mv)
    (fun t ht => (h.own t ht).step hf (hs t ht)) fun t ht => ?_
  obtain ⟨hstay, hnew⟩ := notified_step w mv t
  exact Bool.eq_iff_iff.mpr ⟨fun hx => (hnew hx).resolve_right (hn t ht), hstay⟩

/-- A queued ticket that is cancelled is the one on account of which its job is told. -/
theorem Heralded.cancel :
    (w.step (.cancel m id)).Heralded m id
      (ts ++ (((w.step (.cancel m id)).manager m).held? id).toList) := by
  have hs : ∀ t ∈ ts, spares m t w (.cancel m id) := fun _ _ => trivial
  have hl : orderly w (.cancel m id) := fun _ => trivial
  have hf := (hw m).founded
  by_cases hc : (Call.manager m (.cancel id)).inScope w.toStore = true
  · have hst := toStore_manage (w := w) hc
    rw [show w.manage m (.cancel id) = ((w.withdraw m id).map Prod.fst).getD w.toStore from rfl] at hst
    by_cases hd : ∃ s t, w.withdraw m id = some (s, .dropped t)
    · obtain ⟨s, t, hd⟩ := hd
      obtain ⟨hfree, hfin⟩ := Store.withdraw_dropped_ended hd
      rw [hd] at hst
      have ho : (w.effect (.cancel m id)).Over m id .cancelled := by
        constructor <;> rw [hst]
        · exact hfree
        · exact hfin
      have ht : (w.manager m).held? id = some t := by
        rcases Store.withdraw_cases hd with ⟨_, -, -, hv⟩ | ⟨-, u, queue, hq, -, hv⟩
        · cases hv
        · obtain rfl := Store.Withdrawal.dropped.inj hv
          exact held?_queued (hw m) (Queue.find?_of_remove hq)
      refine h.ended (not_failed_of_held? ht) (fun u hu => (h.own u hu).step hf (hs u hu))
        ((hw m).effect (hl m)) (step_sequels hf _)
        (notifies_call hc rfl).notified ho.free (hh t ht) (.inl ⟨.inr ho, ?_⟩)
      simp [Store.dismisses, hd]
    · refine h.agree hw hh hl hs (.of_eq ?_) fun t ht hn => ?_
      · rw [hst]
        cases hx : w.withdraw m id with
        | none => rfl
        | some p =>
          obtain ⟨s, d⟩ := p
          rcases Store.withdraw_cases hx with ⟨t, -, rfl, -⟩ | ⟨-, t, queue, -, -, rfl⟩
          · rfl
          · exact absurd ⟨s, t, hx⟩ hd
      · rcases (h.own t ht).dismisses hw (hs t ht) hn with ⟨-, s, hx⟩ | ⟨a, r, hx, -⟩
        · exact hd ⟨s, t, hx⟩
        · cases hx
  · have hst : w.step (.cancel m id) = w := if_neg hc
    rw [hst]
    exact h.follow hh (hw m) (.refl ..) (a := 0) .refl h.own fun _ _ => rfl

/-- An attempt that ends the work without success tells its job on account of its ticket. If
there is to be another, the work goes on with a ticket that was not used to tell the job. -/
theorem Heralded.reply (hwork : w.Works a m t) (hid : (w.ticket t).id = id) (r : Reply) :
    (w.step (.reply a r)).Heralded m id
      (ts ++ (((w.step (.reply a r)).manager m).held? id).toList) := by
  have hf := (hw m).founded
  have hrun : (w.manager m).running.find? id = some t := hid ▸ (hw m).tended.runs a t hwork
  have hheld := held?_running hrun
  have hopen := not_failed_of_held? hheld
  have hown : ∀ u ∈ ts, (w.step (.reply a r)).Own m id u :=
    fun u hu => (h.own u hu).step hf trivial
  rcases step_reply w a r with ⟨-, hst⟩ | ⟨f, hp, hx⟩
  · rw [hst]
    exact h.follow hh (hw m) (.refl ..) (a := 0) .refl h.own fun _ _ => rfl
  have hfw := (works_of_frame hp).mp hwork
  have he : (w.effect (.reply a r)).Sound m := (hw m).effect trivial
  have hsq := step_sequels hf (.reply a r)
  generalize w.effect (.reply a r) = e at hx he hsq
  generalize w.step (.reply a r) = w' at hx hsq hown
  cases hx with
  | passed w' hn =>
    rw [hn] at hfw
    cases hfw
  | asked v w' g q hv hg hn =>
    refine h.follow hh he (.of_eq (congrFun hv.manager m)) hsq hown fun u _ => ?_
    rw [Bool.eq_iff_iff, hn.notified]
    exact or_iff_left nofun
  | closed v w' k o hv hk hn =>
    have htk : v.ticket t = w.ticket t := congrFun hv.ticket t
    have hz : v.tickets = w.tickets := hv.tickets
    have hsettled := close_own (hw m) hwork (hk.trans hfw) hv o
    obtain ⟨n, since, tally, rfl⟩ := Caller.eq_of_work (hk.trans hfw)
    generalize v.close (.manager m t n since tally) o = e at he hsq hsettled
    rw [hid] at hsettled
    rcases hsettled with ⟨status, tell, -, hend, -, hover⟩ | ⟨-, ⟨d, hend⟩, hr⟩ |
      ⟨-, -, hend, hlose⟩
    · have hfail : e.Failed m id ↔ tell = true := by
        rw [Store.settle_tell hend, Failed, hover.unique, hover.unique]
      refine h.ended hopen hown he hsq hn.notified hover.free (hh t hheld) ?_
      rw [Store.tells_ended hend]
      cases tell with
      | true => exact .inl ⟨hfail.mpr rfl, rfl⟩
      | false => exact .inr ⟨fun hx => Bool.false_ne_true (hfail.mp hx), rfl⟩
    · have made : t < v.tickets.size := hz ▸ hf.works a m t hwork
      have hnamed := ((hf.erase a).replanned hv).store.named t made
      have hqueued := hr.queued hnamed
      rw [htk, hid] at hqueued
      have hunused : w.ticket v.tickets.size = default :=
        Registry.get_of_size_le (Nat.le_of_eq (congrArg _ hz.symm))
      refine h.renewed hopen hown he hsq hn.notified hqueued ⟨hr.made, ?_, fun i hi hk => ?_⟩
        (by rw [hunused]; rfl) (Store.tells_retried hend)
      · rw [← hid, ← htk, hnamed]
        exact hr.id
      · have hk : (v.manager i).knows v.tickets.size := hr.other i hi ▸ hk
        rw [hv.manager, hz] at hk
        exact Nat.lt_irrefl _ (hf.store.known i _ hk)
    · have hmgr := hlose.manager
      rw [congrFun hv.manager m, htk] at hmgr
      refine h.ended hopen hown he hsq hn.notified ?_ (hh t hheld)
        (.inr ⟨fun hx => ?_, Store.tells_error hend⟩)
      · rw [hmgr, Manager.free_iff]
        refine ⟨?_, (hw m).custody.apart id t hrun⟩
        rw [← hid]
        exact Table.find?_erase_same ..
      · have hfin : ∃ status, (w.manager m).finished.find? id = some status := by
          rcases hx with hx | hx <;> exact ⟨_, by have := hx.finished; rwa [hmgr] at this⟩
        have hfree := (hw m).custody.ended id ((Table.contains_iff ..).mpr hfin)
        rw [Manager.held?_eq_none.mpr hfree] at hheld
        cases hheld

/-- What becomes of a work in a step that does not admit its id. -/
theorem Heralded.step (hl : orderly w mv) (hs : ∀ t ∈ ts, spares m t w mv)
    (hn : ¬w.Admits m id (w.step mv).toStore) :
    (w.step mv).Heralded m id (ts ++ (((w.step mv).manager m).held? id).toList) := by
  by_cases hc : mv = .cancel m id
  · subst hc
    exact h.cancel hw hh
  by_cases hr : ∃ a r t, mv = .reply a r ∧ w.Works a m t ∧ (w.ticket t).id = id
  · obtain ⟨a, r, t, rfl, hwork, hid⟩ := hr
    exact h.reply hw hh hwork hid r
  have hf := (hw m).founded
  have ha : (w.manager m).Agrees ((w.effect mv).manager m) id :=
    (effect_agrees hf hc fun a r t he hwork hid => hr ⟨a, r, t, he, hwork, hid⟩).resolve_right
      fun he => hn (admits_step hf he)
  refine h.agree hw hh hl hs ha fun t ht hd => ?_
  rcases (h.own t ht).dismisses hw (hs t ht) hd with ⟨he, -⟩ | ⟨a, r, he, hwork⟩
  · exact hc he
  · exact hr ⟨a, r, t, he, hwork, (h.own t ht).id⟩

end Step

/-- What becomes of a work in a run that does not admit its id. -/
theorem Heralded.run {moves : List Move}
    (h : w.Heralded m id (old ++ ((w.manager m).held? id).toList)) (hw : ∀ i, w.Sound i)
    (hl : w.Along (fun w mv => orderly w mv ∧ ¬w.Admits m id (w.step mv).toStore) moves)
    (hs : ∀ t ∈ old ++ carriers m id w moves, w.Along (spares m t) moves) :
    (w.run moves).Heralded m id (old ++ carriers m id w moves) := by
  induction moves generalizing w old with
  | nil => exact h
  | cons mv moves ih =>
    simp only [carriers, ← List.append_assoc] at hs ⊢
    have hstep := h.step hw (fun t ht => List.mem_append_right _ (Option.mem_toList.mpr ht))
      hl.1.1 (fun t ht => (hs t (List.mem_append_left _ ht)).1) hl.1.2
    exact ih hstep (fun i => (hw i).step (hl.1.1 i)) hl.2 fun t ht => (hs t ht).2

/-- A ticket that is to be recovered was not used to tell its job, and no other manager has it. -/
def offersFresh (m : Nat) (id : String) (w : World) (mv : Move) : Prop :=
  ∀ ts t, mv = .call (.manager m (.recover ts)) → some t ∈ ts → (w.ticket t).id = id →
    (w.ticket t).notified = false ∧ ∀ i, i ≠ m → ¬(w.manager i).knows t

/-- What a manager knows under a free id it does not know. -/
theorem not_knows_of_free (hw : w.Sound m) (hf : (w.manager m).free id = true)
    (hid : (w.ticket t).id = id) : ¬(w.manager m).knows t := by
  obtain ⟨hr, hq⟩ := Manager.free_iff.mp hf
  have hnot : t ∉ (w.manager m).queue.order := fun ht => by
    rw [(hw.custody.queue.find id t).mpr ⟨ht, hid⟩] at hq
    cases hq
  rintro (ht | ⟨d, ht⟩ | ⟨d, ht⟩)
  · exact hnot ht
  · exact hnot ((hw.custody.queue.find d t).mp ht).1
  · obtain rfl := (hw.custody.own d t ht).symm.trans hid
    rw [hr] at ht
    cases ht

/-- What is admitted waits with a ticket that was not used to tell the job. -/
theorem heralded_admitted (hw : ∀ i, w.Sound i) (hl : orderly w mv)
    (ha : w.Admits m id (w.step mv).toStore) (ho : offersFresh m id w mv) :
    (w.step mv).Heralded m id ([] ++ (((w.step mv).manager m).held? id).toList) := by
  have hf := (hw m).founded
  have hv := (hw m).step (hl m)
  obtain ⟨⟨-, t, -, hq, -⟩, -⟩ := admission (hw m) (hl m) ha
  have hheld := held?_queued hv hq
  obtain ⟨ht, hid⟩ := holds_of_held? hv hheld
  have he := admits_effect (hw m) (hl m) ha
  obtain ⟨c, rfl, hc⟩ := admits_call (hw m) he
  rw [toStore_manage hc] at he
  obtain ⟨hcall, -⟩ := (Store.manage_waits hc he.1).resolve_left (Bool.eq_false_iff.mp he.2)
  have hsq := step_sequels hf (.call (.manager m c))
  -- the ticket is new, or it was offered
  have hfresh : (w.ticket t).notified = false ∧ ∀ i, i ≠ m → ¬(w.manager i).knows t := by
    by_cases hz : t < w.tickets.size
    · have hold : (w.ticket t).id = id := by
        have made := Nat.lt_of_lt_of_le hz (keeps_effect w (.call (.manager m c))).tickets
        rw [← hid, (ticket_sequels hsq made).1, toStore_manage hc]
        exact (Store.id_call (c := .manager m c) hz nofun).symm
      rcases gains_effect hf _ m t (knows_sequels hsq (knows_of_held? hheld)) with
        hk | hk | ⟨ts, hmv, hts⟩
      · exact absurd hk (not_knows_of_free (hw m) he.1 hold)
      · exact absurd hz (Nat.not_lt_of_le hk)
      · exact ho ts t hmv hts hold
    · rw [show w.ticket t = default from Registry.get_of_size_le (Nat.not_lt.mp hz)]
      exact ⟨rfl, fun i _ hk => hz (hf.store.known i t hk)⟩
  rw [hheld, Option.toList_some, List.nil_append]
  apply heralded_none
  · intro u hu
    rw [List.mem_singleton.mp hu]
    refine ⟨hv.custody.made t ht, hid, ?_⟩
    intro i hi hk
    apply hfresh.2 i hi
    have hk := knows_sequels hsq hk
    rwa [toStore_manage hc, Store.manager_manage hi] at hk
  · exact not_failed_of_held? hheld
  · intro u hu
    rw [List.mem_singleton.mp hu]
    apply Bool.eq_false_iff.mpr
    intro hx
    rcases (notified_step w _ t).2 hx with hx | hx
    · rw [hfresh.1] at hx
      cases hx
    · rcases hcall with ⟨j, rfl⟩ | ⟨ts, rfl⟩ <;> cases hx

/-- The job of a work that is over was told once if the work failed, and never otherwise. -/
theorem Heralded.count {P : World → Move → Prop} (h : w.Heralded m id ts)
    (hr : ReachableBy P w) [Decidable (w.Failed m id)] :
    w.notices.countP (· ∈ ts) = if w.Failed m id then 1 else 0 := by
  split
  · rename_i hf
    obtain ⟨t, ht, hn⟩ := h.done hf
    have hc := notices_count hr t
    rw [if_pos hn] at hc
    rw [← hc, List.count]
    refine List.countP_congr fun u hu => ?_
    simp only [decide_eq_true_eq, beq_iff_eq]
    constructor
    · intro hut
      exact h.once u hut t ht (notified_of_notice hr hu) hn
    · rintro rfl
      exact ht
  · rename_i hf
    rw [List.countP_eq_zero]
    intro t ht hts
    exact hf (h.told t (of_decide_eq_true hts) (notified_of_notice hr ht))

/-- The statuses that stand for an end without success are those of a work that has failed. -/
theorem status_failed (ticket : Nat → Ticket) (now : Int) :
    (w.manager m).status ticket now id ∈ [Status.failed, .cancelled] ↔ w.Failed m id := by
  constructor
  · intro h
    cases hfree : (w.manager m).free id with
    | false =>
      -- a work that is queued or running has another status
      simp only [Manager.status] at h
      split at h
      · simp at h
      rename_i hr
      cases hq : (w.manager m).queue.find? id with
      | none =>
        rw [Manager.free, Bool.eq_false_iff.mpr hr] at hfree
        change (!false && !((w.manager m).queue.find? id).isSome) = false at hfree
        rw [hq] at hfree
        cases hfree
      | some t =>
        rw [hq] at h
        dsimp only at h
        split at h <;> simp at h
    | true =>
      rw [status_of_free hfree] at h
      cases hfin : (w.manager m).finished.find? id with
      | none => simp [hfin] at h
      | some status =>
        rw [hfin, Option.getD_some] at h
        rcases List.mem_cons.mp h with rfl | h
        · exact .inl ⟨hfree, hfin⟩
        · obtain rfl := List.mem_singleton.mp h
          exact .inr ⟨hfree, hfin⟩
  · rintro (h | h) <;> rw [h.status_eq] <;> simp

/-- How a call to add a job ends: at once if the job is refused, else once it was welcomed. -/
theorem answers_add {P : World → Move → Prop} (h : ReachableBy P w) (hf : w.Founded) {j : Nat}
    (hc : (Call.manager m (.add (some j))).inScope w.toStore = true) (moves : List Move) :
    ((w.step (.call (.manager m (.add (some j))))).run moves).answers w.calls =
      if (w.enlist m j).isSome then
        endings w.calls (.flag true) (reply? w.calls (.told (.give (.flag true))) moves)
      else [.returned w.calls (.flag false)] := by
  have hnone := answers_of_calls_le h (Nat.le_refl w.calls)
  have hcalls : w.calls < (w.step (.call (.manager m (.add (some j))))).calls := by
    rw [calls_step hf, calls_effect, if_pos hc]
    exact Nat.lt_succ_self _
  split
  · rename_i he
    have hg : w.greets (.call (.manager m (.add (some j)))) ≠ [] := by
      simp [greets, hc, Store.greets, he]
    obtain ⟨_, _, v, -, -, -, -, ha, hs⟩ := step_greets hg
    refine answers_told (hf.step _) ?_ ?_ moves <;> rw [hs]
    · exact Table.find?_insert_same ..
    · exact (ha w.calls).trans hnone
  · rename_i he
    have hs : w.step (.call (.manager m (.add (some j)))) =
        World.give { w with calls := w.calls + 1 } w.calls (.flag false) := by
      refine (if_pos hc).trans ?_
      change World.add { w with calls := w.calls + 1 } w.calls m (some j) = _
      simp only [add]
      rw [Option.not_isSome_iff_eq_none.mp he]
    have hp : (w.step (.call (.manager m (.add (some j))))).pending.find? w.calls = none := by
      rw [hs]
      exact Option.eq_none_iff_forall_ne_some.mpr fun f hp =>
        Nat.lt_irrefl _ (hf.numbered _ f hp)
    rw [ended_run (hf.step _) hcalls hp, hs, answers_give]
    exact congrArg _ hnone

/-- A job that is added is welcomed once by the call that adds it, which answers after that, and
no other call welcomes anybody. On account of the tickets that carry an admitted work its job is
told once that it ended without success if that is what the manager reports, and never
otherwise. The manager reports so already when the job is told. -/
theorem hooks_called_once (h : ReachableBy orderly w) :
    (∀ c, c.inScope w.toStore = true → ∀ moves,
      ((w.step (.call c)).run moves).welcomes w.calls = w.toStore.greets c ∧
      ∀ i j, c = .manager i (.add (some j)) →
        ((w.step (.call c)).run moves).answers w.calls =
          if (w.enlist i j).isSome then
            endings w.calls (.flag true) (reply? w.calls (.told (.give (.flag true))) moves)
          else [.returned w.calls (.flag false)]) ∧
    ∀ m id mv, orderly w mv → w.Admits m id (w.step mv).toStore → offersFresh m id w mv →
      ∀ moves v, v = (w.step mv).run moves →
        (w.step mv).Along (fun w mv => orderly w mv ∧ ¬w.Admits m id (w.step mv).toStore) moves →
        (∀ t ∈ carriers m id (w.step mv) moves, (w.step mv).Along (spares m t) moves) →
        (∀ now, v.notices.countP (· ∈ carriers m id (w.step mv) moves) =
          if (v.manager m).status v.ticket now id ∈ [Status.failed, .cancelled] then 1 else 0) ∧
        ∀ before last a j t, moves = before ++ [last] →
          .asked a (.ended j t) ∈ ((w.step mv).run before).news v →
          t ∈ carriers m id (w.step mv) moves →
          (v.ticket t).job = j ∧ (∃ next, v.pending.find? a = some (.told next)) ∧
            ∀ now, (v.manager m).status v.ticket now id ∈ [Status.failed, .cancelled] := by
  have hw (i : Nat) : w.Sound i := h.induction (Sound.start i) fun _ _ h hl => h.step (hl i)
  have hf := (hw 0).founded
  constructor
  · intro c hc moves
    refine ⟨welcomes_call h hf hc moves, ?_⟩
    rintro i j rfl
    exact answers_add h hf hc moves
  intro m id mv hl ha ho moves v hv hu hs
  have hher : v.Heralded m id ([] ++ carriers m id (w.step mv) moves) := by
    rw [hv]
    exact (heralded_admitted hw hl ha ho).run (fun i => (hw i).step (hl i)) hu hs
  rw [List.nil_append] at hher
  have hr : ReachableBy (fun _ _ => True) v := by
    obtain ⟨now, ms, -, rfl⟩ := h
    exact ⟨now, ms ++ mv :: moves, along_true .., by rw [hv, run_append]; rfl⟩
  constructor
  · intro now
    classical
    rw [hher.count hr]
    simp only [status_failed]
  · rintro before last a j t rfl he ht
    have hv : v = ((w.step mv).run before).step last := by rw [hv, run_append]; rfl
    obtain ⟨hnotice, hjob, hwait⟩ :
        t ∈ v.notices ∧ (v.ticket t).job = j ∧ ∃ next, v.pending.find? a = some (.told next) := by
      rw [hv] at he ⊢
      exact told_step he
    have hfail := hher.told t ht (notified_of_notice hr hnotice)
    exact ⟨hjob, hwait, fun now => (status_failed ..).mpr hfail⟩

/-- A manager and a job that may be tried twice. -/
def readied : List Move :=
  [.call (.makeJob { id := "a", retryLimit := 2, asksPlan := true }), .call (.makeManager {})]

/-- The job is queued and welcomed. -/
def joins : Move := .call (.manager 0 (.add (some 0)))

/-- The job fails once and is cancelled while it waits for its second attempt. It throws when it
is told so. -/
def leaves : List Move :=
  [.reply 2 .done, .call (.manager 0 .runNext), .reply 3 (.failed "late"), .reply 3 (.plan .again),
    .cancel 0 "a", .reply 4 (.threw (.runtime "no"))]

theorem hooks_called_once_retried :
    ((((start 0).run readied).step joins).run leaves).welcomes 2 = [(0, 0)] ∧
      ((((start 0).run readied).step joins).run leaves).answers 2 = [.returned 2 (.flag true)] ∧
      carriers 0 "a" (((start 0).run readied).step joins) leaves = [0, 0, 0, 0, 1] ∧
      ((((start 0).run readied).step joins).run leaves).notices.countP (· ∈ [0, 0, 0, 0, 1]) = 1 := by
  have h : ReachableBy orderly ((start 0).run readied) :=
    ⟨0, readied, by simp only [readied, Along, orderly, lawful, implies_true, and_self], rfl⟩
  obtain ⟨hadd, hwork⟩ := hooks_called_once h
  obtain ⟨hwelcome, hanswer⟩ := hadd (.manager 0 (.add (some 0))) (by decide) leaves
  have hcarriers : carriers 0 "a" (((start 0).run readied).step joins) leaves = [0, 0, 0, 0, 1] := by
    decide +kernel
  have ha : ((start 0).run readied).Admits 0 "a" (((start 0).run readied).step joins).toStore := by
    unfold Store.Admits
    decide
  have hu : (((start 0).run readied).step joins).Along
      (fun w mv => orderly w mv ∧ ¬w.Admits 0 "a" (w.step mv).toStore) leaves := by
    simp only [leaves, Along, orderly, lawful, Store.Admits, implies_true, true_and, and_true]
    decide
  have hs : ∀ t ∈ carriers 0 "a" (((start 0).run readied).step joins) leaves,
      (((start 0).run readied).step joins).Along (spares 0 t) leaves := by
    intro t _
    simp only [leaves, Along, spares, and_self]
  have ho : offersFresh 0 "a" ((start 0).run readied) joins := by
    intro ts t he
    cases he
  obtain ⟨hcount, -⟩ := hwork 0 "a" joins (fun _ => trivial) ha ho leaves _ rfl hu hs
  rw [hcarriers] at hcount
  refine ⟨hwelcome.trans (by decide +kernel), (hanswer 0 0 rfl).trans (by decide +kernel),
    hcarriers, (hcount 0).trans (if_pos ?_)⟩
  decide +kernel

end World

end Backlog
