import Backlog.Proofs.Admissions
import Backlog.Proofs.Departures

/-!
# What recovery leaves alone

Recovery asks of a ticket whether it is cancelled and whose session it has, and not what became
of its work. So a ticket that was cancelled and has left all managers never comes back to one,
whatever is offered for recovery. One whose work has succeeded can.
-/

namespace Backlog

namespace Store

variable {s s' : Store} {m t : Nat}

/-- The ticket was cancelled, and no manager has it. -/
structure Discarded (s : Store) (t : Nat) : Prop where
  made : t < s.tickets.size
  cancelled : (s.ticket t).cancelled = true
  unknown : ∀ m, ¬(s.manager m).knows t

theorem Discarded.reclaim (h : s.Discarded t) (m : Nat) : s.reclaim m t = (s, .ignored) := by
  simp only [Store.reclaim]
  rw [h.cancelled, Bool.true_or, if_pos rfl]

/-- Only a ticket that is not cancelled is taken in. -/
theorem Discarded.takesIn (h : s.Discarded t) {u : Nat} (hi : TakesIn m u s s') :
    s'.Discarded t := by
  have hc : (s'.ticket t).cancelled = true := by
    rw [Ticket.cancelled_of_lasting (hi.keeps.lasting h.made), h.cancelled]
  refine ⟨Nat.lt_of_lt_of_le h.made hi.keeps.tickets, hc, fun i ht => ?_⟩
  rcases hi.gains i t ht with ht | ⟨-, rfl⟩
  · exact h.unknown i ht
  · rw [hi.live] at hc
    cases hc

/-- No operation of a manager brings the ticket back, not even its recovery. -/
theorem Discarded.manage (h : s.Discarded t) {c : ManagerCall}
    (hc : (Call.manager m c).inScope s = true) : (s.manage m c).Discarded t := by
  have same {f : Manager → Manager} (hf : (f (s.manager m)).knows t → (s.manager m).knows t) :
      (s.onManager m f).Discarded t := by
    refine ⟨h.made, h.cancelled, fun i ht => h.unknown i ?_⟩
    rw [manager_onManager] at ht
    split at ht
    · rename_i hi
      exact hi ▸ hf ht
    · exact ht
  refine manage_induction (P := fun r => r.Discarded t) hc h (fun _ _ _ h _ hi => h.takesIn hi)
    (fun id s' v _ hw => ?_) (fun up _ => same fun ht => ht) fun _ => same fun ht => ht
  have hcall : s' = s.call (.manager m (.cancel id)) := by
    change s' = ((s.withdraw m id).map Prod.fst).getD s
    rw [hw]
    rfl
  refine ⟨Nat.lt_of_lt_of_le h.made (keeps_withdraw hw).tickets, ?_, fun i ht => ?_⟩
  · rw [hcall]
    exact cancelled_call h.made h.cancelled _
  · exact h.unknown i ((withdraw_gains hw i t ht).resolve_right fun h => h)

theorem Discarded.call (h : s.Discarded t) {c : Call} (hc : c.inScope s = true) :
    (s.call c).Discarded t := by
  by_cases hm : ∃ m d, c = .manager m d
  · obtain ⟨m, d, rfl⟩ := hm
    exact h.manage hc
  · refine ⟨Nat.lt_of_lt_of_le h.made (keeps_call s c).tickets,
      cancelled_call h.made h.cancelled c, fun i ht => ?_⟩
    rcases gains_call hc i t ht with ht | ht | ⟨ts, rfl, -⟩
    · exact h.unknown i ht
    · exact absurd h.made (Nat.not_lt.mpr ht)
    · exact hm ⟨i, _, rfl⟩

end Store

namespace World

variable {w w' : World} {a m t : Nat}

theorem discarded_effect (hw : w.Founded) (h : w.Discarded t) (mv : Move) :
    (w.effect mv).Discarded t := by
  have made := Nat.lt_of_lt_of_le h.made (keeps_effect w mv).tickets
  have hc := cancelled_effect h.made h.cancelled mv
  cases mv with
  | call c =>
    rcases effect_call w c with ⟨hs, he⟩ | he
    · rw [he]
      exact h.call hs
    · rw [he]
      exact h
  | _ =>
    refine ⟨made, hc, fun i ht => ?_⟩
    rcases gains_effect hw _ i t ht with ht | ht | ⟨ts, he, -⟩
    · exact h.unknown i ht
    · exact absurd h.made (Nat.not_lt.mpr ht)
    · cases he

theorem discarded_sequel (h : w.Discarded t) (hs : Sequel a w w') : w'.Discarded t := by
  refine ⟨?_, ?_, fun i ht => h.unknown i (knows_sequel hs ht)⟩
  · exact Nat.lt_of_lt_of_le h.made (size_sequels (.single hs))
  · rw [cancelled_sequel hs h.made, h.cancelled]

theorem discarded_step (hw : w.Founded) (h : w.Discarded t) (mv : Move) :
    (w.step mv).Discarded t := by
  have he := discarded_effect hw h mv
  have hs := step_sequels hw mv
  generalize w.step mv = w' at hs
  induction hs with
  | refl => exact he
  | tail _ hs ih => exact discarded_sequel ih hs

/-- A manager begins attempts of tickets that it has. -/
theorem not_departs (hw : w.Founded) (h : w.Discarded t) (m : Nat) (mv : Move) :
    t ∉ w.departures m mv := by
  intro ht
  rcases step_departs hw m mv with ⟨hn, -⟩ | ⟨u, hu, hd⟩
  · rw [hn] at ht
    cases ht
  · rw [hu, List.mem_singleton] at ht
    subst ht
    exact (discarded_effect hw h mv).unknown m (.inl hd.begins.queued)

theorem discarded_run (hw : w.Founded) (h : w.Discarded t) (moves : List Move) :
    w.Along (fun v mv => ∀ m, t ∉ v.departures m mv) moves ∧ (w.run moves).Discarded t := by
  induction moves generalizing w with
  | nil => exact ⟨trivial, h⟩
  | cons mv moves ih =>
    have hn := ih (hw.step mv) (discarded_step hw h mv)
    exact ⟨⟨fun m => not_departs hw h m mv, hn.1⟩, hn.2⟩

/-- A ticket that was cancelled and has left all managers is in none of them again and begins no
other attempt, whatever happens and whichever tickets are offered for recovery. -/
theorem cancelled_never_recovered (hw : w.Reachable) (made : t < w.tickets.size)
    (hc : (w.ticket t).cancelled = true) (hn : ∀ m, ¬(w.manager m).knows t) (moves : List Move) :
    w.Along (fun v mv => ∀ m, t ∉ v.departures m mv) moves ∧
      ∀ m, ¬((w.run moves).manager m).knows t ∧
        (w.run moves).reclaim m t = ((w.run moves).toStore, .ignored) := by
  have hf : w.Founded := hw.induction Founded.start fun _ mv h => h.step mv
  obtain ⟨ha, h⟩ := discarded_run hf ⟨made, hc, hn⟩ moves
  exact ⟨ha, fun m => ⟨h.unknown m, h.reclaim m⟩⟩

/-- A recovered ticket is cancelled while it waits. -/
def withdrawn : List Move :=
  [.call (.makeManager {}), .call (.makeJob { id := "a" }),
    .call (.build { job := some 0, priority := some 0, created := some 0, session := some 0 }),
    .call (.manager 0 (.recover [some 0])), .call (.manager 0 (.cancel "a")), .reply 4 .done]

/-- A second manager is made, and offered the first ticket. -/
def offered : List Move := [.call (.makeManager {}), .call (.manager 1 (.recover [some 0]))]

theorem unknown_withdrawn (m : Nat) : ¬(((start 0).run withdrawn).manager m).knows 0 := by
  have hd : (((start 0).run withdrawn).manager m).knows 0 ↔ (default : Manager).knows 0 := by
    cases m with
    | zero => exact Manager.knows_congr rfl rfl rfl
    | succ m => exact Manager.knows_congr rfl rfl rfl
  rw [hd]
  exact Manager.knows_default

theorem cancelled_never_recovered_withdrawn :
    (((start 0).run withdrawn).ticket 0).cancelled = true ∧
      ¬((((start 0).run withdrawn).run offered).manager 1).knows 0 :=
  ⟨by decide, ((cancelled_never_recovered ⟨0, withdrawn, rfl⟩ (by decide) (by decide)
    unknown_withdrawn offered).2 1).1⟩

/-- The first manager recovers a ticket and runs it, and its work succeeds. -/
def succeeds : List Move :=
  [.call (.makeManager {}), .call (.makeJob { id := "a" }),
    .call (.build { job := some 0, priority := some 0, created := some 0, session := some 0 }),
    .call (.manager 0 (.recover [some 0])), .call (.manager 0 .runNext), .reply 4 .succeeded]

/-- The second manager queues the ticket all the same, and runs it again. -/
theorem successful_recovered :
    (((start 0).run succeeds).ticket 0).successful = true ∧
      (((start 0).run succeeds).manager 0).finished.find? "a" = some .succeeded ∧
      .returned 6 (.count 1) ∈ (((start 0).run succeeds).run offered).history ∧
      (((start 0).run succeeds).run offered).departures 1 (.call (.manager 1 .runNext)) = [0] := by
  decide

end World

end Backlog
