import Backlog.Proofs.Attempts
import Backlog.Proofs.Retention

/-!
# Queues that stand alone

A queue keeps the tickets that it accepted, in both halves and in run order, until it hands
them out. The client must not give a queued ticket another priority, age or job. Its tickets
may stand in other queues as well, and managers may run them.
-/

namespace Backlog

/-- What the event says that an operation returned. -/
def Event.value? : Event → Option Value
  | .returned _ v => some v
  | _ => none

/-- The ticket that the operation of a queue took in, by what it returned. -/
def QueueCall.taken : QueueCall → Value → Option Nat
  | .push t, .flag true => t
  | _, _ => none

/-- The ticket that the operation of a queue handed out, by what it returned. -/
def QueueCall.handed : QueueCall → Value → Option Nat
  | .next .., .ref t | .remove _, .ref t => t
  | _, _ => none

namespace Store

variable {s s' : Store} {x : Option Nat} {q t : Nat}

/-- Queue `q` holds the same tickets in both halves, and they stand in run order. -/
structure InOrder (q : Nat) (s : Store) : Prop where
  indexed : (s.queue q).Indexed s.ticket
  ordered : (s.queue q).Ordered s.ticket

namespace InOrder

theorem congr (h : s.InOrder q) (hq : s'.queue q = s.queue q)
    (hp : ∀ t ∈ (s.queue q).order, (s'.ticket t).place = (s.ticket t).place) : s'.InOrder q where
  indexed := hq ▸ h.indexed.congr fun t ht => Ticket.id_of_place (hp t ht)
  ordered := hq ▸ h.ordered.congr hp

/-- Queued tickets that neither edits nor claims touch keep their places. -/
theorem keep (h : s.InOrder q) (hf : s.Founded) (hk : Keeps none s s') (hr : Retains x s s')
    (hq : s'.queue q = s.queue q) : s'.InOrder q :=
  h.congr hq fun t ht =>
    hk.place hr (hf.queued q t ht) (Option.some_ne_none t) (h.ordered.stamped t ht)

theorem setQueue {queue : Queue} (hi : queue.Indexed s.ticket) (ho : queue.Ordered s.ticket) :
    (s.setQueue q queue).InOrder q := by
  have hq : (s.setQueue q queue).queue q = queue := queue_setQueue_same ..
  exact ⟨hq.symm ▸ hi, hq.symm ▸ ho⟩

/-- An operation of the queue keeps its tickets in order, and none gets in or out but those that
it says. -/
theorem callQueue (h : s.InOrder q) (hf : s.Founded) (c : QueueCall) :
    (s.callQueue q c).1.InOrder q ∧ ((c.taken (s.callQueue q c).2).toList ++ (s.queue q).order).Perm
      ((c.handed (s.callQueue q c).2).toList ++ ((s.callQueue q c).1.queue q).order) := by
  cases c with
  | push t =>
    cases t with
    | none => exact ⟨h, .refl _⟩
    | some t =>
      simp only [Store.callQueue]
      cases hp : s.push (s.queue q) t with
      | none => exact ⟨h, .refl _⟩
      | some p =>
        obtain ⟨s', queue⟩ := p
        obtain ⟨ha, rfl, rfl⟩ := push_eq_some.mp hp
        obtain ⟨stamp, hstamp⟩ := ticket_stampTicket s t t
        have hr := retains_custody (reaches_stampTicket s t)
        have hqueue := hr.queue q (Option.some_ne_none q)
        have hs := h.keep hf (keeps_stampTicket s t) hr hqueue
        have hn : (s.queue q).index.contains ((s.stampTicket t).ticket t).id = false := by
          simp only [Queue.accepts, Bool.and_eq_true, Bool.not_eq_true'] at ha
          rw [hstamp]
          exact ha.2
        have hi := hqueue ▸ hs.indexed
        refine ⟨setQueue (hi.insert hn)
          ((hqueue ▸ hs.ordered).insert (stamped_stampTicket s t)), ?_⟩
        dsimp only
        rw [queue_setQueue_same]
        exact (hi.insert_perm hn).symm
  | next now network busy =>
    simp only [Store.callQueue]
    cases hr : (s.queue q).ready? s.ticket now network busy with
    | none => exact ⟨h, .refl _⟩
    | some t =>
      have ht : t ∈ (s.queue q).order := List.mem_of_find?_eq_some hr
      refine ⟨setQueue (h.indexed.leave ht _) (h.ordered.sublist List.erase_sublist), ?_⟩
      dsimp only
      rw [queue_setQueue_same]
      exact List.perm_cons_erase ht
  | remove id =>
    simp only [Store.callQueue]
    cases hr : (s.queue q).remove s.ticket id with
    | none => exact ⟨h, .refl _⟩
    | some p =>
      obtain ⟨t, queue⟩ := p
      obtain ⟨ht, rfl, rfl⟩ := h.indexed.remove hr
      refine ⟨setQueue (h.indexed.leave ht _) (h.ordered.sublist List.erase_sublist), ?_⟩
      dsimp only
      rw [queue_setQueue_same]
      exact List.perm_cons_erase ht
  | delayGroup group d =>
    have hr := retains_custody (s := s) (reaches_delayGroup (s.queue q) group d fun _ _ _ => trivial)
    exact ⟨h.keep hf (keeps_delayGroup ..) hr rfl, .refl _⟩
  | close =>
    refine ⟨setQueue h.indexed.close ⟨h.ordered.stamped, h.ordered.sorted⟩, ?_⟩
    simp only [Store.callQueue]
    rw [queue_setQueue_same]
    exact .refl _

end InOrder

end Store

namespace World

/-- What the operation returned that the move begins or lets go on, if it returned at once. -/
def returned (w : World) (mv : Move) : Option Value :=
  (w.news (w.step mv)).findSome? Event.value?

/-- The ticket that queue `q` accepted by the move. -/
def accepted (q : Nat) (w : World) : Move → Option Nat
  | .call (.queue i c) => if i = q then (w.returned (.call (.queue i c))).bind c.taken else none
  | _ => none

/-- The ticket that queue `q` handed out by the move. -/
def handed (q : Nat) (w : World) : Move → Option Nat
  | .call (.queue i c) => if i = q then (w.returned (.call (.queue i c))).bind c.handed else none
  | _ => none

/-- What is seen of the moves along a run. -/
def along {α : Type} (f : World → Move → Option α) : World → List Move → List α
  | _, [] => []
  | w, mv :: moves => (f w mv).toList ++ along f (w.step mv) moves

variable {w w' : World} {a q t : Nat} {mv : Move}

/-- A move that changes nothing returns nothing. -/
theorem returned_of_still (h : w.step mv = w) : w.returned mv = none := by
  rw [returned, h, news_eq (List.nil_append _).symm]
  rfl

/-- What an operation of a queue does and returns. -/
theorem step_queue {c : QueueCall} (hc : (Call.queue q c).inScope w.toStore = true) :
    (w.step (.call (.queue q c))).toStore = (w.callQueue q c).1 ∧
      w.returned (.call (.queue q c)) = some (w.callQueue q c).2 := by
  have hs : w.step (.call (.queue q c)) =
      World.perform { w with calls := w.calls + 1 } w.calls (.queue q c) := if_pos hc
  have hh : (w.step (.call (.queue q c))).history =
      [.returned w.calls (w.callQueue q c).2] ++ w.history := by
    rw [hs]
    rfl
  refine ⟨by rw [hs]; rfl, ?_⟩
  rw [returned, news_eq hh]
  rfl

/-- A move is an operation of the queue that is carried out, or the queue stays as it is and takes
and hands out nothing. -/
theorem queue_step (hf : w.Founded) (q : Nat) (mv : Move) :
    (∃ c, mv = .call (.queue q c) ∧ (Call.queue q c).inScope w.toStore = true) ∨
      (w.step mv).queue q = w.queue q ∧ w.accepted q mv = none ∧ w.handed q mv = none := by
  by_cases hc : ∃ c, mv = .call (.queue q c) ∧ (Call.queue q c).inScope w.toStore = true
  · exact .inl hc
  right
  by_cases hq : some q = queue? mv
  · -- an operation of a queue that was not made
    obtain ⟨c, rfl⟩ : ∃ c, mv = .call (.queue q c) := by
      cases mv with
      | call c =>
        cases c with
        | queue i c => exact ⟨c, by rw [Option.some.inj hq]⟩
        | _ => cases hq
      | _ => cases hq
    have hs : w.step (.call (.queue q c)) = w := if_neg fun hs => hc ⟨c, rfl, hs⟩
    have hr : w.returned (.call (.queue q c)) = none := returned_of_still hs
    exact ⟨by rw [hs], by simp [accepted, hr], by simp [handed, hr]⟩
  · refine ⟨(queue_sequels (step_sequels hf mv) q).trans ((retains_effect w mv).queue q hq), ?_⟩
    cases mv with
    | call c =>
      cases c with
      | queue i c =>
        have hi : i ≠ q := fun hi => hq (by rw [hi]; rfl)
        exact ⟨if_neg hi, if_neg hi⟩
      | _ => exact ⟨rfl, rfl⟩
    | _ => exact ⟨rfl, rfl⟩

/-- A queue changes by its own operations, which keep account of its tickets. -/
theorem inOrder_step (h : w.InOrder q) (hf : w.Founded) (hu : unmoved (w.queue q).order mv) :
    (w.step mv).InOrder q ∧ ((w.accepted q mv).toList ++ (w.queue q).order).Perm
      ((w.handed q mv).toList ++ ((w.step mv).queue q).order) := by
  rcases queue_step hf q mv with ⟨c, rfl, hc⟩ | ⟨hq, ha, hh⟩
  · obtain ⟨hs, hr⟩ := step_queue hc
    rw [hs]
    simp only [accepted, handed, if_pos, hr, Option.bind_some]
    exact h.callQueue hf.store c
  · rw [ha, hh, hq]
    refine ⟨h.congr hq fun t ht => ?_, .refl _⟩
    refine (place_sequels (step_sequels hf mv) t).trans (place_effect (hf.store.queued q t ht)
      (h.ordered.stamped t ht) fun e he => ?_)
    subst he
    exact hu ht

theorem inOrder_run (h : w.InOrder q) (hf : w.Founded) {moves : List Move}
    (hu : w.Along (fun w mv => unmoved (w.queue q).order mv) moves) :
    (w.run moves).InOrder q ∧ (along (accepted q) w moves ++ (w.queue q).order).Perm
      (along (handed q) w moves ++ ((w.run moves).queue q).order) := by
  induction moves generalizing w with
  | nil => exact ⟨h, .refl _⟩
  | cons mv moves ih =>
    obtain ⟨hi, hp⟩ := inOrder_step h hf hu.1
    obtain ⟨hi', hp'⟩ := ih hi (hf.step mv) hu.2
    refine ⟨hi', ?_⟩
    apply List.perm_iff_count.mpr
    intro t
    have hc := hp.count_eq t
    have hc' := hp'.count_eq t
    simp only [along, run_cons, List.count_append] at hc hc' ⊢
    omega

theorem inOrder_start (now : Int) (q : Nat) : (start now).InOrder q :=
  ⟨Queue.indexed_empty _, Queue.ordered_empty _⟩

/-- A queue whose tickets keep their places is in order. -/
theorem ReachableBy.inOrder (h : ReachableBy (fun w mv => unmoved (w.queue q).order mv) w) :
    w.InOrder q := by
  obtain ⟨now, moves, hu, rfl⟩ := h
  exact (inOrder_run (inOrder_start now q) (.start now) hu).1

/-- The index of a queue has the queued tickets and no others, each under its own id. Their ids
are distinct, all have stamps, and they stand by priority, age, stamp and the bytes of the id. A
ticket that was accepted is queued until it is handed out, and no ticket is queued twice. -/
theorem queue_kept {now : Int} {moves : List Move}
    (hu : (start now).Along (fun w mv => unmoved (w.queue q).order mv) moves)
    (hw : w = (start now).run moves) :
    (∀ id t, (w.queue q).find? id = some t ↔ t ∈ (w.queue q).order ∧ (w.ticket t).id = id) ∧
    ((w.queue q).order.map fun t => (w.ticket t).id).Nodup ∧
    (∀ t ∈ (w.queue q).order, (w.ticket t).stamp.isSome = true) ∧
    (w.queue q).order.Pairwise (fun t u => (w.ticket t).Precedes (w.ticket u)) ∧
    (along (accepted q) (start now) moves).Perm
      (along (handed q) (start now) moves ++ (w.queue q).order) ∧
    (w.queue q).size + (along (handed q) (start now) moves).length =
      (along (accepted q) (start now) moves).length := by
  subst hw
  obtain ⟨hi, hp⟩ := inOrder_run (inOrder_start now q) (.start now) hu
  have hp : (along (accepted q) (start now) moves).Perm (along (handed q) (start now) moves ++
      (((start now).run moves).queue q).order) := by
    rwa [show ((start now).queue q).order = [] from rfl, List.append_nil] at hp
  refine ⟨hi.indexed.find, hi.indexed.distinct, hi.ordered.stamped, hi.ordered.sorted, hp, ?_⟩
  have hl := hp.length_eq
  rw [List.length_append] at hl
  rw [Queue.size]
  omega

/-- Three tickets of one stamp are pushed into a queue, and one of them into a second queue. -/
def colliding : List Move :=
  [.call (.makeJob { id := "b" }), .call (.makeJob { id := "a" }), .call (.makeJob { id := "c" }),
    .call (.build { job := some 0, priority := some 1, session := some 1, created := some 0, stamp := some 7 }),
    .call (.build { job := some 1, priority := some 1, session := some 1, created := some 0, stamp := some 7 }),
    .call (.build { job := some 2, priority := some 2, session := some 1, created := some 0, stamp := some 7 }),
    .call .makeQueue, .call .makeQueue, .call (.queue 0 (.push (some 0))),
    .call (.queue 0 (.push (some 1))), .call (.queue 1 (.push (some 0))),
    .call (.queue 0 (.push (some 2))), .call (.queue 0 (.next 0 true .empty)),
    .call (.editTicket 0 (.runs 3)), .call (.queue 0 (.remove "d"))]

theorem queue_kept_colliding :
    (((start 0).run colliding).queue 0).order = [1, 0] ∧
      (((start 0).run colliding).ticket 1).Precedes (((start 0).run colliding).ticket 0) ∧
      along (handed 0) (start 0) colliding = [2] ∧
      (along (accepted 0) (start 0) colliding).Perm [2, 1, 0] := by
  have hu : (start 0).Along (fun w mv => unmoved (w.queue 0).order mv) colliding := by
    simp only [colliding, Along, unmoved, TicketEdit.moves, implies_true, and_self]
  obtain ⟨-, -, -, hs, hp, -⟩ := queue_kept hu rfl
  have ho : (((start 0).run colliding).queue 0).order = [1, 0] := by decide +kernel
  have hh : along (handed 0) (start 0) colliding = [2] := by decide +kernel
  rw [ho] at hs hp
  rw [hh] at hp
  exact ⟨ho, (List.pairwise_cons.mp hs).1 0 List.mem_cons_self, hh, hp⟩

end World

end Backlog
