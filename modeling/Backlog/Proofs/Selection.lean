import Backlog.Proofs.Queues
import Backlog.Proofs.Waking

/-!
# What a queue hands out

A queue that is asked for the next ticket hands out the first in run order that may run, and it
loses nothing else. Asked again and again it hands out all that may run, in run order.
-/

namespace Backlog

namespace Ticket

variable {k : Ticket} {now : Int} {network : Bool} {busy : Names}

/-- The deadline has come if there is one, the network is there if it is needed, and nothing of the
group runs. -/
structure MayRun (now : Int) (network : Bool) (busy : Names) (k : Ticket) : Prop where
  due : ∀ d, k.notBefore = some d → d ≤ now
  online : k.needsNetwork = true → network = true
  apart : ∀ g, k.group = some g → busy.contains g = false

theorem runnable_iff : k.runnable now network busy = true ↔ k.MayRun now network busy := by
  have hearly : k.early now = false ↔ ∀ d, k.notBefore = some d → d ≤ now := by
    rw [Bool.eq_false_iff, ne_eq, early_iff]
    simp only [not_exists, not_and, Int.not_lt]
  have hoffline : k.offline network = false ↔ (k.needsNetwork = true → network = true) := by
    cases hk : k.needsNetwork <;> simp [offline, hk]
  have hblocked : k.blocked busy = false ↔ ∀ g, k.group = some g → busy.contains g = false := by
    cases hk : k.group <;> simp [blocked, hk]
  simp only [runnable, Bool.and_eq_true, Bool.not_eq_true', hearly, hoffline, hblocked]
  constructor
  · intro h
    exact ⟨h.1.1, h.1.2, h.2⟩
  · intro h
    exact ⟨⟨h.due, h.online⟩, h.apart⟩

instance (now : Int) (network : Bool) (busy : Names) (k : Ticket) :
    Decidable (k.MayRun now network busy) := decidable_of_iff _ runnable_iff

theorem decide_mayRun : decide (k.MayRun now network busy) = k.runnable now network busy :=
  Bool.eq_iff_iff.mpr (decide_eq_true_iff.trans runnable_iff.symm)

end Ticket

theorem filter_of_find? {α : Type} [DecidableEq α] {p : α → Bool} {l : List α} {a : α}
    (h : l.find? p = some a) : l.filter p = a :: (l.erase a).filter p := by
  obtain ⟨hp, before, after, rfl, hbefore⟩ := List.find?_eq_some_iff_append.mp h
  have ha : a ∉ before := fun ha => by
    have hna := hbefore a ha
    rw [hp] at hna
    cases hna
  have hnil : before.filter p = [] := List.filter_eq_nil_iff.mpr fun b hb => by
    simpa using hbefore b hb
  rw [List.erase_append_right _ ha, List.erase_cons_head, List.filter_append, List.filter_append,
    hnil, List.filter_cons_of_pos hp]
  rfl

namespace Queue

variable {q : Queue} {ticket : Nat → Ticket} {now : Int} {network : Bool} {busy : Names} {t u : Nat}

/-- The tickets that may run, in run order. -/
def candidates (q : Queue) (ticket : Nat → Ticket) (now : Int) (network : Bool) (busy : Names) :
    List Nat := q.order.filter fun t => (ticket t).MayRun now network busy

theorem mem_candidates : t ∈ q.candidates ticket now network busy ↔
    t ∈ q.order ∧ (ticket t).MayRun now network busy := by
  rw [candidates, List.mem_filter, decide_eq_true_iff]

theorem candidates_eq_filter : q.candidates ticket now network busy =
    q.order.filter fun t => (ticket t).runnable now network busy :=
  List.filter_congr fun _ _ => Ticket.decide_mayRun

/-- The ticket that a queue hands out is the first of those that may run. -/
theorem ready?_eq_head? :
    q.ready? ticket now network busy = (q.candidates ticket now network busy).head? := by
  rw [candidates_eq_filter, List.head?_filter, ready?]

theorem ready?_eq_none : q.ready? ticket now network busy = none ↔
    ∀ u ∈ q.order, ¬(ticket u).MayRun now network busy := by
  rw [ready?_eq_head?, List.head?_eq_none_iff, List.eq_nil_iff_forall_not_mem]
  simp only [mem_candidates, not_and]

/-- The others that may run stay and are next. -/
theorem candidates_take (h : q.ready? ticket now network busy = some t) :
    q.candidates ticket now network busy =
      t :: (q.take ticket t).candidates ticket now network busy := by
  rw [candidates_eq_filter, candidates_eq_filter]
  exact filter_of_find? h

theorem Ordered.candidates (h : q.Ordered ticket) (now : Int) (network : Bool) (busy : Names) :
    (q.candidates ticket now network busy).Pairwise fun t u =>
      (ticket t).Precedes (ticket u) := h.sorted.filter _

/-- What a queue hands out comes before all others that may run. -/
theorem Ordered.first (h : q.Ordered ticket) (hr : q.ready? ticket now network busy = some t) :
    t ∈ q.order ∧ (ticket t).MayRun now network busy ∧
      ∀ u ∈ q.order, u ≠ t → (ticket u).MayRun now network busy →
        (ticket t).Precedes (ticket u) := by
  have hc := candidates_take hr
  have hsorted := h.candidates now network busy
  obtain ⟨ht, hmay⟩ := mem_candidates.mp (hc ▸ List.mem_cons_self)
  refine ⟨ht, hmay, fun u hu hne hu' => ?_⟩
  have hmem : u ∈ q.candidates ticket now network busy := mem_candidates.mpr ⟨hu, hu'⟩
  rw [hc] at hsorted hmem
  exact List.rel_of_pairwise_cons hsorted ((List.mem_cons.mp hmem).resolve_left hne)

/-- The tickets ahead of it cannot run. -/
theorem Ordered.ahead_not_mayRun (h : q.Ordered ticket)
    (hr : q.ready? ticket now network busy = some t) (hu : u ∈ q.order)
    (hp : (ticket u).Precedes (ticket t)) : ¬(ticket u).MayRun now network busy := by
  intro hmay
  by_cases hne : u = t
  · rw [hne] at hp
    exact Ticket.not_precedes_self _ hp
  · exact Ticket.not_precedes_self _ (hp.trans ((h.first hr).2.2 u hu hne hmay))

/-- Ticket `t` is what the queue has first of all that may run, and `q'` is the queue without it. -/
structure HandsOut (ticket : Nat → Ticket) (now : Int) (network : Bool) (busy : Names) (q : Queue)
    (t : Nat) (q' : Queue) : Prop where
  queued : t ∈ q.order
  mayRun : (ticket t).MayRun now network busy
  first : ∀ u ∈ q.order, u ≠ t → (ticket u).MayRun now network busy →
    (ticket t).queueOrder (ticket u) = .lt ∧ (ticket t).Precedes (ticket u)
  order : q'.order = q.order.filter (· ≠ t)
  find : ∀ id u, q'.find? id = some u ↔ u ≠ t ∧ q.find? id = some u
  closed : q'.closed = q.closed

theorem handsOut_ready (hi : q.Indexed ticket) (ho : q.Ordered ticket)
    (h : q.ready? ticket now network busy = some t) :
    q.HandsOut ticket now network busy t (q.take ticket t) := by
  obtain ⟨ht, hmay, hfirst⟩ := ho.first h
  refine ⟨ht, hmay, fun u hu hne hu' => ?_, ?_, fun id u => ?_, rfl⟩
  · have hp := hfirst u hu hne hu'
    exact ⟨(Ticket.queueOrder_eq_lt (ho.stamped t ht) (ho.stamped u hu)).mpr hp, hp⟩
  · refine (hi.nodup.erase_eq_filter t).trans (List.filter_congr fun u _ => ?_)
    rw [Bool.eq_iff_iff, bne_iff_ne, decide_eq_true_iff]
  · have hleft : (q.take ticket t).Indexed ticket := hi.leave ht q.closed
    have hmem : u ∈ (q.take ticket t).order ↔ u ≠ t ∧ u ∈ q.order := hi.nodup.mem_erase_iff
    rw [hi.find, hleft.find, hmem, and_assoc]

end Queue

namespace World

variable {w : World} {q t : Nat} {now : Int} {network : Bool} {busy : Names}

/-- Queue `q` is asked for the next ticket. -/
def nextOf (q : Nat) (now : Int) (network : Bool) (busy : Names) : Move :=
  .call (.queue q (.next now network busy))

/-- A queue that has no ticket that may run stays as it is. -/
theorem step_nextOf_none (hq : q < w.queues.size)
    (hr : (w.queue q).ready? w.ticket now network busy = none) :
    (w.step (nextOf q now network busy)).toStore = w.toStore ∧
      w.returned (nextOf q now network busy) = some (.ref none) := by
  have hs := step_queue (c := .next now network busy)
    (show (Call.queue q _).inScope w.toStore = true by simp [Call.inScope, hq])
  simpa only [nextOf, Store.callQueue, hr] using hs

theorem step_nextOf_some (hq : q < w.queues.size)
    (hr : (w.queue q).ready? w.ticket now network busy = some t) :
    (w.step (nextOf q now network busy)).toStore =
        w.setQueue q ((w.queue q).take w.ticket t) ∧
      w.returned (nextOf q now network busy) = some (.ref (some t)) := by
  have hs := step_queue (c := .next now network busy)
    (show (Call.queue q _).inScope w.toStore = true by simp [Call.inScope, hq])
  simpa only [nextOf, Store.callQueue, hr] using hs

theorem along_nextOf_none (hq : q < w.queues.size)
    (hr : (w.queue q).ready? w.ticket now network busy = none) (k : Nat) :
    along returned w (List.replicate k (nextOf q now network busy)) =
      List.replicate k (.ref none) := by
  induction k generalizing w with
  | zero => rfl
  | succ k ih =>
    obtain ⟨hs, hv⟩ := step_nextOf_none hq hr
    rw [List.replicate_succ, List.replicate_succ, along, hv, ih (by rwa [hs]) (by rwa [hs])]
    rfl

/-- The queue hands out all that may run, and then nothing. -/
theorem along_nextOf (hq : q < w.queues.size) (k : Nat) :
    along returned w (List.replicate
        (((w.queue q).candidates w.ticket now network busy).length + k)
        (nextOf q now network busy)) =
      ((w.queue q).candidates w.ticket now network busy).map (fun t => .ref (some t)) ++
        List.replicate k (.ref none) := by
  generalize hc : (w.queue q).candidates w.ticket now network busy = ts
  induction ts generalizing w with
  | nil =>
    have hr : (w.queue q).ready? w.ticket now network busy = none := by
      rw [Queue.ready?_eq_head?, hc]
      rfl
    rw [List.length_nil, Nat.zero_add, List.map_nil, List.nil_append]
    exact along_nextOf_none hq hr k
  | cons t ts ih =>
    have hr : (w.queue q).ready? w.ticket now network busy = some t := by
      rw [Queue.ready?_eq_head?, hc]
      rfl
    obtain ⟨hs, hv⟩ := step_nextOf_some hq hr
    have hc' := Queue.candidates_take hr
    rw [hc] at hc'
    have hqueue : (w.step (nextOf q now network busy)).queue q =
        (w.queue q).take w.ticket t := by
      rw [hs]
      exact Store.queue_setQueue_same ..
    have hticket : (w.step (nextOf q now network busy)).ticket = w.ticket := by
      rw [hs]
      rfl
    have hsize : q < (w.step (nextOf q now network busy)).queues.size := by
      rw [hs, Store.size_setQueue hq]
      exact hq
    rw [List.length_cons, Nat.succ_add, List.replicate_succ, along, hv,
      ih hsize (by rw [hqueue, hticket]; exact (List.cons.inj hc').2.symm)]
    rfl

/-- A queue whose tickets keep their places hands out the first of those that may run, and nothing
exactly if there is none. It loses that ticket from both halves, and all else stays as it is. So,
asked again and again, it hands out all that may run in run order, and then nothing. -/
theorem next_first_of_candidates (h : ReachableBy (fun w mv => unmoved (w.queue q).order mv) w)
    (hq : q < w.queues.size) (now : Int) (network : Bool) (busy : Names) :
    (w.returned (nextOf q now network busy) = some (.ref none) ↔
      ∀ u ∈ (w.queue q).order, ¬(w.ticket u).MayRun now network busy) ∧
    (w.returned (nextOf q now network busy) = some (.ref none) →
      (w.step (nextOf q now network busy)).toStore = w.toStore) ∧
    ((∃ u ∈ (w.queue q).order, (w.ticket u).MayRun now network busy) →
      ∃ t, w.returned (nextOf q now network busy) = some (.ref (some t)) ∧
        (w.queue q).HandsOut w.ticket now network busy t
          ((w.step (nextOf q now network busy)).queue q) ∧
        (w.step (nextOf q now network busy)).toStore =
          w.setQueue q ((w.step (nextOf q now network busy)).queue q)) ∧
    ((w.queue q).candidates w.ticket now network busy).Pairwise
      (fun t u => (w.ticket t).Precedes (w.ticket u)) ∧
    ∀ k, along returned w (List.replicate
        (((w.queue q).candidates w.ticket now network busy).length + k)
        (nextOf q now network busy)) =
      ((w.queue q).candidates w.ticket now network busy).map (fun t => .ref (some t)) ++
        List.replicate k (.ref none) := by
  have hi := h.inOrder
  refine ⟨?_, fun hv => ?_, fun hmay => ?_, hi.ordered.candidates .., along_nextOf hq⟩
  · rw [← Queue.ready?_eq_none]
    cases hr : (w.queue q).ready? w.ticket now network busy with
    | none => simp [(step_nextOf_none hq hr).2]
    | some t => simp [(step_nextOf_some hq hr).2]
  · cases hr : (w.queue q).ready? w.ticket now network busy with
    | none => exact (step_nextOf_none hq hr).1
    | some t =>
      rw [(step_nextOf_some hq hr).2] at hv
      cases hv
  · cases hr : (w.queue q).ready? w.ticket now network busy with
    | none =>
      obtain ⟨u, hu, hmay⟩ := hmay
      exact absurd hmay (Queue.ready?_eq_none.mp hr u hu)
    | some t =>
      obtain ⟨hs, hv⟩ := step_nextOf_some hq hr
      have hqueue : (w.step (nextOf q now network busy)).queue q =
          (w.queue q).take w.ticket t := by
        rw [hs]
        exact Store.queue_setQueue_same ..
      refine ⟨t, hv, ?_, by rw [hqueue, hs]⟩
      rw [hqueue]
      exact Queue.handsOut_ready hi.indexed hi.ordered hr

/-- Four tickets in a queue: one has a deadline at 50, one is of a group, and the others differ
only in their ids. -/
def assorted : List Move :=
  [.call (.makeJob { id := "d" }), .call (.makeJob { id := "c" }), .call (.makeJob { id := "b" }),
    .call (.makeJob { id := "a" }),
    .call (.build { job := some 0, priority := some 9, session := some 1, created := some 0, notBefore := some 50 }),
    .call (.build { job := some 1, priority := some 8, session := some 1, created := some 0, group := some "g" }),
    .call (.build { job := some 2, priority := some 1, session := some 1, created := some 0, stamp := some 7 }),
    .call (.build { job := some 3, priority := some 1, session := some 1, created := some 0, stamp := some 7 }),
    .call .makeQueue, .call (.queue 0 (.push (some 2))), .call (.queue 0 (.push (some 1))),
    .call (.queue 0 (.push (some 0))), .call (.queue 0 (.push (some 3)))]

/-- At 50 the first deadline has come. The group is passed over while it runs. -/
theorem next_first_of_candidates_assorted :
    (((start 0).run assorted).queue 0).order = [0, 1, 3, 2] ∧
      (∃ t, ((start 0).run assorted).returned (nextOf 0 50 true (Names.empty.insert "g")) =
        some (.ref (some t))) ∧
      along returned ((start 0).run assorted)
          (List.replicate 4 (nextOf 0 50 true (Names.empty.insert "g"))) =
        [.ref (some 0), .ref (some 3), .ref (some 2), .ref none] := by
  have hu : (start 0).Along (fun w mv => unmoved (w.queue 0).order mv) assorted := by
    simp only [assorted, Along, unmoved, and_self]
  obtain ⟨-, -, hsome, -, hall⟩ := next_first_of_candidates ⟨0, assorted, hu, rfl⟩ (by decide +kernel) 50 true
    (Names.empty.insert "g")
  have hc : (((start 0).run assorted).queue 0).candidates ((start 0).run assorted).ticket 50 true
      (Names.empty.insert "g") = [0, 3, 2] := by decide +kernel
  have ho : (((start 0).run assorted).queue 0).order = [0, 1, 3, 2] := by decide +kernel
  rw [hc] at hall
  obtain ⟨t, hv, -⟩ := hsome ⟨0, by simp [ho], by decide +kernel⟩
  exact ⟨ho, ⟨t, hv⟩, hall 1⟩

end World

end Backlog
