import Backlog.Proofs.Deferral
import Backlog.Proofs.Queues

/-!
# Groups that are held up

A queue that holds up a group gives each queued member the later of the deadline it has and the
new one. It changes nothing else, not even its own order. So a group that is held up several times
waits as if it had been held up once, until the latest of the deadlines, and it does not matter
which of them came first.
-/

namespace Backlog

section

variable (a b c : Option Int)

/-- The order of deadlines is that of optional values, where `none` is the lowest. -/
theorem later_eq_max : later a b = max a b := by
  cases a <;> cases b <;> rfl

theorem max_deadline_comm : max a b = max b a := by
  cases a <;> cases b <;> simp [Int.max_comm]

theorem max_deadline_assoc : max (max a b) c = max a (max b c) := by
  cases a <;> cases b <;> cases c <;> simp [Int.max_assoc]

end

/-- Deadlines are no part of the run order. -/
theorem Ticket.queueOrder_notBefore (k l : Ticket) (d e : Option Int) :
    ({ k with notBefore := d } : Ticket).queueOrder { l with notBefore := e } = k.queueOrder l :=
  rfl

namespace Store

/-- From `s` to `s'` the members of the group among the tickets in `order` were held up until `d`,
and nothing else has changed. -/
structure Stalls (order : List Nat) (group : String) (d : Option Int) (s s' : Store) : Prop where
  ticket : ∀ k, s'.ticket k =
    if k ∈ order ∧ (s.ticket k).group = some group then
      { s.ticket k with notBefore := max (s.ticket k).notBefore d }
    else s.ticket k
  size : s'.tickets.size = s.tickets.size
  rest : s' = { s with tickets := s'.tickets }

variable {s s' s'' : Store} {order : List Nat} {group : String} {t u d : Option Int}

theorem stalls_delayGroup {queue : Queue} (hq : ∀ k ∈ queue.order, k < s.tickets.size)
    (group : String) (d : Option Int) :
    Stalls queue.order group d s { s with tickets := queue.delayGroup s.tickets group d } where
  ticket k := by
    refine (get_delayGroup queue s.tickets group d k).trans ?_
    by_cases hk : k ∈ queue.order
    · simp only [hk, if_true, true_and, Queue.delayMember, later_eq_max]
      rfl
    · rw [if_neg hk, if_neg fun h => hk h.1]
      rfl
  size := size_delayGroup hq group d
  rest := rfl

namespace Stalls

/-- A group that is held up without a deadline is not held up. -/
theorem refl (order : List Nat) (group : String) (s : Store) : Stalls order group none s s where
  ticket k := by rw [Option.max_none_right, ite_self]
  size := rfl
  rest := rfl

/-- Nothing of a ticket changes but its deadline. -/
theorem only (h : Stalls order group d s s') (k : Nat) :
    s'.ticket k = { s.ticket k with notBefore := (s'.ticket k).notBefore } := by
  rw [h.ticket]
  split <;> rfl

/-- A group that is held up twice is held up until the later deadline. -/
theorem trans (h : Stalls order group t s s') (h' : Stalls order group u s' s'') :
    Stalls order group (max t u) s s'' where
  ticket k := by
    have hg : (s'.ticket k).group = (s.ticket k).group := by rw [h.only]
    rw [h'.ticket, hg, h.ticket]
    split
    · rw [max_deadline_assoc]
    · rfl
  size := h'.size.trans h.size
  rest := by
    rw [h'.rest, h.rest]

/-- Only one store comes out. -/
theorem unique (h : Stalls order group d s s') (h' : Stalls order group d s s'') : s' = s'' := by
  have ht : s'.tickets = s''.tickets := by
    refine Registry.ext_get (h.size.trans h'.size.symm) fun k => ?_
    exact (h.ticket k).trans (h'.ticket k).symm
  rw [h.rest, h'.rest, ht]

/-- No two tickets change places. -/
theorem rank (h : Stalls order group d s s') : Queue.rank s'.ticket = Queue.rank s.ticket := by
  funext k l
  rw [Queue.rank, h.only k, h.only l]
  exact Ticket.queueOrder_notBefore ..

theorem queue (h : Stalls order group d s s') (q : Nat) : s'.queue q = s.queue q := by
  rw [h.rest]
  rfl

end Stalls

end Store

namespace World

variable {w : World} {q : Nat} {group : String}

/-- Queue `q` holds up a group. -/
def stall (q : Nat) (group : String) (d : Option Int) : Move :=
  .call (.queue q (.delayGroup group d))

theorem step_stall (hf : w.Founded) (hq : q < w.queues.size) (group : String) (d : Option Int) :
    Store.Stalls (w.queue q).order group d w.toStore (w.step (stall q group d)).toStore ∧
      w.returned (stall q group d) = some .unit := by
  obtain ⟨hs, hr⟩ := step_queue (c := .delayGroup group d)
    (show (Call.queue q _).inScope w.toStore = true by simp [Call.inScope, hq])
  refine ⟨?_, hr⟩
  rw [stall, hs]
  exact Store.stalls_delayGroup (hf.store.queued q) group d

/-- A group that is held up time and again is held up until the latest of the deadlines. -/
theorem run_stalls (hf : w.Founded) (hq : q < w.queues.size) (group : String)
    (ds : List (Option Int)) :
    Store.Stalls (w.queue q).order group (ds.foldr max none) w.toStore
      (w.run (ds.map (stall q group))).toStore := by
  induction ds generalizing w with
  | nil => exact .refl ..
  | cons d ds ih =>
    have hd := (step_stall hf hq group d).1
    have hq' : q < (w.step (stall q group d)).queues.size := by
      rw [hd.rest]
      exact hq
    have hds := ih (hf.step (stall q group d)) hq'
    rw [hd.queue] at hds
    exact hd.trans hds

/-- A queue that holds up a group gives each queued member the later of the deadline it has and the
new one, where having none is the lowest. The other tickets, the order, the index and all else stay
as they are, and any two tickets compare as they did. Two deadlines come to the same in either
order, and to the same as the later one alone; one that is given twice comes to the same as once.
However many are given, they come to the same as the latest of them. -/
theorem stall_is_pointwise_maximum (hw : Reachable w) (hq : q < w.queues.size) (group : String)
    (t u : Option Int) :
    w.returned (stall q group t) = some .unit ∧
    Store.Stalls (w.queue q).order group t w.toStore (w.step (stall q group t)).toStore ∧
    Queue.rank (w.step (stall q group t)).ticket = Queue.rank w.ticket ∧
    (w.run [stall q group t, stall q group u]).toStore =
      (w.step (stall q group (max t u))).toStore ∧
    (w.run [stall q group u, stall q group t]).toStore =
      (w.step (stall q group (max t u))).toStore ∧
    (w.run [stall q group t, stall q group t]).toStore = (w.step (stall q group t)).toStore ∧
    ∀ ds : List (Option Int), (w.run (ds.map (stall q group))).toStore =
      (w.step (stall q group (ds.foldr max none))).toStore := by
  have hf : w.Founded := hw.founded
  obtain ⟨hstall, hr⟩ := step_stall hf hq group t
  have hall (ds : List (Option Int)) : (w.run (ds.map (stall q group))).toStore =
      (w.step (stall q group (ds.foldr max none))).toStore :=
    (run_stalls hf hq group ds).unique (step_stall hf hq group _).1
  have twice (d e : Option Int) : (w.run [stall q group d, stall q group e]).toStore =
      (w.step (stall q group (max d e))).toStore := by
    have h := hall [d, e]
    rwa [List.foldr_cons, List.foldr_cons, List.foldr_nil, Option.max_none_right] at h
  refine ⟨hr, hstall, hstall.rank, twice t u, ?_, ?_, hall⟩
  · rw [twice, max_deadline_comm]
  · rw [twice, ← later_eq_max, later_self]

/-- Three members of a group and a stranger are queued, the first without a deadline. Another member
stays outside. -/
def clan : List Move :=
  [.call (.makeJob { id := "a" }), .call (.makeJob { id := "b" }), .call (.makeJob { id := "c" }),
    .call (.makeJob { id := "d" }), .call (.makeJob { id := "e" }),
    .call (.build { job := some 0, priority := some 1, session := some 1, created := some 0, group := some "g" }),
    .call (.build { job := some 1, priority := some 2, session := some 1, created := some 0, group := some "g", notBefore := some 50 }),
    .call (.build { job := some 2, priority := some 3, session := some 1, created := some 0, group := some "g", notBefore := some 200 }),
    .call (.build { job := some 3, priority := some 4, session := some 1, created := some 0, group := some "h" }),
    .call (.build { job := some 4, priority := some 5, session := some 1, created := some 0, group := some "g" }),
    .call .makeQueue, .call (.queue 0 (.push (some 0))), .call (.queue 0 (.push (some 1))),
    .call (.queue 0 (.push (some 2))), .call (.queue 0 (.push (some 3)))]

/-- The queued members wait until 100, but for the one that waits until 200 anyway. -/
theorem stall_is_pointwise_maximum_clan :
    (((start 0).run clan).queue 0).order = [3, 2, 1, 0] ∧
      [0, 1, 2, 3, 4].map (fun k =>
        ((((start 0).run clan).step (stall 0 "g" (some 100))).ticket k).notBefore) =
          [some 100, some 100, some 200, none, none] ∧
      (((start 0).run clan).run [stall 0 "g" (some 70), stall 0 "g" (some 100)]).toStore =
        (((start 0).run clan).step (stall 0 "g" (some 100))).toStore ∧
      (((start 0).run clan).run [stall 0 "g" none, stall 0 "g" (some 100)]).toStore =
        (((start 0).run clan).step (stall 0 "g" (some 100))).toStore := by
  have hw : Reachable ((start 0).run clan) := ⟨0, clan, rfl⟩
  have hq : 0 < ((start 0).run clan).queues.size := by decide +kernel
  have ho : (((start 0).run clan).queue 0).order = [3, 2, 1, 0] := by decide +kernel
  obtain ⟨-, hstall, -, -, hpair, -⟩ := stall_is_pointwise_maximum hw hq "g" (some 100) (some 70)
  obtain ⟨-, -, -, -, hnone, -⟩ := stall_is_pointwise_maximum hw hq "g" (some 100) none
  refine ⟨ho, ?_, hpair, hnone⟩
  have hticket (k : Nat) :
      (((start 0).run clan).step (stall 0 "g" (some 100))).ticket k = _ := hstall.ticket k
  simp only [hticket]
  decide +kernel

end World

end Backlog
