import Backlog.Proofs.LifeCycle
import Mathlib.Algebra.Order.BigOperators.Group.List
import Mathlib.Algebra.Order.Ring.Nat

/-!
# How many attempts are left

A ticket may be tried as often as the limit of its job exceeds the number of attempts begun,
and once in any case. A claim uses one attempt up, and a ticket that is queued again has what
the one before it had left. So the sum over a queue goes down with every attempt, whatever
becomes of it.
-/

namespace Backlog

namespace Store

variable {x : Option Nat} {s s' s'' : Store} {m n t : Nat}

/-- The attempts that the limit leaves to the ticket. -/
def left (s : Store) (t : Nat) : Int := (s.job (s.ticket t).job).retryLimit - (s.ticket t).runs

/-- How often the ticket may be tried, together with those that carry it on. -/
def allowance (s : Store) (t : Nat) : Nat := max 1 (s.left t).toNat

/-- The outcome of an attempt follows from body and plan, and the count of attempts is not
negative. -/
structure Plain (s : Store) (t : Nat) : Prop where
  standard : (s.job (s.ticket t).job).custom = false
  runs : 0 ≤ (s.ticket t).runs

/-- The ticket is as plain as before and has no more attempts left. -/
structure Spends (s s' : Store) (t : Nat) : Prop where
  plain : s.Plain t → s'.Plain t
  left : s'.left t ≤ s.left t

/-- The manager queues plain tickets, and may try them `n` times in all. -/
structure Suffices (m n : Nat) (s : Store) : Prop where
  plain : ∀ t ∈ (s.manager m).queue.order, s.Plain t
  enough : ((s.manager m).queue.order.map s.allowance).sum ≤ n

theorem Spends.refl (s : Store) (t : Nat) : Spends s s t := ⟨id, Int.le_refl _⟩

theorem Spends.trans (h : Spends s s' t) (h' : Spends s' s'' t) : Spends s s'' t :=
  ⟨h'.plain ∘ h.plain, Int.le_trans h'.left h.left⟩

theorem Spends.allowance (h : Spends s s' t) : s'.allowance t ≤ s.allowance t := by
  have := h.left
  simp only [Store.allowance]
  omega

theorem Keeps.limit (h : Keeps x s s') {j : Nat} (hj : j < s.jobs.size) :
    (s'.job j).retryLimit = (s.job j).retryLimit ∧ (s'.job j).custom = (s.job j).custom :=
  ⟨Job.retryLimit_of_lasting (h.job j hj), Job.custom_of_lasting (h.job j hj)⟩

/-- Nothing is spent on a ticket that keeps its job and its count. -/
theorem Keeps.spends (h : Keeps x s s') (hs : s.Founded) (ht : t < s.tickets.size)
    (hj : (s'.ticket t).job = (s.ticket t).job) (hr : (s.ticket t).runs ≤ (s'.ticket t).runs) :
    Spends s s' t := by
  obtain ⟨hl, hc⟩ := h.limit (hs.job t ht)
  constructor
  · intro hp
    exact ⟨by rw [hj, hc]; exact hp.standard, Int.le_trans hp.runs hr⟩
  · simp only [Store.left]
    rw [hj, hl]
    omega

theorem Keeps.spends_of_ne (h : Keeps x s s') (hs : s.Founded) (ht : t < s.tickets.size)
    (hx : some t ≠ x) : Spends s s' t :=
  h.spends hs ht (Ticket.job_of_lasting (h.ticket t ht hx))
    (Int.le_of_eq (Ticket.runs_of_lasting (h.ticket t ht hx)).symm)

theorem Begins.job (h : Begins m t s s') : s'.job = s.job := by
  simp only [funext_iff, Store.job, h.jobs, implies_true]

/-- A claim spends one attempt. -/
theorem Begins.left (h : Begins m t s s') : s'.left t = s.left t - 1 := by
  have hl : s'.left t = (s.job (s.ticket t).job).retryLimit - ((s.ticket t).runs + 1) := by
    simp only [Store.left]
    rw [h.ticket, h.job]
  rw [hl, Store.left]
  omega

theorem Begins.spends (h : Begins m t s s') (u : Nat) : Spends s s' u := by
  by_cases hu : u = t
  · subst hu
    refine ⟨fun hp => ?_, by rw [h.left]; omega⟩
    have := hp.runs
    constructor
    · rw [h.job, h.ticket]
      exact hp.standard
    · rw [h.ticket]
      exact Int.le_trans this (Int.le_add_one (Int.le_refl _))
  · refine ⟨fun hp => ⟨?_, ?_⟩, ?_⟩
    · rw [h.job, h.others u hu]
      exact hp.standard
    · rw [h.others u hu]
      exact hp.runs
    · simp only [Store.left]
      rw [h.job, h.others u hu]

/-- Only an edit of the ticket can give it more. -/
theorem call_spends (hs : s.Founded) (ht : t < s.tickets.size) {c : Call}
    (he : ∀ e, c ≠ .editTicket t e) : Spends s (s.call c) t := by
  have hk := keeps_call s c
  by_cases hx : some t = s.touched c
  · rcases ticket_call hx with ⟨e, hc, -⟩ | hc
    · exact (he e hc).elim
    · exact hk.spends hs ht (by rw [hc]) (by rw [hc])
  · exact hk.spends_of_ne hs ht hx

theorem Suffices.mono (h : s.Suffices m n) {k : Nat} (hk : n ≤ k) : s.Suffices m k :=
  ⟨h.plain, Nat.le_trans h.enough hk⟩

theorem Suffices.spends (h : s.Suffices m n)
    (ho : (s'.manager m).queue.order = (s.manager m).queue.order)
    (hs : ∀ t ∈ (s.manager m).queue.order, Spends s s' t) : s'.Suffices m n := by
  constructor
  · intro t ht
    rw [ho] at ht
    exact (hs t ht).plain (h.plain t ht)
  · rw [ho]
    exact Nat.le_trans (List.sum_le_sum fun t ht => (hs t ht).allowance) h.enough

/-- A claim takes the share of its ticket with it. -/
theorem Suffices.begins (h : s.Suffices m n) (hb : Begins m t s s') :
    ∃ k, k + s.allowance t ≤ n ∧ s'.Suffices m k := by
  have ho := hb.order
  have hsum := ((List.perm_cons_erase hb.queued).map s.allowance).sum_eq
  refine ⟨(((s.manager m).queue.order.erase t).map s.allowance).sum, ?_, ?_, ?_⟩
  · rw [List.map_cons, List.sum_cons] at hsum
    have := h.enough
    omega
  · rw [ho]
    exact fun u hu => (hb.spends u).plain (h.plain u (List.mem_of_mem_erase hu))
  · rw [ho]
    exact List.sum_le_sum fun u _ => (hb.spends u).allowance

/-- What is queued again has what was left. -/
theorem Suffices.settle (h : s.Suffices m n) (hf : s.Founded) (ht : t < s.tickets.size)
    (hp : s.Plain t) {o : Outcome} {r : Nat} (hr : s.verdict m t o = none → s.allowance t ≤ r) :
    (s.settle m t o).1.Suffices m (n + r) := by
  have known (u : Nat) (hu : u ∈ (s.manager m).queue.order) : u < s.tickets.size :=
    hf.known m u (.inl hu)
  have same (hk : Keeps none s (s.settle m t o).1)
      (ho : ((s.settle m t o).1.manager m).queue.order = (s.manager m).queue.order) :
      (s.settle m t o).1.Suffices m (n + r) :=
    (h.spends ho fun u hu => hk.spends_of_ne hf (known u hu) nofun).mono (Nat.le_add_right n r)
  rcases settle_spec (m := m) ht o with ⟨status, tell, -, -, he⟩ | ⟨hv, -, he⟩ | ⟨-, -, -, -, he⟩
  · exact same he.keeps (by rw [he.manager]; rfl)
  · obtain ⟨ticket, -, hm⟩ := he.manager
    have ho : ((s.settle m t o).1.manager m).queue.order =
        insertOrdered (Queue.rank ticket) s.tickets.size (s.manager m).queue.order := by
      rw [hm]
      rfl
    rcases insertOrdered_cases (Queue.rank ticket) s.tickets.size
      (s.manager m).queue.order with hi | hi
    · exact same he.keeps (ho.trans hi)
    rw [← ho] at hi
    obtain ⟨hl, hc⟩ := he.keeps.limit (hf.job t ht)
    have hspends (u : Nat) (hu : u ∈ (s.manager m).queue.order) :=
      he.keeps.spends_of_ne hf (known u hu) nofun
    constructor
    · intro u hu
      rcases List.mem_cons.mp (hi.mem_iff.mp hu) with rfl | hu
      · exact ⟨by rw [he.job, hc]; exact hp.standard, by rw [he.runs]; exact hp.runs⟩
      · exact (hspends u hu).plain (h.plain u hu)
    · have hnew : (s.settle m t o).1.allowance s.tickets.size = s.allowance t := by
        simp only [allowance, left]
        rw [he.job, he.runs, hl]
      have hold := List.sum_le_sum (l := (s.manager m).queue.order)
        fun u hu => (hspends u hu).allowance
      have := h.enough
      have := hr hv
      rw [(hi.map _).sum_eq, List.map_cons, List.sum_cons, hnew]
      omega
  · exact same he.keeps (by rw [he.manager]; rfl)

end Store

namespace World

variable {w w' : World} {a m t : Nat} {mv : Move}

theorem effect_spends (h : w.Founded) (ht : t < w.tickets.size)
    (hn : ∀ e, mv ≠ .call (.editTicket t e)) : Store.Spends w.toStore (w.effect mv).toStore t := by
  cases mv with
  | call c =>
    rcases effect_call w c with ⟨-, hc⟩ | hc
    · rw [hc]
      exact Store.call_spends h.store ht fun e he => hn e (he ▸ rfl)
    · rw [hc]
      exact .refl ..
  | _ => exact (keeps_effect w _).spends_of_ne h.store ht nofun

theorem sequel_spends (h : w.Founded) (hs : Sequel a w w') (ht : t < w.tickets.size) :
    Store.Spends w.toStore w'.toStore t := by
  obtain ⟨x, hk, hx⟩ := keeps_sequel hs
  by_cases he : x = some t
  · obtain ⟨i, s, tally, -, hc, rfl⟩ := hx t he
    rw [toStore_depart]
    exact (Store.claim_begins hc).spends t
  · exact hk.spends_of_ne h.store ht (Ne.symm he)

theorem sequels_spends (h : w.Founded) (hs : Sequels a w w') (ht : t < w.tickets.size) :
    Store.Spends w.toStore w'.toStore t := by
  induction hs with
  | refl => exact .refl ..
  | tail hs h' ih =>
    have ht := Nat.lt_of_lt_of_le ht (size_sequels hs)
    exact ih.trans (sequel_spends (h.sequels hs) h' ht)

theorem step_spends (h : w.Founded) (ht : t < w.tickets.size)
    (hn : ∀ e, mv ≠ .call (.editTicket t e)) : Store.Spends w.toStore (w.step mv).toStore t :=
  (effect_spends h ht hn).trans (sequels_spends (h.effect mv) (step_sequels h mv)
    (Nat.lt_of_lt_of_le ht (keeps_effect w mv).tickets))

theorem job_step (h : w.Founded) (mv : Move) {j : Nat} (hj : j < w.jobs.size) :
    j < (w.step mv).jobs.size ∧ ((w.step mv).job j).lasting = (w.job j).lasting := by
  have hk := keeps_effect w mv
  obtain ⟨hj', hl⟩ := job_sequels (step_sequels h mv) (Nat.lt_of_lt_of_le hj hk.jobs)
  exact ⟨hj', hl.trans (hk.job j hj)⟩

end World

end Backlog
