import Backlog.Proofs.Transfers

/-!
# What a manager holds

A manager keeps each id in one place: queued, running or finished. The operations of custody
preserve that.
-/

namespace Backlog

/-- The ticket is queued or running. -/
def Manager.holds (g : Manager) (t : Nat) : Prop :=
  t ∈ g.queue.order ∨ ∃ id, g.running.find? id = some t

/-- Each id is in one place. -/
structure Custody (g : Manager) (ticket : Nat → Ticket) (size : Nat) : Prop where
  queue : g.queue.Indexed ticket
  made : ∀ t, g.holds t → t < size
  own : ∀ id t, g.running.find? id = some t → (ticket t).id = id
  apart : ∀ id t, g.running.find? id = some t → g.queue.find? id = none
  ended : ∀ id, g.finished.contains id = true → g.free id = true
  opened : g.accepting = true → g.queue.closed = false

namespace Custody

variable {g : Manager} {ticket ticket' : Nat → Ticket} {size size' m t : Nat} {s s' : Store}

/-- A manager that was never at work. -/
theorem idle {config : Config} {logger : Nat} {session : Int} {network : Bool} :
    Custody { config, logger, session, network } ticket size where
  queue := Queue.indexed_empty ticket
  made _ h := h.elim nofun nofun
  own := nofun
  apart := nofun
  ended := nofun
  opened _ := rfl

/-- Only the ids of held tickets matter. -/
theorem congr (h : Custody g ticket size) (hs : size ≤ size')
    (hid : ∀ t, g.holds t → (ticket' t).id = (ticket t).id) : Custody g ticket' size' where
  queue := h.queue.congr fun t ht => hid t (.inl ht)
  made t ht := Nat.lt_of_lt_of_le (h.made t ht) hs
  own id t ht := (hid t (.inr ⟨id, ht⟩)).trans (h.own id t ht)
  apart := h.apart
  ended := h.ended
  opened := h.opened

/-- The queue of an accepting manager takes every id it does not hold. -/
theorem accepts (h : Custody g ticket size) (ha : g.accepting = true) {id : String}
    (hq : g.queue.find? id = none) : g.queue.accepts id = true := by
  simp [Queue.accepts, h.opened ha, Table.contains, show g.queue.index.find? id = none from hq]

/-- What is queued does not run. -/
theorem queued_apart (h : Custody g ticket size) {id : String} (hq : g.queue.find? id = some t) :
    g.running.find? id = none :=
  Option.eq_none_iff_forall_ne_some.mpr fun u hu => by
    rw [h.apart id u hu] at hq
    cases hq

/-- A ticket of a free id is queued, and the id is no longer finished. -/
theorem insert (h : Custody g ticket size) (free : g.free (ticket t).id = true) (made : t < size)
    {f : Nat → Ticket} (hf : ∀ u, u < size → (f u).id = (ticket u).id) {counts : Counts}
    {finished : Table String Status}
    (hd : ∀ id, finished.contains id = true → g.finished.contains id = true ∧ id ≠ (ticket t).id) :
    Custody { g with queue := g.queue.insert f t, finished, counts } ticket size := by
  obtain ⟨hr, hq⟩ := Manager.free_iff.mp free
  have hn : g.queue.index.contains (f t).id = false := by
    simp [hf t made, Table.contains, show g.queue.index.find? (ticket t).id = none from hq]
  have hi : g.queue.Indexed f := h.queue.congr fun u hu => hf u (h.made u (.inl hu))
  have hp := hi.insert_perm hn
  have hfind (id : String) (hne : id ≠ (ticket t).id) :
      (g.queue.insert f t).find? id = g.queue.find? id := by
    change (g.queue.index.insert (f t).id t).find? id = _
    rw [Table.find?_insert, hf t made, if_neg hne]
    rfl
  have hmade : ∀ u, u ∈ (g.queue.insert f t).order → u < size := by
    intro u hu
    rcases List.mem_cons.mp (hp.mem_iff.mp hu) with rfl | hu
    · exact made
    · exact h.made u (.inl hu)
  refine {
    queue := (hi.insert hn).congr fun u hu => (hf u (hmade u hu)).symm
    made := fun u hu => hu.elim (hmade u) fun hu => h.made u (.inr hu)
    own := h.own
    apart := fun id u hu => ?_
    ended := fun id hid => ?_
    opened := h.opened }
  · have hne : id ≠ (ticket t).id := by
      rintro rfl
      rw [hr] at hu
      cases hu
    exact (hfind id hne).trans (h.apart id u hu)
  · obtain ⟨hid, hne⟩ := hd id hid
    obtain ⟨hr', hq'⟩ := Manager.free_iff.mp (h.ended id hid)
    exact Manager.free_iff.mpr ⟨hr', (hfind id hne).trans hq'⟩

/-- A queued ticket leaves. -/
theorem leave (h : Custody g ticket size) (ht : t ∈ g.queue.order) (closed : Bool)
    (hc : g.accepting = true → closed = false) :
    Custody { g with queue := {
      order := g.queue.order.erase t, index := g.queue.index.erase (ticket t).id, closed } }
      ticket size where
  queue := h.queue.leave ht _
  made u hu := h.made u (hu.imp_left List.mem_of_mem_erase)
  own := h.own
  apart id u hu := Table.find?_erase_none (h.apart id u hu) _
  ended id hid := by
    obtain ⟨hr, hq⟩ := Manager.free_iff.mp (h.ended id hid)
    exact Manager.free_iff.mpr ⟨hr, Table.find?_erase_none hq _⟩
  opened := hc

/-- A ticket that left the queue runs. -/
theorem run (h : Custody g ticket size) (made : t < size) {id : String}
    (own : (ticket t).id = id) (free : g.free id = true) (fresh : g.finished.contains id = false)
    {counts : Counts} {busy : Names} :
    Custody { g with running := g.running.insert id t, busy, counts } ticket size := by
  obtain ⟨hr, hq⟩ := Manager.free_iff.mp free
  refine {
    queue := h.queue
    made := fun u hu => ?_
    own := fun i u hu => ?_
    apart := fun i u hu => ?_
    ended := fun i hi => ?_
    opened := h.opened }
  · rcases hu with hu | ⟨i, hu⟩
    · exact h.made u (.inl hu)
    · rcases Table.find?_of_insert hu with ⟨-, rfl⟩ | hu
      · exact made
      · exact h.made u (.inr ⟨i, hu⟩)
  · rcases Table.find?_of_insert hu with ⟨rfl, rfl⟩ | hu
    · exact own
    · exact h.own i u hu
  · rcases Table.find?_of_insert hu with ⟨rfl, rfl⟩ | hu
    · exact hq
    · exact h.apart i u hu
  · obtain ⟨hr', hq'⟩ := Manager.free_iff.mp (h.ended i hi)
    have hne : i ≠ id := by
      rintro rfl
      rw [fresh] at hi
      cases hi
    refine Manager.free_iff.mpr ⟨?_, hq'⟩
    rw [Table.find?_insert, if_neg hne]
    exact hr'

/-- A running ticket is let go. -/
theorem release (h : Custody g ticket size) (k : Ticket) : Custody (g.release k) ticket size := by
  refine {
    queue := h.queue
    made := fun u hu => h.made u (hu.imp_right fun ⟨id, hu⟩ => ⟨id, Table.find?_of_erase hu⟩)
    own := fun id u hu => h.own id u (Table.find?_of_erase hu)
    apart := fun id u hu => h.apart id u (Table.find?_of_erase hu)
    ended := fun id hid => ?_
    opened := h.opened }
  · obtain ⟨hr, hq⟩ := Manager.free_iff.mp (h.ended id hid)
    exact Manager.free_iff.mpr ⟨Table.find?_erase_none hr _, hq⟩

/-- A work ends under an id that is free. -/
theorem finish (h : Custody g ticket size) {id : String} (free : g.free id = true)
    (status : Status) : Custody (g.finish id status) ticket size where
  queue := h.queue
  made := h.made
  own := h.own
  apart := h.apart
  ended i hi := by
    change (g.finished.insert id status).contains i = true at hi
    rw [Table.contains_insert] at hi
    rcases Bool.or_eq_true_iff.mp hi with hi | hi
    · rw [show i = id by simpa using hi]
      exact free
    · exact h.ended i hi
  opened := h.opened

theorem stop (h : Custody g ticket size) : Custody g.stop ticket size where
  queue := h.queue.close
  made := h.made
  own := h.own
  apart := h.apart
  ended := h.ended
  opened := nofun

/-- What lasts of tickets is all that matters. -/
theorem keep (h : Custody g s.ticket s.tickets.size) (hk : Store.Keeps none s s') :
    Custody g s'.ticket s'.tickets.size :=
  h.congr hk.tickets fun t ht => Ticket.id_of_lasting (hk.lasting (h.made t ht))

theorem takesIn (h : Custody (s.manager m) s.ticket s.tickets.size) (ht : s.TakesIn m t s') :
    Custody (s'.manager m) s'.ticket s'.tickets.size := by
  obtain ⟨counts, -, hm⟩ := ht.manager
  rw [hm]
  refine (h.keep ht.keeps).insert ht.free ht.made (fun _ _ => rfl) fun id hid => ?_
  change ((s.manager m).finished.erase _).contains id = true at hid
  rw [Table.contains_erase, Bool.and_eq_true, bne_iff_ne] at hid
  exact hid.symm

theorem begins (h : Custody (s.manager m) s.ticket s.tickets.size) (hb : s.Begins m t s') :
    Custody (s'.manager m) s'.ticket s'.tickets.size := by
  obtain ⟨counts, -, hm⟩ := hb.manager
  have h' : Custody (s.manager m) s'.ticket s'.tickets.size := h.congr hb.size fun u _ => hb.id u
  have hq := (h'.queue.find _ t).mpr ⟨hb.queued, rfl⟩
  have hr := h'.queued_apart hq
  have hf : (s.manager m).finished.contains (s'.ticket t).id = false := by
    apply Bool.eq_false_iff.mpr
    intro hf
    have := (Manager.free_iff.mp (h'.ended _ hf)).2
    rw [hq] at this
    cases this
  rw [hm]
  exact (h'.leave hb.queued _ h'.opened).run (h'.made t (.inl hb.queued)) rfl
    (Manager.free_iff.mpr ⟨hr, Table.find?_erase_same ..⟩) hf

/-- The work ends of a ticket that ran. -/
theorem ends {status : Status} (h : Custody (s.manager m) s.ticket s.tickets.size)
    (hr : (s.manager m).running.find? (s.ticket t).id = some t) (he : s.Ends m t status s') :
    Custody (s'.manager m) s'.ticket s'.tickets.size := by
  rw [he.manager]
  refine ((h.release (s.ticket t)).finish ?_ status).keep he.keeps
  exact Manager.free_iff.mpr ⟨Table.find?_erase_same .., h.apart _ t hr⟩

/-- A ticket that ran is let go, and its work is lost. -/
theorem loses (h : Custody (s.manager m) s.ticket s.tickets.size) (hl : s.Loses m t s') :
    Custody (s'.manager m) s'.ticket s'.tickets.size := by
  rw [hl.manager]
  exact (h.release (s.ticket t)).keep hl.keeps

/-- A ticket that ran is replaced by a new one of its id, which is queued. -/
theorem renews (h : Custody (s.manager m) s.ticket s.tickets.size)
    (hr : (s.manager m).running.find? (s.ticket t).id = some t)
    (hn : (s.ticket t).id = (s.job (s.ticket t).job).id) (he : s.Renews m t s') :
    Custody (s'.manager m) s'.ticket s'.tickets.size := by
  obtain ⟨f, hf, hm⟩ := he.manager
  have hid : (s'.ticket s.tickets.size).id = (s.ticket t).id := he.id.trans hn.symm
  have hl := h.release (s.ticket t)
  have hfree : ((s.manager m).release (s.ticket t)).free (s'.ticket s.tickets.size).id = true := by
    rw [hid]
    exact Manager.free_iff.mpr ⟨Table.find?_erase_same .., h.apart _ t hr⟩
  have hk : Custody ((s.manager m).release (s.ticket t)) s'.ticket (s.tickets.size + 1) :=
    hl.congr (Nat.le_succ _) fun u hu =>
      Ticket.id_of_lasting (he.keeps.lasting (hl.made u hu))
  rw [hm]
  refine (hk.insert hfree (Nat.lt_succ_self _)
    (fun u hu => (Ticket.id_of_lasting (hf u (Nat.le_of_lt_succ hu))).symm)
    fun id hd => ⟨hd, ?_⟩).congr he.made fun _ _ => rfl
  rintro rfl
  have := Manager.free_iff.mp (h.ended _ hd)
  rw [hid, hr] at this
  cases this.1

/-- A running ticket is marked, or a queued one leaves and its work ends. -/
theorem withdraw (h : Custody (s.manager m) s.ticket s.tickets.size) {id : String}
    {v : Store.Withdrawal} (hw : s.withdraw m id = some (s', v)) :
    Custody (s'.manager m) s'.ticket s'.tickets.size := by
  have hs (t : Nat) := (Store.keeps_cancelTicket s t).tickets
  rcases Store.withdraw_cases hw with ⟨t, -, rfl, -⟩ | ⟨hn, t, queue, hq, rfl, -⟩
  · exact h.congr (hs t) fun u _ => Store.id_cancelTicket s t u
  · obtain ⟨hm, rfl, rfl⟩ := h.queue.remove hq
    have hfree : Manager.free { s.manager m with queue := {
        order := (s.manager m).queue.order.erase t
        index := (s.manager m).queue.index.erase (s.ticket t).id
        closed := (s.manager m).queue.closed } } (s.ticket t).id = true :=
      Manager.free_iff.mpr ⟨hn, Table.find?_erase_same ..⟩
    have hl := (h.leave hm _ h.opened).finish hfree .cancelled
    rw [Store.manager_onManager, if_pos rfl, Store.manager_cancelTicket]
    exact hl.congr (hs t) fun u _ => Store.id_cancelTicket s t u

end Custody

end Backlog
