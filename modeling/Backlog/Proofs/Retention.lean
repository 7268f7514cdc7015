import Backlog.Proofs.RunOrder
import Backlog.Proofs.Touches

/-!
# What no operation takes back

A ticket that has a stamp keeps it, and with it its place among others unless an edit moves it.
No operation of custody or of a client says that a job was told or takes that back. A queue that
stands alone changes by its own operations.
-/

namespace Backlog

/-- The edit may change where a ticket stands in a queue. -/
def TicketEdit.moves : TicketEdit → Bool
  | .priority _ | .created _ | .job (some _) => true
  | _ => false

theorem Ticket.place_of_lasting {a b : Ticket} (h : a.lasting = b.lasting)
    (hs : a.stamp = b.stamp) : a.place = b.place := by
  have hp : a.lasting.priority = b.lasting.priority := by rw [h]
  have hc : a.lasting.created = b.lasting.created := by rw [h]
  have hi : a.lasting.id = b.lasting.id := by rw [h]
  simp only [place, Prod.mk.injEq]
  exact ⟨hp, hc, hs, hi⟩

namespace Store

/-- Every queue but `x` is as it was, and so are stamps that were given and notices. -/
structure Retains (x : Option Nat) (s s' : Store) : Prop where
  queue : ∀ q, some q ≠ x → s'.queue q = s.queue q
  stamp : ∀ t n, (s.ticket t).stamp = some n → (s'.ticket t).stamp = some n
  notified : ∀ t, (s'.ticket t).notified = (s.ticket t).notified

variable {x : Option Nat} {s s' s'' : Store} {m t : Nat}

theorem Retains.trans (h : Retains x s s') (h' : Retains x s' s'') : Retains x s s'' where
  queue q hq := (h'.queue q hq).trans (h.queue q hq)
  stamp t n ht := h'.stamp t n (h.stamp t n ht)
  notified t := (h'.notified t).trans (h.notified t)

/-- Only the tickets and the queues matter. -/
theorem retains_of_eq (hq : ∀ q, some q ≠ x → s'.queue q = s.queue q)
    (ht : s'.tickets = s.tickets) : Retains x s s' := by
  refine ⟨hq, ?_, ?_⟩
  · intro t n hn
    rwa [ticket, ht]
  · intro t
    rw [ticket, ticket, ht]

theorem Retains.refl (x : Option Nat) (s : Store) : Retains x s s :=
  retains_of_eq (fun _ _ => rfl) rfl

theorem retains_onTicket (s : Store) (t : Nat) {f : Ticket → Ticket}
    (hs : ∀ n, (s.ticket t).stamp = some n → (f (s.ticket t)).stamp = some n)
    (hn : (f (s.ticket t)).notified = (s.ticket t).notified) : Retains x s (s.onTicket t f) where
  queue _ _ := rfl
  stamp u n hu := by
    rw [ticket_onTicket]
    split
    · rename_i h; subst h; exact hs n hu
    · exact hu
  notified u := by
    rw [ticket_onTicket]
    split
    · rename_i h; subst h; exact hn
    · rfl

/-- A ticket in the making was not used to tell a job. -/
theorem retains_wrap (s : Store) {k : Ticket} (hk : k.notified = false) : Retains x s (s.wrap k) := by
  have hd : s.ticket s.tickets.size = default := Registry.get_of_size_le (Nat.le_refl _)
  refine ⟨fun _ _ => rfl, fun t n hn => ?_, fun t => ?_⟩ <;> rw [ticket_wrap] <;> split
  · rename_i ht
    rw [ht, hd] at hn
    cases hn
  · exact hn
  · rename_i ht
    rw [ht, hd]
    exact hk
  · rfl

theorem Touches.retains {r : Reach} (h : Touches r s s') (hx : ∀ q, r.queues q → some q = x) :
    Retains x s s' := by
  have same {t : Nat} {f : Ticket → Ticket} (hs : (f (s.ticket t)).stamp = (s.ticket t).stamp)
      (hn : (f (s.ticket t)).notified = (s.ticket t).notified) : Retains x s (s.onTicket t f) :=
    retains_onTicket s t (fun n h => hs.trans h) hn
  cases h with
  | aside _ ht hq => exact retains_of_eq (fun q hne => hq q fun h => hne (hx q h)) ht
  | made k hk => exact retains_wrap s hk
  | stamped t n hn =>
    exact retains_onTicket s t (fun i h => absurd (hn.symm.trans h) (Option.some_ne_none i).symm) rfl
  | held t group d ht => apply same <;> simp only [Queue.delayMember] <;> split <;> rfl
  | edited t f hf =>
    obtain ⟨job, id, priority, runs, created, hf⟩ := hf
    apply same <;> rw [hf]
  | _ => exact same rfl rfl

/-- Stamps and notices are retained, and so are queues that an operation may not change. -/
theorem Reaches.retains {r : Reach} (h : Reaches r s s') (hx : ∀ q, r.queues q → some q = x) :
    Retains x s s' := by
  induction h with
  | refl => exact .refl ..
  | tail _ h ih => exact ih.trans (h.retains hx)

theorem retains_custody (h : Reaches .custody s s') : Retains none s s' := h.retains nofun

theorem retains_call (s : Store) (c : Call) : Retains c.queue? s (s.call c) :=
  (reaches_call s c).retains fun _ hq => Eq.symm hq

theorem Begins.retains (h : Begins m t s s') (hq : s'.queues = s.queues) : Retains x s s' := by
  refine ⟨fun q _ => by rw [queue, queue, hq], fun u n hu => ?_, fun u => ?_⟩ <;>
    by_cases he : u = t
  · subst he
    rw [h.ticket]
    exact hu
  · rwa [h.others u he]
  · subst he
    rw [h.ticket]
  · rw [h.others u he]

theorem queues_claim (h : s.claim m = some (s', t)) : s'.queues = s.queues := by
  simp only [claim] at h
  split at h
  · cases h
  · obtain ⟨rfl, -⟩ := Prod.mk.inj (Option.some.inj h)
    rfl

/-- A ticket that has a stamp keeps its place where neither edits nor claims touch it. -/
theorem Keeps.place {y : Option Nat} (hk : Keeps x s s') (hr : Retains y s s') (ht : t < s.tickets.size)
    (hx : some t ≠ x) (hs : (s.ticket t).stamp.isSome = true) :
    (s'.ticket t).place = (s.ticket t).place := by
  obtain ⟨n, hn⟩ := Option.isSome_iff_exists.mp hs
  exact Ticket.place_of_lasting (hk.ticket t ht hx) ((hr.stamp t n hn).trans hn.symm)

theorem Begins.place (h : Begins m t s s') (u : Nat) :
    (s'.ticket u).place = (s.ticket u).place := by
  by_cases hu : u = t
  · rw [hu, h.ticket]
    rfl
  · rw [h.others u hu]

theorem stamped_stampTicket (s : Store) (t : Nat) :
    ((s.stampTicket t).ticket t).stamp.isSome = true := by
  simp only [stampTicket]
  split
  · rename_i n hn
    rw [hn]
    rfl
  · change ((s.onTicket t _).ticket t).stamp.isSome = true
    rw [ticket_onTicket, if_pos rfl]
    rfl

end Store

namespace World

variable {w w' : World} {a t : Nat} {mv : Move}

/-- The client leaves queued tickets at their places. -/
def unmoved (order : List Nat) : Move → Prop
  | .call (.editTicket t e) => t ∈ order → e.moves = false
  | _ => True

/-- The queue whose operation the move is. -/
def queue? : Move → Option Nat
  | .call c => c.queue?
  | _ => none

theorem retains_effect (w : World) (mv : Move) :
    Store.Retains (queue? mv) w.toStore (w.effect mv).toStore := by
  refine (reaches_effect w mv).retains fun q hq => ?_
  cases mv with
  | call c => exact Eq.symm hq
  | _ => cases hq

/-- A move leaves a ticket at its place that has a stamp. -/
theorem place_effect (ht : t < w.tickets.size) (hs : (w.ticket t).stamp.isSome = true)
    (hu : ∀ e, mv = .call (.editTicket t e) → e.moves = false) :
    ((w.effect mv).ticket t).place = (w.ticket t).place := by
  by_cases hx : some t = w.touched mv
  · cases mv with
    | call c =>
      rcases effect_call w c with ⟨-, he⟩ | he <;> rw [he]
      rcases Store.ticket_call hx with ⟨e, rfl, hk⟩ | hk
      · have hm := hu e rfl
        rw [hk]
        cases e with
        | stamp n =>
          obtain ⟨i, hi⟩ := Option.isSome_iff_exists.mp hs
          change Ticket.place { w.ticket t with stamp := (w.ticket t).stamp.or (some n) } = _
          rw [hi, Option.some_or, ← hi]
        | job j =>
          cases j with
          | none => rfl
          | some j => cases hm
        | priority p => cases hm
        | created c => cases hm
        | _ => rfl
      · rw [hk]
        rfl
    | _ => cases hx
  · exact (keeps_effect w mv).place (retains_effect w mv) ht hx hs

/-- What follows a move leaves tickets at their places. -/
theorem place_sequels (hs : Sequels a w w') (t : Nat) :
    (w'.ticket t).place = (w.ticket t).place := by
  induction hs with
  | refl => rfl
  | tail _ hs ih =>
    refine .trans ?_ ih
    cases hs with
    | told j u next ha hu hn =>
      change ((Store.onTicket _ u _).ticket t).place = _
      rw [Store.ticket_onTicket]
      split
      · rename_i he
        rw [he]
        rfl
      · rfl
    | departed i u s tally ha hc =>
      rw [toStore_depart]
      exact (Store.claim_begins hc).place t
    | _ => rfl

/-- What follows a move changes no queue that stands alone. -/
theorem queue_sequels (hs : Sequels a w w') (q : Nat) : w'.queue q = w.queue q := by
  induction hs with
  | refl => rfl
  | tail _ hs ih =>
    refine .trans ?_ ih
    cases hs with
    | departed i u s tally ha hc =>
      rw [toStore_depart]
      exact congrArg (Registry.get · q) (Store.queues_claim hc)
    | _ => rfl

end World

end Backlog
