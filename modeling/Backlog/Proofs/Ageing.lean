import Backlog.Proofs.Touches

/-!
# How tickets age

A ticket keeps what its job answered when it was made, and its group. Once it has a stamp, is
cancelled or successful or was used to tell its job, it stays so. Its session is another matter:
only edits, claims and recovery change it.
-/

namespace Backlog

/-- `b` is what ticket `a` may come to. Where `r` does not hold, it is of the same session. -/
structure Ticket.Ages (r : Prop) (a b : Ticket) : Prop where
  needsNetwork : b.needsNetwork = a.needsNetwork
  tags : b.tags = a.tags
  group : b.group = a.group
  stamp : ∀ n, a.stamp = some n → b.stamp = some n
  cancelled : a.cancelled = true → b.cancelled = true
  successful : a.successful = true → b.successful = true
  notified : a.notified = true → b.notified = true
  session : b.session = a.session ∨ r

namespace Ticket.Ages

variable {r r' : Prop} {a b c : Ticket}

theorem refl (r : Prop) (a : Ticket) : a.Ages r a :=
  ⟨rfl, rfl, rfl, fun _ h => h, fun h => h, fun h => h, fun h => h, .inl rfl⟩

theorem trans (h : a.Ages r b) (h' : b.Ages r c) : a.Ages r c where
  needsNetwork := h'.needsNetwork.trans h.needsNetwork
  tags := h'.tags.trans h.tags
  group := h'.group.trans h.group
  stamp n hn := h'.stamp n (h.stamp n hn)
  cancelled hc := h'.cancelled (h.cancelled hc)
  successful hs := h'.successful (h.successful hs)
  notified hn := h'.notified (h.notified hn)
  session := by
    rcases h'.session with hs | hr
    · rw [hs]
      exact h.session
    · exact .inr hr

theorem mono (h : a.Ages r b) (hr : r → r') : a.Ages r' b :=
  { h with session := h.session.imp_right hr }

end Ticket.Ages

namespace Store

/-- Every ticket has aged, and only those of `R` may have got another session. -/
structure Ages (R : Nat → Prop) (s s' : Store) : Prop where
  size : s.tickets.size ≤ s'.tickets.size
  ticket : ∀ t, t < s.tickets.size → (s.ticket t).Ages (R t) (s'.ticket t)

variable {R R' : Nat → Prop} {s s' s'' : Store} {m t : Nat}

theorem ages_of_eq (h : s'.tickets = s.tickets) : Ages R s s' where
  size := Nat.le_of_eq (congrArg Registry.size h.symm)
  ticket t _ := by
    rw [ticket, ticket, h]
    exact .refl ..

theorem Ages.refl (R : Nat → Prop) (s : Store) : Ages R s s := ages_of_eq rfl

theorem Ages.trans (h : Ages R s s') (h' : Ages R s' s'') : Ages R s s'' where
  size := Nat.le_trans h.size h'.size
  ticket t ht := (h.ticket t ht).trans (h'.ticket t (Nat.lt_of_lt_of_le ht h.size))

theorem Ages.mono (h : Ages R s s') (hr : ∀ t, R t → R' t) : Ages R' s s' :=
  ⟨h.size, fun t ht => (h.ticket t ht).mono (hr t)⟩

theorem ages_onTicket (s : Store) (t : Nat) {f : Ticket → Ticket}
    (hf : (s.ticket t).Ages (R t) (f (s.ticket t))) : Ages R s (s.onTicket t f) where
  size := by
    rw [onTicket, Registry.size_modify]
    exact Nat.le_max_left ..
  ticket u _ := by
    rw [ticket_onTicket]
    split
    · rename_i h
      subst h
      exact hf
    · exact .refl ..

theorem ages_wrap (s : Store) (k : Ticket) : Ages R s (s.wrap k) where
  size := Nat.le_of_lt (lt_size_wrap s k)
  ticket t ht := by
    rw [ticket_wrap, if_neg (Nat.ne_of_lt ht)]
    exact .refl ..

theorem Touches.ages {r : Reach} (h : Touches r s s') : Ages r.signs s s' := by
  cases h with
  | aside _ ht => exact ages_of_eq ht
  | made k hk => exact ages_wrap s k
  | stamped t n hn =>
    exact ages_onTicket s t { Ticket.Ages.refl _ (s.ticket t) with
      stamp := fun i h => absurd (hn.symm.trans h) (Option.some_ne_none i).symm }
  | signed t id ht =>
    exact ages_onTicket s t { Ticket.Ages.refl (r.signs t) (s.ticket t) with session := .inr ht }
  | cancelled t =>
    exact ages_onTicket s t { Ticket.Ages.refl _ (s.ticket t) with cancelled := fun _ => rfl }
  | succeeded t =>
    exact ages_onTicket s t { Ticket.Ages.refl _ (s.ticket t) with successful := fun _ => rfl }
  | held t group d ht =>
    apply ages_onTicket
    simp only [Queue.delayMember]
    split
    · exact { Ticket.Ages.refl _ (s.ticket t) with }
    · exact .refl ..
  | scheduled t d ht => exact ages_onTicket s t { Ticket.Ages.refl _ (s.ticket t) with }
  | edited t f hf =>
    obtain ⟨job, id, priority, runs, created, hf⟩ := hf
    apply ages_onTicket
    rw [hf]
    exact { Ticket.Ages.refl _ (s.ticket t) with }

/-- Only what an operation may sign gets another session. -/
theorem Reaches.ages {r : Reach} (h : Reaches r s s') : Ages r.signs s s' := by
  induction h with
  | refl => exact .refl ..
  | tail _ h ih => exact ih.trans h.ages

theorem Begins.ages (h : Begins m t s s') (ht : R t) : Ages R s s' where
  size := h.size
  ticket u _ := by
    by_cases hu : u = t
    · subst hu
      rw [h.ticket]
      exact { Ticket.Ages.refl (R u) (s.ticket u) with session := .inr ht }
    · rw [h.others u hu]
      exact .refl ..

end Store

namespace World

variable {w w' : World} {R : Nat → Prop} {a t : Nat}

/-- The move is such a call. -/
def restamps (t : Nat) : Move → Prop
  | .call c => Store.restamps t c
  | _ => False

theorem ages_effect (w : World) (mv : Move) :
    Store.Ages (restamps · mv) w.toStore (w.effect mv).toStore := by
  refine (reaches_effect w mv).ages.mono fun t ht => ?_
  cases mv <;> exact ht

/-- What follows a move changes the session only of what begins an attempt. -/
theorem ages_sequel (hs : Sequel a w w')
    (hc : ∀ m t s, w.claim m = some (s, t) → R t) : Store.Ages R w.toStore w'.toStore := by
  cases hs with
  | wrote ls es h => exact Store.ages_of_eq rfl
  | told j t next ha ht hn =>
    exact Store.ages_onTicket w.toStore t (f := ({ · with notified := true }))
      { Ticket.Ages.refl _ (w.ticket t) with notified := fun _ => rfl }
  | welcomed j t ha => exact .refl ..
  | departed m t s tally ha h =>
    rw [toStore_depart]
    exact (Store.claim_begins h).ages (hc m t s h)

theorem ages_sequels (hs : Sequels a w w') : Store.Ages (fun _ => True) w.toStore w'.toStore := by
  induction hs with
  | refl => exact .refl ..
  | tail _ hs ih => exact ih.trans (ages_sequel hs fun _ _ _ _ => trivial)

theorem ages_step (h : w.Founded) (mv : Move) :
    Store.Ages (fun _ => True) w.toStore (w.step mv).toStore :=
  ((ages_effect w mv).mono fun _ _ => trivial).trans (ages_sequels (step_sequels h mv))

theorem ages_run (h : w.Founded) (moves : List Move) :
    Store.Ages (fun _ => True) w.toStore (w.run moves).toStore := by
  induction moves generalizing w with
  | nil => exact .refl ..
  | cons mv moves ih => exact (ages_step h mv).trans (ih (h.step mv))

end World

end Backlog
