import Backlog.Manager
import Backlog.Proofs.Shares

/-!
# Alike queues decide alike

A queue finds, puts in place and removes tickets by what they say of themselves and by how their
stamps compare. Stamps of a client stand in their own order among those of all clients, so a
queue does with alike tickets what it does alone.
-/

namespace Backlog

section lists
variable {α β : Type} {R : α → β → Prop} {l : List α} {l' : List β}

theorem forall₂_find? {p : α → Bool} {q : β → Bool} (hp : ∀ a b, R a b → p a = q b)
    (h : List.Forall₂ R l l') : Option.Rel R (l.find? p) (l'.find? q) := by
  induction h with
  | nil => exact .none
  | cons hab _ ih =>
    rw [List.find?_cons, List.find?_cons, hp _ _ hab]
    split
    · exact .some hab
    · exact ih

theorem forall₂_filter {p : α → Bool} {q : β → Bool} (hp : ∀ a b, R a b → p a = q b)
    (h : List.Forall₂ R l l') : List.Forall₂ R (l.filter p) (l'.filter q) :=
  List.rel_filter (fun a b hab => Bool.eq_iff_iff.mp (hp a b hab)) h

theorem forall₂_map {γ : Type} {f : α → γ} {g : β → γ} (hf : ∀ a b, R a b → f a = g b)
    (h : List.Forall₂ R l l') : l.map f = l'.map g := by
  induction h with
  | nil => rfl
  | cons hab _ ih => rw [List.map_cons, List.map_cons, hf _ _ hab, ih]

/-- The first occurrence leaves if the relation is one-to-one. -/
theorem forall₂_erase [BEq α] [LawfulBEq α] [BEq β] [LawfulBEq β] {a : α} {b : β}
    (heq : ∀ c d, R c d → (c = a ↔ d = b)) (h : List.Forall₂ R l l') :
    List.Forall₂ R (l.erase a) (l'.erase b) := by
  induction h with
  | nil => exact .nil
  | @cons c d _ _ hcd ht ih =>
    by_cases hc : c = a
    · rw [hc, (heq c d hcd).mp hc, List.erase_cons_head, List.erase_cons_head]
      exact ht
    · have hd : d ≠ b := fun hd => hc ((heq c d hcd).mpr hd)
      rw [List.erase_cons_tail (by simpa using hc), List.erase_cons_tail (by simpa using hd)]
      exact .cons hcd ih

/-- An element finds the same place if it compares alike with all others. -/
theorem forall₂_insertOrdered {cmp : α → α → Ordering} {cmp' : β → β → Ordering} {a : α} {b : β}
    (hab : R a b) (hcmp : ∀ c d, R c d → cmp a c = cmp' b d) (h : List.Forall₂ R l l') :
    List.Forall₂ R (insertOrdered cmp a l) (insertOrdered cmp' b l') := by
  induction h with
  | nil => exact .cons hab .nil
  | cons hcd ht ih =>
    simp only [insertOrdered, hcmp _ _ hcd]
    split
    · exact .cons hab (.cons hcd ht)
    · exact .cons hcd ht
    · exact .cons hcd ih

end lists

variable {ρ : Share} {n k : Nat}

/-- The order is the same, faults included. -/
theorem Ticket.Alike.order (hs : Picks ρ.stamps n k) {a a' b b' : Ticket} (ha : a.Alike ρ a')
    (hb : b.Alike ρ b') : a.order b = a'.order b' := by
  have hpa : a.priority = a'.priority := Ticket.eq_of_bare ha.bare Ticket.priority fun _ => rfl
  have hpb : b.priority = b'.priority := Ticket.eq_of_bare hb.bare Ticket.priority fun _ => rfl
  have hca : a.created = a'.created := Ticket.eq_of_bare ha.bare Ticket.created fun _ => rfl
  have hcb : b.created = b'.created := Ticket.eq_of_bare hb.bare Ticket.created fun _ => rfl
  have hia : a.id = a'.id := Ticket.eq_of_bare ha.bare Ticket.id fun _ => rfl
  have hib : b.id = b'.id := Ticket.eq_of_bare hb.bare Ticket.id fun _ => rfl
  simp only [Ticket.order, hpa, hpb, hca, hcb, hia, hib]
  have hsa := ha.stamp
  have hsb := hb.stamp
  generalize a.stamp = x, a'.stamp = x', b.stamp = y, b'.stamp = y' at hsa hsb
  cases hsa with
  | none => rfl
  | some hx =>
    cases hsb with
    | none => rfl
    | some hy => simp only [hs.compare_eq hx hy]

theorem Ticket.Alike.delayMember {a b : Ticket} (h : a.Alike ρ b) (group : String)
    (d : Option Int) : (Queue.delayMember group d a).Alike ρ (Queue.delayMember group d b) := by
  have hg := Ticket.eq_of_bare h.bare Ticket.group fun _ => rfl
  by_cases hb : b.group = some group
  · rw [Queue.delayMember, Queue.delayMember, if_pos (hg.trans hb), if_pos hb]
    exact ⟨congrArg (fun k : Ticket => { k with notBefore := later k.notBefore d }) h.bare, h.job,
      h.stamp⟩
  · rw [Queue.delayMember, Queue.delayMember, if_neg (hg ▸ hb), if_neg hb]
    exact h

namespace Queue

variable {f g : Nat → Ticket} {q r : Queue} {t u : Nat}
  (hs : Picks ρ.stamps n k) (hf : ∀ {t u}, Listed ρ.tickets t u → (f t).Alike ρ (g u))

include hf in
theorem Alike.id (ht : Listed ρ.tickets t u) : (f t).id = (g u).id :=
  Ticket.eq_of_bare (hf ht).bare Ticket.id fun _ => rfl

include hs hf in
theorem Alike.rank {i j : Nat} (ht : Listed ρ.tickets t u) (hi : Listed ρ.tickets i j) :
    rank f t i = rank g u j := by
  simp only [Queue.rank, Ticket.queueOrder, (hf ht).order hs (hf hi), Alike.id hf ht,
    Alike.id hf hi]

theorem Alike.contains (h : q.Alike ρ r) (id : String) :
    q.index.contains id = r.index.contains id := by
  have hi := h.index id
  simp only [Table.contains]
  generalize q.index.find? id = x, r.index.find? id = y at hi
  cases hi <;> rfl

theorem Alike.accepts (h : q.Alike ρ r) (id : String) : q.accepts id = r.accepts id := by
  simp only [Queue.accepts, h.closed, h.contains]

theorem Alike.close (h : q.Alike ρ r) : q.close.Alike ρ r.close := { h with closed := rfl }

include hs hf in
theorem Alike.insert (h : q.Alike ρ r) (ht : Listed ρ.tickets t u) :
    (q.insert f t).Alike ρ (r.insert g u) where
  order := forall₂_insertOrdered ht (fun _ _ hi => Alike.rank hs hf ht hi) h.order
  index id := by
    simp only [Queue.insert, Table.find?_insert, Alike.id hf ht]
    split
    · exact .some ht
    · exact h.index id
  closed := h.closed

include hf in
theorem Alike.ready? (h : q.Alike ρ r) (now : Int) (network : Bool) (busy : Names) :
    Option.Rel (Listed ρ.tickets) (q.ready? f now network busy) (r.ready? g now network busy) :=
  forall₂_find? (fun _ _ hi =>
    Ticket.eq_of_bare (hf hi).bare (·.runnable now network busy) fun _ => rfl) h.order

include hf in
theorem Alike.take {n k : Nat} (hp : Picks ρ.tickets n k) (h : q.Alike ρ r)
    (ht : Listed ρ.tickets t u) : (q.take f t).Alike ρ (r.take g u) where
  order := forall₂_erase (fun _ _ hi => hp.eq_iff hi ht) h.order
  index id := by
    simp only [Queue.take, Table.find?_erase, Alike.id hf ht]
    split
    · exact .none
    · exact h.index id
  closed := h.closed

include hs hf in
theorem Alike.remove (h : q.Alike ρ r) (id : String) :
    Option.Rel (fun x y => Listed ρ.tickets x.1 y.1 ∧ x.2.Alike ρ y.2) (q.remove f id)
      (r.remove g id) := by
  have hi := h.index id
  simp only [Queue.remove, Queue.find?]
  generalize q.index.find? id = x, r.index.find? id = y at hi
  cases hi with
  | none => exact .none
  | some ht =>
    refine .some ⟨ht, ?_, fun i => ?_, h.closed⟩
    · refine forall₂_filter (fun _ _ hi => ?_) h.order
      rw [Alike.rank hs hf hi ht]
    · simp only [Table.find?_erase]
      split
      · exact .none
      · exact h.index i

include hf in
theorem Alike.nextTime (h : q.Alike ρ r) (now : Int) (network : Bool) (busy : Names) :
    q.nextTime f now network busy = r.nextTime g now network busy := by
  simp only [Queue.nextTime]
  congr 1
  have ho := h.order
  generalize q.order = l, r.order = l' at ho
  induction ho with
  | nil => rfl
  | cons hi _ ih =>
    have hw := Ticket.eq_of_bare (hf hi).bare (waits · now network busy) fun _ => rfl
    have hn := Ticket.eq_of_bare (hf hi).bare Ticket.notBefore fun _ => rfl
    simp only [List.map_cons, List.filter_cons, hw]
    split
    · simp only [List.filterMap_cons, hn, ih]
    · exact ih

end Queue

namespace Manager

variable {g h : Manager}

theorem Alike.holds (hg : g.Alike ρ h) (id : String) :
    g.running.contains id = h.running.contains id := by
  have hi := hg.running id
  simp only [Table.contains]
  generalize g.running.find? id = x, h.running.find? id = y at hi
  cases hi <;> rfl

theorem Alike.free (hg : g.Alike ρ h) (id : String) : g.free id = h.free id := by
  simp only [Manager.free, hg.holds, hg.queue.contains]

/-- Every id has the same status. -/
theorem Alike.status {f f' : Nat → Ticket}
    (hf : ∀ {t u}, Listed ρ.tickets t u → (f t).Alike ρ (f' u)) (hg : g.Alike ρ h) (now : Int)
    (id : String) : g.status f now id = h.status f' now id := by
  simp only [Manager.status, hg.holds, hg.finished, hg.network]
  split
  · rfl
  · have hi := hg.queue.index id
    simp only [Queue.find?]
    generalize g.queue.index.find? id = x, h.queue.index.find? id = y at hi
    cases hi with
    | none => rfl
    | @some t u ht =>
      have he : (f t).early now = (f' u).early now := 
        Ticket.eq_of_bare (hf ht).bare (·.early now) fun _ => rfl
      have ho : (f t).offline h.network = (f' u).offline h.network :=
        Ticket.eq_of_bare (hf ht).bare (·.offline h.network) fun _ => rfl
      simp only [he, ho]

variable {a b : Ticket} {t u : Nat}

theorem Alike.begin (hg : g.Alike ρ h) (hb : a.bare = b.bare) (ht : Listed ρ.tickets t u) :
    (g.begin a t).Alike ρ (h.begin b u) :=
  have hi : a.id = b.id := Ticket.eq_of_bare hb Ticket.id fun _ => rfl
  have hgroup : a.group = b.group := Ticket.eq_of_bare hb Ticket.group fun _ => rfl
  { hg with
    running := fun id => by
      simp only [Manager.begin, Table.find?_insert, hi]
      split
      · exact .some ht
      · exact hg.running id
    busy := by simp only [Manager.begin, hgroup, hg.busy] }

theorem Alike.release (hg : g.Alike ρ h) (hb : a.bare = b.bare) :
    (g.release a).Alike ρ (h.release b) :=
  have hi : a.id = b.id := Ticket.eq_of_bare hb Ticket.id fun _ => rfl
  have hgroup : a.group = b.group := Ticket.eq_of_bare hb Ticket.group fun _ => rfl
  { hg with
    running := fun id => by
      simp only [Manager.release, Table.find?_erase, hi]
      split
      · exact .none
      · exact hg.running id
    busy := by simp only [Manager.release, hgroup, hg.busy] }

theorem Alike.finish (hg : g.Alike ρ h) (id : String) (status : Status) :
    (g.finish id status).Alike ρ (h.finish id status) :=
  { hg with
    finished := congrArg (·.insert id status) hg.finished
    counts := congrArg (·.ended status) hg.counts }

theorem Alike.forget (hg : g.Alike ρ h) (id : String) : (g.forget id).Alike ρ (h.forget id) :=
  { hg with finished := congrArg (·.erase id) hg.finished }

theorem Alike.stop (hg : g.Alike ρ h) : g.stop.Alike ρ h.stop :=
  { hg with accepting := rfl, queue := hg.queue.close }

end Manager

end Backlog
