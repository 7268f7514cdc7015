import Backlog.Proofs.Touches

/-!
# Deadlines that stand

A ticket that waits for a deadline goes on waiting for it or for a later one, whatever managers
and queues do. Only the client can take a deadline back. A retry gives its new ticket the
deadline of the delay, and may hold its whole group until then.
-/

namespace Backlog

/-- The ticket has a deadline, and it is not before `d`. -/
def Ticket.Awaits (k : Ticket) (d : Int) : Prop := ∃ e, k.notBefore = some e ∧ d ≤ e

variable {k : Ticket} {d : Int}

theorem Ticket.Awaits.congr {k' : Ticket} (h : k.Awaits d) (hk : k'.notBefore = k.notBefore) :
    k'.Awaits d := by
  obtain ⟨e, he, hle⟩ := h
  exact ⟨e, hk.trans he, hle⟩

theorem Ticket.awaits_of_eq (h : k.notBefore = some d) : k.Awaits d := ⟨d, h, Int.le_refl d⟩

/-- A ticket that is held up does not start sooner. -/
theorem Ticket.Awaits.delayMember (h : k.Awaits d) (group : String) (until? : Option Int) :
    (Queue.delayMember group until? k).Awaits d := by
  obtain ⟨e, he, hle⟩ := h
  simp only [Queue.delayMember]
  split
  · cases until? with
    | none => exact ⟨e, by simp [he], hle⟩
    | some u => exact ⟨max e u, by simp [he], by omega⟩
  · exact ⟨e, he, hle⟩

theorem Queue.awaits_delayMember {group : String} (hg : k.group = some group) :
    (delayMember group (some d) k).Awaits d := by
  simp only [delayMember, if_pos hg]
  cases k.notBefore with
  | none => exact ⟨d, rfl, Int.le_refl d⟩
  | some e => exact ⟨max e d, rfl, by omega⟩

theorem later_self (a : Option Int) : later a a = a := by
  cases a <;> simp

theorem later_later (a b : Option Int) : later (later a b) b = later a b := by
  cases a <;> cases b <;> simp

theorem Queue.delayMember_delayMember (group : String) (until? : Option Int) (k : Ticket) :
    delayMember group until? (delayMember group until? k) = delayMember group until? k := by
  by_cases hg : k.group = some group
  · simp only [delayMember, if_pos hg, later_later]
  · simp only [delayMember, if_neg hg]

namespace Store

variable {s s' s'' : Store} {m t : Nat} {x : Option Nat}

/-- No ticket but `x` gives up a deadline. -/
structure Defers (x : Option Nat) (s s' : Store) : Prop where
  awaits : ∀ t, some t ≠ x → ∀ d, (s.ticket t).Awaits d → (s'.ticket t).Awaits d

theorem defers_of_eq (h : s'.tickets = s.tickets) : Defers x s s' where
  awaits t _ d hd := by rwa [ticket, h]

theorem Defers.refl (x : Option Nat) (s : Store) : Defers x s s := defers_of_eq rfl

theorem Defers.trans (h : Defers x s s') (h' : Defers x s' s'') : Defers x s s'' :=
  ⟨fun t hx d hd => h'.awaits t hx d (h.awaits t hx d hd)⟩

theorem defers_onTicket (s : Store) (t : Nat) {f : Ticket → Ticket}
    (hf : ∀ d, (s.ticket t).Awaits d → (f (s.ticket t)).Awaits d) :
    Defers x s (s.onTicket t f) where
  awaits u _ d hd := by
    rw [ticket_onTicket]
    split
    · rename_i hu
      exact hf d (hu ▸ hd)
    · exact hd

/-- A ticket that is made was not there before. -/
theorem defers_wrap (s : Store) (k : Ticket) : Defers x s (s.wrap k) where
  awaits u _ d hd := by
    rw [ticket_wrap]
    split
    · rename_i hu
      obtain ⟨e, he, -⟩ := hd
      rw [hu, show s.ticket s.tickets.size = default from
        Registry.get_of_size_le (Nat.le_refl _)] at he
      cases he
    · exact hd

theorem Touches.defers {r : Reach} (h : Touches r s s') (hx : ∀ t, r.sets t → some t = x) :
    Defers x s s' := by
  cases h with
  | aside _ ht => exact defers_of_eq ht
  | made k hk => exact defers_wrap s k
  | held t group d ht => exact defers_onTicket s t fun _ h => h.delayMember group d
  | scheduled t d ht =>
    refine ⟨fun u hu e he => ?_⟩
    have hne : u ≠ t := fun h => hu (h ▸ hx t ht)
    rwa [ticket_onTicket, if_neg hne]
  | edited t f hf =>
    obtain ⟨job, id, priority, runs, created, hf⟩ := hf
    exact defers_onTicket s t fun _ h => h.congr (by rw [hf])
  | _ => exact defers_onTicket s _ fun _ h => h.congr rfl

/-- Deadlines stand, but for those that an operation may set. -/
theorem Reaches.defers {r : Reach} (h : Reaches r s s') (hx : ∀ t, r.sets t → some t = x) :
    Defers x s s' := by
  induction h with
  | refl => exact .refl ..
  | tail _ h ih => exact ih.trans (h.defers hx)

theorem defers_custody (h : Reaches .custody s s') : Defers none s s' := h.defers nofun

theorem Begins.defers (h : Begins m t s s') : Defers x s s' where
  awaits u _ d hd := by
    by_cases hu : u = t
    · subst hu
      exact hd.congr (by rw [h.ticket])
    · rwa [h.others u hu]

/-- The queued tickets of the group are held up, and no others. -/
theorem get_delayGroup (q : Queue) (tickets : Registry Ticket) (group : String)
    (until? : Option Int) (u : Nat) : (q.delayGroup tickets group until?).get u =
      if u ∈ q.order then Queue.delayMember group until? (tickets.get u) else tickets.get u := by
  simp only [Queue.delayGroup]
  induction q.order generalizing tickets with
  | nil => rfl
  | cons t order ih =>
    rw [List.foldl_cons, ih, Registry.get_modify]
    by_cases ht : u = t
    · -- to be held up again makes no difference
      subst ht
      rw [if_pos rfl, if_pos List.mem_cons_self, Queue.delayMember_delayMember, ite_self]
    · rw [if_neg ht]
      simp only [List.mem_cons, ht, false_or]

/-- Every member of a group that is held up waits. -/
theorem awaits_delayGroup (q : Queue) (tickets : Registry Ticket) {group : String} {d : Int}
    (ht : t ∈ q.order) (hg : (tickets.get t).group = some group) :
    ((q.delayGroup tickets group (some d)).get t).Awaits d := by
  rw [get_delayGroup, if_pos ht]
  exact Queue.awaits_delayMember hg

/-- A retry that comes about leaves a new ticket in the queue, and then its group may be held
up. -/
theorem retry_eq_of_retried {delay : Int} (h : (s.retry m t).2 = .ok (.retried delay)) :
    ∃ next, next = (s.wrap (s.renewal m t)).stampTicket s.tickets.size ∧
      s.retry m t = ((next.onManager m fun g =>
        { g with queue := (s.manager m).queue.insert next.ticket s.tickets.size }).spread m
          s.tickets.size (s.plan t), .ok (.retried (s.retryDelay m t))) := by
  rcases retry_eq s m t with ⟨f, he⟩ | ⟨-, he | ⟨next, hn, -, he⟩⟩
  · rw [he] at h
    cases h
  · rw [he] at h
    cases h
  · exact ⟨next, hn, he⟩

/-- Manager `m` has queued a new ticket for the work of ticket `t`. It waits until `d`, and so do
the members of its group that were queued, if the plan says so. -/
structure HeldUntil (m t : Nat) (d : Int) (s s' : Store) : Prop where
  new : (s'.ticket s.tickets.size).Awaits d
  group : ∀ p g, s.plan t = some p → p.wholeGroup = true → (s.ticket t).group = some g →
    ∀ u ∈ (s.manager m).queue.order, (s.ticket u).group = some g → (s'.ticket u).Awaits d

theorem retry_held {delay d : Int} (h : (s.retry m t).2 = .ok (.retried delay))
    (hd : deadline (s.time m) delay = some d) : HeldUntil m t d s (s.retry m t).1 := by
  obtain ⟨next, hnext, he⟩ := retry_eq_of_retried h
  rw [he] at h
  obtain rfl : s.retryDelay m t = delay := by cases h; rfl
  obtain ⟨v, hv⟩ : ∃ v, v = next.onManager m fun g =>
    { g with queue := (s.manager m).queue.insert next.ticket s.tickets.size } := ⟨_, rfl⟩
  have hvt (u : Nat) : v.ticket u = next.ticket u := by rw [hv]; rfl
  obtain ⟨stamp, hs⟩ := ticket_stampTicket (s.wrap (s.renewal m t)) s.tickets.size s.tickets.size
  rw [ticket_wrap, if_pos rfl, ← hnext, ← hvt] at hs
  have hnew : (v.ticket s.tickets.size).notBefore = some d := by
    rw [hs, ← hd]
    rfl
  rw [he, ← hv]
  have hspread := defers_custody (reaches_spread (s := v) (m := m) (t := s.tickets.size)
    (s.plan t) fun _ _ _ _ _ _ _ _ => trivial)
  refine ⟨hspread.awaits _ (Option.some_ne_none _) d (Ticket.awaits_of_eq hnew),
    fun p g hp hwhole htg u hu hug => ?_⟩
  have hvg : (v.ticket s.tickets.size).group = some g := by
    rw [hs, ← htg]
    rfl
  simp only [spread]
  rw [hvg, hnew, hp]
  simp only [Option.any_some, hwhole, Option.isSome_some, and_self, ↓reduceIte]
  apply awaits_delayGroup
  · rw [hv, manager_onManager, if_pos rfl]
    change u ∈ insertOrdered (Queue.rank next.ticket) s.tickets.size (s.manager m).queue.order
    rcases insertOrdered_cases (Queue.rank next.ticket) s.tickets.size (s.manager m).queue.order
      with hi | hi
    · rwa [hi]
    · exact hi.mem_iff.mpr (List.mem_cons_of_mem _ hu)
  · change (v.ticket u).group = some g
    by_cases he : u = s.tickets.size
    · rw [he, hvg]
    · obtain ⟨stamp, hs⟩ := ticket_stampTicket (s.wrap (s.renewal m t)) s.tickets.size u
      rw [hvt, hnext, hs, ticket_wrap, if_neg he]
      exact hug

theorem settle_held {o : Outcome} {delay d : Int}
    (h : (s.settle m t o).2 = .ok (.retried delay)) (hd : deadline (s.time m) delay = some d) :
    HeldUntil m t d s (s.settle m t o).1 := by
  obtain ⟨w, hw⟩ : ∃ w, w = s.onManager m (·.release (s.ticket t)) := ⟨_, rfl⟩
  have ended {s : Store} {m t : Nat} {status : Status} {tell : Bool}
      (h : (s.finish m t status tell).2 = .ok (.retried delay)) : False := by cases h
  refine settle_induction (s := s) (m := m) (t := t)
    (P := fun r => r.2 = .ok (.retried delay) → HeldUntil m t d s r.1) hw
    (fun h => (ended h).elim) (fun status tell _ h => (ended h).elim) (fun h => ?_) o h
  have hg : w.manager m = (s.manager m).release (s.ticket t) := by
    rw [hw, manager_onManager, if_pos rfl]
  have ht : w.time m = s.time m := by rw [time, hg, hw]; rfl
  have hh := retry_held h (by rw [ht, hd])
  subst hw
  exact ⟨hh.new, fun p g hp hwhole htg u hu => hh.group p g hp hwhole htg u (by rw [hg]; exact hu)⟩

/-- A job that is added waits until its delay is over. -/
theorem enlist_deadline {j : Nat} (h : s.enlist m j = some s') :
    (s'.ticket s.tickets.size).notBefore = deadline (s.time m) (s.job j).delay := by
  simp only [enlist] at h
  split at h
  · cases h
  split at h
  · cases h
  rename_i next queue hp
  obtain ⟨-, hs, -⟩ := push_eq_some.mp hp
  cases h
  rw [ticket_onManager]
  change (next.ticket s.tickets.size).notBefore = _
  rw [hs]
  obtain ⟨stamp, hst⟩ := ticket_stampTicket _ s.tickets.size s.tickets.size
  rw [hst, ticket_wrap, if_pos rfl]

end Store

end Backlog
