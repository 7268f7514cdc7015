import Backlog.Proofs.Punctuality

/-!
# What makes a waiting ticket ready

A ticket that waits becomes ready, or is not ready any more, by the time, by the network, or by
its deadline. A deadline changes when the client sets it and when the group of the ticket is held
up. All else leaves it as it was.
-/

namespace Backlog

namespace Manager

variable {g : Manager} {id : String} {t : Nat}

theorem status_running (h : g.running.find? id = some t) (ticket : Nat → Ticket) (now : Int) :
    g.status ticket now id = .running := by
  rw [status, Table.contains, h]
  rfl

/-- A ticket that is queued is ready unless it is early or waits for the network. -/
theorem status_queued (hr : g.running.find? id = none) (hq : g.queue.find? id = some t)
    (ticket : Nat → Ticket) (now : Int) :
    g.status ticket now id =
      if (ticket t).early now || (ticket t).offline g.network then .waitingNotReady
      else .waitingReady := by
  rw [status, Table.contains, hr, hq]
  rfl

end Manager

namespace Store

variable {s s' s'' : Store} {m t u : Nat} {D D' : Nat → Prop}

/-- The clocks show what they showed, every ticket needs what it needed, and its deadline stands
unless `D` holds of it. -/
structure Abides (D : Nat → Prop) (s s' : Store) : Prop where
  now : s'.now = s.now
  uptime : s'.uptime = s.uptime
  size : s.tickets.size ≤ s'.tickets.size
  needs : ∀ t < s.tickets.size, (s'.ticket t).needsNetwork = (s.ticket t).needsNetwork
  deadline : ∀ t < s.tickets.size, ¬D t → (s'.ticket t).notBefore = (s.ticket t).notBefore

namespace Abides

theorem of_eq (hn : s'.now = s.now) (hu : s'.uptime = s.uptime) (ht : s'.tickets = s.tickets) :
    Abides D s s' where
  now := hn
  uptime := hu
  size := Nat.le_of_eq (by rw [ht])
  needs t _ := by rw [ticket, ticket, ht]
  deadline t _ _ := by rw [ticket, ticket, ht]

theorem refl (D : Nat → Prop) (s : Store) : Abides D s s := of_eq rfl rfl rfl

theorem trans (h : Abides D s s') (h' : Abides D s' s'') : Abides D s s'' where
  now := h'.now.trans h.now
  uptime := h'.uptime.trans h.uptime
  size := Nat.le_trans h.size h'.size
  needs t ht := (h'.needs t (Nat.lt_of_lt_of_le ht h.size)).trans (h.needs t ht)
  deadline t ht hd :=
    (h'.deadline t (Nat.lt_of_lt_of_le ht h.size) hd).trans (h.deadline t ht hd)

/-- Only tickets that existed matter. -/
theorem mono (h : Abides D s s') (hd : ∀ t < s.tickets.size, D t → D' t) : Abides D' s s' where
  now := h.now
  uptime := h.uptime
  size := h.size
  needs := h.needs
  deadline t ht hn := h.deadline t ht fun h => hn (hd t ht h)

end Abides

theorem abides_onTicket (s : Store) (t : Nat) {f : Ticket → Ticket}
    (hn : (f (s.ticket t)).needsNetwork = (s.ticket t).needsNetwork)
    (hd : (f (s.ticket t)).notBefore = (s.ticket t).notBefore ∨ D t) :
    Abides D s (s.onTicket t f) where
  now := rfl
  uptime := rfl
  size := by simp only [onTicket, Registry.size_modify]; omega
  needs u _ := by
    rw [ticket_onTicket]
    split
    · rename_i h; subst h; exact hn
    · rfl
  deadline u _ hu := by
    rw [ticket_onTicket]
    split
    · rename_i h; subst h; exact hd.resolve_right hu
    · rfl

theorem abides_wrap (s : Store) (k : Ticket) : Abides D s (s.wrap k) where
  now := rfl
  uptime := rfl
  size := by simp only [wrap, Registry.size_add]; omega
  needs t ht := by rw [ticket_wrap, if_neg (Nat.ne_of_lt ht)]
  deadline t ht _ := by rw [ticket_wrap, if_neg (Nat.ne_of_lt ht)]

theorem Touches.abides {r : Reach} (h : Touches r s s') (hc : ¬r.clocks) :
    Abides (fun t => r.holds t ∨ r.sets t) s s' := by
  cases h with
  | aside _ ht hq hclocks => exact .of_eq (hclocks hc).1 (hclocks hc).2 ht
  | made k hk => exact abides_wrap s k
  | held t group d ht =>
    apply abides_onTicket <;> simp only [Queue.delayMember] <;> split
    · rfl
    · rfl
    · exact .inr (.inl (ht ‹_›))
    · exact .inl rfl
  | scheduled t d ht => exact abides_onTicket s t rfl (.inr (.inr ht))
  | edited t f hf =>
    obtain ⟨job, id, priority, runs, created, hf⟩ := hf
    exact abides_onTicket s t (by rw [hf]) (.inl (by rw [hf]))
  | _ => exact abides_onTicket s _ rfl (.inl rfl)

/-- Other deadlines than those that an operation may set or defer stand. -/
theorem Reaches.abides {r : Reach} (h : Reaches r s s') (hc : ¬r.clocks) :
    Abides (fun t => r.holds t ∨ r.sets t) s s' := by
  induction h with
  | refl => exact .refl ..
  | tail _ h ih => exact ih.trans (h.abides hc)

theorem abides_settle (s : Store) (m t : Nat) (o : Outcome) :
    Abides (s.Spreads m t o) s (s.settle m t o).1 := by
  have h := reaches_settle (m := m) (t := t) (o := o)
    (r := { holds := fun u => u = s.tickets.size ∨ s.Spreads m t o u }) (.inl rfl) fun _ => .inr
  -- the new ticket did not exist before
  exact (h.abides id).mono fun u hu h =>
    (h.resolve_right id).resolve_left (Nat.ne_of_lt hu)

theorem abides_call (s : Store) (c : Call) :
    Abides (fun u => rescheduled c = some u ∨ s.Delays c u) s (s.call c) :=
  ((reaches_call s c).abides id).mono fun _ _ => Or.symm

theorem abides_claim (h : s.claim m = some (s', t)) : Abides D s s' := by
  simp only [claim] at h
  split at h
  · cases h
  · obtain ⟨rfl, rfl⟩ := Prod.mk.inj (Option.some.inj h)
    exact (abides_onTicket s _ (f := fun k => { k with
      runs := k.runs + 1, session := (s.manager m).session }) rfl (.inl rfl)).trans
        (.of_eq rfl rfl rfl)

/-- What a manager was set up with, and what it knows of the network. -/
structure SameSettings (m : Nat) (s s' : Store) : Prop where
  config : (s'.manager m).config = (s.manager m).config
  network : (s'.manager m).network = (s.manager m).network

theorem SameSettings.of_eq (h : s'.manager m = s.manager m) : SameSettings m s s' := by
  constructor <;> rw [h]

/-- A manager that has a queued ticket keeps its settings unless it is told about the network. -/
theorem sameSettings_call {c : Call} {id : String} (hc : c.inScope s = true)
    (hq : (s.manager m).queue.find? id = some t) (hn : ∀ up, c ≠ .manager m (.network up)) :
    SameSettings m s (s.call c) := by
  rcases manager_call s c m with hm | ⟨d, rfl⟩ | ⟨config, rfl, hi⟩
  · exact .of_eq hm
  · obtain ⟨_, _, _, _, _, hm, hnet, -⟩ := manager_manage_self hc
    constructor <;> rw [show s.call (.manager m d) = s.manage m d from rfl, hm]
    exact hnet fun up he => hn up (by rw [he])
  · rw [show s.manager m = default from Registry.get_of_size_le (Nat.le_of_eq hi.symm)] at hq
    cases hq

theorem sameSettings_settle (made : t < s.tickets.size) (i : Nat) (o : Outcome) :
    SameSettings m s (s.settle i t o).1 := by
  by_cases hi : m = i
  · subst hi
    obtain ⟨_, _, _, hm⟩ := released_settle (m := m) made o
    constructor <;> rw [hm] <;> rfl
  · exact .of_eq (manager_settle made o hi)

theorem sameSettings_claim {i : Nat} (h : s.claim i = some (s', t)) : SameSettings m s s' := by
  have hb := claim_begins h
  by_cases hi : m = i
  · subst hi
    obtain ⟨counts, -, hm⟩ := hb.manager
    constructor <;> rw [hm] <;> rfl
  · exact .of_eq (hb.other m hi)

/-- The present of a manager is what the clocks show. -/
theorem time_eq (h : Abides D s s') (hm : SameSettings m s s') : s'.time m = s.time m := by
  rw [time, time, hm.config]
  cases (s.manager m).config.clock
  · exact h.now
  · exact congrArg Int.ofNat h.uptime

/-- The status of an id that stays where it is depends on the time, the network and the deadline
of its ticket. -/
theorem status_eq {id : String} (ha : (s.manager m).Agrees (s'.manager m) id)
    (ht : ∀ t, (s.manager m).running.find? id = none → (s.manager m).queue.find? id = some t →
      s'.time m = s.time m ∧ (s'.manager m).network = (s.manager m).network ∧
      (s'.ticket t).needsNetwork = (s.ticket t).needsNetwork ∧
      (s'.ticket t).notBefore = (s.ticket t).notBefore) :
    (s'.manager m).status s'.ticket (s'.time m) id =
      (s.manager m).status s.ticket (s.time m) id := by
  cases hr : (s.manager m).running.find? id with
  | some u => rw [Manager.status_running hr, Manager.status_running (ha.running.trans hr)]
  | none =>
    cases hq : (s.manager m).queue.find? id with
    | none =>
      simp only [Manager.status, Table.contains, ha.running, ha.queue, ha.finished, hr, hq]
    | some t =>
      obtain ⟨htime, hnet, hneeds, hdead⟩ := ht t hr hq
      have he : (s'.ticket t).early (s'.time m) = (s.ticket t).early (s.time m) := by
        rw [Ticket.early, hdead, htime, ← Ticket.early]
      have ho : (s'.ticket t).offline (s'.manager m).network =
          (s.ticket t).offline (s.manager m).network := by
        rw [Ticket.offline, hneeds, hnet, ← Ticket.offline]
      rw [Manager.status_queued hr hq, Manager.status_queued (ha.running.trans hr)
        (ha.queue.trans hq), he, ho]

end Store

namespace World

variable {w w' : World} {a m t u : Nat} {id : String} {mv : Move}

/-- The move holds up the group of ticket `u`, which is queued: on behalf of a queue that stands
alone, or because a member is retried and its job wants the whole group to wait. -/
inductive HoldsUp (w : World) (u : Nat) : Move → Prop
  | queue (q : Nat) (group : String) (d : Option Int) (hu : u ∈ (w.queue q).order)
    (hg : (w.ticket u).group = some group) : HoldsUp w u (.call (.queue q (.delayGroup group d)))
  | retry (a : Nat) (r : Reply) (f : Frame) (v : World) (k : Caller) (o : Outcome) (m t : Nat)
    (hf : w.pending.find? a = some f)
    (hv : Rules { w with pending := w.pending.erase a } f r v k o) (hk : k.work = some (m, t))
    (hs : v.Spreads m t o u) : HoldsUp w u (.reply a r)

/-- A call or a reply takes no time, and sets another deadline only if it is to do so or holds up
a group. -/
theorem abides_effect (w : World) (hc : ∀ now, mv ≠ .clock now) (he : ∀ nanos, mv ≠ .elapse nanos) :
    Store.Abides (fun u => rescheduled mv = some u ∨ w.HoldsUp u mv) w.toStore
      (w.effect mv).toStore := by
  cases mv with
  | call c =>
    rcases effect_call w c with ⟨-, he⟩ | he <;> rw [he]
    · refine (Store.abides_call w.toStore c).mono fun u _ h => h.imp_right fun h => ?_
      cases c with
      | queue q c =>
        cases c with
        | delayGroup group d => exact .queue q group d h.1 h.2
        | _ => cases h
      | _ => cases h
    · exact .refl ..
  | reply a r =>
    rcases step_resumes w a r with ⟨-, he⟩ | ⟨f, hf, -, hr⟩
    · rw [he]
      exact .refl ..
    generalize w.effect (.reply a r) = e, w.step (.reply a r) = w' at hr
    have closed {v : World} {k : Caller} {o : Outcome}
        (hv : Rules { w with pending := w.pending.erase a } f r v k o) :
        Store.Abides (fun u => rescheduled (.reply a r) = some u ∨ w.HoldsUp u (.reply a r))
          w.toStore (v.close k o).toStore := by
      obtain ⟨jobs, hvw, -⟩ := hv.replanned
      have hwv : Store.Abides (fun u => rescheduled (.reply a r) = some u ∨
          w.HoldsUp u (.reply a r)) w.toStore v.toStore := by
        rw [hvw]
        exact .of_eq rfl rfl rfl
      apply hwv.trans
      cases k with
      | client => exact .refl ..
      | manager m t n since tally =>
        exact (Store.abides_settle v.toStore m t o).mono fun u _ hu =>
          .inr (.retry a r f v _ o m t hf hv rfl hu)
    cases hr with
    | failed u v k o m t x hv hk hs hu => exact closed hv
    | told u v k o m t j hv hk hu hn => exact closed hv
    | went u v k o hv hu => exact closed hv
    | _ => exact .of_eq rfl rfl rfl
  | clock now => exact absurd rfl (hc now)
  | elapse nanos => exact absurd rfl (he nanos)

theorem sameSettings_effect (h : w.Founded) (hq : (w.manager m).queue.find? id = some t)
    (hn : ∀ up, mv ≠ .call (.manager m (.network up))) :
    Store.SameSettings m w.toStore (w.effect mv).toStore := by
  cases mv with
  | call c =>
    rcases effect_call w c with ⟨hs, he⟩ | he <;> rw [he]
    · exact Store.sameSettings_call hs hq fun up he => hn up (by rw [he])
    · exact .of_eq rfl
  | reply a r =>
    have hr := replied w a r
    generalize (w.effect (.reply a r)).toStore = s at hr ⊢
    cases hr with
    | planned jobs hj => exact .of_eq rfl
    | settled jobs hj i t o hw =>
      have hs := Store.sameSettings_settle (s := { w.toStore with jobs }) (m := m) (h.works a i t hw) i o
      exact ⟨hs.config, hs.network⟩
  | clock now => exact .of_eq rfl
  | elapse nanos => exact .of_eq rfl

/-- What follows a move takes no time and leaves deadlines and settings as they are. -/
theorem abides_sequel {D : Nat → Prop} (hs : Sequel a w w') :
    Store.Abides D w.toStore w'.toStore ∧ ∀ m, Store.SameSettings m w.toStore w'.toStore := by
  cases hs with
  | wrote ls es he => exact ⟨.of_eq rfl rfl rfl, fun _ => .of_eq rfl⟩
  | told j t next ha ht hn =>
    exact ⟨Store.abides_onTicket _ t (f := ({ · with notified := true })) rfl (.inl rfl),
      fun _ => .of_eq rfl⟩
  | welcomed j t ha => exact ⟨.of_eq rfl rfl rfl, fun _ => .of_eq rfl⟩
  | departed i t s tally ha hc =>
    rw [toStore_depart]
    exact ⟨Store.abides_claim hc, fun _ => Store.sameSettings_claim hc⟩

end World

end Backlog
