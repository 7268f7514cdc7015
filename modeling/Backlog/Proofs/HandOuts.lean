import Backlog.Proofs.Renaming
import Backlog.Proofs.SearchTrees

/-!
# Tickets that are handed out once

The queue of a manager is as exact about ids as any other: a ticket that begins an attempt under
another id than it was queued with is still found under the old one, and can be cancelled out of
the queue while it runs.
-/

namespace Backlog

namespace Queue

variable {q q' : Queue} {ticket : Nat → Ticket} {t : Nat} {id : String}

/-- The queue finds the ticket under the id, and removal by the id takes it out of both halves. If
the order stands, a search for the ticket's place does the same to whatever tree keeps it. -/
structure Yields (q : Queue) (ticket : Nat → Ticket) (id : String) (t : Nat) : Prop where
  found : q.find? id = some t
  removed : ∃ q', q.remove ticket id = some (t, q') ∧ ¬q'.holds t ∧
    (q.Ordered ticket → ∀ tree : SearchTree Nat, tree.toList = q.order →
      (tree.erase (rank ticket) t).toList = q'.order)

theorem Keyed.yields (h : q.Keyed) (ht : t ∈ q.order) (hk : q.find? id = some t) :
    q.Yields ticket id t := by
  obtain ⟨q', hr⟩ := remove_of_find? ticket hk
  obtain ⟨-, order, hs, hn, rfl⟩ := remove_eq hr
  exact ⟨hk, _, hr, (h.leave hk hs hn q.closed).2, fun ho tree htree =>
    (ho.searched (ho.stamped t ht) htree).2 id _ hr⟩

theorem ordered_of_length_le (h : q.order.length ≤ 1)
    (hs : ∀ t ∈ q.order, (ticket t).stamp.isSome = true) : q.Ordered ticket := by
  refine ⟨hs, ?_⟩
  match q.order, h with
  | [], _ => exact .nil
  | [t], _ => exact List.pairwise_singleton ..

theorem Keyed.congr (h : q.Keyed) (ho : q'.order = q.order) (hi : q'.index = q.index) :
    q'.Keyed := by
  obtain ⟨order, index, closed⟩ := q'
  subst ho hi
  exact ⟨h.nodup, h.keyed, h.single⟩

theorem holds_congr (ho : q'.order = q.order) (hi : q'.index = q.index) {t : Nat} :
    q'.holds t ↔ q.holds t := by
  obtain ⟨order, index, closed⟩ := q'
  subst ho hi
  exact .rfl

end Queue

namespace Store

variable {s s' s'' : Store} {m t u : Nat} {Q : Nat → Prop}

/-- Manager `m` has taken in only new tickets and those that `Q` says. -/
structure Intakes (m : Nat) (Q : Nat → Prop) (s s' : Store) : Prop where
  keyed : (s'.manager m).queue.Keyed
  gained : ∀ t, (s'.manager m).queue.holds t →
    (s.manager m).queue.holds t ∨ s.tickets.size ≤ t ∨ Q t

namespace Intakes

theorem still (h : (s.manager m).queue.Keyed)
    (ho : (s'.manager m).queue.order = (s.manager m).queue.order)
    (hi : (s'.manager m).queue.index = (s.manager m).queue.index) : Intakes m Q s s' :=
  ⟨h.congr ho hi, fun _ ht => .inl ((Queue.holds_congr ho hi).mp ht)⟩

/-- A ticket has left the queue with its entry. -/
theorem leave (h : (s.manager m).queue.Keyed) {id : String}
    (hk : (s.manager m).queue.find? id = some t) {order : List Nat}
    (hs : order.Sublist (s.manager m).queue.order) (ht : t ∉ order)
    (hq : (s'.manager m).queue =
      { (s.manager m).queue with order, index := (s.manager m).queue.index.erase id }) :
    Intakes m Q s s' ∧ ¬(s'.manager m).queue.holds t := by
  obtain ⟨hkeyed, hn⟩ := h.leave hk hs ht (s.manager m).queue.closed
  refine ⟨⟨hq ▸ hkeyed, fun u hu => .inl ?_⟩, hq ▸ hn⟩
  rw [hq] at hu
  exact hu.imp (fun hu => hs.subset hu) fun ⟨i, hi⟩ => ⟨i, Table.find?_of_erase hi⟩

theorem mono {R : Nat → Prop} (h : Intakes m Q s s') (hq : ∀ t, Q t → R t) : Intakes m R s s' :=
  ⟨h.keyed, fun t ht => (h.gained t ht).imp_right (.imp_right (hq t))⟩

end Intakes

/-- What a queue takes in while its order stands, any tree that keeps the order puts in the same
place. -/
theorem searched_push {q q' : Queue} (h : q.Ordered s.ticket) (ht : t ∉ q.order)
    (hp : s.push q t = some (s', q')) {tree : SearchTree Nat} (hd : tree.toList = q.order) :
    (tree.insert (Queue.rank s'.ticket) t).toList = q'.order := by
  obtain ⟨-, rfl, rfl⟩ := push_eq_some.mp hp
  have hold : q.Ordered (s.stampTicket t).ticket := h.congr fun u hu => by
    rw [ticket_stampTicket_eq, if_neg (ne_of_mem_of_not_mem hu ht)]
  exact (hold.searched (stamped_stampTicket s t) hd).1

/-- The entry that a ticket gets when a manager takes it in, and the entries that stay. -/
structure Enters (m t : Nat) (id : String) (s s' : Store) : Prop where
  entry : (s'.manager m).queue.find? id = some t
  stayed : ∀ u i, (s.manager m).queue.find? i = some u → (s'.manager m).queue.find? i = some u
  gained : ∀ u, (s'.manager m).queue.holds u → (s.manager m).queue.holds u ∨ u = t
  keyed : (s.manager m).queue.Keyed → ¬(s.manager m).queue.holds t →
    (s'.manager m).queue.Keyed

theorem enters_of_insert {ticket : Nat → Ticket}
    (hq : (s'.manager m).queue = (s.manager m).queue.insert ticket t)
    (hc : (s.manager m).queue.index.contains (ticket t).id = false) :
    Enters m t (ticket t).id s s' := by
  constructor <;> rw [hq]
  · rw [find?_insert, if_pos rfl]
  · exact fun u i hu => Queue.find?_insert_ne hc hu
  · exact fun u hu => Queue.holds_of_insert hu
  · exact fun hk hn => hk.insert hn hc

/-- The ticket is new. -/
theorem Enters.new {id : String} (h : Enters m s.tickets.size id s s')
    (hk : (s.manager m).queue.Keyed)
    (hz : ∀ t, (s.manager m).queue.holds t → t < s.tickets.size) : Intakes m Q s s' where
  keyed := h.keyed hk fun ht => Nat.lt_irrefl _ (hz _ ht)
  gained u hu := (h.gained u hu).imp_right fun he => .inl (Nat.le_of_eq he.symm)

theorem TakesIn.enters (h : TakesIn m t s s') : Enters m t (s'.ticket t).id s s' := by
  obtain ⟨counts, -, hm⟩ := h.manager
  exact enters_of_insert (congrArg Manager.queue hm)
    (by simpa using (Bool.and_eq_true_iff.mp h.free).2)

/-- A ticket of the manager's own session is not recovered. -/
theorem reclaim_own (h : (s.ticket t).session = (s.manager m).session) :
    s.reclaim m t = (s, .ignored) := by
  simp only [reclaim]
  rw [h, beq_self_eq_true, Bool.or_true, if_pos rfl]

/-- Recovery gives a session to no other ticket than the one that is offered. -/
theorem session_reclaim (hu : u ≠ t) :
    ((s.reclaim m t).1.ticket u).session = (s.ticket u).session := by
  rcases reclaim_eq s m t with ⟨he, -⟩ | ⟨-, w, next, hw, rfl, he⟩
  · rw [he]
  · obtain ⟨stamp, hs⟩ := ticket_stampTicket w t u
    have ht : (s.reclaim m t).1.ticket u = (w.stampTicket t).ticket u := by rw [he]; rfl
    rw [ht, hs, hw, ticket_onTicket, if_neg hu]

/-- A ticket that manager `m` has queued can be offered to it: it is found under its present id, or
else belongs to the session. -/
def barred (s : Store) (m t : Nat) : Prop := (s.manager m).queue.holds t →
  (s.manager m).queue.find? (s.ticket t).id = some t ∨
    (s.ticket t).session = (s.manager m).session

/-- A recovered ticket is barred from then on, and so are those that were. -/
theorem barred_reclaim (made : t < s.tickets.size) (hk : (s.manager m).queue.Keyed)
    (hb : s.barred m t) : Intakes m (· = t) s (s.reclaim m t).1 ∧
      ∀ u, u < s.tickets.size → s.barred m u → (s.reclaim m t).1.barred m u := by
  rcases reclaim_cases s m made with ⟨he, -⟩ | ⟨⟨stale, hr⟩, hi, -⟩
  · rw [he]
    exact ⟨.still hk rfl rfl, fun _ _ h => h⟩
  have he := hi.enters
  have hid (u : Nat) (hu : u < s.tickets.size) :
      ((s.reclaim m t).1.ticket u).id = (s.ticket u).id :=
    Ticket.id_of_lasting (hi.keeps.lasting hu)
  have hn : ¬(s.manager m).queue.holds t := by
    intro ht
    rcases hb ht with hf | hs
    · rw [← hid t made] at hf
      rw [(Manager.free_iff.mp hi.free).2] at hf
      cases hf
    · rw [reclaim_own hs] at hr
      cases hr
  refine ⟨⟨he.keyed hk hn, fun u hu => (he.gained u hu).imp_right .inr⟩, fun u hu h hh => ?_⟩
  by_cases hut : u = t
  · subst hut
    exact .inl he.entry
  · rcases h ((he.gained u hh).resolve_right hut) with hf | hs
    · rw [hid u hu]
      exact .inl (he.stayed u _ hf)
    · obtain ⟨counts, -, hm⟩ := hi.manager
      right
      rw [session_reclaim hut, hs, hm]
      rfl

theorem intakes_recover (hk : (s.manager m).queue.Keyed) {ts : List (Option Nat)}
    (hts : ∀ t ∈ ts, t.all (· < s.tickets.size) = true) (hb : ∀ t, some t ∈ ts → s.barred m t) :
    Intakes m (fun t => some t ∈ ts) s (s.manage m (.recover ts)) := by
  have made (t : Nat) (ht : some t ∈ ts) : t < s.tickets.size := by simpa using hts _ ht
  refine (recover_induction (P := fun r => s.tickets.size ≤ r.tickets.size ∧
    (∀ t, some t ∈ ts → r.barred m t) ∧ Intakes m (fun t => some t ∈ ts) s r)
    (fun r t hr ht hz => ?_) ⟨Nat.le_refl _, hb, .still hk rfl rfl⟩ hts).2.2
  obtain ⟨hsize, hbar, hin⟩ := hr
  obtain ⟨hin', hbar'⟩ := barred_reclaim hz hin.keyed (hbar t ht)
  refine ⟨Nat.le_trans hsize (keeps_reclaim ..).tickets, fun u hu =>
    hbar' u (Nat.lt_of_lt_of_le (made u hu) hsize) (hbar u hu), hin'.keyed, fun u hu => ?_⟩
  rcases hin'.gained u hu with hu | hu | rfl
  · exact hin.gained u hu
  · exact .inr (.inl (Nat.le_trans hsize hu))
  · exact .inr (.inr ht)

/-- What a manager does at once with its queue. -/
theorem intakes_manage {c : ManagerCall} (hc : (Call.manager m c).inScope s = true)
    (hk : (s.manager m).queue.Keyed) (hz : ∀ t, (s.manager m).queue.holds t → t < s.tickets.size)
    (hb : ∀ ts, c = .recover ts → ∀ t, some t ∈ ts → s.barred m t) :
    Intakes m (fun t => ∃ ts, c = .recover ts ∧ some t ∈ ts) s (s.manage m c) := by
  have same (f : Manager → Manager) (ho : (f (s.manager m)).queue.order = (s.manager m).queue.order)
      (hi : (f (s.manager m)).queue.index = (s.manager m).queue.index) :
      Intakes m (fun t => ∃ ts, c = .recover ts ∧ some t ∈ ts) s (s.onManager m f) := by
    refine .still hk ?_ ?_ <;> rw [manager_onManager, if_pos rfl] <;> assumption
  cases c with
  | add j =>
    simp only [manage]
    cases he : j.bind (s.enlist m) with
    | none => exact .still hk rfl rfl
    | some s' =>
      obtain ⟨j, -, he⟩ := Option.bind_eq_some_iff.mp he
      exact (enlist_takesIn he).1.enters.new hk hz
  | cancel id =>
    simp only [manage]
    cases hw : s.withdraw m id with
    | none => exact .still hk rfl rfl
    | some p =>
      obtain ⟨s', v⟩ := p
      rcases withdraw_cases hw with ⟨t, -, rfl, -⟩ | ⟨-, t, queue, hq, rfl, -⟩
      · exact .still hk rfl rfl
      · obtain ⟨hkey, order, hs, ht, rfl⟩ := Queue.remove_eq hq
        refine (Intakes.leave hk hkey hs ht ?_).1
        dsimp only [Option.map_some, Option.getD_some]
        rw [manager_onManager, if_pos rfl]
  | recover ts =>
    simp only [Call.inScope, Bool.and_eq_true] at hc
    refine (intakes_recover hk (List.all_eq_true.mp hc.2) (hb ts rfl)).mono fun t ht => ?_
    exact ⟨ts, rfl, ht⟩
  | network up => exact same ({ · with network := up }) rfl rfl
  | stop =>
    simp only [manage]
    split
    · exact same (·.stop) rfl rfl
    · exact .still hk rfl rfl
  | _ => exact .still hk rfl rfl

/-- Work that goes on has an id that the queue takes. -/
theorem accepts_of_verdict {o : Outcome} (h : s.verdict m t o = none) :
    (s.manager m).queue.accepts (s.job (s.ticket t).job).id = true := by
  have again (h : verdict.again s m t = none) :
      (s.manager m).queue.accepts (s.job (s.ticket t).job).id = true := by
    simp only [verdict.again] at h
    split at h
    · cases h
    · split at h
      · rename_i ha
        exact ha.2
      · cases h
  cases o with
  | again => exact again h
  | declined =>
    simp only [verdict] at h
    split at h
    · cases h
    · exact again h
  | _ => cases h

/-- A settled ticket leaves the queue as it is, or a new ticket is queued in its place. -/
theorem intakes_settle (made : t < s.tickets.size) (o : Outcome) (hk : (s.manager u).queue.Keyed)
    (hz : ∀ t, (s.manager u).queue.holds t → t < s.tickets.size) :
    Intakes u Q s (s.settle m t o).1 := by
  by_cases hu : u = m
  · subst hu
    rcases settle_spec (m := u) made o with ⟨_, _, -, -, he⟩ | ⟨hv, -, hr⟩ | ⟨-, -, -, -, hl⟩
    · exact .still hk (by rw [he.manager]; rfl) (by rw [he.manager]; rfl)
    · obtain ⟨ticket, hlast, hm⟩ := hr.manager
      refine (enters_of_insert (congrArg Manager.queue hm) ?_).new hk hz
      have hid := (Ticket.id_of_lasting (hlast _ (Nat.le_refl _))).symm.trans hr.id
      have ha := accepts_of_verdict hv
      simp only [Queue.accepts, Bool.and_eq_true, Bool.not_eq_true'] at ha
      rw [hid]
      exact ha.2
    · exact .still hk (by rw [hl.manager]; rfl) (by rw [hl.manager]; rfl)
  · have hm := manager_settle (m := m) made o hu
    exact .still hk (by rw [hm]) (by rw [hm])

/-- A ticket begins an attempt, and the queue finds it under its present id. -/
theorem Begins.intakes (h : Begins m t s s') (hk : (s.manager m).queue.Keyed)
    (hf : (s.manager m).queue.find? (s.ticket t).id = some t) :
    Intakes m Q s s' ∧ ¬(s'.manager m).queue.holds t := by
  have hid : (s'.ticket t).id = (s.ticket t).id := by rw [h.ticket]
  refine Intakes.leave hk hf List.erase_sublist hk.nodup.not_mem_erase ?_
  obtain ⟨counts, -, hm⟩ := h.manager
  rw [hm, ← hid]
  rfl

theorem intakes_call {c : Call} (hc : c.inScope s = true) (hk : (s.manager m).queue.Keyed)
    (hz : ∀ t, (s.manager m).queue.holds t → t < s.tickets.size)
    (hb : ∀ ts, c = .manager m (.recover ts) → ∀ t, some t ∈ ts → s.barred m t) :
    Intakes m (fun t => ∃ ts, c = .manager m (.recover ts) ∧ some t ∈ ts) s (s.call c) := by
  rcases manager_call s c m with hm | ⟨d, rfl⟩ | ⟨config, rfl, hi⟩
  · exact .still hk (by rw [hm]) (by rw [hm])
  · refine (intakes_manage hc hk hz fun ts he => hb ts (by rw [he])).mono fun t ht => ?_
    obtain ⟨ts, rfl, ht⟩ := ht
    exact ⟨ts, rfl, ht⟩
  · have hm := manager_make s config hi
    exact .still hk (by rw [hm]) (by rw [hm])

end Store

namespace World

variable {w : World} {m t : Nat} {mv : Move} {moves : List Move}

/-- The move offers the ticket to manager `m` for recovery. -/
def offers (m t : Nat) (mv : Move) : Prop :=
  ∃ ts, mv = .call (.manager m (.recover ts)) ∧ some t ∈ ts

theorem intakes_effect (hf : w.Founded) (hk : (w.manager m).queue.Keyed)
    (hb : ∀ t, offers m t mv → w.barred m t) :
    Store.Intakes m (offers m · mv) w.toStore (w.effect mv).toStore := by
  have hz (t : Nat) (ht : (w.manager m).queue.holds t) : t < w.tickets.size :=
    hf.store.known m t (ht.imp_right .inl)
  cases mv with
  | call c =>
    rcases effect_call w c with ⟨hc, he⟩ | he <;> rw [he]
    · refine (Store.intakes_call hc hk hz fun ts he t ht => hb t ⟨ts, by rw [he], ht⟩).mono ?_
      rintro t ⟨ts, rfl, ht⟩
      exact ⟨ts, rfl, ht⟩
    · exact .still hk rfl rfl
  | reply a r =>
    have hr := replied w a r
    generalize (w.effect (.reply a r)).toStore = s at hr ⊢
    cases hr with
    | planned jobs hj => exact .still hk rfl rfl
    | settled jobs hj i u o hw =>
      have hin := Store.intakes_settle (s := { w.toStore with jobs }) (Q := (offers m · (.reply a r)))
        (m := i) (hf.works a i u hw) o hk hz
      exact ⟨hin.keyed, hin.gained⟩
  | clock now => exact .still hk rfl rfl
  | elapse nanos => exact .still hk rfl rfl

/-- What queue `q` takes in has the same place in any tree that keeps its order. -/
theorem searched_step (hf : w.Founded) {q : Nat} (hr : w.retraces q mv)
    (ht : w.accepted q mv = some t) {tree : SearchTree Nat}
    (hd : tree.toList = (w.queue q).order) :
    (tree.insert (Queue.rank (w.step mv).ticket) t).toList = ((w.step mv).queue q).order := by
  rcases queue_step hf q mv with ⟨c, rfl, hc⟩ | ⟨-, hn, -⟩
  · obtain ⟨hs, hv⟩ := step_queue hc
    simp only [accepted, if_pos, hv, Option.bind_some] at ht
    rw [hs]
    obtain ⟨rfl, p, hp, he⟩ := Store.callQueue_taken ht
    obtain ⟨hn, ho⟩ := hr rfl (Store.push_eq_some.mp hp).1
    rw [he, Store.queue_setQueue_same]
    exact Store.searched_push ho (fun ht => hn (.inl ht)) hp hd
  · rw [hn] at ht
    cases ht

/-- The move may put tickets in their places in the queue of manager `m`, or seek them there. -/
def searches (m : Nat) (w : World) : Move → Prop
  | .call (.manager i (.add _)) | .call (.manager i (.cancel _))
  | .call (.manager i (.recover _)) => i = m
  | .reply a _ => ∃ t, w.Works a m t
  | _ => False

/-- A move that has to do with manager `m` is faithful to the ids that its tickets were queued with:
what begins an attempt is found under its present id, and so is what it has and is offered. If the
queue may be searched for a place, its order stands. -/
def retracesIn (m : Nat) (w : World) (mv : Move) : Prop :=
  (w.searches m mv → (w.manager m).queue.Ordered w.ticket) ∧
  (∀ t ∈ w.departures m mv,
    ((w.effect mv).manager m).queue.find? ((w.effect mv).ticket t).id = some t) ∧
  ∀ t, offers m t mv → w.barred m t

/-- What a move lets in and out of the queue of a manager. -/
theorem intakes_step (hf : w.Founded) (hk : (w.manager m).queue.Keyed) (hr : w.retracesIn m mv) :
    Store.Intakes m (offers m · mv) w.toStore (w.step mv).toStore ∧
      ∀ t ∈ w.departures m mv, ((w.effect mv).manager m).queue.holds t ∧
        ¬((w.step mv).manager m).queue.holds t := by
  have he := intakes_effect hf hk hr.2.2
  rcases step_departs hf m mv with ⟨hn, hm⟩ | ⟨u, hu, hd⟩
  · exact ⟨⟨hm ▸ he.keyed, by rw [hm]; exact he.gained⟩, by rw [hn]; exact nofun⟩
  · have hfind := hr.2.1 u (by rw [hu]; exact List.mem_cons_self)
    obtain ⟨hin, hgone⟩ := hd.begins.intakes (Q := fun _ => False) he.keyed hfind
    refine ⟨⟨hin.keyed, fun t ht => ?_⟩, fun t ht => ?_⟩
    · rcases hin.gained t ht with ht | ht | ht
      · exact he.gained t ht
      · exact .inr (.inl (Nat.le_trans (keeps_effect w mv).tickets ht))
      · exact ht.elim
    · rw [hu, List.mem_singleton] at ht
      subst ht
      exact ⟨.inl hd.begins.queued, hgone⟩

/-- A world whose manager `m` has a keyed queue. -/
structure Tracked (m : Nat) (w : World) : Prop where
  founded : w.Founded
  keyed : (w.manager m).queue.Keyed

theorem Tracked.step (h : w.Tracked m) (hr : w.retracesIn m mv) : (w.step mv).Tracked m :=
  ⟨h.founded.step mv, (intakes_step h.founded h.keyed hr).1.keyed⟩

theorem ReachableBy.tracked (h : ReachableBy (retracesIn m) w) : w.Tracked m :=
  h.induction (fun now => ⟨.start now, Queue.keyed_empty⟩) fun _ _ h hr => h.step hr

/-- A ticket that the queue of the manager has not stays out of it until it is offered. -/
theorem Tracked.gone_run (h : w.Tracked m) (made : t < w.tickets.size)
    (ht : ¬(w.manager m).queue.holds t)
    (ha : w.Along (fun v mv => v.retracesIn m mv ∧ ¬offers m t mv) moves) :
    w.Along (fun v mv => t ∉ v.departures m mv) moves ∧
      ¬((w.run moves).manager m).queue.holds t := by
  induction moves generalizing w with
  | nil => exact ⟨trivial, ht⟩
  | cons mv moves ih =>
    obtain ⟨⟨hr, hn⟩, ha⟩ := ha
    have hin := intakes_effect h.founded h.keyed hr.2.2
    have out {s : Store} (hs : Store.Intakes m (offers m · mv) w.toStore s) :
        ¬(s.manager m).queue.holds t := by
      intro hh
      rcases hs.gained t hh with hh | hz | ho
      · exact ht hh
      · exact Nat.not_lt.mpr hz made
      · exact hn ho
    obtain ⟨hstep, hdep⟩ := intakes_step h.founded h.keyed hr
    have made' : t < (w.step mv).tickets.size :=
      Nat.lt_of_lt_of_le made (tickets_step h.founded mv)
    obtain ⟨hrest, hend⟩ := ih (h.step hr) made' (out hstep) ha
    exact ⟨⟨fun hd => out hin (hdep t hd).1, hrest⟩, hend⟩

/-- What the queue of a manager has not is not dropped from it. -/
theorem not_dropped (h : ¬(w.manager m).queue.holds t) {id : String} {s : Store} :
    w.withdraw m id ≠ some (s, .dropped t) := by
  intro hw
  rcases Store.withdraw_cases hw with ⟨_, -, -, hv⟩ | ⟨-, u, queue, hq, -, hv⟩
  · cases hv
  · cases hv
    exact h (.inr ⟨id, Queue.find?_of_remove hq⟩)

/-- A queue that is faithful to the ids that its tickets were pushed with, and searched for places
only while its order stands, finds each ticket under one id, by which it can be removed until it is
handed out. Whatever tree keeps the order, tickets enter and leave it as they do the queue. What the
queue has handed out, it neither finds nor hands out until it is pushed again. What a manager that
is faithful in the same way has begun an attempt of, no cancellation drops from its queue and no
other attempt takes up until it is offered for recovery. -/
theorem handed_out_once {w : World} {q m : Nat} :
    (ReachableBy (retraces q) w →
      (∀ t ∈ (w.queue q).order, ∃ id, (w.queue q).Yields w.ticket id t ∧
        ∀ k, (w.queue q).find? k = some t → k = id) ∧
      ∀ mv t, w.retraces q mv →
        (w.accepted q mv = some t →
          (∀ tree : SearchTree Nat, tree.toList = (w.queue q).order →
            (tree.insert (Queue.rank (w.step mv).ticket) t).toList =
              ((w.step mv).queue q).order) ∧
          ∀ moves, (w.step mv).Along (fun v mv => v.retraces q mv ∧ v.handed q mv ≠ some t) moves →
            (((w.step mv).run moves).queue q).find? (w.ticket t).id = some t ∧
            ∃ queue, (((w.step mv).run moves).queue q).remove ((w.step mv).run moves).ticket
              (w.ticket t).id = some (t, queue)) ∧
        (w.handed q mv = some t →
          ∀ moves, (w.step mv).Along
              (fun v mv => v.retraces q mv ∧ v.accepted q mv ≠ some t) moves →
            (w.step mv).Along (fun v mv => v.handed q mv ≠ some t) moves ∧
            ∀ id, (((w.step mv).run moves).queue q).find? id ≠ some t)) ∧
    (ReachableBy (retracesIn m) w →
      ∀ mv, ∀ t ∈ w.departures m mv, ∀ moves, w.retracesIn m mv →
        (w.step mv).Along (fun v mv => v.retracesIn m mv ∧ ¬offers m t mv) moves →
        (w.step mv).Along (fun v mv => t ∉ v.departures m mv) moves ∧
        ∀ id s, ((w.step mv).run moves).withdraw m id ≠ some (s, .dropped t)) := by
  refine ⟨fun hw => ?_, fun hw mv t ht moves hr ha => ?_⟩
  · have h := hw.traced
    refine ⟨fun t ht => ?_, fun mv t hr => ⟨fun hin => ⟨fun tree hd => ?_, fun moves ha => ?_⟩,
      fun hout moves ha => ?_⟩⟩
    · obtain ⟨id, hid⟩ := h.keyed.keyed t ht
      exact ⟨id, h.keyed.yields ht hid, fun k hk => h.keyed.single t k id hk hid⟩
    · exact searched_step h.founded hr hin hd
    · have hfind := entry_run (h.step hr) ((passes_step h.keyed h.founded hr).entered t hin) ha
      exact ⟨hfind, Queue.remove_of_find? _ hfind⟩
    · have hgone := ((passes_step h.keyed h.founded hr).left t hout).2
      obtain ⟨hrun, hend⟩ := gone_run (h.step hr) hgone ha
      exact ⟨hrun, fun id hid => hend (.inr ⟨id, hid⟩)⟩
  · have h := hw.tracked
    obtain ⟨hheld, hgone⟩ := (intakes_step h.founded h.keyed hr).2 t ht
    have made : t < (w.step mv).tickets.size :=
      Nat.lt_of_lt_of_le ((h.founded.effect mv).store.known m t (hheld.imp_right .inl))
        (size_sequels (step_sequels h.founded mv))
    obtain ⟨hrun, hend⟩ := (h.step hr).gone_run made hgone ha
    exact ⟨hrun, fun id s => not_dropped hend⟩

/-- A manager and a queue have the same ticket, which gets another id and its own again. -/
def restored : List Move :=
  [.call (.makeManager {}), .call (.makeJob { id := "a" }), .call (.makeJob { id := "b" }),
    .call (.manager 0 (.add (some 0))), .reply 3 .done, .call .makeQueue,
    .call (.queue 0 (.push (some 0))), .call (.editTicket 0 (.job (some 1))),
    .call (.editTicket 0 (.job (some 0)))]

theorem retracesIn.of_ne {mv : Move} (hl : (w.manager m).queue.order.length ≤ 1)
    (hs : ∀ t ∈ (w.manager m).queue.order, (w.ticket t).stamp.isSome = true)
    (hd : ∀ t ∈ w.departures m mv,
      ((w.effect mv).manager m).queue.find? ((w.effect mv).ticket t).id = some t)
    (hn : ∀ ts, mv ≠ .call (.manager m (.recover ts))) : w.retracesIn m mv :=
  ⟨fun _ => Queue.ordered_of_length_le hl hs, hd, fun _ ⟨ts, h, _⟩ => (hn ts h).elim⟩

theorem handed_out_once_restored :
    (((start 0).run restored).queue 0).Yields ((start 0).run restored).ticket "a" 0 ∧
    (((start 0).run restored).handed 0 (.call (.queue 0 (.next 0 true .empty))) = some 0 ∧
      ((((start 0).run restored).step (.call (.queue 0 (.next 0 true .empty)))).queue 0).find? "a" ≠
        some 0) ∧
    (((start 0).run restored).departures 0 (.call (.manager 0 .runNext)) = [0] ∧
      ∀ s, (((start 0).run restored).step (.call (.manager 0 .runNext))).withdraw 0 "a" ≠
        some (s, .dropped 0)) := by
  have hq : (start 0).Along (retraces 0) restored := by
    refine ⟨trivial, trivial, trivial, trivial, trivial, trivial, fun _ _ => ⟨?_, ?_⟩, trivial,
      trivial, trivial⟩
    · exact fun h => h.elim nofun fun ⟨_, h⟩ => nomatch h
    · exact Queue.ordered_of_length_le (by decide +kernel) (by decide +kernel)
  have hm : (start 0).Along (retracesIn 0) restored := by
    refine ⟨.of_ne ?_ ?_ ?_ ?_, .of_ne ?_ ?_ ?_ ?_, .of_ne ?_ ?_ ?_ ?_, .of_ne ?_ ?_ ?_ ?_,
      .of_ne ?_ ?_ ?_ ?_, .of_ne ?_ ?_ ?_ ?_, .of_ne ?_ ?_ ?_ ?_, .of_ne ?_ ?_ ?_ ?_,
      .of_ne ?_ ?_ ?_ ?_, trivial⟩
    all_goals first | decide +kernel | exact nofun
  have hh : ((start 0).run restored).handed 0 (.call (.queue 0 (.next 0 true .empty))) =
      some 0 := by
    decide +kernel
  have hd : ((start 0).run restored).departures 0 (.call (.manager 0 .runNext)) = [0] := by
    decide +kernel
  have hnext : ((start 0).run restored).retraces 0 (.call (.queue 0 (.next 0 true .empty))) := by
    intro _ t ht
    rw [show (((start 0).run restored).queue 0).ready? ((start 0).run restored).ticket 0 true .empty =
      some 0 by decide +kernel] at ht
    obtain rfl := Option.some.inj ht
    decide +kernel
  have hrun : ((start 0).run restored).retracesIn 0 (.call (.manager 0 .runNext)) :=
    .of_ne (by decide +kernel) (by decide +kernel) (by decide +kernel) nofun
  obtain ⟨queue, manager⟩ := handed_out_once (w := (start 0).run restored) (q := 0) (m := 0)
  obtain ⟨held, moved⟩ := queue ⟨0, restored, hq, rfl⟩
  obtain ⟨id, hyields, hid⟩ := held 0 (by decide +kernel)
  obtain rfl : "a" = id := hid "a" (by decide +kernel)
  exact ⟨hyields, ⟨hh, ((moved _ 0 hnext).2 hh [] trivial).2 "a"⟩, hd,
    (manager ⟨0, restored, hm, rfl⟩ _ 0 (by rw [hd]; exact List.mem_cons_self) [] hrun trivial).2
      "a"⟩

/-- A ticket gets another id while it is queued. -/
def renamed : List Move :=
  [.call (.makeJob { id := "a" }), .call (.makeJob { id := "b" }),
    .call (.build { job := some 0, priority := some 0, created := some 0, session := some 0 }),
    .call .makeQueue, .call (.queue 0 (.push (some 0))), .call (.editTicket 0 (.job (some 1)))]

/-- The queue does not have it under its present id. When its turn has come, the queue finds it all
the same under the old one, and hands it out again. -/
theorem renamed_handed_out_twice :
    0 ∈ (((start 0).run renamed).queue 0).order ∧
      (((start 0).run renamed).queue 0).find? (((start 0).run renamed).ticket 0).id = none ∧
      along (accepted 0) (start 0) (renamed ++ [.call (.queue 0 (.next 0 true .empty)),
        .call (.queue 0 (.remove "a"))]) = [0] ∧
      along (handed 0) (start 0) (renamed ++ [.call (.queue 0 (.next 0 true .empty)),
        .call (.queue 0 (.remove "a"))]) = [0, 0] := by
  decide +kernel

end World

end Backlog
