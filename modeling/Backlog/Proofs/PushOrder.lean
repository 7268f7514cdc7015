import Backlog.Proofs.Comparison
import Backlog.Proofs.Queues
import Mathlib.Data.List.Nodup
import Mathlib.Data.List.Perm.Basic
import Mathlib.Logic.Function.Basic

/-!
# The order of pushes

Tickets that have stamps take their places by what they are, not by when they were pushed. So a
queue that gets some of them in one order cannot be told from one that gets them in another, by
anything that it is asked from then on.
-/

namespace Backlog

namespace Queue

/-- The queues hold the same tickets in the same places and find the same ones. -/
structure Same (q q' : Queue) : Prop where
  order : q'.order = q.order
  find : ∀ id, q'.find? id = q.find? id
  closed : q'.closed = q.closed

variable {q q' : Queue} {ticket : Nat → Ticket} {ts us : List Nat}

namespace Same

theorem refl (q : Queue) : q.Same q := ⟨rfl, fun _ => rfl, rfl⟩

theorem contains (h : q.Same q') (id : String) : q'.index.contains id = q.index.contains id :=
  congrArg Option.isSome (h.find id)

theorem accepts (h : q.Same q') (id : String) : q'.accepts id = q.accepts id := by
  rw [Queue.accepts, Queue.accepts, h.closed, h.contains]

theorem insert (h : q.Same q') (t : Nat) : (q.insert ticket t).Same (q'.insert ticket t) where
  order := congrArg (insertOrdered (rank ticket) t) h.order
  find id := by
    simp only [find?, Queue.insert, Table.find?_insert]
    exact if_congr .rfl rfl (h.find id)
  closed := h.closed

theorem take (h : q.Same q') (t : Nat) : (q.take ticket t).Same (q'.take ticket t) where
  order := congrArg (List.erase · t) h.order
  find id := by
    simp only [find?, Queue.take, Table.find?_erase]
    exact if_congr .rfl rfl (h.find id)
  closed := h.closed

theorem close (h : q.Same q') : q.close.Same q'.close := ⟨h.order, h.find, rfl⟩

/-- Both queues remove the same ticket, or none. -/
theorem remove (h : q.Same q') (ticket : Nat → Ticket) (id : String) :
    q.remove ticket id = none ∧ q'.remove ticket id = none ∨
      ∃ t r r', q.remove ticket id = some (t, r) ∧ q'.remove ticket id = some (t, r') ∧
        r.Same r' := by
  simp only [Queue.remove, h.find]
  cases q.find? id with
  | none => exact .inl ⟨rfl, rfl⟩
  | some t =>
    refine .inr ⟨t, _, _, rfl, rfl, ?_⟩
    refine ⟨congrArg (List.filter _) h.order, fun k => ?_, h.closed⟩
    simp only [find?, Table.find?_erase]
    exact if_congr .rfl rfl (h.find k)

end Same

/-- The tickets are put into the queue one after the other. -/
def insertAll (q : Queue) (ticket : Nat → Ticket) (ts : List Nat) : Queue :=
  ts.foldl (·.insert ticket ·) q

/-- The order of ticket numbers by place. -/
def byPlace (ticket : Nat → Ticket) (t u : Nat) : Ordering := (ticket t).comparePlace (ticket u)

instance (ticket : Nat → Ticket) : Std.TransCmp (byPlace ticket) where
  eq_swap {t u} :=
    have h : (ticket t).comparePlace (ticket u) = ((ticket u).comparePlace (ticket t)).swap :=
      Std.OrientedCmp.eq_swap
    h
  isLE_trans {t u v} (h : ((ticket t).comparePlace (ticket u)).isLE = true) h' :=
    have h : ((ticket t).comparePlace (ticket v)).isLE = true := Std.TransCmp.isLE_trans h h'
    h

theorem order_insertAll (hq : ∀ u ∈ q.order, (ticket u).stamp.isSome = true)
    (hts : ∀ t ∈ ts, (ticket t).stamp.isSome = true) :
    (q.insertAll ticket ts).order =
      ts.foldl (fun l t => insertOrdered (byPlace ticket) t l) q.order := by
  induction ts generalizing q with
  | nil => rfl
  | cons t ts ih =>
    have ht := hts t List.mem_cons_self
    have hins : (q.insert ticket t).order = insertOrdered (byPlace ticket) t q.order :=
      insertOrdered_congr fun u hu =>
        Ticket.queueOrder_of_compares (Ticket.compares_of_stamped ht (hq u hu))
    refine (ih (q := q.insert ticket t) (fun u hu => ?_) fun u hu =>
      hts u (List.mem_cons_of_mem t hu)).trans (by rw [hins]; rfl)
    rcases mem_insertOrdered hu with rfl | hu
    · exact ht
    · exact hq u hu

theorem find?_insertAll (q : Queue) (ticket : Nat → Ticket) (ts : List Nat) :
    (q.insertAll ticket ts).find? =
      ts.foldl (fun g t => Function.update g (ticket t).id (some t)) q.find? := by
  refine (List.foldl_hom find? fun q t => ?_).symm
  funext id
  simp only [find?, insert, Table.find?_insert, Function.update_apply]

theorem closed_insertAll (q : Queue) (ticket : Nat → Ticket) (ts : List Nat) :
    (q.insertAll ticket ts).closed = q.closed := by
  induction ts generalizing q with
  | nil => rfl
  | cons t ts ih => exact ih (q.insert ticket t)

/-- Tickets with stamps and with distinct ids may be put into a queue in any order. -/
theorem same_insertAll (hq : ∀ u ∈ q.order, (ticket u).stamp.isSome = true)
    (hts : ∀ t ∈ ts, (ticket t).stamp.isSome = true)
    (distinct : (ts.map fun t => (ticket t).id).Nodup) (hp : ts.Perm us) :
    (q.insertAll ticket ts).Same (q.insertAll ticket us) := by
  have apart {t u : Nat} (ht : t ∈ ts) (hu : u ∈ ts) (hne : t ≠ u) : (ticket t).id ≠ (ticket u).id :=
    fun he => hne (List.inj_on_of_nodup_map distinct ht hu he)
  refine ⟨?_, fun id => ?_, ?_⟩
  · rw [order_insertAll hq hts, order_insertAll hq fun u hu => hts u (hp.mem_iff.mpr hu)]
    refine (hp.foldl_eq' (fun t ht u hu l => ?_) q.order).symm
    by_cases hne : t = u
    · rw [hne]
    · have hcmp : byPlace ticket u t ≠ .eq := fun he =>
        apart hu ht (Ne.symm hne) (Ticket.id_of_comparePlace he)
      exact insertOrdered_comm hcmp l
  · rw [find?_insertAll, find?_insertAll]
    refine congrFun (hp.foldl_eq' (fun t ht u hu g => ?_) q.find?).symm id
    by_cases hne : t = u
    · rw [hne]
    · exact Function.update_comm (apart ht hu hne) ..
  · rw [closed_insertAll, closed_insertAll]

end Queue

namespace Store

/-- The stores differ at most in how the indexes of their queues are laid out. -/
structure Twin (s s' : Store) : Prop where
  tickets : s'.tickets = s.tickets
  nextStamp : s'.nextStamp = s.nextStamp
  queues : s'.queues.size = s.queues.size
  same : ∀ q, (s.queue q).Same (s'.queue q)

/-- Tickets that queue `q` has not seen yet, ready to be pushed with the stamps they have. -/
structure Prepared (q : Nat) (ts : List Nat) (s : Store) : Prop where
  scope : q < s.queues.size
  opened : (s.queue q).closed = false
  made : ∀ t ∈ ts, t < s.tickets.size
  stamped : ∀ t ∈ ts, (s.ticket t).stamp.isSome = true
  fresh : ∀ t ∈ ts, (s.queue q).find? (s.ticket t).id = none
  distinct : (ts.map fun t => (s.ticket t).id).Nodup

variable {s s' : Store} {q t : Nat} {ts us : List Nat}

theorem stampTicket_of_stamped (h : (s.ticket t).stamp.isSome = true) : s.stampTicket t = s := by
  obtain ⟨n, hn⟩ := Option.isSome_iff_exists.mp h
  simp only [stampTicket, hn]

namespace Twin

theorem setQueue (h : s.Twin s') (hq : q < s.queues.size) {r r' : Queue} (hr : r.Same r') :
    (s.setQueue q r).Twin (s'.setQueue q r') where
  tickets := h.tickets
  nextStamp := h.nextStamp
  queues := by
    rw [size_setQueue hq, size_setQueue (h.queues ▸ hq), h.queues]
  same i := by
    rw [queue_setQueue, queue_setQueue]
    split
    · exact hr
    · exact h.same i

theorem stampTicket (h : s.Twin s') (t : Nat) : (s.stampTicket t).Twin (s'.stampTicket t) := by
  have ht : s'.ticket t = s.ticket t := congrArg (·.get t) h.tickets
  simp only [Store.stampTicket, ht, onTicket, h.tickets, h.nextStamp]
  split
  · exact h
  · exact ⟨rfl, rfl, h.queues, h.same⟩

/-- Twins return the same of an operation of a queue and stay twins. -/
theorem callQueue (h : s.Twin s') (hq : q < s.queues.size) (c : QueueCall) :
    (s'.callQueue q c).2 = (s.callQueue q c).2 ∧ (s.callQueue q c).1.Twin (s'.callQueue q c).1 := by
  have ht : s'.ticket = s.ticket := congrArg Registry.get h.tickets
  have hs := h.same q
  cases c with
  | push t =>
    cases t with
    | none => exact ⟨rfl, h⟩
    | some t =>
      have hst := h.stampTicket t
      have hst' : (s'.stampTicket t).ticket = (s.stampTicket t).ticket :=
        congrArg Registry.get hst.tickets
      have hz : q < (s.stampTicket t).queues.size := by
        simp only [Store.stampTicket]
        split <;> exact hq
      cases ha : (s.queue q).accepts (s.ticket t).id with
      | true =>
        simp only [Store.callQueue, push, ht, hs.accepts, hst', ha, if_true]
        exact ⟨trivial, hst.setQueue hz (hs.insert t)⟩
      | false =>
        simp only [Store.callQueue, push, ht, hs.accepts, ha]
        exact ⟨rfl, h⟩
  | next now network busy =>
    simp only [Store.callQueue, Queue.ready?, ht, hs.order]
    split
    · exact ⟨rfl, h⟩
    · exact ⟨rfl, h.setQueue hq (hs.take _)⟩
  | remove id =>
    simp only [Store.callQueue, ht]
    rcases hs.remove s.ticket id with ⟨hr, hr'⟩ | ⟨t, r, r', hr, hr', hrr⟩
    · rw [hr, hr']
      exact ⟨rfl, h⟩
    · rw [hr, hr']
      exact ⟨rfl, h.setQueue hq hrr⟩
  | delayGroup group d =>
    simp only [Store.callQueue, Queue.delayGroup, h.tickets, hs.order]
    exact ⟨trivial, rfl, h.nextStamp, h.queues, h.same⟩
  | close => exact ⟨rfl, h.setQueue hq hs.close⟩

theorem inScope (h : s.Twin s') (q : Nat) (c : QueueCall) :
    (Call.queue q c).inScope s' = (Call.queue q c).inScope s := by
  simp only [Call.inScope, h.queues, h.tickets]

end Twin

namespace Prepared

theorem perm (h : s.Prepared q ts) (hp : ts.Perm us) : s.Prepared q us where
  scope := h.scope
  opened := h.opened
  made t ht := h.made t (hp.mem_iff.mpr ht)
  stamped t ht := h.stamped t (hp.mem_iff.mpr ht)
  fresh t ht := h.fresh t (hp.mem_iff.mpr ht)
  distinct := (hp.map _).nodup_iff.mp h.distinct

/-- The queue takes the first ticket as it is, and is ready for the others. -/
theorem push (h : s.Prepared q (t :: ts)) :
    s.callQueue q (.push (some t)) =
        (s.setQueue q ((s.queue q).insert s.ticket t), .flag true) ∧
      (s.setQueue q ((s.queue q).insert s.ticket t)).Prepared q ts := by
  have hd := List.nodup_cons.mp h.distinct
  have ha : (s.queue q).accepts (s.ticket t).id = true := by
    have hf : (s.queue q).index.find? (s.ticket t).id = none := h.fresh t List.mem_cons_self
    simp [Queue.accepts, h.opened, Table.contains, hf]
  have hs : s.stampTicket t = s := stampTicket_of_stamped (h.stamped t List.mem_cons_self)
  have hp : s.push (s.queue q) t = some (s, (s.queue q).insert s.ticket t) :=
    push_eq_some.mpr ⟨ha, hs.symm, rfl⟩
  refine ⟨by simp only [callQueue, hp], ?_⟩
  have hq : (s.setQueue q ((s.queue q).insert s.ticket t)).queue q =
      (s.queue q).insert s.ticket t := by rw [queue_setQueue_same]
  refine ⟨Nat.lt_of_lt_of_eq h.scope (size_setQueue h.scope _).symm, ?_,
    fun u hu => h.made u (List.mem_cons_of_mem t hu),
    fun u hu => h.stamped u (List.mem_cons_of_mem t hu), fun u hu => ?_, hd.2⟩
  · rw [hq]
    exact h.opened
  · have hne : (s.ticket u).id ≠ (s.ticket t).id := fun he =>
      hd.1 (List.mem_map.mpr ⟨u, hu, he⟩)
    rw [hq]
    simp only [Queue.find?, Queue.insert, Table.find?_insert]
    exact (if_neg hne).trans (h.fresh u (List.mem_cons_of_mem t hu))

end Prepared

end Store

namespace World

variable {w w' : World} {q : Nat} {ts us : List Nat}

/-- The tickets are pushed one after the other. -/
def pushes (q : Nat) (ts : List Nat) : List Move :=
  ts.map fun t => .call (.queue q (.push (some t)))

/-- The queue takes all tickets, and nothing else changes. -/
theorem pushes_run (h : w.Prepared q ts) :
    along (accepted q) w (pushes q ts) = ts ∧
      (w.run (pushes q ts)).tickets = w.tickets ∧
      (w.run (pushes q ts)).nextStamp = w.nextStamp ∧
      (w.run (pushes q ts)).queues.size = w.queues.size ∧
      ∀ i, (w.run (pushes q ts)).queue i =
        if i = q then (w.queue q).insertAll w.ticket ts else w.queue i := by
  induction ts generalizing w with
  | nil =>
    refine ⟨rfl, rfl, rfl, rfl, fun i => ?_⟩
    split
    · rename_i hi
      rw [hi]
      rfl
    · rfl
  | cons t ts ih =>
    have hc : (Call.queue q (.push (some t))).inScope w.toStore = true := by
      simp [Call.inScope, h.scope, h.made t List.mem_cons_self]
    obtain ⟨hcall, hnext⟩ := h.push
    obtain ⟨hs, hr⟩ := step_queue hc
    rw [hcall] at hs hr
    obtain ⟨ha, ht, hn, hz, hq⟩ := ih (w := w.step (.call (.queue q (.push (some t)))))
      (by rw [hs]; exact hnext)
    refine ⟨?_, ht.trans (by rw [hs]; rfl), hn.trans (by rw [hs]; rfl),
      hz.trans (by rw [hs]; exact Store.size_setQueue h.scope _), fun i => (hq i).trans ?_⟩
    · rw [pushes, List.map_cons, along, accepted, if_pos rfl, hr]
      exact congrArg (t :: ·) ha
    · rw [hs, Store.queue_setQueue, Store.queue_setQueue, if_pos rfl]
      split <;> rfl

/-- Worlds whose stores are twins return the same of operations of queues. -/
theorem returned_twin (h : w.Twin w'.toStore) (cs : List (Nat × QueueCall)) :
    along returned w' (cs.map fun c => .call (.queue c.1 c.2)) =
      along returned w (cs.map fun c => .call (.queue c.1 c.2)) := by
  induction cs generalizing w w' with
  | nil => rfl
  | cons c cs ih =>
    obtain ⟨q, c⟩ := c
    have hc' := h.inScope q c
    cases hc : (Call.queue q c).inScope w.toStore with
    | true =>
      obtain ⟨hs, hr⟩ := step_queue hc
      obtain ⟨hs', hr'⟩ := step_queue (hc'.trans hc)
      have hq : q < w.queues.size := by
        simp only [Call.inScope, Bool.and_eq_true, decide_eq_true_eq] at hc
        exact hc.1
      obtain ⟨hv, ht⟩ := h.callQueue hq c
      simp only [List.map_cons, along, hr, hr', hv]
      congr 1
      apply ih
      rw [hs, hs']
      exact ht
    | false =>
      have hs : w.step (.call (.queue q c)) = w := if_neg (by simp [hc])
      have hs' : w'.step (.call (.queue q c)) = w' := if_neg (by simp [hc', hc])
      simp only [List.map_cons, along, returned_of_still hs, returned_of_still hs', hs, hs']
      exact congrArg _ (ih h)

/-- To a queue whose tickets keep their places, the order in which tickets are pushed that have stamps
already makes no difference. The queue takes all of them, and no stamp is given out. Afterwards it
has them in the same places and finds the same ones, and whatever is asked of it from then on, or of
any other queue, it returns the same. -/
theorem pushes_permute (h : ReachableBy (fun w mv => unmoved (w.queue q).order mv) w)
    (hp : w.Prepared q ts) (hperm : ts.Perm us) :
    along (accepted q) w (pushes q us) = us ∧
      (w.run (pushes q us)).tickets = w.tickets ∧
      (w.run (pushes q us)).nextStamp = w.nextStamp ∧
      ((w.run (pushes q us)).queue q).order = ((w.run (pushes q ts)).queue q).order ∧
      (∀ id, ((w.run (pushes q us)).queue q).find? id =
        ((w.run (pushes q ts)).queue q).find? id) ∧
      ∀ cs : List (Nat × QueueCall),
        along returned (w.run (pushes q us)) (cs.map fun c => .call (.queue c.1 c.2)) =
          along returned (w.run (pushes q ts)) (cs.map fun c => .call (.queue c.1 c.2)) := by
  obtain ⟨-, ht, hn, hz, hq⟩ := pushes_run hp
  obtain ⟨ha, ht', hn', hz', hq'⟩ := pushes_run (hp.perm hperm)
  have hs : ((w.queue q).insertAll w.ticket ts).Same ((w.queue q).insertAll w.ticket us) :=
    Queue.same_insertAll h.inOrder.ordered.stamped hp.stamped hp.distinct hperm
  have twin : (w.run (pushes q ts)).Twin (w.run (pushes q us)).toStore := by
    refine ⟨ht'.trans ht.symm, hn'.trans hn.symm, hz'.trans hz.symm, fun i => ?_⟩
    rw [hq, hq']
    split
    · exact hs
    · exact .refl _
  exact ⟨ha, ht', hn', (twin.same q).order, (twin.same q).find, returned_twin twin⟩

/-- Three tickets of one stamp, of which the first is in the queue. -/
def stampMates : List Move :=
  [.call (.makeJob { id := "b" }), .call (.makeJob { id := "c" }), .call (.makeJob { id := "a" }),
    .call (.build { job := some 0, priority := some 1, session := some 1, created := some 0, stamp := some 7 }),
    .call (.build { job := some 1, priority := some 1, session := some 1, created := some 0, stamp := some 7 }),
    .call (.build { job := some 2, priority := some 1, session := some 1, created := some 0, stamp := some 7 }),
    .call .makeQueue, .call (.queue 0 (.push (some 0)))]

/-- Whichever of the others comes first, the queue has them by their ids. -/
theorem pushes_permute_stampMates :
    along (accepted 0) ((start 0).run stampMates) (pushes 0 [2, 1]) = [2, 1] ∧
      ((((start 0).run stampMates).run (pushes 0 [1, 2])).queue 0).order = [2, 0, 1] ∧
      ((((start 0).run stampMates).run (pushes 0 [2, 1])).queue 0).order = [2, 0, 1] ∧
      along returned (((start 0).run stampMates).run (pushes 0 [2, 1]))
        [.call (.queue 0 (.next 0 true .empty))] = [.ref (some 2)] := by
  have hp : ((start 0).run stampMates).Prepared 0 [1, 2] :=
    ⟨by decide +kernel, by decide +kernel, by decide +kernel, by decide +kernel,
      by decide +kernel, by decide +kernel⟩
  have hu : (start 0).Along (fun w mv => unmoved (w.queue 0).order mv) stampMates := by
    simp only [stampMates, Along, unmoved, and_self]
  obtain ⟨ha, -, -, ho, -, hr⟩ := pushes_permute ⟨0, stampMates, hu, rfl⟩ hp (.swap 2 1 [])
  have hw : ((((start 0).run stampMates).run (pushes 0 [1, 2])).queue 0).order = [2, 0, 1] := by
    decide +kernel
  refine ⟨ha, hw, ho.trans hw, (hr [(0, .next 0 true .empty)]).trans ?_⟩
  decide +kernel

end World

end Backlog
