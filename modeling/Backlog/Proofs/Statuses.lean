import Backlog.Proofs.Admissions
import Backlog.Proofs.Readiness
import Backlog.Proofs.Verdicts

/-!
# The cycle of a status

The status of an id is read off three places: what runs, what is queued, and what is finished. It
goes around in one direction: from unknown or from an end to waiting, from there to running, and
from there back to waiting or to an end. Each turn has one kind of cause.
-/

namespace Backlog

namespace Status

/-- The work is queued. -/
def waits : Status → Bool
  | .waitingNotReady | .waitingReady => true
  | _ => false

/-- The work has ended, and it is known how. -/
def ended : Status → Bool
  | .succeeded | .failed | .cancelled => true
  | _ => false

theorem waits_of_ended {s : Status} (h : s.ended = true) : s.waits = false := by
  cases s <;> first | rfl | cases h

end Status

namespace Store

variable {s s' : Store} {m t : Nat} {id : String}

/-- What an operation admits is a job that it adds or a ticket that it is offered. -/
theorem admits_manage {c : ManagerCall} (hc : (Call.manager m c).inScope s = true)
    (ha : s.Admits m id (s.manage m c)) :
    (∃ j s', c = .add (some j) ∧ s.enlist m j = some s' ∧ (s.job j).id = id) ∨
      ∃ ts t, c = .recover ts ∧ some t ∈ ts ∧ (s.ticket t).id = id := by
  have hfree : ((s.manage m c).manager m).free id ≠ true := Bool.eq_false_iff.mp ha.2
  rcases ((manage_waits hc ha.1).resolve_left hfree).1 with ⟨j, rfl⟩ | ⟨ts, rfl⟩
  · cases j with
    | none => exact absurd ha.1 hfree
    | some j =>
      change (((s.enlist m j).getD s).manager m).free id ≠ true at hfree
      cases he : s.enlist m j with
      | none =>
        rw [he] at hfree
        exact absurd ha.1 hfree
      | some s' =>
        rw [he, Option.getD_some] at hfree
        refine .inl ⟨j, s', rfl, he, ?_⟩
        -- another id than that of the new ticket stays free
        by_contra hne
        obtain ⟨-, k, next, ⟨hj, -⟩, rfl, hs⟩ := enlist_eq_some he
        have hid : (s'.ticket s.tickets.size).id = (s.job j).id := by
          obtain ⟨stamp, hst⟩ := ticket_stampTicket (s.wrap k) s.tickets.size s.tickets.size
          rw [hs, ticket_onManager]
          refine (congrArg Ticket.id hst).trans ?_
          rw [ticket_wrap, if_pos rfl, hj]
        have hi : id ≠ (s'.ticket s.tickets.size).id := fun h => hne (hid.symm.trans h.symm)
        have hb := (enlist_takesIn he).1.agrees hi
        exact hfree (hb.free.trans ha.1)
  · simp only [Call.inScope, Bool.and_eq_true] at hc
    have hscope := List.all_eq_true.mp hc.2
    have h : Keeps none s (s.manage m (.recover ts)) ∧
        (((s.manage m (.recover ts)).manager m).free id = true ∨
          ∃ t, some t ∈ ts ∧ (s.ticket t).id = id) := by
      refine recover_induction (P := fun r => Keeps none s r ∧ ((r.manager m).free id = true ∨
        ∃ t, some t ∈ ts ∧ (s.ticket t).id = id)) (fun r t hr hm ht => ?_)
        ⟨.refl .., .inl ha.1⟩ hscope
      obtain ⟨hk, hr⟩ := hr
      rcases reclaim_cases r m ht with ⟨he, -⟩ | ⟨-, hi, -⟩
      · rw [he]
        exact ⟨hk, hr⟩
      have hk' := hk.trans hi.keeps
      refine ⟨hk', ?_⟩
      by_cases hid : id = ((r.reclaim m t).1.ticket t).id
      · have hz : t < s.tickets.size := by simpa using hscope _ hm
        exact .inr ⟨t, hm, by rw [hid, Ticket.id_of_lasting (hk'.lasting hz)]⟩
      · exact hr.imp_left fun h => (hi.agrees hid).free.trans h
    obtain ⟨t, ht, hid⟩ := h.2.resolve_left hfree
    exact .inr ⟨ts, t, rfl, ht, hid⟩

end Store

namespace World

variable {w w' x y : World} {a m t : Nat} {id : String} {mv : Move} {moves : List Move}

/-- Where the work of the id stands with manager `m` at present. -/
def status (w : World) (m : Nat) (id : String) : Status :=
  (w.manager m).status w.ticket (w.time m) id

/-- The client gives no ticket that manager `m` holds another id or another deadline, sets no count
of attempts that is negative, and decides on no outcome that has no meaning. As in `lawful`, edits
of the priority and the age of queued tickets are left to the contract of the queue, which forbids
them. -/
def inPeace (m : Nat) (w : World) (mv : Move) : Prop :=
  lawful m w mv ∧ counted mv ∧ named mv ∧
    ∀ t, rescheduled mv = some t → ¬(w.manager m).holds t

/-- The reply ends the attempt of ticket `t` that manager `m` runs, and this is what it comes to. -/
def Settles (w : World) (a : Nat) (r : Reply) (m t : Nat) (e : Store.Ending) : Prop :=
  ∃ f v k o, w.pending.find? a = some f ∧
    Rules { w with pending := w.pending.erase a } f r v k o ∧ k.work = some (m, t) ∧
    (v.settle m t o).2 = .ok e

/-- What the effect of a move does with an id. -/
inductive Fate (m : Nat) (id : String) (w : World) (mv : Move) : Prop
  | same (h : (w.manager m).Agrees ((w.effect mv).manager m) id)
  | admitted (h : w.Admits m id (w.effect mv).toStore)
  | retried (a : Nat) (r : Reply) (t : Nat) (delay : Int) (hm : mv = .reply a r)
    (hw : w.Works a m t) (hid : (w.ticket t).id = id) (hs : w.Settles a r m t (.retried delay))
    (hr : ((w.effect mv).manager m).running.find? id = none)
    (hq : ∃ u, ((w.effect mv).manager m).queue.find? id = some u)
  | ended (a : Nat) (r : Reply) (t : Nat) (status : Status) (tell : Bool) (hm : mv = .reply a r)
    (hw : w.Works a m t) (hid : (w.ticket t).id = id)
    (hs : w.Settles a r m t (.ended status tell)) (ho : (w.effect mv).Over m id status)
    (he : named mv → status.ended = true)
  | withdrawn (hm : mv = .cancel m id) (hr : (w.manager m).running.find? id = none)
    (hq : ∃ t, (w.manager m).queue.find? id = some t) (ho : (w.effect mv).Over m id .cancelled)

theorem fate_cancel (w : World) (m : Nat) (id : String) : Fate m id w (.cancel m id) := by
  by_cases hm : m < w.managers.size
  · cases hw : w.withdraw m id with
    | none =>
      refine .same (.of_eq ?_)
      rw [toStore_cancel hm, hw]
      rfl
    | some p =>
      obtain ⟨s, d⟩ := p
      have hs : (w.effect (.cancel m id)).toStore = s := by
        rw [toStore_cancel hm, hw]
        rfl
      rcases Store.withdraw_cases hw with ⟨u, -, hc, -⟩ | ⟨hn, u, queue, hq, -, rfl⟩
      · refine .same (.of_eq ?_)
        rw [hs, hc]
        rfl
      · obtain ⟨hf, hd⟩ := Store.withdraw_dropped_ended hw
        exact .withdrawn rfl hn ⟨u, Queue.find?_of_remove hq⟩ ⟨hs ▸ hf, hs ▸ hd⟩
  · refine .same (.of_eq ?_)
    simp only [effect]
    rw [if_neg (by simp [Call.inScope, hm])]

theorem fate_reply (hw : w.Sound m) (hn : w.Counted) (hwork : w.Works a m t) (r : Reply) :
    Fate m (w.ticket t).id w (.reply a r) := by
  rcases effect_work hwork r with hm | ⟨f, v, k, o, hf, hv, hk, he⟩
  · exact .same (.of_eq (congrFun hm m))
  have htk : v.ticket t = w.ticket t := congrFun hv.replanned.ticket t
  rcases close_own hw hwork hk hv.replanned o with ⟨status, tell, hst, hend, -, ho⟩ |
    ⟨-, ⟨d, hd⟩, hr⟩ | ⟨hneg, -⟩
  · refine .ended a r t status tell rfl hwork rfl ⟨f, v, k, o, hf, hv, hk, hend⟩ (he ▸ ho)
      fun hnamed => ?_
    rcases verdict_cases hst with rfl | hmem
    · exact absurd hnamed (hv.verdict_named hst)
    · simp only [List.mem_cons, List.not_mem_nil, or_false] at hmem
      rcases hmem with rfl | rfl | rfl <;> rfl
  · have hnamed := ((hw.founded.erase a).replanned hv.replanned).store.named t
      (hv.replanned.tickets ▸ hw.founded.works a m t hwork)
    refine .retried a r t d rfl hwork rfl ⟨f, v, k, o, hf, hv, hk, hd⟩ ?_ ?_ <;>
      rw [he, ← htk]
    · obtain ⟨g, -, hg⟩ := hr.manager
      rw [hg]
      exact Table.find?_erase_same ..
    · exact ⟨_, hr.queued hnamed⟩
  · exact absurd (hn t) (Int.not_le.mpr hneg)

theorem fate (hw : w.Sound m) (hn : w.Counted) (id : String) (mv : Move) : Fate m id w mv := by
  by_cases hc : mv = .cancel m id
  · exact hc ▸ fate_cancel w m id
  by_cases hr : ∃ a r t, mv = .reply a r ∧ w.Works a m t ∧ (w.ticket t).id = id
  · obtain ⟨a, r, t, rfl, hwork, rfl⟩ := hr
    exact fate_reply hw hn hwork r
  · rcases effect_agrees hw.founded hc fun a r t he hw hid => hr ⟨a, r, t, he, hw, hid⟩ with ha | ha
    · exact .same ha
    · exact .admitted ha

/-- All that a manager has finished has ended in a way that is known. -/
def Concluded (m : Nat) (w : World) : Prop :=
  ∀ id status, (w.manager m).finished.find? id = some status → status.ended = true

theorem Concluded.effect (h : w.Concluded m) (hw : w.Sound m) (hn : w.Counted)
    (hl : lawful m w mv) (hnamed : named mv) : (w.effect mv).Concluded m := by
  intro id status hf
  -- an id that is queued or running is not finished
  have free : ((w.effect mv).manager m).free id = true :=
    (hw.effect hl).custody.ended id ((Table.contains_iff ..).mpr ⟨status, hf⟩)
  rcases fate hw hn id mv with ha | ha | ⟨a, r, t, d, -, -, -, -, -, u, hq⟩ |
    ⟨a, r, t, s, tell, -, -, -, -, ho, he⟩ | ⟨-, -, -, ho⟩
  · exact h id status (ha.finished.symm.trans hf)
  · exact absurd free (Bool.eq_false_iff.mp ha.2)
  · rw [(Manager.free_iff.mp free).2] at hq
    cases hq
  · obtain rfl := Option.some.inj (ho.finished.symm.trans hf)
    exact he hnamed
  · obtain rfl := Option.some.inj (ho.finished.symm.trans hf)
    rfl

theorem Concluded.sequels (h : w.Concluded m) (hs : Sequels a w w') : w'.Concluded m := by
  induction hs with
  | refl => exact h
  | tail _ hs ih =>
    cases hs with
    | departed i t s tally ha hc =>
      have hb := Store.claim_begins hc
      intro id status hf
      rw [toStore_depart] at hf
      by_cases hi : i = m
      · subst hi
        obtain ⟨counts, -, hm⟩ := hb.manager
        rw [hm] at hf
        exact ih id status hf
      · rw [hb.other m (Ne.symm hi)] at hf
        exact ih id status hf
    | _ => exact ih

/-- The manager is in balance, and all that it has finished has ended in a known way. -/
structure InOrbit (m : Nat) (w : World) : Prop where
  balance : w.InBalance m
  concluded : w.Concluded m

theorem InOrbit.step (h : w.InOrbit m) (hu : inPeace m w mv) : (w.step mv).InOrbit m where
  balance := h.balance.step hu.1 hu.2.1
  concluded := (h.concluded.effect h.balance.sound h.balance.counted hu.1 hu.2.2.1).sequels
    (step_sequels h.balance.sound.founded mv)

theorem ReachableBy.inOrbit (h : ReachableBy (inPeace m) w) : w.InOrbit m := by
  refine h.induction (fun now => ⟨?_, nofun⟩) fun w mv h hu => h.step hu
  exact ReachableBy.inBalance ⟨now, [], trivial, rfl⟩

/-- A manager keeps one status for an id that is neither queued nor running. -/
theorem InOrbit.status_free (h : w.InOrbit m) (hf : (w.manager m).free id = true) :
    w.status m id = .unknown ∨ (w.status m id).ended = true := by
  rw [status, status_of_free hf]
  cases hd : (w.manager m).finished.find? id with
  | none => exact .inl rfl
  | some status => exact .inr (h.concluded id status hd)

theorem status_waits (hr : (w.manager m).running.find? id = none)
    (hq : (w.manager m).queue.find? id = some t) : (w.status m id).waits = true := by
  rw [status, Manager.status_queued hr hq]
  split <;> rfl

/-- The places that a status is read off. -/
theorem status_cases (w : World) (m : Nat) (id : String) :
    (w.manager m).free id = true ∨ w.status m id = .running ∨
      (w.manager m).running.find? id = none ∧ (∃ t, (w.manager m).queue.find? id = some t) ∧
        (w.status m id).waits = true := by
  cases hr : (w.manager m).running.find? id with
  | some u => exact .inr (.inl (Manager.status_running hr ..))
  | none =>
    cases hq : (w.manager m).queue.find? id with
    | none => exact .inl (Manager.free_iff.mpr ⟨hr, hq⟩)
    | some t => exact .inr (.inr ⟨rfl, ⟨t, rfl⟩, status_waits hr hq⟩)

/-- A work that has ended is over. -/
theorem over_of_ended (h : (w.status m id).ended = true) : w.Over m id (w.status m id) := by
  rcases status_cases w m id with hf | hr | ⟨-, -, hwait⟩
  · refine ⟨hf, ?_⟩
    rw [status, status_of_free hf] at h ⊢
    cases hd : (w.manager m).finished.find? id with
    | none =>
      rw [hd] at h
      cases h
    | some status => rfl
  · rw [hr] at h
    cases h
  · rw [Status.waits_of_ended h] at hwait
    cases hwait

/-- What the effect of a move does to the status of an id, and which moves can do it. -/
inductive Turns (m : Nat) (id : String) (w : World) (mv : Move) : Prop
  | same (h : (w.effect mv).status m id = w.status m id)
  /-- A job of the id is added. -/
  | added (j : Nat) (s : Store) (hm : mv = .call (.manager m (.add (some j))))
    (hid : (w.job j).id = id) (hs : w.enlist m j = some s)
    (before : w.status m id = .unknown ∨ (w.status m id).ended = true)
    (after : ((w.effect mv).status m id).waits = true)
  /-- A ticket of the id is offered for recovery. -/
  | recovered (ts : List (Option Nat)) (t : Nat) (hm : mv = .call (.manager m (.recover ts)))
    (ht : some t ∈ ts) (hid : (w.ticket t).id = id)
    (before : w.status m id = .unknown ∨ (w.status m id).ended = true)
    (after : ((w.effect mv).status m id).waits = true)
  /-- The attempt of the id ends, and a new ticket waits for the next one. -/
  | retried (a : Nat) (r : Reply) (t : Nat) (delay : Int) (hm : mv = .reply a r)
    (hw : w.Works a m t) (hid : (w.ticket t).id = id) (hs : w.Settles a r m t (.retried delay))
    (before : w.status m id = .running) (after : ((w.effect mv).status m id).waits = true)
  /-- The attempt of the id ends, and with it the work. -/
  | ended (a : Nat) (r : Reply) (t : Nat) (status : Status) (tell : Bool) (hm : mv = .reply a r)
    (hw : w.Works a m t) (hid : (w.ticket t).id = id)
    (hs : w.Settles a r m t (.ended status tell)) (before : w.status m id = .running)
    (after : (w.effect mv).status m id = status) (known : status.ended = true)
  /-- The id is cancelled while it waits. -/
  | cancelled (hm : mv = .cancel m id) (before : (w.status m id).waits = true)
    (after : (w.effect mv).status m id = .cancelled)
  /-- A clock or the network changes. -/
  | shifted (hm : (∃ now, mv = .clock now) ∨ (∃ nanos, mv = .elapse nanos) ∨
      ∃ up, mv = .call (.manager m (.network up)))
    (before : (w.status m id).waits = true) (after : ((w.effect mv).status m id).waits = true)
  /-- The group of the waiting ticket is held up. -/
  | heldUp (t : Nat) (hq : (w.manager m).queue.find? id = some t) (hm : w.HoldsUp t mv)
    (before : w.status m id = .waitingReady)
    (after : (w.effect mv).status m id = .waitingNotReady)

/-- A deadline that is put off while nothing else changes can only make its ticket wait. -/
theorem waits_longer (ha : (w.manager m).Agrees ((w.effect mv).manager m) id)
    (hr : (w.manager m).running.find? id = none) (hq : (w.manager m).queue.find? id = some t)
    (htime : (w.effect mv).time m = w.time m)
    (hnet : ((w.effect mv).manager m).network = (w.manager m).network)
    (hneeds : ((w.effect mv).ticket t).needsNetwork = (w.ticket t).needsNetwork)
    (hres : rescheduled mv ≠ some t) :
    (w.effect mv).status m id = w.status m id ∨
      w.status m id = .waitingReady ∧ (w.effect mv).status m id = .waitingNotReady := by
  rw [status, status, Manager.status_queued hr hq, Manager.status_queued (ha.running.trans hr)
    (ha.queue.trans hq), htime]
  have ho : ((w.effect mv).ticket t).offline ((w.effect mv).manager m).network =
      (w.ticket t).offline (w.manager m).network := by
    rw [Ticket.offline, hneeds, hnet, ← Ticket.offline]
  have he : (w.ticket t).early (w.time m) = true →
      ((w.effect mv).ticket t).early (w.time m) = true := by
    simp only [Ticket.early_iff]
    rintro ⟨d, hd, hlt⟩
    obtain ⟨e, hde, hle⟩ := (defers_effect w mv).awaits t (Ne.symm hres) d (Ticket.awaits_of_eq hd)
    exact ⟨e, hde, by omega⟩
  rw [ho]
  cases hw : (w.ticket t).early (w.time m) with
  | true => rw [he hw]; exact .inl rfl
  | false =>
    cases ((w.effect mv).ticket t).early (w.time m) with
    | false => exact .inl rfl
    | true =>
      cases (w.ticket t).offline (w.manager m).network with
      | true => exact .inl rfl
      | false => exact .inr ⟨rfl, rfl⟩

/-- The status of an id that stays where it is. -/
theorem turns_same (hw : w.Sound m) (hu : ∀ t, rescheduled mv = some t → ¬(w.manager m).holds t)
    (ha : (w.manager m).Agrees ((w.effect mv).manager m) id) : Turns m id w mv := by
  have stay (h : ∀ t, (w.manager m).running.find? id = none →
      (w.manager m).queue.find? id = some t → (w.effect mv).time m = w.time m ∧
      ((w.effect mv).manager m).network = (w.manager m).network ∧
      ((w.effect mv).ticket t).needsNetwork = (w.ticket t).needsNetwork ∧
      ((w.effect mv).ticket t).notBefore = (w.ticket t).notBefore) : Turns m id w mv :=
    .same (Store.status_eq ha h)
  cases hr : (w.manager m).running.find? id with
  | some u => exact stay fun t h _ => by rw [hr] at h; cases h
  | none =>
    cases hq : (w.manager m).queue.find? id with
    | none => exact stay fun t _ h => by rw [hq] at h; cases h
    | some t =>
      by_cases hs : (∃ now, mv = .clock now) ∨ (∃ nanos, mv = .elapse nanos) ∨
          ∃ up, mv = .call (.manager m (.network up))
      · exact .shifted hs (status_waits hr hq)
          (status_waits (ha.running.trans hr) (ha.queue.trans hq))
      simp only [not_or, not_exists] at hs
      have hheld : (w.manager m).holds t := .inl ((hw.custody.queue.find id t).mp hq).1
      have made := hw.custody.made t hheld
      have hres : rescheduled mv ≠ some t := fun h => hu t h hheld
      have habides := abides_effect w hs.1 hs.2.1
      have hset := sameSettings_effect hw.founded hq hs.2.2
      have htime := Store.time_eq habides hset
      by_cases hd : w.HoldsUp t mv
      · rcases waits_longer ha hr hq htime hset.network (habides.needs t made) hres with h | h
        · exact .same h
        · exact .heldUp t hq hd h.1 h.2
      · refine stay fun u _ hu => ?_
        obtain rfl := Option.some.inj (hq.symm.trans hu)
        exact ⟨htime, hset.network, habides.needs t made,
          habides.deadline t made (not_or.mpr ⟨hres, hd⟩)⟩

/-- What is admitted waits. -/
theorem turns_admitted (h : w.InOrbit m) (hl : lawful m w mv)
    (ha : w.Admits m id (w.effect mv).toStore) : Turns m id w mv := by
  have hw := h.balance.sound
  obtain ⟨c, rfl, hc⟩ := admits_call hw ha
  have before := h.status_free ha.1
  have hfree := ha.2
  rw [toStore_manage hc] at ha
  obtain ⟨-, -, t, -, hq, -⟩ :=
    (Store.manage_waits hc ha.1).resolve_left (Bool.eq_false_iff.mp ha.2)
  rw [← toStore_manage hc] at hq
  have after := status_waits ((hw.effect hl).custody.queued_apart hq) hq
  rcases Store.admits_manage hc ha with ⟨j, s, rfl, hs, hid⟩ | ⟨ts, t, rfl, ht, hid⟩
  · exact .added j s rfl hid hs before after
  · exact .recovered ts t rfl ht hid before after

theorem turns (h : w.InOrbit m) (hu : inPeace m w mv) (id : String) : Turns m id w mv := by
  have hw := h.balance.sound
  have runs {a t : Nat} (hwork : w.Works a m t) : w.status m (w.ticket t).id = .running :=
    Manager.status_running (hw.tended.runs a t hwork) ..
  rcases fate hw h.balance.counted id mv with ha | ha |
    ⟨a, r, t, d, hm, hwork, rfl, hs, hr, u, hq⟩ |
    ⟨a, r, t, status, tell, hm, hwork, rfl, hs, ho, he⟩ | ⟨hm, hr, ⟨t, hq⟩, ho⟩
  · exact turns_same hw hu.2.2.2 ha
  · exact turns_admitted h hu.1 ha
  · exact .retried a r t d hm hwork rfl hs (runs hwork) (status_waits hr hq)
  · exact .ended a r t status tell hm hwork rfl hs (runs hwork) (ho.status_eq ..) (he hu.2.2.1)
  · exact .cancelled hm (status_waits hr hq) (ho.status_eq ..)

/-- What follows a move leaves the status of the id as it is, or manager `m` claims the ticket of
the id, which was ready. -/
def Advances (a m : Nat) (id : String) (x y : World) : Prop :=
  y.status m id = x.status m id ∨
    Starts m id a x y ∧ x.status m id = .waitingReady ∧ y.status m id = .running

theorem advances (hx : x.Sound m) (hs : Sequel a x y) (id : String) : Advances a m id x y := by
  by_cases hn : Starts m id a x y
  · obtain ⟨t, s, tally, ha, hc, hid, rfl⟩ := hn
    have hb := Store.claim_begins hc
    refine .inr ⟨⟨t, s, tally, ha, hc, hid, rfl⟩, ?_, ?_⟩
    · have hq := (hx.custody.queue.find id t).mpr ⟨hb.queued, hid⟩
      have hrun := hb.runnable
      simp only [Ticket.runnable, Bool.and_eq_true, Bool.not_eq_true'] at hrun
      rw [status, Manager.status_queued (hx.custody.queued_apart hq) hq, hrun.1.1, hrun.1.2]
      rfl
    · obtain ⟨counts, -, hm⟩ := hb.manager
      have hid' : (s.ticket t).id = id := by rw [hb.ticket, ← hid]
      refine Manager.status_running (t := t) ?_ ..
      rw [toStore_depart, hm]
      exact hid' ▸ Table.find?_insert_same ..
  · obtain ⟨habides, hset⟩ := abides_sequel (D := fun _ => False) hs
    refine .inl (Store.status_eq (sequel_agrees hs hn) fun t _ hq => ?_)
    have made := hx.custody.made t (.inl ((hx.custody.queue.find id t).mp hq).1)
    exact ⟨Store.time_eq habides (hset m), (hset m).network, habides.needs t made,
      habides.deadline t made not_false⟩

theorem advances_sequels (hw : w.Sound m) (hs : Sequels a w w') (id : String) :
    Relation.ReflTransGen (fun x y => Sequel a x y ∧ Advances a m id x y) w w' := by
  induction hs with
  | refl => exact .refl
  | tail hv hs ih => exact ih.tail ⟨hs, advances (hw.sequels hv) hs id⟩

/-- As long as the client leaves what a manager holds alone and every outcome has a meaning, the
status of an id goes around in one direction. A move turns it in one of the ways that `Turns`
lists, and what follows the move either leaves it or begins the attempt of an id that was ready. So
what has ended stays as it has ended until the id is admitted again, whatever else happens, and an
id that was admitted once is never unknown again. -/
theorem status_goes_around (h : ReachableBy (inPeace m) w) (hu : inPeace m w mv)
    (id : String) :
    Turns m id w mv ∧
    Relation.ReflTransGen (fun x y => Sequel (w.acting mv) x y ∧ Advances (w.acting mv) m id x y)
      (w.effect mv) (w.step mv) ∧
    (∀ moves, (w.status m id).ended = true →
      w.Along (fun w mv => inPeace m w mv ∧ ¬w.Admits m id (w.step mv).toStore) moves →
      (w.run moves).status m id = w.status m id) ∧
    ∀ moves, w.Admits m id (w.step mv).toStore → (w.step mv).Along (inPeace m) moves →
      ((w.step mv).run moves).status m id ≠ .unknown := by
  have hb := h.inOrbit
  have hw := hb.balance.sound
  refine ⟨turns hb hu id, ?_, fun moves hend hl => ?_, fun moves ha hl => ?_⟩
  · exact advances_sequels (hw.effect hu.1) (step_sequels hw.founded mv) id
  · exact ((over_of_ended hend).run hw (hl.mono fun _ _ h => ⟨h.1.1, h.2⟩)).status_eq ..
  · have hs := hb.step hu
    have hknown : ((w.step mv).run moves).Accounts (fun _ => True) m id :=
      Accounts.run (.inl ha.2) hs.balance (hl.mono fun _ _ h => ⟨h.1, h.2.1⟩)
        fun _ _ _ _ => trivial
    have hend : ((w.step mv).run moves).InOrbit m := hl.run (fun _ _ h hu => h.step hu) hs
    rcases hknown with hheld | ⟨status, -, ho⟩
    · rcases status_cases ((w.step mv).run moves) m id with hf | hr | ⟨-, -, hwait⟩
      · rw [hf] at hheld
        cases hheld
      · simp [hr]
      · rintro hunk
        rw [hunk] at hwait
        cases hwait
    · have hst := hend.concluded id status ho.finished
      rw [World.status, ho.status_eq]
      rintro rfl
      cases hst

/-- The body of the first of two siblings has failed, and its job makes the group wait. The first
then waits again, and the second, which was ready, waits with it. -/
theorem status_goes_around_siblings :
    ((start 0).run siblings).status 0 "a" = .running ∧
      ((start 0).run siblings).status 0 "b" = .waitingReady ∧
      Turns 0 "a" ((start 0).run siblings) (.reply 5 (.plan ⟨true, some 5, none, true⟩)) ∧
      Turns 0 "b" ((start 0).run siblings) (.reply 5 (.plan ⟨true, some 5, none, true⟩)) ∧
      (((start 0).run siblings).step (.reply 5 (.plan ⟨true, some 5, none, true⟩))).status 0 "a" =
        .waitingNotReady ∧
      (((start 0).run siblings).step (.reply 5 (.plan ⟨true, some 5, none, true⟩))).status 0 "b" =
        .waitingNotReady := by
  have h : ReachableBy (inPeace 0) ((start 0).run siblings) :=
    ⟨0, siblings, by simp [siblings, Along, inPeace, lawful, counted, named,
      rescheduled, Store.rescheduled], rfl⟩
  have hu : inPeace 0 ((start 0).run siblings)
      (.reply 5 (.plan ⟨true, some 5, none, true⟩)) := ⟨trivial, trivial, trivial, fun _ h => by cases h⟩
  exact ⟨by decide +kernel, by decide +kernel, (status_goes_around h hu "a").1,
    (status_goes_around h hu "b").1, by decide +kernel, by decide +kernel⟩

end World

end Backlog
