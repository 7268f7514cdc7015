import Backlog.Proofs.Holdings
import Backlog.Proofs.Upkeep

/-!
# Sound managers

A manager is sound if it keeps each id in one place, and if every ticket that it runs waits in
exactly one operation. Every move keeps it sound as long as the client gives no ticket of the
manager another id.
-/

namespace Backlog

/-- The running tickets are those that somebody works on, each in one operation. -/
structure Tended (running : Table String Nat) (ticket : Nat → Ticket)
    (works : Nat → Nat → Prop) : Prop where
  runs : ∀ a t, works a t → running.find? (ticket t).id = some t
  sole : ∀ a b t, works a t → works b t → a = b
  tended : ∀ id t, running.find? id = some t → ∃ a, works a t

namespace Tended

variable {running : Table String Nat} {ticket k : Nat → Ticket}
  {works works' : Nat → Nat → Prop} {a t : Nat}

theorem congr (h : Tended running ticket works)
    (hid : ∀ id t, running.find? id = some t → (k t).id = (ticket t).id)
    (hw : ∀ a t, works' a t ↔ works a t) : Tended running k works' where
  runs a t ha := by
    have hr := h.runs a t ((hw a t).mp ha)
    rw [hid _ t hr]
    exact hr
  sole a b t ha hb := h.sole a b t ((hw a t).mp ha) ((hw b t).mp hb)
  tended id t ht := by
    obtain ⟨a, ha⟩ := h.tended id t ht
    exact ⟨a, (hw a t).mpr ha⟩

/-- Operation `a` ends its work on a ticket. -/
theorem leave (h : Tended running ticket works)
    (own : ∀ id t, running.find? id = some t → (ticket t).id = id) (ha : works a t)
    (only : ∀ u, works a u → u = t) :
    Tended (running.erase (ticket t).id) ticket fun b u => b ≠ a ∧ works b u where
  runs b u hb := by
    have hu := h.runs b u hb.2
    rw [Table.find?_erase, if_neg, hu]
    intro he
    rw [he, h.runs a t ha] at hu
    obtain rfl := Option.some.inj hu
    exact hb.1 (h.sole b a t hb.2 ha)
  sole b c u hb hc := h.sole b c u hb.2 hc.2
  tended id u hu := by
    rw [Table.find?_erase] at hu
    split at hu
    · cases hu
    · rename_i hne
      obtain ⟨b, hb⟩ := h.tended id u hu
      refine ⟨b, ?_, hb⟩
      rintro rfl
      rw [only u hb] at hu
      exact hne (own id t hu).symm

/-- Operation `a` begins to work on a ticket. -/
theorem enter (h : Tended running ticket works) (ha : ∀ u, ¬works a u)
    (hn : running.find? (ticket t).id = none) :
    Tended (running.insert (ticket t).id t) ticket fun b u =>
      b = a ∧ u = t ∨ b ≠ a ∧ works b u where
  runs b u hb := by
    rw [Table.find?_insert]
    rcases hb with ⟨-, rfl⟩ | ⟨-, hb⟩
    · exact if_pos rfl
    · rw [if_neg, h.runs b u hb]
      intro he
      have := h.runs b u hb
      rw [he, hn] at this
      cases this
  sole b c u hb hc := by
    have fresh (d : Nat) (hd : works d t) : False := by
      rw [h.runs d t hd] at hn
      cases hn
    rcases hb with ⟨rfl, rfl⟩ | ⟨-, hb⟩
    · rcases hc with ⟨rfl, -⟩ | ⟨-, hc⟩
      · rfl
      · exact (fresh c hc).elim
    · rcases hc with ⟨rfl, rfl⟩ | ⟨-, hc⟩
      · exact (fresh b hb).elim
      · exact h.sole b c u hb hc
  tended id u hu := by
    rcases Table.find?_of_insert hu with ⟨-, rfl⟩ | hu
    · exact ⟨a, .inl ⟨rfl, rfl⟩⟩
    · obtain ⟨b, hb⟩ := h.tended id u hu
      exact ⟨b, .inr ⟨fun he => ha u (he ▸ hb), hb⟩⟩

end Tended

namespace Store

variable {s : Store} {m t : Nat}

/-- What a manager does at once keeps its custody. -/
theorem custody_manage (h : Custody (s.manager m) s.ticket s.tickets.size) {c : ManagerCall}
    (hc : (Call.manager m c).inScope s = true) :
    Custody ((s.manage m c).manager m) (s.manage m c).ticket (s.manage m c).tickets.size := by
  have same {f : Manager → Manager} (hf : Custody (f (s.manager m)) s.ticket s.tickets.size) :
      Custody ((s.onManager m f).manager m) s.ticket s.tickets.size := by
    rwa [manager_onManager, if_pos rfl]
  refine manage_induction (P := fun s => Custody (s.manager m) s.ticket s.tickets.size) hc h
    (fun _ _ _ h _ hi => h.takesIn hi) (fun _ _ _ _ hw => h.withdraw hw) (fun up _ => ?_)
    fun _ => same h.stop
  exact same ⟨h.queue, h.made, h.own, h.apart, h.ended, h.opened⟩

/-- No attempt begins or ends by what a manager does at once. -/
theorem running_manage (s : Store) (m : Nat) {c : ManagerCall}
    (hc : (Call.manager m c).inScope s = true) :
    ((s.manage m c).manager m).running = (s.manager m).running := by
  obtain ⟨_, _, _, _, _, hm, -⟩ := manager_manage_self hc
  rw [hm]

end Store

namespace World

/-- Manager `m` is sound. -/
structure Sound (m : Nat) (w : World) : Prop where
  founded : w.Founded
  custody : Custody (w.manager m) w.ticket w.tickets.size
  tended : Tended (w.manager m).running w.ticket fun a t => w.Works a m t

/-- The client gives no ticket that manager `m` holds another id. That it leaves the priority and the
age of queued tickets alone is the contract of the queue, and no part of this. Where a client breaks
that contract, what is proved under this condition holds of an order that is kept as a list, and
says nothing of a set that is searched. -/
def lawful (m : Nat) (w : World) : Move → Prop
  | .call (.editTicket t (.job (some j))) => (w.manager m).holds t → (w.job j).id = (w.ticket t).id
  | _ => True

variable {w w' : World} {a b m t : Nat}

namespace Sound

/-- Managers and operations that do not change stay sound as long as held tickets keep their
ids. -/
theorem congr (h : w.Sound m) (hf : w'.Founded) (hm : w'.manager m = w.manager m)
    (hz : w.tickets.size ≤ w'.tickets.size)
    (hid : ∀ t, (w.manager m).holds t → (w'.ticket t).id = (w.ticket t).id)
    (hw : ∀ a t, w'.Works a m t ↔ w.Works a m t) : w'.Sound m where
  founded := hf
  custody := hm ▸ h.custody.congr hz hid
  tended := hm ▸ h.tended.congr (fun id t ht => hid t (.inr ⟨id, ht⟩)) hw

theorem held (h : w.Sound m) (hw : w.Works a m t) : (w.manager m).holds t :=
  .inr ⟨_, h.tended.runs a t hw⟩

/-- A call that begins no attempt. -/
theorem call (h : w.Sound m) {c : Call} (hc : c.inScope w.toStore = true)
    (hl : lawful m w (.call c)) {w' : World} (hf : w'.Founded)
    (hs : w'.toStore = w.toStore.call c) (hw : ∀ a t, w'.Works a m t ↔ w.Works a m t) :
    w'.Sound m := by
  have hid (t : Nat) (ht : (w.manager m).holds t) : (w'.ticket t).id = (w.ticket t).id := by
    rw [hs]
    apply Store.id_call (h.custody.made t ht)
    intro j he
    subst he
    exact hl ht
  have hz : w.tickets.size ≤ w'.tickets.size := hs ▸ (Store.keeps_call ..).tickets
  have htend (hr : (w'.manager m).running = (w.manager m).running) :
      Tended (w'.manager m).running w'.ticket fun a t => w'.Works a m t :=
    hr ▸ h.tended.congr (fun id t ht => hid t (.inr ⟨id, ht⟩)) hw
  rcases Store.manager_call w.toStore c m with hm | ⟨d, rfl⟩ | ⟨config, rfl, hi⟩
  · exact h.congr hf (by rw [hs]; exact hm) hz hid hw
  · refine ⟨hf, by rw [hs]; exact Store.custody_manage h.custody hc, htend ?_⟩
    rw [hs]
    exact Store.running_manage _ _ hc
  · have hm := Store.manager_establish w.toStore config hi
    rw [show w.establish config = w'.toStore from hs.symm] at hm
    have hd : (w.manager m).running = .empty := by
      rw [Store.manager, Registry.get_of_size_le (Nat.le_of_eq hi.symm)]
      rfl
    refine ⟨hf, by rw [hm]; exact .idle, htend ?_⟩
    rw [hm, hd]

theorem start (m : Nat) (now : Int) : (start now).Sound m where
  founded := .start now
  custody := .idle
  tended := ⟨nofun, nofun, nofun⟩

/-- The ticket of operation `a` is settled, which then works no more. -/
theorem settle (h : w.Sound m) {i t : Nat} (hw : w.Works a i t) {jobs : Registry Job}
    (hj : Store.Keeps none w.toStore { w.toStore with jobs }) {o : Outcome} (hf : w'.Founded)
    (hs : w'.toStore = (Store.settle { w.toStore with jobs } i t o).1)
    (hworks : ∀ b u, w'.Works b m u ↔ b ≠ a ∧ w.Works b m u) : w'.Sound m := by
  have made := h.founded.works a i t hw
  have hkeeps := hj.trans (Store.keeps_settle (x := none) { w.toStore with jobs } i t o)
  have hid (u : Nat) (hu : (w.manager m).holds u) : (w'.ticket u).id = (w.ticket u).id := by
    rw [hs]
    exact Ticket.id_of_lasting (hkeeps.lasting (h.custody.made u hu))
  by_cases hi : i = m
  · subst hi
    have hr := h.tended.runs a t hw
    refine ⟨hf, ?_, ?_⟩
    · have hc : Custody (Store.manager { w.toStore with jobs } i) w.ticket w.tickets.size := h.custody
      rw [hs]
      rcases Store.settle_spec (s := { w.toStore with jobs }) (m := i) made o with
        ⟨_, _, -, -, he⟩ | ⟨-, -, he⟩ | ⟨-, -, -, -, he⟩
      · exact hc.ends hr he
      · exact hc.renews hr ((h.founded.store.keepSame hj rfl rfl rfl).named t made) he
      · exact hc.loses he
    · have hrun : (w'.manager i).running = (w.manager i).running.erase (w.ticket t).id := by
        rw [hs]
        exact Store.running_settle (s := { w.toStore with jobs }) made o
      rw [hrun]
      exact (h.tended.leave h.custody.own hw fun u hu => (hu.unique hw).2).congr
        (fun id u hu => hid u (.inr ⟨id, Table.find?_of_erase hu⟩)) hworks
  · have hother : w'.manager m = w.manager m := by
      rw [hs]
      exact Store.manager_settle (s := { w.toStore with jobs }) made o (Ne.symm hi)
    exact h.congr hf hother (hs ▸ hkeeps.tickets) hid
      fun b u => (hworks b u).trans (works_apart fun hb => hi (hw.unique hb).1)

theorem effect (h : w.Sound m) {mv : Move} (hl : lawful m w mv) : (w.effect mv).Sound m := by
  have hf := h.founded.effect mv
  cases mv with
  | call c =>
    rcases effect_call w c with ⟨hc, he⟩ | he
    · exact h.call hc hl hf he fun _ _ => works_call h.founded c
    · rwa [he]
  | reply a r =>
    obtain ⟨jobs, hj, ⟨i, t, o, hwork, he, hw⟩ | ⟨he, hw⟩⟩ := works_reply w a r
    · exact h.settle hwork hj hf he fun b => hw b m
    · exact h.congr hf (by rw [he]; rfl) (Nat.le_of_eq (by rw [he])) (fun t _ => by rw [he]; rfl)
        fun b => hw b m
  | clock now => exact h.congr hf rfl (Nat.le_refl _) (fun _ _ => rfl) fun _ _ => .rfl
  | elapse nanos => exact h.congr hf rfl (Nat.le_refl _) (fun _ _ => rfl) fun _ _ => .rfl

theorem sequel (h : w.Sound m) (hs : Sequel a w w') : w'.Sound m := by
  have hf := h.founded.sequel hs
  cases hs with
  | wrote ls es he => exact h.congr hf rfl (Nat.le_refl _) (fun _ _ => rfl) fun _ _ => .rfl
  | told j t next ha ht hn =>
    have hk := Store.keeps_onTicket (x := none) w.toStore t (f := ({ · with notified := true }))
      fun _ _ => rfl
    refine h.congr hf rfl hk.tickets (fun u hu => ?_) fun b u => ?_
    · exact Ticket.id_of_lasting (hk.lasting (h.custody.made u hu))
    · refine works_ask_idle ?_ ha.2 ?_ <;> rfl
  | welcomed j t ha =>
    exact h.congr hf rfl (Nat.le_refl _) (fun _ _ => rfl) fun b u =>
      works_ask_idle rfl ha.2 rfl
  | departed i t s tally ha hc =>
    have hb := Store.claim_begins hc
    by_cases hi : i = m
    · subst hi
      have hcustody := h.custody.begins hb
      obtain ⟨counts, -, hm⟩ := hb.manager
      have hfree : (w.manager i).running.find? (s.ticket t).id = none := by
        rw [hb.id]
        exact h.custody.queued_apart ((h.custody.queue.find _ t).mpr ⟨hb.queued, rfl⟩)
      have ht := (h.tended.congr (k := s.ticket) (fun id u _ => hb.id u) fun _ _ => .rfl).enter
        (fun u => not_works ha.2) hfree
      refine ⟨hf, by rw [toStore_depart]; exact hcustody, ?_⟩
      rw [toStore_depart, hm]
      refine ht.congr (fun _ _ _ => rfl) fun b u => works_depart.trans ?_
      simp only [Option.some.injEq, Prod.mk.injEq, true_and, @eq_comm _ t u]
    · exact h.congr hf (by rw [toStore_depart, hb.other m (Ne.symm hi)])
        (by rw [toStore_depart]; exact hb.size) (fun u _ => by rw [toStore_depart, hb.id])
        fun b u => works_depart_other hi ha.2

theorem sequels (h : w.Sound m) (hs : Sequels a w w') : w'.Sound m := by
  induction hs with
  | refl => exact h
  | tail _ hs ih => exact ih.sequel hs

theorem step (h : w.Sound m) {mv : Move} (hl : lawful m w mv) : (w.step mv).Sound m :=
  (h.effect hl).sequels (step_sequels h.founded mv)

end Sound

theorem ReachableBy.sound (h : ReachableBy (lawful m) w) : w.Sound m :=
  h.induction (Sound.start m) fun _ _ h hl => h.step hl

end World

end Backlog
