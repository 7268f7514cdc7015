import Backlog.Proofs.LifeCycle

/-!
# What runs does not wait

A manager has no id running and waiting at once, whatever the client does to the ids of tickets: an
id enters the queue only when it does not run, and an id that begins to run leaves the queue.
-/

namespace Backlog

namespace Store

variable {s s' : Store} {m t : Nat}

/-- No id that runs for manager `m` waits there, and as long as the manager accepts work its queue
is open. -/
structure Parted (m : Nat) (s : Store) : Prop where
  apart : ∀ id t, (s.manager m).running.find? id = some t → (s.manager m).queue.find? id = none
  opened : (s.manager m).accepting = true → (s.manager m).queue.closed = false

namespace Parted

/-- Ids may stop running or waiting. -/
theorem shrink (h : s.Parted m)
    (hr : ∀ id t, (s'.manager m).running.find? id = some t → (s.manager m).running.find? id = some t)
    (hq : ∀ id t, (s'.manager m).queue.find? id = some t → (s.manager m).queue.find? id = some t)
    (hc : (s'.manager m).queue.closed = (s.manager m).queue.closed)
    (ha : (s'.manager m).accepting = true → (s.manager m).accepting = true) : s'.Parted m where
  apart id t ht := Option.eq_none_iff_forall_ne_some.mpr fun u hu => by
    have := h.apart id t (hr id t ht)
    rw [hq id u hu] at this
    cases this
  opened hacc := hc ▸ h.opened (ha hacc)

theorem congr (h : s.Parted m) (hm : s'.manager m = s.manager m) : s'.Parted m where
  apart := hm ▸ h.apart
  opened := hm ▸ h.opened

theorem onManager (h : s.Parted m) {f : Manager → Manager}
    (hr : (f (s.manager m)).running = (s.manager m).running)
    (hq : (f (s.manager m)).queue = (s.manager m).queue)
    (ha : (f (s.manager m)).accepting = (s.manager m).accepting) : (s.onManager m f).Parted m := by
  refine h.shrink ?_ ?_ ?_ ?_ <;> rw [manager_onManager, if_pos rfl]
  · exact fun id t ht => hr ▸ ht
  · exact fun id t ht => hq ▸ ht
  · rw [hq]
  · exact fun hacc => ha ▸ hacc

/-- An id that does not run enters the queue. -/
theorem insert (h : s.Parted m) {ticket : Nat → Ticket}
    (hr : ∀ id t, (s'.manager m).running.find? id = some t → (s.manager m).running.find? id = some t)
    (hq : (s'.manager m).queue = (s.manager m).queue.insert ticket t)
    (ha : (s'.manager m).accepting = true → (s.manager m).accepting = true)
    (hn : (s'.manager m).running.find? (ticket t).id = none) : s'.Parted m where
  apart id u hu := by
    rw [hq]
    change ((s.manager m).queue.index.insert (ticket t).id t).find? id = none
    rw [Table.find?_insert, if_neg]
    · exact h.apart id u (hr id u hu)
    · rintro rfl
      rw [hn] at hu
      cases hu
  opened hacc := by
    rw [hq]
    exact h.opened (ha hacc)

theorem takesIn (h : s.Parted m) (hi : TakesIn m t s s') : s'.Parted m := by
  obtain ⟨counts, -, hm⟩ := hi.manager
  refine h.insert ?_ (by rw [hm]) ?_ ?_ <;> rw [hm]
  · exact fun _ _ hr => hr
  · exact id
  · exact (Manager.free_iff.mp hi.free).1

/-- An id that begins to run leaves the queue. -/
theorem claim (h : s.Parted m) {i : Nat} (hc : s.claim i = some (s', t)) : s'.Parted m := by
  have hb := claim_begins hc
  by_cases hi : m = i
  · subst hi
    obtain ⟨counts, -, hm⟩ := hb.manager
    refine ⟨fun id u hu => ?_, fun hacc => ?_⟩ <;> rw [hm] at *
    · change ((s.manager m).queue.index.erase (s'.ticket t).id).find? id = none
      rw [Table.find?_erase]
      split
      · rfl
      · rename_i hne
        change ((s.manager m).running.insert (s'.ticket t).id t).find? id = some u at hu
        rw [Table.find?_insert, if_neg hne] at hu
        exact h.apart id u hu
    · exact h.opened hacc
  · exact h.congr (hb.other m hi)

theorem withdraw (h : s.Parted m) {id : String} {v : Withdrawal}
    (hw : s.withdraw m id = some (s', v)) : s'.Parted m := by
  rcases withdraw_cases hw with ⟨t, -, rfl, -⟩ | ⟨-, t, queue, hq, rfl, -⟩
  · exact h.congr rfl
  · have hqueue : queue.closed = (s.manager m).queue.closed ∧
        ∀ i u, queue.find? i = some u → (s.manager m).queue.find? i = some u := by
      obtain ⟨-, rfl⟩ := Queue.remove_eq_some.mp hq
      exact ⟨rfl, fun i u hu => Table.find?_of_erase hu⟩
    refine h.shrink ?_ ?_ ?_ ?_ <;> rw [manager_onManager, if_pos rfl]
    · exact fun _ _ hr => hr
    · exact hqueue.2
    · exact hqueue.1
    · exact fun hacc => hacc

/-- The id of a retry has just stopped running. -/
theorem settle (h : s.Parted m) (hf : s.Founded) (made : t < s.tickets.size) {i : Nat}
    (o : Outcome) : (s.settle i t o).1.Parted m := by
  by_cases hi : m = i
  · subst hi
    rcases settle_spec (m := m) made o with ⟨_, _, -, -, he⟩ | ⟨-, -, hr⟩ | ⟨-, -, -, -, hl⟩
    · refine h.shrink ?_ ?_ ?_ ?_ <;> rw [he.manager]
      · exact fun _ _ hr => Table.find?_of_erase hr
      · exact fun _ _ hq => hq
      · rfl
      · exact id
    · obtain ⟨ticket, hlast, hm⟩ := hr.manager
      have hid : (ticket s.tickets.size).id = (s.ticket t).id := by
        rw [hf.named t made, ← hr.id]
        exact (Ticket.id_of_lasting (hlast _ (Nat.le_refl _))).symm
      refine h.insert ?_ (by rw [hm]) ?_ ?_ <;> rw [hm]
      · exact fun _ _ hr => Table.find?_of_erase hr
      · exact id
      · rw [hid]
        exact Table.find?_erase_same ..
    · refine h.shrink ?_ ?_ ?_ ?_ <;> rw [hl.manager]
      · exact fun _ _ hr => Table.find?_of_erase hr
      · exact fun _ _ hq => hq
      · rfl
      · exact id
  · exact h.congr (manager_settle made o hi)

theorem manage (h : s.Parted m) {c : ManagerCall} (hc : (Call.manager m c).inScope s = true) :
    (s.manage m c).Parted m := by
  refine manage_induction hc h (fun _ _ _ h _ hi => h.takesIn hi) (fun _ _ _ _ hw => h.withdraw hw)
    (fun up _ => h.onManager rfl rfl rfl) fun _ => ⟨?_, ?_⟩ <;> rw [manager_onManager, if_pos rfl]
  · exact h.apart
  · exact nofun

end Parted

end Store

namespace World

variable {w w' : World} {a m : Nat} {mv : Move}

theorem parted_effect (h : w.Parted m) (hf : w.Founded) : (w.effect mv).Parted m := by
  cases mv with
  | call c =>
    rcases effect_call w c with ⟨hc, he⟩ | he <;> rw [he]
    · rcases Store.manager_call w.toStore c m with hm | ⟨d, rfl⟩ | ⟨config, rfl, hi⟩
      · exact h.congr hm
      · exact h.manage hc
      · constructor <;> rw [Store.manager_make w.toStore config hi]
        · exact h.apart
        · exact h.opened
    · exact h
  | reply a r =>
    have hr := replied w a r
    generalize (w.effect (.reply a r)).toStore = s at hr ⊢
    cases hr with
    | planned jobs hj => exact h.congr rfl
    | settled jobs hj i t o hw =>
      have hs : Store.Parted m { w.toStore with jobs } := h.congr rfl
      exact hs.settle (hf.store.keepSame hj rfl rfl rfl) (hf.works a i t hw) o
  | clock now => exact h.congr rfl
  | elapse nanos => exact h.congr rfl

theorem parted_sequels (h : w.Parted m) (hs : Sequels a w w') : w'.Parted m := by
  induction hs with
  | refl => exact h
  | tail _ hs ih =>
    cases hs with
    | departed i t s tally ha hc =>
      rw [toStore_depart]
      exact ih.claim hc
    | _ => exact ih.congr rfl

theorem Reachable.parted (h : w.Reachable) (m : Nat) : w.Parted m :=
  (h.induction (P := fun w => w.Founded ∧ w.Parted m) (fun now => ⟨.start now, nofun, fun _ => rfl⟩)
    fun _ mv ⟨hf, hs⟩ => ⟨hf.step mv, parted_sequels (parted_effect hs hf) (step_sequels hf mv)⟩).2

end World

end Backlog
