import Backlog.Proofs.LifeCycle

/-!
# The balance of a manager

Every work that a manager took in has ended or is queued or running. The client has to leave
counts of attempts as they are or set them to numbers that are not negative: no new ticket can
be made with a negative count, and a work that needs one is lost.
-/

namespace Backlog

namespace Table

variable {κ α : Type} [DecidableEq κ]

theorem filter_key {l : List (κ × α)} {k : κ} (h : k ∉ l.map Prod.fst) :
    l.filter (·.1 ≠ k) = l := by
  apply List.filter_eq_self.mpr
  intro e he
  have : e.1 ≠ k := fun hk => h (hk ▸ List.mem_map_of_mem he)
  simpa using this

theorem size_erase {t : Table κ α} {k : κ} {a : α} (h : t.find? k = some a) :
    (t.erase k).size + 1 = t.size := by
  obtain ⟨l, hl⟩ := t
  simp only [find?, size, erase] at h ⊢
  induction l with
  | nil => cases h
  | cons e l ih =>
    obtain ⟨i, b⟩ := e
    obtain ⟨hi, hn⟩ := List.nodup_cons.mp hl
    by_cases hk : i = k
    · subst hk
      rw [List.filter_cons_of_neg (by simp), filter_key hi, List.length_cons]
    · have hb : (k == i) = false := by simpa using Ne.symm hk
      rw [List.lookup_cons, hb] at h
      rw [List.filter_cons_of_pos (by simpa using hk), List.length_cons, List.length_cons, ih hn h]

theorem size_insert {t : Table κ α} {k : κ} (h : t.find? k = none) (a : α) :
    (t.insert k a).size = t.size + 1 := by
  have hk : k ∉ t.entries.map Prod.fst := by
    intro hm
    obtain ⟨e, he, rfl⟩ := List.mem_map.mp hm
    have := List.lookup_eq_none_iff.mp h e he
    simp at this
  rw [size, insert, List.length_cons]
  simp only [erase, filter_key hk, size]

end Table

/-- All works that were taken in have ended but `n`. -/
def Counts.Leaves (c : Counts) (n : Nat) : Prop :=
  c.added + c.recovered = c.succeeded + c.failed + c.cancelled + n

theorem Counts.Leaves.ended {c : Counts} {n : Nat} (h : c.Leaves (n + 1)) (status : Status) :
    (c.ended status).Leaves n := by
  simp only [Leaves] at *
  cases status <;> simp only [Counts.ended] <;> omega

/-- Every work that was taken in has ended or is held. -/
def Manager.Balanced (g : Manager) : Prop := g.counts.Leaves (g.queue.size + g.running.size)

namespace Store

variable {s s' : Store} {m t : Nat} {id : String}

theorem size_insert {g : Manager} {ticket : Nat → Ticket} {size : Nat}
    (h : Custody g ticket size) (free : g.free (ticket t).id = true) :
    (g.queue.insert ticket t).size = g.queue.size + 1 := by
  apply h.queue.size_insert
  rw [Table.contains, show g.queue.index.find? (ticket t).id = none from
    (Manager.free_iff.mp free).2]
  rfl

theorem TakesIn.balanced (h : TakesIn m t s s')
    (hc : Custody (s.manager m) s.ticket s.tickets.size) (hb : (s.manager m).Balanced) :
    (s'.manager m).Balanced := by
  obtain ⟨counts, hn, hm⟩ := h.manager
  have hs := size_insert (hc.keep h.keeps) h.free
  rw [hm]
  simp only [Manager.Balanced, Counts.Leaves] at *
  dsimp only [Manager.forget]
  rw [hs]
  rcases hn with rfl | rfl <;> dsimp only <;> omega

theorem Begins.balanced (h : Begins m t s s')
    (hc : Custody (s.manager m) s.ticket s.tickets.size) (hb : (s.manager m).Balanced) :
    (s'.manager m).Balanced := by
  obtain ⟨counts, hn, hm⟩ := h.manager
  have hid : (s'.ticket t).id = (s.ticket t).id := by rw [h.ticket]
  have hr : (s.manager m).running.find? (s'.ticket t).id = none := by
    rw [hid]
    exact hc.queued_apart ((hc.queue.find _ t).mpr ⟨h.queued, rfl⟩)
  have hq : ((s.manager m).queue.take s'.ticket t).size + 1 = (s.manager m).queue.size := by
    have := List.length_pos_of_mem h.queued
    change ((s.manager m).queue.order.erase t).length + 1 = (s.manager m).queue.order.length
    rw [List.length_erase_of_mem h.queued]
    omega
  have hs := Table.size_insert hr t
  rw [hm]
  simp only [Manager.Balanced, Counts.Leaves] at *
  dsimp only [Manager.begin]
  rw [hs]
  rcases hn with rfl | rfl
  · omega
  · dsimp only
    omega

theorem Ends.balanced {status : Status} (h : Ends m t status s s')
    (hr : (s.manager m).running.find? (s.ticket t).id = some t) (hb : (s.manager m).Balanced) :
    (s'.manager m).Balanced := by
  have hs := Table.size_erase hr
  rw [h.manager]
  refine Counts.Leaves.ended (c := (s.manager m).counts) ?_ status
  simp only [Manager.Balanced, Counts.Leaves] at hb
  simp only [Counts.Leaves]
  dsimp only [Manager.finish, Manager.release]
  omega

theorem Renews.balanced (h : Renews m t s s')
    (hc : Custody (s.manager m) s.ticket s.tickets.size)
    (hr : (s.manager m).running.find? (s.ticket t).id = some t)
    (hn : (s.ticket t).id = (s.job (s.ticket t).job).id) (hb : (s.manager m).Balanced) :
    (s'.manager m).Balanced := by
  obtain ⟨f, hf, hm⟩ := h.manager
  have hs := Table.size_erase hr
  have hk : Custody ((s.manager m).release (s.ticket t)) f (s.tickets.size + 1) :=
    (hc.release (s.ticket t)).congr (Nat.le_succ _) fun u hu => by
      have hz := hc.made u (hu.imp_right fun ⟨i, hi⟩ => ⟨i, Table.find?_of_erase hi⟩)
      rw [← Ticket.id_of_lasting (hf u (Nat.le_of_lt hz)),
        Ticket.id_of_lasting (h.keeps.lasting hz)]
  have hid : (f s.tickets.size).id = (s.ticket t).id := by
    rw [← Ticket.id_of_lasting (hf _ (Nat.le_refl _)), h.id, hn]
  have hq := size_insert (t := s.tickets.size) hk (by
    rw [hid]
    exact Manager.free_iff.mpr ⟨Table.find?_erase_same .., hc.apart _ t hr⟩)
  rw [hm]
  simp only [Manager.Balanced, Counts.Leaves] at *
  dsimp only [Manager.release] at hq ⊢
  rw [hq]
  omega

theorem withdraw_balanced {v : Withdrawal} (h : s.withdraw m id = some (s', v))
    (hc : Custody (s.manager m) s.ticket s.tickets.size) (hb : (s.manager m).Balanced) :
    (s'.manager m).Balanced := by
  rcases withdraw_cases h with ⟨u, -, rfl, -⟩ | ⟨-, u, queue, hq, rfl, -⟩
  · exact hb
  · obtain ⟨hm, -, rfl⟩ := hc.queue.remove hq
    rw [manager_onManager, if_pos rfl, manager_cancelTicket]
    refine Counts.Leaves.ended (c := (s.manager m).counts) ?_ .cancelled
    have hl := List.length_pos_of_mem hm
    simp only [Manager.Balanced, Counts.Leaves, Queue.size] at hb
    simp only [Counts.Leaves, Queue.size]
    dsimp only [Manager.finish]
    rw [List.length_erase_of_mem hm]
    omega

/-- What a manager does at once keeps its balance. -/
theorem balanced_manage (h : Custody (s.manager m) s.ticket s.tickets.size)
    (hb : (s.manager m).Balanced) {c : ManagerCall} (hc : (Call.manager m c).inScope s = true) :
    ((s.manage m c).manager m).Balanced := by
  refine (manage_induction (P := fun s => Custody (s.manager m) s.ticket s.tickets.size ∧
    (s.manager m).Balanced) hc ⟨h, hb⟩
    (fun _ _ _ h _ hi => ⟨h.1.takesIn hi, hi.balanced h.1 h.2⟩)
    (fun _ _ _ _ hw => ⟨h.withdraw hw, withdraw_balanced hw h hb⟩) (fun up _ => ?_) fun _ => ?_).2
  · rw [manager_onManager, if_pos rfl]
    exact ⟨⟨h.queue, h.made, h.own, h.apart, h.ended, h.opened⟩, hb⟩
  · rw [manager_onManager, if_pos rfl]
    exact ⟨h.stop, hb⟩

end Store

namespace World

variable {w w' : World} {a m t : Nat}

/-- The client sets no count of attempts that is negative. -/
def counted : Move → Prop
  | .call (.editTicket _ (.runs n)) => 0 ≤ n
  | _ => True

/-- No ticket counts a negative number of attempts. -/
def Counted (w : World) : Prop := ∀ t, 0 ≤ (w.ticket t).runs

theorem Counted.effect (h : w.Counted) {mv : Move} (hn : counted mv) : (w.effect mv).Counted := by
  cases mv with
  | call c =>
    simp only [Counted]
    rcases effect_call w c with ⟨-, he⟩ | he <;> rw [he]
    · exact fun t => Store.runs_call (s := w.toStore) h (fun u n he => by subst he; exact hn) t
    · exact h
  | _ => exact fun t => (keeps_effect w _).runs h nofun

theorem Counted.sequel (h : w.Counted) (hs : Sequel a w w') : w'.Counted := by
  intro t
  obtain ⟨x, hk, hx⟩ := keeps_sequel hs
  by_cases he : some t = x
  · obtain ⟨i, s, tally, -, hc, rfl⟩ := hx t he.symm
    have := h t
    rw [toStore_depart, (Store.claim_begins hc).ticket]
    dsimp only
    omega
  · exact hk.runs h he

/-- A manager is in balance, and no count is negative. -/
structure InBalance (m : Nat) (w : World) : Prop where
  sound : w.Sound m
  counted : w.Counted
  balanced : (w.manager m).Balanced

namespace InBalance

/-- The ticket of operation `a` is settled, whatever plans the jobs have by then. -/
theorem settle (h : w.InBalance m) {i t : Nat} (hw : w.Works a i t) {s : Store} (hs : s.Founded)
    (hm : s.managers = w.managers) (ht : s.tickets = w.tickets) (o : Outcome) :
    ((s.settle i t o).1.manager m).Balanced := by
  have hmg : s.manager m = w.manager m := congrArg (Registry.get · m) hm
  have htk : s.ticket = w.ticket := congrArg Registry.get ht
  have made : t < s.tickets.size := ht ▸ h.sound.founded.works a i t hw
  have hb : (s.manager m).Balanced := hmg ▸ h.balanced
  by_cases hi : m = i
  · subst hi
    have hc : Custody (s.manager m) s.ticket s.tickets.size := by
      rw [hmg, htk, ht]
      exact h.sound.custody
    have hr : (s.manager m).running.find? (s.ticket t).id = some t := by
      rw [hmg, htk]
      exact h.sound.tended.runs a t hw
    rcases Store.settle_spec (m := m) made o with ⟨_, _, -, -, he⟩ | ⟨-, -, he⟩ | ⟨hn, -⟩
    · exact he.balanced hr hb
    · exact he.balanced hc hr (hs.named t made) hb
    · have := h.counted t
      rw [htk] at hn
      exact absurd this (Int.not_le.mpr hn)
  · rw [Store.manager_settle made o hi]
    exact hb

theorem effect (h : w.InBalance m) {mv : Move} (hl : lawful m w mv) (hn : World.counted mv) :
    (w.effect mv).InBalance m := by
  refine ⟨h.sound.effect hl, h.counted.effect hn, ?_⟩
  cases mv with
  | call c =>
    rcases effect_call w c with ⟨hs, he⟩ | he <;> rw [he]
    · rcases Store.manager_call w.toStore c m with hm | ⟨d, rfl⟩ | ⟨config, rfl, hi⟩
      · rw [hm]
        exact h.balanced
      · exact Store.balanced_manage h.sound.custody h.balanced hs
      · rw [Store.manager_make w.toStore config hi]
        exact h.balanced
    · exact h.balanced
  | reply a r =>
    have hr := replied w a r
    generalize (w.effect (.reply a r)).toStore = s at hr ⊢
    cases hr with
    | planned jobs hj => exact h.balanced
    | settled jobs hj i t o hw =>
      exact h.settle hw (h.sound.founded.store.keepSame hj rfl rfl rfl) rfl rfl o
  | clock now => exact h.balanced
  | elapse nanos => exact h.balanced

theorem sequel (h : w.InBalance m) (hs : Sequel a w w') : w'.InBalance m := by
  refine ⟨h.sound.sequel hs, h.counted.sequel hs, ?_⟩
  cases hs with
  | departed i t s tally ha hc =>
    have hb := Store.claim_begins hc
    rw [toStore_depart]
    by_cases hi : m = i
    · subst hi
      exact hb.balanced h.sound.custody h.balanced
    · rw [hb.other m hi]
      exact h.balanced
  | _ => exact h.balanced

theorem step (h : w.InBalance m) {mv : Move} (hl : lawful m w mv) (hn : World.counted mv) :
    (w.step mv).InBalance m := by
  have he := h.effect hl hn
  have hs := step_sequels h.sound.founded mv
  generalize w.step mv = w' at hs
  induction hs with
  | refl => exact he
  | tail _ hs ih => exact ih.sequel hs

end InBalance

theorem ReachableBy.inBalance (h : ReachableBy (fun w mv => lawful m w mv ∧ counted mv) w) :
    w.InBalance m :=
  h.induction (fun now => ⟨.start m now, fun _ => Int.le_refl 0, rfl⟩)
    fun _ _ h hl => h.step hl.1 hl.2

end World

end Backlog
