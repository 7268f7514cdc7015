import Backlog.Proofs.Punctuality
import Backlog.Proofs.Stamps
import Backlog.Proofs.Statuses

/-!
# First come, first served

Where stamps are given in order of arrival, they decide between tickets of one priority and one age.
So a manager takes up jobs of one priority in the order in which they were added. A retry keeps the
age of its work and gets a stamp of its own: it comes after all that are as old, and before all that
are younger. Whatever ids the tickets get meanwhile does not matter.
-/

namespace Backlog

/-- Manager `m` is asked to add the job. -/
abbrev Move.add (m j : Nat) : Move := .call (.manager m (.add (some j)))

namespace Queue

variable {q : Queue} {ticket ticket' : Nat → Ticket} {t u : Nat}

/-- The ids of queued tickets whose stamps differ do not matter to their order. -/
theorem Ordered.renamed (h : q.Ordered ticket)
    (single : ∀ t ∈ q.order, ∀ u ∈ q.order, (ticket t).stamp = (ticket u).stamp → t = u)
    (hp : ∀ t ∈ q.order, (ticket' t).priority = (ticket t).priority ∧
      (ticket' t).created = (ticket t).created ∧ (ticket' t).stamp = (ticket t).stamp) :
    q.Ordered ticket' where
  stamped t ht := by
    rw [(hp t ht).2.2]
    exact h.stamped t ht
  sorted := by
    refine h.sorted.imp_of_mem fun {t u} ht hu hpre => ?_
    obtain ⟨htp, htc, hts⟩ := hp t ht
    obtain ⟨hup, huc, hus⟩ := hp u hu
    simp only [Ticket.Precedes, htp, htc, hts, hup, huc, hus]
    rcases hpre with hlt | ⟨he, hlt | ⟨hc, i, k, hi, hk, hlt | ⟨rfl, hb⟩⟩⟩
    · exact .inl hlt
    · exact .inr ⟨he, .inl hlt⟩
    · exact .inr ⟨he, .inr ⟨hc, i, k, hi, hk, .inl hlt⟩⟩
    · -- tickets of one stamp are one ticket, which does not come before itself
      obtain rfl := single t ht u hu (hi.trans hk.symm)
      exact absurd hb (List.lt_irrefl _)

/-- What comes before stands ahead. -/
theorem Ordered.ahead (h : q.Ordered ticket) (ht : t ∈ q.order) (hu : u ∈ q.order)
    (hp : (ticket t).Precedes (ticket u)) : [t, u].Sublist q.order := by
  obtain ⟨before, after, he⟩ := List.append_of_mem ht
  have hsorted := h.sorted
  rw [he] at hu hsorted ⊢
  obtain ⟨-, -, hcross⟩ := List.pairwise_append.mp hsorted
  rcases List.mem_append.mp hu with hu | hu
  · exact (Ticket.not_precedes_self _ (hp.trans (hcross u hu t List.mem_cons_self))).elim
  · rcases List.mem_cons.mp hu with rfl | hu
    · exact (Ticket.not_precedes_self _ hp).elim
    · exact ((List.singleton_sublist.mpr hu).cons_cons t).trans (List.sublist_append_right ..)

end Queue

namespace Store

variable {s s' : Store} {m t u : Nat} {d : Int}

theorem Stamps.stamp_one (h : Stamps [t] s s') : (s'.ticket t).stamp = some s.nextStamp := by
  have := h.given
  simpa using this

/-- The tickets that wait for manager `m` have stamps of their own. -/
theorem Standing.single (h : s.Standing m) (hn : s.Numbered) :
    ∀ t ∈ (s.manager m).queue.order, ∀ u ∈ (s.manager m).queue.order,
      (s.ticket t).stamp = (s.ticket u).stamp → t = u := by
  intro t ht u _ he
  obtain ⟨n, hs⟩ := Option.isSome_iff_exists.mp (h.ordered.stamped t ht)
  exact hn.single t u n hs (he ▸ hs)

/-- A job is added at the present of the manager. -/
theorem enlist_created {j : Nat} (h : s.enlist m j = some s') :
    (s'.ticket s.tickets.size).created = s.time m := by
  obtain ⟨-, k, next, ⟨-, -, -, -, -, hc⟩, rfl, rfl⟩ := enlist_eq_some h
  obtain ⟨stamp, hs⟩ := ticket_stampTicket (s.wrap k) s.tickets.size s.tickets.size
  rw [ticket_onManager]
  refine (congrArg Ticket.created hs).trans ?_
  rw [ticket_wrap, if_pos rfl, ← hc]

/-- Of the tickets of its priority that wait for manager `m`, ticket `n` comes after all that are
as old or older, and before all that are younger. -/
def LastOfAge (s : Store) (m n : Nat) : Prop :=
  n ∈ (s.manager m).queue.order ∧ ∀ u ∈ (s.manager m).queue.order, u ≠ n →
    (s.ticket u).priority = (s.ticket n).priority →
      ((s.ticket u).created ≤ (s.ticket n).created → [u, n].Sublist (s.manager m).queue.order) ∧
      ((s.ticket n).created < (s.ticket u).created → [n, u].Sublist (s.manager m).queue.order)

/-- Of two tickets of one priority that wait, the older stands ahead, and of two that are as old
the one that has the earlier stamp. -/
theorem Standing.ahead (h : s.Standing m) {i k : Nat} (ht : t ∈ (s.manager m).queue.order)
    (hu : u ∈ (s.manager m).queue.order) (hp : (s.ticket t).priority = (s.ticket u).priority)
    (hi : (s.ticket t).stamp = some i) (hk : (s.ticket u).stamp = some k)
    (hc : (s.ticket t).created < (s.ticket u).created ∨
      (s.ticket t).created = (s.ticket u).created ∧ i < k) :
    [t, u].Sublist (s.manager m).queue.order :=
  h.ordered.ahead ht hu (.inr ⟨hp, hc.imp_right fun ⟨he, hlt⟩ => ⟨he, i, k, hi, hk, .inl hlt⟩⟩)

theorem created_renewed (s : Store) (m t : Nat) :
    ((s.renewed m t).ticket s.tickets.size).created = (s.ticket t).created := by
  obtain ⟨stamp, h⟩ := ticket_stampTicket (s.wrap (s.renewal m t)) s.tickets.size s.tickets.size
  rw [renewed, h, ticket_wrap, if_pos rfl]
  rfl

theorem made_renewed (s : Store) (m t : Nat) : s.tickets.size < (s.renewed m t).tickets.size := by
  refine Nat.lt_of_lt_of_le ?_ (keeps_stampTicket (x := none) ..).tickets
  simp [wrap]

/-- The new ticket of a retry is queued among those that wait. -/
theorem insert_renewed (hs : s.Standing m) (hn : s.Numbered) :
    ((s.manager m).queue.insert (s.renewed m t).ticket s.tickets.size).order.Perm
      (s.tickets.size :: (s.manager m).queue.order) := by
  have hst := stamps_renewed s m t
  refine insertOrdered_perm fun u hu he => ?_
  -- no queued ticket has the new stamp
  have hne : u ≠ s.tickets.size := Nat.ne_of_lt (hs.made u hu)
  obtain ⟨n, hsn⟩ := Option.isSome_iff_exists.mp (hs.ordered.stamped u hu)
  have hun : ((s.renewed m t).ticket u).stamp = some n := by
    rw [hst.kept u fun h => hne (List.mem_singleton.mp h), hsn]
  have hrank : ((s.renewed m t).ticket s.tickets.size).queueOrder ((s.renewed m t).ticket u) =
      .eq := he
  rw [Ticket.queueOrder_stamped hst.stamp_one hun] at hrank
  simp only [Ordering.then_eq_eq, Nat.compare_eq_eq] at hrank
  have := hn.below u n hsn
  omega

/-- Manager `m` has queued a new ticket, which is as old as ticket `t` and has the next stamp. -/
structure Requeues (m t : Nat) (s s' : Store) : Prop where
  made : s.tickets.size < s'.tickets.size
  created : (s'.ticket s.tickets.size).created = (s.ticket t).created
  stamp : (s'.ticket s.tickets.size).stamp = some s.nextStamp
  order : s.Standing m → s.Numbered →
    (s'.manager m).queue.order.Perm (s.tickets.size :: (s.manager m).queue.order)

theorem retry_requeues (h : (s.retry m t).2 = .ok (.retried d)) :
    Requeues m t s (s.retry m t).1 := by
  obtain ⟨next, hnext, he⟩ := retry_eq_of_retried h
  obtain rfl : next = s.renewed m t := hnext
  rw [he]
  obtain ⟨v, hv⟩ : ∃ v, v = (s.renewed m t).onManager m fun g =>
    { g with queue := (s.manager m).queue.insert (s.renewed m t).ticket s.tickets.size } := ⟨_, rfl⟩
  have hk : Keeps none (s.renewed m t) (v.spread m s.tickets.size (s.plan t)) :=
    (hv ▸ keeps_onManager .. : Keeps none (s.renewed m t) v).trans (keeps_spread ..)
  have hst : Stamps [] (s.renewed m t) v := hv ▸ stamps_onManager ..
  have hm : (v.manager m).queue =
      (s.manager m).queue.insert (s.renewed m t).ticket s.tickets.size := by
    rw [hv, manager_onManager, if_pos rfl]
  rw [← hv]
  refine ⟨?_, ?_, ?_, fun hs hn => ?_⟩
  · exact Nat.lt_of_lt_of_le (made_renewed s m t) hk.tickets
  · rw [← created_renewed s m t]
    exact Ticket.created_of_lasting (hk.lasting (made_renewed s m t))
  · exact (((stamps_renewed s m t).append hst).append (stamps_spread ..)).stamp_one
  · rw [manager_spread, hm]
    exact insert_renewed hs hn

theorem settle_requeues {o : Outcome} (h : (s.settle m t o).2 = .ok (.retried d)) :
    Requeues m t s (s.settle m t o).1 := by
  obtain ⟨w, hw⟩ : ∃ w, w = s.onManager m (·.release (s.ticket t)) := ⟨_, rfl⟩
  refine settle_induction (s := s) (m := m) (t := t)
    (P := fun r => r.2 = .ok (.retried d) → Requeues m t s r.1) hw nofun nofun (fun h => ?_) o h
  have hr := retry_requeues h
  have horder : (w.manager m).queue = (s.manager m).queue := by
    rw [hw, manager_onManager, if_pos rfl]
    rfl
  have hsw (hs : s.Standing m) : w.Standing m := hw ▸ hs.onManager (.refl _)
  have hnw (hn : s.Numbered) : w.Numbered :=
    (hw ▸ stamps_onManager .. : Stamps [] s w).numbered hn
  subst hw
  exact ⟨hr.made, hr.created, hr.stamp, fun hs hn => horder ▸ hr.order (hsw hs) (hnw hn)⟩

end Store

namespace World

variable {w w' : World} {a m t u : Nat} {d : Int} {r : Reply} {mv : Move} {moves : List Move}

/-- The client keeps to what a queue asks for: it does not change the priority or the age of a
ticket that waits for manager `m`. It may give it another id. -/
def leavesOrder (m : Nat) (w : World) : Move → Prop
  | .call (.editTicket t (.priority _)) | .call (.editTicket t (.created _)) =>
    t ∉ (w.manager m).queue.order
  | _ => True

/-- The client does not set the age of ticket `t`. -/
def leavesAge (t : Nat) (mv : Move) : Prop := ∀ c, mv ≠ .call (.editTicket t (.created c))

/-- The tickets that wait stand in run order, also if they get other ids. -/
theorem standing_effect_renamed (h : w.Standing m) (hf : w.Founded) (hn : w.Numbered)
    (hl : leavesOrder m w mv) : (w.effect mv).Standing m := by
  by_cases hr : ∃ t j, mv = .call (.editTicket t (.job (some j)))
  · obtain ⟨t, j, rfl⟩ := hr
    rcases effect_call w (.editTicket t (.job (some j))) with ⟨-, he⟩ | he
    · rw [he]
      refine ⟨fun u hu => ?_, h.ordered.renamed (h.single hn) fun u _ => ?_⟩
      · exact Nat.lt_of_lt_of_le (h.made u hu) (Store.keeps_call ..).tickets
      · have hj : ((w.setJob t j).ticket u) = (w.toStore.onTicket t
          ({ · with job := j, id := (w.job j).id })).ticket u := rfl
        change ((w.setJob t j).ticket u).priority = _ ∧ ((w.setJob t j).ticket u).created = _ ∧
          ((w.setJob t j).ticket u).stamp = _
        rw [hj, Store.ticket_onTicket]
        split
        · rename_i hu
          rw [hu]
          exact ⟨rfl, rfl, rfl⟩
        · exact ⟨rfl, rfl, rfl⟩
    · rw [he]
      exact ⟨h.made, h.ordered⟩
  · refine standing_effect h hf ?_
    cases mv with
    | call c =>
      cases c with
      | editTicket t e =>
        intro ht
        cases e with
        | job j =>
          cases j with
          | none => rfl
          | some j => exact absurd ⟨t, j, rfl⟩ hr
        | priority p => exact absurd ht hl
        | created c => exact absurd ht hl
        | _ => rfl
      | _ => trivial
    | _ => trivial

/-- Where the client gives no stamps and leaves the order of a manager, the tickets have stamps of
their own, and those that wait for the manager stand in run order. -/
structure Lined (m : Nat) (w : World) : Prop where
  founded : w.Founded
  numbered : w.Numbered
  standing : w.Standing m

theorem Lined.start (m : Nat) (now : Int) : (start now).Lined m :=
  ⟨.start now, numbered_start now, nofun, Queue.ordered_empty _⟩

theorem Lined.effect (h : w.Lined m) (hl : leavesOrder m w mv) : (w.effect mv).Standing m :=
  standing_effect_renamed h.standing h.founded h.numbered hl

theorem Lined.step (h : w.Lined m) (hs : w.stampless mv) (hl : leavesOrder m w mv) :
    (w.step mv).Lined m where
  founded := h.founded.step mv
  numbered := (stamps_step h.founded hs).1.numbered h.numbered
  standing := standing_sequels (h.effect hl) (step_sequels h.founded mv)

theorem Lined.run (h : w.Lined m) (hs : w.Along stampless moves)
    (hl : w.Along (leavesOrder m) moves) : (w.run moves).Lined m :=
  (hs.and hl).run (fun _ _ h hu => h.step hu.1 hu.2) h

/-- A ticket keeps the stamp that it has, whatever happens. -/
theorem stamp_run (hf : w.Founded) {n : Nat} (h : (w.ticket t).stamp = some n)
    (moves : List Move) : ((w.run moves).ticket t).stamp = some n := by
  induction moves generalizing w with
  | nil => exact h
  | cons mv moves ih =>
    refine ih (hf.step mv) ?_
    rw [Ticket.stamp_of_place (place_sequels (step_sequels hf mv) t)]
    exact (retains_effect w mv).stamp t n h

theorem created_effect (ht : t < w.tickets.size) (h : leavesAge t mv) :
    ((w.effect mv).ticket t).created = (w.ticket t).created := by
  by_cases hx : some t = w.touched mv
  · cases mv with
    | call c =>
      rcases effect_call w c with ⟨-, he⟩ | he <;> rw [he]
      rcases Store.ticket_call hx with ⟨e, rfl, hk⟩ | hk <;> rw [hk]
      cases e with
      | created c => exact absurd rfl (h c)
      | job j => cases j <;> rfl
      | _ => rfl
    | _ => cases hx
  · exact Ticket.created_of_lasting ((keeps_effect w mv).ticket t ht hx)

theorem created_sequels (hs : Sequels a w w') (t : Nat) :
    (w'.ticket t).created = (w.ticket t).created :=
  congrArg (fun p => p.2.1) (place_sequels hs t)

/-- A ticket keeps its age unless the client sets it. -/
theorem created_step (hf : w.Founded) (ht : t < w.tickets.size) (h : leavesAge t mv) :
    ((w.step mv).ticket t).created = (w.ticket t).created :=
  (created_sequels (step_sequels hf mv) t).trans (created_effect ht h)

theorem created_run (hf : w.Founded) (ht : t < w.tickets.size)
    (h : ∀ mv ∈ moves, leavesAge t mv) :
    ((w.run moves).ticket t).created = (w.ticket t).created := by
  induction moves generalizing w with
  | nil => rfl
  | cons mv moves ih =>
    rw [run_cons, ih (hf.step mv) (Nat.lt_of_lt_of_le ht (tickets_step hf mv))
      fun mv' hm => h mv' (List.mem_cons_of_mem _ hm)]
    exact created_step hf ht (h mv List.mem_cons_self)

/-- Manager `m` makes ticket `t` for the job, which is added. -/
def Enlists (w : World) (m j t : Nat) : Prop :=
  t = w.tickets.size ∧ t < (w.step (.add m j)).tickets.size

/-- An added job gets a ticket of the present with the next stamp. -/
theorem Enlists.spec {j : Nat} (h : w.Enlists m j t) :
    ((w.step (.add m j)).ticket t).created = w.time m ∧
      ((w.step (.add m j)).ticket t).stamp = some w.nextStamp := by
  obtain ⟨rfl, hlt⟩ := h
  by_cases hc : (Call.manager m (.add (some j))).inScope w.toStore = true
  · obtain ⟨ls, es, hs, -⟩ := idle_add { w with calls := w.calls + 1 } w.calls m (some j)
    have hstep : (w.step (.add m j)).toStore = (w.manage m (.add (some j))).logging ls := by
      rw [← hs]
      exact congrArg World.toStore (if_pos hc)
    rw [hstep] at hlt ⊢
    have hm : w.manage m (.add (some j)) = (w.enlist m j).getD w.toStore := rfl
    rw [hm] at hlt ⊢
    cases he : w.enlist m j with
    | none =>
      rw [he] at hlt
      exact absurd hlt (Nat.lt_irrefl _)
    | some s =>
      change (s.ticket w.tickets.size).created = _ ∧ (s.ticket w.tickets.size).stamp = _
      exact ⟨Store.enlist_created he, (Store.stamps_enlist he).stamp_one⟩
  · rw [show w.step (.add m j) = w from if_neg hc] at hlt
    exact absurd hlt (Nat.lt_irrefl _)

theorem requeues_effect (h : w.Settles a r m t (.retried d)) :
    Store.Requeues m t w.toStore (w.effect (.reply a r)).toStore := by
  obtain ⟨f, v, k, o, hf, hv, hk, hd⟩ := h
  obtain ⟨n, since, tally, rfl⟩ := Caller.eq_of_work hk
  have hw : w.Rules f r { v with pending := w.pending } (.manager m t n since tally) o :=
    hv.withPending w.pending
  rw [effect_rules hf hw]
  obtain ⟨jobs, rfl, -⟩ := hv.replanned
  obtain ⟨made, created, stamp, order⟩ := Store.settle_requeues hd
  exact ⟨made, created, stamp, fun hs hn => order ⟨hs.made, hs.ordered⟩ ⟨hn.below, hn.single⟩⟩

/-- The new ticket of a retry stands behind those of its age. -/
theorem Lined.retried (h : w.Lined m) (hs : w.Settles a r m t (.retried d)) :
    (w.effect (.reply a r)).LastOfAge m w.tickets.size := by
  have hq := requeues_effect hs
  have hstand : (w.effect (.reply a r)).Standing m := h.effect trivial
  have horder := hq.order h.standing h.numbered
  have hn := horder.mem_iff.mpr List.mem_cons_self
  refine ⟨hn, fun u hu hne hp => ?_⟩
  obtain ⟨k, hk⟩ := Option.isSome_iff_exists.mp
    (h.standing.ordered.stamped u ((List.mem_cons.mp (horder.mem_iff.mp hu)).resolve_left hne))
  have hku := (retains_effect w (.reply a r)).stamp u k hk
  refine ⟨fun hle => hstand.ahead hu hn hp hku hq.stamp ?_, fun hlt => ?_⟩
  · exact (Int.lt_or_eq_of_le hle).imp_right fun he => ⟨he, h.numbered.below u k hk⟩
  · exact hstand.ahead hn hu hp.symm hq.stamp hku (.inl hlt)

/-- Of two jobs that are added and wait, the one that was added first stands ahead, if their
priorities are the same and the clock has not gone back. -/
theorem Lined.added {x y : World} {j k : Nat} {between after : List Move} (hx : x.Lined m)
    (hs : x.Along stampless (.add m j :: (between ++ .add m k :: after)))
    (hl : x.Along (leavesOrder m) (.add m j :: (between ++ .add m k :: after)))
    (hy : y = (x.step (.add m j)).run between) (hw : w = (y.step (.add m k)).run after)
    (ht : x.Enlists m j t) (hu : y.Enlists m k u) (htime : x.time m ≤ y.time m)
    (hta : ∀ mv ∈ between ++ .add m k :: after, leavesAge t mv)
    (hua : ∀ mv ∈ after, leavesAge u mv)
    (htq : t ∈ (w.manager m).queue.order) (huq : u ∈ (w.manager m).queue.order)
    (hp : (w.ticket t).priority = (w.ticket u).priority) :
    [t, u].Sublist (w.manager m).queue.order := by
  have hx' := hx.step hs.1 hl.1
  obtain ⟨hsb, hsa⟩ := along_append.mp hs.2
  obtain ⟨hlb, hla⟩ := along_append.mp hl.2
  have hly : y.Lined m := hy ▸ hx'.run hsb hlb
  rw [← hy] at hsa hla
  have hy' := hly.step hsa.1 hla.1
  have hlw : w.Lined m := hw ▸ hy'.run hsa.2 hla.2
  have hrun : w = (x.step (.add m j)).run (between ++ .add m k :: after) := by
    rw [run_append, ← hy, run_cons, ← hw]
  obtain ⟨htc, hts⟩ := ht.spec
  obtain ⟨huc, hus⟩ := hu.spec
  -- the first ticket has its stamp before the second is made
  have hlt : x.nextStamp < y.nextStamp :=
    hly.numbered.below t _ (hy ▸ stamp_run hx'.founded hts between)
  have hcreated : (w.ticket t).created = x.time m := by
    rw [hrun, created_run hx'.founded ht.2 hta, htc]
  have hcreated' : (w.ticket u).created = y.time m := by
    rw [hw, created_run hy'.founded hu.2 hua, huc]
  refine hlw.standing.ahead htq huq hp (hrun ▸ stamp_run hx'.founded hts _)
    (hw ▸ stamp_run hy'.founded hus _) ?_
  rw [hcreated, hcreated']
  exact (Int.lt_or_eq_of_le htime).imp_right fun he => ⟨he, hlt⟩

/-- The work of ticket `t` has ticket `u` after the moves. Every retry gives it a new one. -/
inductive Succeeds : World → List Move → Nat → Nat → Prop
  | still (w : World) (t : Nat) : Succeeds w [] t t
  | other (w : World) (mv : Move) (moves : List Move) (t u : Nat) (hmv : leavesAge t mv)
    (h : Succeeds (w.step mv) moves t u) : Succeeds w (mv :: moves) t u
  | retried (w : World) (a : Nat) (r : Reply) (m : Nat) (d : Int) (moves : List Move) (t u : Nat)
    (hs : w.Settles a r m t (.retried d))
    (h : Succeeds (w.step (.reply a r)) moves w.tickets.size u) :
    Succeeds w (.reply a r :: moves) t u

/-- A work keeps its age through all retries. -/
theorem Succeeds.created (h : w.Succeeds moves t u) (hf : w.Founded) (ht : t < w.tickets.size) :
    ((w.run moves).ticket u).created = (w.ticket t).created := by
  induction h with
  | still w t => rfl
  | other w mv moves t u hmv _ ih =>
    rw [run_cons, ih (hf.step mv) (Nat.lt_of_lt_of_le ht (tickets_step hf mv))]
    exact created_step hf ht hmv
  | retried w a r m d moves t u hs _ ih =>
    have hr := requeues_effect hs
    have hseq := step_sequels hf (.reply a r)
    rw [run_cons, ih (hf.step _) (Nat.lt_of_lt_of_le hr.made (size_sequels hseq)),
      created_sequels hseq, hr.created]

/-- Where the client gives no stamps, queues and managers give one, two, three and so on to the
tickets that they accept, in the order in which they come, and a stamp that is given stays. So jobs
of one priority that are added to a manager stand in the order in which they were added, unless its
clock goes back. A work keeps its age through all retries, and every retry of it stands behind those
of its age. -/
theorem arrival_order {now : Int} (hs : (start now).Along stampless moves)
    (hw : w = (start now).run moves) :
    ((arrivals (start now) moves).map (fun t => (w.ticket t).stamp) =
        (List.range' 1 (arrivals (start now) moves).length).map some ∧
      w.nextStamp = 1 + (arrivals (start now) moves).length ∧
      ∀ t, t ∈ arrivals (start now) moves ↔ (w.ticket t).stamp.isSome = true) ∧
    (∀ mv, w.stampless mv → (∀ t ∈ w.stampings mv, w.settlesIn mv t) ∧
      ((∀ t, ¬w.settlesIn mv t) → (w.step mv).nextStamp = w.nextStamp)) ∧
    (∀ t n later, (w.ticket t).stamp = some n → ((w.run later).ticket t).stamp = some n) ∧
    (∀ m, (start now).Along (leavesOrder m) moves →
      (∀ x y before between after j k t u,
        moves = before ++ .add m j :: (between ++ .add m k :: after) →
        x = (start now).run before → y = (x.step (.add m j)).run between →
        x.Enlists m j t → y.Enlists m k u → x.time m ≤ y.time m →
        (∀ mv ∈ between ++ .add m k :: after, leavesAge t mv) → (∀ mv ∈ after, leavesAge u mv) →
        t ∈ (w.manager m).queue.order → u ∈ (w.manager m).queue.order →
        (w.ticket t).priority = (w.ticket u).priority →
        [t, u].Sublist (w.manager m).queue.order) ∧
      ∀ a r t d, w.Settles a r m t (.retried d) →
        (w.effect (.reply a r)).LastOfAge m w.tickets.size) ∧
    ∀ t u later, t < w.tickets.size → w.Succeeds later t u →
      ((w.run later).ticket u).created = (w.ticket t).created := by
  have hf : w.Founded := hw ▸ Founded.run (.start now) moves
  have hst : Store.Stamps (arrivals (start now) moves) (start now).toStore w.toStore :=
    hw ▸ stamps_run (.start now) hs
  refine ⟨⟨hst.given, hst.next, fun t => ?_⟩,
    fun mv h => ⟨(stamps_step hf h).2, nextStamp_step hf h⟩,
    fun t n later h => stamp_run hf h later, fun m hl => ⟨?_, ?_⟩,
    fun t u later ht h => h.created hf ht⟩
  · rw [hst.mem_iff]
    exact Bool.and_eq_true_iff.trans (and_iff_right rfl)
  · rintro x y before between after j k t u rfl hx hy ht hu htime hta hua htq huq hp
    obtain ⟨hsb, hsa⟩ := along_append.mp hs
    obtain ⟨hlb, hla⟩ := along_append.mp hl
    rw [← hx] at hsa hla
    rw [run_append, ← hx, run_cons, run_append, ← hy, run_cons] at hw
    have hlx : x.Lined m := hx ▸ (Lined.start m now).run hsb hlb
    exact hlx.added hsa hla hy hw ht hu htime hta hua htq huq hp
  · intro a r t d h
    exact (hw ▸ (Lined.start m now).run hs hl : w.Lined m).retried h

/-- The second job stands behind the first, and the retry of the first behind the second. -/
theorem arrival_order_siblings :
    [0, 1].Sublist (((start 0).run (siblings.take 5)).manager 0).queue.order ∧
      arrivals (start 0) (siblings.take 5) = [0, 1] ∧
      [1, 2].Sublist ((((start 0).run siblings).effect
        (.reply 5 (.plan ⟨true, some 5, none, true⟩))).manager 0).queue.order := by
  have added : (start 0).Along stampless (siblings.take 5) := by
    simp only [siblings, List.take, Along, stampless, Store.stampless, and_self]
  have failed : (start 0).Along stampless siblings := by
    simp only [siblings, Along, stampless, Store.stampless, and_self]
  have hf : ((start 0).run siblings).pending.find? 5 =
      some (.plan 0 0 1 "late" (.manager 0 0 1 0 none)) := by decide +kernel
  refine ⟨?_, by decide +kernel, ?_⟩
  · refine ((arrival_order added rfl).2.2.2.1 0 ?_).1 _ _ (siblings.take 3) [] [] 0 1 0 1
      rfl rfl rfl ?_ ?_ ?_ ?_ (fun _ h => by cases h) ?_ ?_ ?_
    · simp only [siblings, List.take, Along, leavesOrder, and_self]
    · exact ⟨by decide +kernel, by decide +kernel⟩
    · exact ⟨by decide +kernel, by decide +kernel⟩
    · decide +kernel
    · intro mv hm c he
      rw [List.nil_append, List.mem_singleton] at hm
      rw [hm] at he
      cases he
    · decide +kernel
    · decide +kernel
    · decide +kernel
  · have hlast := ((arrival_order failed rfl).2.2.2.1 0 (by
      simp only [siblings, Along, leavesOrder, and_self])).2 5
        (.plan ⟨true, some 5, none, true⟩) 0 5 ⟨_, _, _, _, hf, .planned 0 0 1 "late" _
          ⟨true, some 5, none, true⟩ _ (.inl rfl), rfl, by decide +kernel⟩
    exact (hlast.2 1 (by decide +kernel) (by decide +kernel) (by decide +kernel)).1
      (by decide +kernel)

end World

end Backlog
