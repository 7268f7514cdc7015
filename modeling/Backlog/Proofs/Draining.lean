import Backlog.Proofs.Endings
import Backlog.Proofs.Groups
import Backlog.Proofs.Standing

/-!
# Running until idle

A manager that runs nothing else, and whose attempts all succeed, attempts the queued tickets
that are due, in the order of the queue and whatever their groups. It leaves the others alone.
-/

namespace Backlog

/-- The attempt that the event begins: for which operation, of which job and ticket, and which
one it is. -/
def Event.attempt? : Event → Option (Nat × Nat × Nat × Int)
  | .entered a j t n => some (a, j, t, n)
  | _ => none

/-- Lines that are written begin no attempt. -/
theorem Event.attempts_of_isNote {a : Nat} {es : List Event} (h : ∀ e ∈ es, e.isNote a = true) :
    es.reverse.filterMap Event.attempt? = [] := by
  apply List.filterMap_eq_nil_iff.mpr
  intro e he
  have hn := h e (List.mem_reverse.mp he)
  cases e with
  | entered => cases hn
  | _ => rfl

namespace Store

variable {s s' : Store} {m t : Nat}

/-- The ticket waits neither for its deadline nor for the network. -/
def due (s : Store) (m t : Nat) : Bool :=
  !(s.ticket t).early (s.time m) && !(s.ticket t).offline (s.manager m).network

/-- With no group busy, the first ticket that is due may run. -/
theorem ready?_idle (hb : ∀ g, (s.manager m).busy.contains g = false) :
    (s.manager m).ready? s.ticket (s.time m) =
      ((s.manager m).queue.order.filter (s.due m)).head? := by
  rw [List.head?_filter, Manager.ready?, Queue.ready?]
  congr 1
  funext t
  have hf : (s.ticket t).blocked (s.manager m).busy = false := by
    unfold Ticket.blocked
    cases (s.ticket t).group with
    | none => rfl
    | some g => exact hb g
  rw [Ticket.runnable, hf, due, Bool.not_false, Bool.and_true]

theorem claim_none (h : (s.manager m).ready? s.ticket (s.time m) = none) : s.claim m = none :=
  Option.map_eq_none_iff.mp ((ready?_eq_claim s m).symm.trans h)

/-- To claim a ticket takes no time. -/
theorem claim_ready (h : (s.manager m).ready? s.ticket (s.time m) = some t) :
    ∃ s', s.claim m = some (s', t) ∧ s'.now = s.now ∧ s'.uptime = s.uptime := by
  simp only [claim]
  rw [h]
  exact ⟨_, rfl, rfl, rfl⟩

/-- A success is noted on the ticket. -/
theorem ticket_success (s : Store) (m t u : Nat) : (s.settle m t .success).1.ticket u =
    if u = t then { s.ticket t with successful := true } else s.ticket u :=
  ticket_onTicket ..

end Store

namespace World

variable {w w' v : World} {a m t : Nat} {ts : List Nat}

/-- The reply to an attempt of the ticket that lets it succeed. -/
def success (w : World) (t : Nat) : Reply :=
  if (w.job (w.ticket t).job).custom then .outcome .success else .succeeded

/-- Operation `a` goes on, and manager `m` has no attempt in progress. -/
structure Rests (m a : Nat) (w : World) : Prop where
  sound : w.Sound m
  serial : w.Serial m
  active : w.Active a
  idle : ∀ b t, ¬w.Works b m t

theorem Rests.free (h : w.Rests m a) (g : String) : (w.manager m).busy.contains g = false := by
  apply Bool.eq_false_iff.mpr
  intro hg
  obtain ⟨b, t, hb, -⟩ := (h.serial.served.busy g).mp hg
  exact h.idle b t hb

/-- What an attempt of ticket `t` that manager `m` made for operation `a` leaves of `w` if it
succeeds. -/
structure Attempted (m a t : Nat) (w w' : World) : Prop where
  rests : w'.Rests m a
  jobs : w'.jobs = w.jobs
  time : w'.time m = w.time m
  clock : (w'.manager m).config.clock = (w.manager m).config.clock
  network : (w'.manager m).network = (w.manager m).network
  order : (w'.manager m).queue.order = (w.manager m).queue.order.erase t
  finished : w'.Over m (w.ticket t).id .succeeded
  successful : (w'.ticket t).successful = true
  agrees : ∀ id, id ≠ (w.ticket t).id → (w.manager m).Agrees (w'.manager m) id
  others : ∀ u, u ≠ t → w'.ticket u = w.ticket u
  answers : w'.answers a = w.answers a
  history : ∃ es, w'.history = es ++ w.history ∧
    es.reverse.filterMap Event.attempt? = [(a, (w.ticket t).job, t, (w.ticket t).runs + 1)]

/-- What is written does not matter to what an attempt leaves. -/
theorem Attempted.wrote (h : w.Attempted m a t v) (hw : Wrote a v w')
    (ha : w'.answers a = v.answers a) : w.Attempted m a t w' := by
  obtain ⟨ls, es, he, rfl⟩ := hw
  have hs : Sequel a v _ := .wrote v ls es he
  refine {
    rests := ⟨h.rests.sound.sequel hs, h.rests.serial.sequel hs, h.rests.active, h.rests.idle⟩
    jobs := h.jobs
    time := h.time
    clock := h.clock
    network := h.network
    order := h.order
    finished := ⟨h.finished.free, h.finished.finished⟩
    successful := h.successful
    agrees := h.agrees
    others := h.others
    answers := ha.trans h.answers
    history := ?_ }
  obtain ⟨es', hh, hatt⟩ := h.history
  refine ⟨es ++ es', ?_, ?_⟩
  · rw [List.append_assoc, ← hh]
  · rw [List.reverse_append, List.filterMap_append, Event.attempts_of_isNote he, List.append_nil,
      hatt]

/-- The manager writes about the ticket that it claims and begins an attempt of it. -/
theorem next_claimed {s : Store} (hc : w.claim m = some (s, t)) (a : Nat) (tally : Option Nat) :
    ∃ v, Wrote a { w with toStore := s } v ∧ v.answers a = w.answers a ∧
      w.next a m tally = v.enter a t (s.ticket t).runs
        (.manager m t (s.ticket t).runs s.uptime tally) := by
  simp only [next]
  rw [hc]
  exact ⟨_, wrote_note .., (answers_note ..).1, rfl⟩

/-- What the manager writes about the end of an attempt answers nobody. -/
theorem answers_report (w : World) (m t : Nat) (n : Int) (since : Nat) (o : Outcome)
    (e : Store.Ending) : (w.report m t n since o e).answers a = w.answers a := by
  simp only [report]
  split <;> exact (answers_note ..).1

/-- A success is settled, written about, and the manager goes on. -/
theorem step_success {f : Frame} {k : Caller} {n : Int} {since i : Nat}
    (hk : k = .manager m t n since (some i)) (hf : w.pending.find? a = some f)
    (hs : f = .attempt k ∧ (w.job (w.ticket t).job).custom = true ∨
      (∃ j n, f = .body j t n k) ∧ (w.job (w.ticket t).job).custom = false) {u : World}
    (hu : u = { w with
      toStore := (w.settle m t .success).1
      pending := w.pending.erase a }) :
    w.effect (.reply a (w.success t)) = u ∧
      w.step (.reply a (w.success t)) =
        (u.report m t n since .success (.ended .succeeded false)).next a m (some (i + 1)) := by
  subst hk hu
  rcases hs with ⟨rfl, hc⟩ | ⟨⟨j, n, rfl⟩, hc⟩
  · have hr : w.success t = .outcome .success := if_pos hc
    rw [hr, effect_taken hf rfl, step_taken hf rfl]
    exact ⟨rfl, rfl⟩
  · have hr : w.success t = .succeeded := if_neg (by simp [hc])
    rw [hr, effect_taken hf rfl, step_taken hf rfl]
    exact ⟨rfl, rfl⟩

/-- An attempt that operation `a` waits in ends, and with it the work of its ticket. -/
theorem settled_success (hw : w.Sound m) (hwork : w.Works a m t)
    (hv : v.toStore = (w.settle m t .success).1) :
    (v.manager m).queue = (w.manager m).queue ∧
      (v.manager m).config = (w.manager m).config ∧
      (v.manager m).network = (w.manager m).network ∧
      v.Over m (w.ticket t).id .succeeded ∧
      ∀ id, id ≠ (w.ticket t).id → (w.manager m).Agrees (v.manager m) id := by
  have made := hw.founded.works a m t hwork
  have hq := hw.custody.apart _ t (hw.tended.runs a t hwork)
  rcases Store.settle_spec (m := m) made .success with ⟨status, tell, hs, -, he⟩ | ⟨hs, -⟩ |
    ⟨-, -, hs, -⟩
  · obtain rfl : Status.succeeded = status := Option.some.inj hs
    rw [← hv] at he
    obtain ⟨hfree, hfin⟩ := he.ended hq
    have hm := he.manager
    exact ⟨by rw [hm]; rfl, by rw [hm]; rfl, by rw [hm]; rfl, ⟨hfree, hfin⟩, fun id => he.agrees⟩
  · cases hs
  · rcases hs with hs | ⟨hs, -⟩ <;> cases hs

/-- Manager `m` has begun an attempt of ticket `t` for operation `a`, after `i` others, and has
done nothing else since `w`. -/
structure Underway (m a t i : Nat) (w x : World) : Prop where
  sound : x.Sound m
  serial : x.Serial m
  begins : Store.Begins m t w.toStore x.toStore
  time : x.time m = w.time m
  calls : x.calls = w.calls
  frame : ∃ f k n since, k = .manager m t n since (some i) ∧ x.pending = w.pending.insert a f ∧
    (f = .attempt k ∧ (x.job (x.ticket t).job).custom = true ∨
      (∃ j n, f = .body j t n k) ∧ (x.job (x.ticket t).job).custom = false)
  answers : x.answers a = w.answers a
  history : ∃ es, x.history = es ++ w.history ∧
    es.reverse.filterMap Event.attempt? = [(a, (w.ticket t).job, t, (w.ticket t).runs + 1)]

/-- The first ticket that is due is attempted. -/
theorem Rests.begin (h : w.Rests m a)
    (hd : (w.manager m).queue.order.filter (w.due m) = t :: ts) (i d : Nat)
    (hclock : (w.manager m).config.clock = .given ∨ d = 0) :
    w.Underway m a t i ((w.next a m (some i)).step (.elapse d)) := by
  obtain ⟨s, hc, hnow, hup⟩ := Store.claim_ready (s := w.toStore) (m := m) (t := t)
    (by rw [Store.ready?_idle h.free, hd]; rfl)
  have hb := Store.claim_begins hc
  obtain ⟨_, ⟨ls, es, he, rfl⟩, ha, hn⟩ := next_claimed hc a (some i)
  obtain ⟨f, q, hf, hq⟩ := enter_eq { w with toStore := s.logging ls, history := es ++ w.history }
    a t (s.ticket t).runs (.manager m t (s.ticket t).runs s.uptime (some i))
  have hn := hn.trans hq
  have hs := sequels_next h.active m (some i)
  refine {
    sound := (h.sound.sequels hs).step trivial
    serial := (h.serial.sequels hs).step _
    begins := ?_
    time := ?_
    calls := ?_
    frame := ⟨f, _, (s.ticket t).runs, s.uptime, rfl, ?_, ?_⟩
    answers := ?_
    history := ⟨[.asked a q, .entered a (s.ticket t).job t (s.ticket t).runs] ++ es, ?_, ?_⟩ }
  · rw [hn]
    exact ⟨hb.queued, hb.runnable, hb.manager, hb.other, hb.jobs, hb.size, hb.ticket, hb.others⟩
  · have hm : (s.manager m).config = (w.manager m).config := by
      obtain ⟨counts, -, hm⟩ := hb.manager
      rw [hm]
      rfl
    rw [hn]
    simp only [step, Store.time, Store.manager] at hm hclock ⊢
    dsimp only [ask, emit, Store.logging]
    rw [hm]
    rcases hclock with hg | rfl
    · rw [hg]
      exact hnow
    · cases (w.managers.get m).config.clock with
      | given => exact hnow
      | steady => exact congrArg Int.ofNat hup
  · rw [hn]
    rfl
  · rw [hn]
    rfl
  · rw [hn]
    exact hf.imp_right fun hf => ⟨⟨_, _, hf.1⟩, hf.2⟩
  · rw [hn]
    exact ha
  · rw [hn]
    rfl
  · rw [List.reverse_append, List.filterMap_append, Event.attempts_of_isNote he, hb.ticket]
    rfl

/-- The attempt succeeds, and the manager goes on. -/
theorem Underway.success {x : World} {i : Nat} (h : w.Underway m a t i x) (hw : w.Rests m a) :
    ∃ w', w.Attempted m a t w' ∧
      x.step (.reply a (w.success t)) = w'.next a m (some (i + 1)) := by
  obtain ⟨f, k, n, since, hk, hp, hf⟩ := h.frame
  have hfx : x.pending.find? a = some f := by rw [hp, Table.find?_insert_same]
  have hwork : x.Works a m t := by
    rw [works_of_frame hfx]
    rcases hf with ⟨rfl, -⟩ | ⟨⟨j, n, rfl⟩, -⟩ <;> rw [hk] <;> rfl
  have hjob : (x.ticket t).job = (w.ticket t).job := by rw [h.begins.ticket]
  have hid : (x.ticket t).id = (w.ticket t).id := by rw [h.begins.ticket]
  have hsucc : x.success t = w.success t := by
    have hj : x.job = w.job := by
      funext j
      rw [Store.job, h.begins.jobs]
      rfl
    simp only [World.success]
    rw [hjob, hj]
  obtain ⟨y, hy⟩ : ∃ y : World, y = { x with
      toStore := (x.settle m t .success).1
      pending := x.pending.erase a } := ⟨_, rfl⟩
  obtain ⟨heff, hstep⟩ := step_success hk hfx hf hy
  have hys : y.toStore = (x.settle m t .success).1 := by rw [hy]
  obtain ⟨hq, hcfg, hnet, hover, hag⟩ := settled_success h.sound hwork hys
  have hticket (u : Nat) : y.ticket u =
      if u = t then { x.ticket t with successful := true } else x.ticket u := by
    rw [hys, Store.ticket_success]
  have hsound : y.Sound m := heff ▸ h.sound.effect trivial
  have hserial : y.Serial m := heff ▸ h.serial.effect _
  obtain ⟨counts, -, hm⟩ := h.begins.manager
  have hbegun (id : String) (hne : id ≠ (w.ticket t).id) :
      (w.manager m).Agrees (x.manager m) id := h.begins.agrees (by rwa [hid])
  suffices w.Attempted m a t y from
    ⟨_, this.wrote (wrote_report ..) (answers_report ..), hsucc ▸ hstep⟩
  refine {
    rests := ⟨hsound, hserial, ⟨?_, ?_⟩, fun b u hb => ?_⟩
    jobs := ?_
    time := ?_
    clock := ?_
    network := ?_
    order := ?_
    finished := hid ▸ hover
    successful := ?_
    agrees := fun id hne => (hbegun id hne).trans (hag id (by rwa [hid]))
    others := fun u hu => ?_
    answers := ?_
    history := ?_ }
  · rw [hy]
    exact h.calls.symm ▸ hw.active.1
  · rw [hy]
    exact Table.find?_erase_same ..
  · rw [works_erase (w := x) (by rw [hy])] at hb
    obtain ⟨hne, hb⟩ := hb
    rw [Works, hp, Table.find?_insert, if_neg hne] at hb
    exact hw.idle b u hb
  · rw [hy]
    exact h.begins.jobs
  · refine .trans ?_ h.time
    rw [Store.time, hcfg, hy]
    rfl
  · rw [hcfg, hm]
    rfl
  · rw [hnet, hm]
    rfl
  · rw [hq, hm]
    rfl
  · rw [hticket, if_pos rfl]
  · rw [hticket, if_neg hu, h.begins.others u hu]
  · rw [← h.answers, hy]
    rfl
  · rw [hy]
    exact h.history

/-- An attempt leaves the other tickets as due as they were. -/
theorem Attempted.due_rest (h : w.Attempted m a t w') (hn : (w.manager m).queue.order.Nodup) :
    ∀ u ∈ (w'.manager m).queue.order, u ≠ t ∧ w'.due m u = w.due m u := by
  intro u hu
  rw [h.order, hn.mem_erase_iff] at hu
  refine ⟨hu.1, ?_⟩
  rw [Store.due, Store.due, h.others u hu.1, h.time, h.network]

theorem Attempted.filter (h : w.Attempted m a t w') (hn : (w.manager m).queue.order.Nodup)
    (hd : (w.manager m).queue.order.filter (w.due m) = t :: ts) :
    (w'.manager m).queue.order.filter (w'.due m) = ts ∧
      (w'.manager m).queue.order.filter (fun u => !w'.due m u) =
        (w.manager m).queue.order.filter fun u => !w.due m u := by
  have hdue := h.due_rest hn
  have ht : w.due m t = true := (List.mem_filter.mp (hd.symm ▸ List.mem_cons_self)).2
  constructor
  · rw [List.filter_congr fun u hu => (hdue u hu).2, h.order, ← List.erase_filter, hd,
      List.erase_cons_head]
  · rw [List.filter_congr (q := fun u => !w.due m u) fun u hu => by rw [(hdue u hu).2], h.order,
      ← List.erase_filter]
    apply List.erase_of_not_mem
    intro hm
    have := (List.mem_filter.mp hm).2
    rw [ht] at this
    cases this

/-- The moves by which the attempts of the tickets succeed for operation `a`, each after some
time. -/
def triumph (w : World) (a : Nat) (lasts : Nat → Nat) (ts : List Nat) : List Move :=
  ts.flatMap fun t => [.elapse (lasts t), .reply a (w.success t)]

/-- What the attempts of the tickets leave of `w` that manager `m` made for operation `a` after
`i` others, if all succeed. -/
structure Drained (m a i : Nat) (ts : List Nat) (w v : World) : Prop where
  answers : v.answers a = .returned a (.count (i + ts.length)) :: w.answers a
  history : ∃ es, v.history = es ++ w.history ∧ es.reverse.filterMap Event.attempt? =
    ts.map fun t => (a, (w.ticket t).job, t, (w.ticket t).runs + 1)
  order : (v.manager m).queue.order = (w.manager m).queue.order.filter fun t => !w.due m t
  finished : ∀ t ∈ ts, v.Over m (w.ticket t).id .succeeded ∧ (v.ticket t).successful = true
  others : ∀ t, t ∉ ts → v.ticket t = w.ticket t
  agrees : ∀ id, (∀ t ∈ ts, (w.ticket t).id ≠ id) → (w.manager m).Agrees (v.manager m) id

section Attempted

variable (h : w.Attempted m a t w') (hq : (w.manager m).queue.Indexed w.ticket)
  (hd : (w.manager m).queue.order.filter (w.due m) = t :: ts)
include h hq hd

/-- The tickets that are due after the first are still queued. -/
theorem Attempted.rest {u : Nat} (hu : u ∈ ts) : u ∈ (w'.manager m).queue.order ∧ u ≠ t := by
  have hu := (List.mem_filter.mp ((h.filter hq.nodup hd).1.symm ▸ hu)).1
  exact ⟨hu, (h.due_rest hq.nodup u hu).1⟩

/-- The jobs of the tickets that are due after the first did not change. -/
theorem Attempted.triumph (lasts : Nat → Nat) : w'.triumph a lasts ts = w.triumph a lasts ts := by
  have hj : w'.job = w.job := congrArg Registry.get h.jobs
  apply List.flatMap_congr
  intro u hu
  rw [success, success, h.others u (h.rest hq hd hu).2, hj]

/-- What the first attempt leaves, and what the others leave of that. -/
theorem Attempted.drained {i : Nat} (hv : w'.Drained m a (i + 1) ts v) :
    w.Drained m a i (t :: ts) v := by
  have hrest {u : Nat} (hu : u ∈ ts) := h.rest hq hd hu
  have ht : t ∈ (w.manager m).queue.order :=
    (List.mem_filter.mp (hd.symm ▸ List.mem_cons_self : t ∈ _)).1
  have hid (u : Nat) (hu : u ∈ ts) : (w'.ticket u).id ≠ (w.ticket t).id := by
    obtain ⟨hu, hne⟩ := hrest hu
    rw [h.others u hne]
    rw [h.order] at hu
    exact fun he => hne (hq.unique (List.mem_of_mem_erase hu) ht he)
  refine ⟨?_, ?_, ?_, ?_, ?_, ?_⟩
  · rw [hv.answers, h.answers, List.length_cons, Nat.add_assoc, Nat.add_comm 1]
  · obtain ⟨es, hh, ha⟩ := h.history
    obtain ⟨es', hh', ha'⟩ := hv.history
    refine ⟨es' ++ es, by rw [hh', hh, List.append_assoc], ?_⟩
    rw [List.reverse_append, List.filterMap_append, ha, ha', List.map_cons, List.singleton_append]
    congr 1
    apply List.map_congr_left
    intro u hu
    rw [h.others u (hrest hu).2]
  · rw [hv.order, (h.filter hq.nodup hd).2]
  · intro u hu
    rcases List.mem_cons.mp hu with rfl | hu
    · have hnot : u ∉ ts := fun hu => (hrest hu).2 rfl
      refine ⟨h.finished.agrees (hv.agrees _ hid), ?_⟩
      rw [hv.others u hnot]
      exact h.successful
    · rw [← h.others u (hrest hu).2]
      exact hv.finished u hu
  · intro u hu
    rw [List.mem_cons, not_or] at hu
    rw [hv.others u hu.2, h.others u hu.1]
  · intro id hne
    apply (h.agrees id (Ne.symm (hne t List.mem_cons_self))).trans
    apply hv.agrees
    intro u hu
    rw [h.others u (hrest hu).2]
    exact hne u (List.mem_cons_of_mem t hu)

end Attempted

/-- A manager that runs until idle attempts the tickets that are due, one after the other. -/
theorem Rests.drain (h : w.Rests m a) (lasts : Nat → Nat)
    (hd : (w.manager m).queue.order.filter (w.due m) = ts) (i : Nat)
    (hclock : (w.manager m).config.clock = .given ∨ ∀ t, lasts t = 0) :
    w.Drained m a i ts ((w.next a m (some i)).run (w.triumph a lasts ts)) := by
  induction ts generalizing w i with
  | nil =>
    have hc : w.claim m = none := Store.claim_none (by rw [Store.ready?_idle h.free, hd]; rfl)
    have hn : w.next a m (some i) = w.give a (.count i) := by
      simp only [next]
      rw [hc]
      rfl
    change w.Drained m a i [] (w.next a m (some i))
    rw [hn]
    refine ⟨answers_give .., ⟨[.returned a (.count i)], rfl, rfl⟩, ?_, nofun, fun _ _ => rfl,
      fun _ _ => .refl ..⟩
    apply (List.filter_eq_self.mpr _).symm
    intro t ht
    have := List.filter_eq_nil_iff.mp hd t ht
    simpa using this
  | cons t ts ih =>
    have hq := h.sound.custody.queue
    obtain ⟨w', hw', hstep⟩ :=
      (h.begin hd i (lasts t) (hclock.imp_right fun hl => hl t)).success h
    have hv := ih hw'.rests (hw'.filter hq.nodup hd).1 (i + 1) (hw'.clock.symm ▸ hclock)
    rw [hw'.triumph hq hd, ← hstep] at hv
    exact hw'.drained hq hd hv

/-- A manager that is called to run until idle while it has no attempt in progress attempts the
queued tickets that are due, each once and in the order of the queue, if all attempts succeed
and its clock stands still. It returns their number. The other tickets stay as they are, where
they are. -/
theorem due_run_in_order (h : ReachableBy (lawful m) w) (hm : m < w.managers.size)
    (hidle : ∀ a t, ¬w.Works a m t) (lasts : Nat → Nat)
    (hclock : (w.manager m).config.clock = .given ∨ ∀ t, lasts t = 0)
    (hts : ts = (w.manager m).queue.order.filter (w.due m))
    (hv : v = (w.step (.call (.manager m .runUntilIdle))).run (w.triumph w.calls lasts ts)) :
    (w.news v).filterMap Event.attempt? =
      ts.map (fun t => (w.calls, (w.ticket t).job, t, (w.ticket t).runs + 1)) ∧
    v.answers w.calls = [.returned w.calls (.count ts.length)] ∧
    (∀ t ∈ ts, (∀ now, (v.manager m).status v.ticket now (w.ticket t).id = .succeeded) ∧
      (v.ticket t).successful = true) ∧
    (v.manager m).queue.order = (w.manager m).queue.order.filter (fun t => !w.due m t) ∧
    (∀ t ∈ (v.manager m).queue.order, v.ticket t = w.ticket t ∧
      (v.manager m).queue.find? (w.ticket t).id = some t) ∧
    (ReachableBy (fun w mv => unmoved (w.manager m).queue.order mv) w →
      (w.manager m).queue.order.Pairwise fun t u => (w.ticket t).Precedes (w.ticket u)) := by
  have hs := h.sound
  obtain ⟨u, hu⟩ : ∃ u : World, u = { w with calls := w.calls + 1 } := ⟨_, rfl⟩
  have hscope : (Call.manager m .runUntilIdle).inScope w.toStore = true := by
    simp [Call.inScope, hm]
  have hstep : w.step (.call (.manager m .runUntilIdle)) = u.next w.calls m (some 0) := by
    rw [hu]
    exact if_pos hscope
  have heff : w.effect (.call (.manager m .runUntilIdle)) = u := by
    rw [hu]
    exact if_pos hscope
  have hrests : u.Rests m w.calls := by
    refine ⟨heff ▸ hs.effect trivial, heff ▸ (Reachable.serial ?_ m).effect _, ?_, ?_⟩
    · obtain ⟨now, moves, -, hw⟩ := h
      exact ⟨now, moves, hw⟩
    · rw [hu]
      refine ⟨Nat.lt_succ_self _, Option.eq_none_iff_forall_ne_some.mpr fun f hf => ?_⟩
      exact Nat.lt_irrefl _ (hs.founded.numbered _ f hf)
    · rw [hu]
      exact hidle
  have hd : (u.manager m).queue.order.filter (u.due m) = ts := by rw [hts, hu]
  have hdrain := hrests.drain lasts hd 0 (by rw [hu]; exact hclock)
  have hmoves : u.triumph w.calls lasts ts = w.triumph w.calls lasts ts := by rw [hu]; rfl
  rw [hmoves, ← hstep, ← hv] at hdrain
  have hq := hs.custody.queue
  have hold : ∀ t, u.ticket t = w.ticket t := by rw [hu]; exact fun _ => rfl
  have horder : (v.manager m).queue.order =
      (w.manager m).queue.order.filter fun t => !w.due m t := by rw [hdrain.order, hu]
  -- the tickets left are none of those attempted, and neither are their ids
  have hleft (t : Nat) (ht : t ∈ (v.manager m).queue.order) :
      t ∈ (w.manager m).queue.order ∧ ∀ r ∈ ts, (w.ticket r).id ≠ (w.ticket t).id := by
    rw [horder] at ht
    obtain ⟨ht, hdue⟩ := List.mem_filter.mp ht
    refine ⟨ht, fun r hr he => ?_⟩
    rw [hts] at hr
    obtain ⟨hr, hdr⟩ := List.mem_filter.mp hr
    rw [hq.unique hr ht he] at hdr
    simp [hdr] at hdue
  refine ⟨?_, ?_, ?_, horder, ?_, ?_⟩
  · obtain ⟨es, hh, he⟩ := hdrain.history
    have hh : v.history = es ++ w.history := by rw [hh, hu]
    rw [news_eq hh, he]
    exact List.map_congr_left fun t _ => by rw [hold]
  · have hnone : u.answers w.calls = [] := by
      rw [hu]
      exact answers_of_calls_le (w := w) h (Nat.le_refl w.calls)
    rw [hdrain.answers, hnone, Nat.zero_add]
  · intro t ht
    obtain ⟨hover, hsuccessful⟩ := hdrain.finished t ht
    refine ⟨?_, hsuccessful⟩
    intro now
    rw [← hold]
    exact hover.status_eq ..
  · intro t ht
    constructor
    · rw [← hold]
      exact hdrain.others t fun hm => (hleft t ht).2 t hm rfl
    rw [(hdrain.agrees (w.ticket t).id fun r hr => hold r ▸ (hleft t ht).2 r hr).queue, hu]
    exact (hq.find _ t).mpr ⟨(hleft t ht).1, rfl⟩
  · intro hr
    exact hr.standing.ordered.sorted

/-- Five jobs of two groups are queued. One waits for its deadline and one for the network. -/
def mixed : List Move :=
  [.call (.makeJob { id := "a", priority := 1, group := some "g" }),
    .call (.makeJob { id := "b", priority := 2, needsNetwork := true }),
    .call (.makeJob { id := "c", priority := 3, group := some "g" }),
    .call (.makeJob { id := "d", priority := 4, delay := 10 }),
    .call (.makeJob { id := "e", priority := 1, group := some "h", custom := true }),
    .call (.makeManager { network := false }), .call (.manager 0 (.add (some 0))),
    .call (.manager 0 (.add (some 1))), .call (.manager 0 (.add (some 2))),
    .call (.manager 0 (.add (some 3))), .call (.manager 0 (.add (some 4)))]

theorem due_run_in_order_mixed :
    (((start 0).run mixed).manager 0).queue.order = [3, 2, 1, 0, 4] ∧
      ∃ v, v = (((start 0).run mixed).step (.call (.manager 0 .runUntilIdle))).run
          (((start 0).run mixed).triumph 11 (fun _ => 0) [2, 0, 4]) ∧
        (((start 0).run mixed).news v).filterMap Event.attempt? =
          [(11, 2, 2, 1), (11, 0, 0, 1), (11, 4, 4, 1)] ∧
        v.answers 11 = [.returned 11 (.count 3)] ∧
        (v.manager 0).status v.ticket 0 "a" = .succeeded ∧
        (v.manager 0).queue.order = [3, 1] := by
  have h : ReachableBy (lawful 0) ((start 0).run mixed) :=
    ⟨0, mixed, by simp only [mixed, Along, lawful, and_self], rfl⟩
  have ho : (((start 0).run mixed).manager 0).queue.order = [3, 2, 1, 0, 4] := by decide +kernel
  have hidle : ∀ a t, ¬((start 0).run mixed).Works a 0 t := by
    intro a t hw
    have hr := h.sound.tended.runs a t hw
    have he : (((start 0).run mixed).manager 0).running = .empty := by rfl
    rw [he] at hr
    cases hr
  have hts : [2, 0, 4] = (((start 0).run mixed).manager 0).queue.order.filter
      (((start 0).run mixed).due 0) := by decide +kernel
  obtain ⟨hn, ha, hs, hq, -⟩ := due_run_in_order h (by decide) hidle (fun _ => 0)
    (.inr fun _ => rfl) hts rfl
  refine ⟨ho, _, rfl, hn, ha, (hs 0 (by decide)).1 0, hq.trans ?_⟩
  decide +kernel

end World

end Backlog
