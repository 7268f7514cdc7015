import Backlog.Proofs.Balance
import Backlog.Proofs.Hooks
import Backlog.Proofs.Idling
import Mathlib.Data.List.Perm.Subperm

/-!
# Stopped managers

A manager that was stopped only lets go of tickets, whatever is done with it. It takes nothing
in, so a job that wants another attempt fails instead, and each ticket that is still queued is
tried once at most.
-/

namespace Backlog

namespace Store

variable {s s' s'' : Store} {m t : Nat} {id : String}

/-- From one store to the other a stopped manager takes nothing in: what it queues it has
queued, and what it holds under an id it has held. -/
structure Wanes (m : Nat) (s s' : Store) : Prop where
  accepting : (s'.manager m).accepting = false
  order : (s'.manager m).queue.order.Sublist (s.manager m).queue.order
  held : ∀ id t, (s'.manager m).held? id = some t → (s.manager m).held? id = some t

theorem wanes_of_eq (h : s'.manager m = s.manager m) (ha : (s.manager m).accepting = false) :
    Wanes m s s' where
  accepting := h ▸ ha
  order := h ▸ .refl _
  held _ _ := by rw [h]; exact id

theorem Wanes.trans (h : Wanes m s s') (h' : Wanes m s' s'') : Wanes m s s'' where
  accepting := h'.accepting
  order := h'.order.trans h.order
  held id t ht := h.held id t (h'.held id t ht)

theorem withdraw_wanes {v : Withdrawal} (h : s.withdraw m id = some (s', v))
    (ha : (s.manager m).accepting = false) : Wanes m s s' := by
  rcases withdraw_cases h with ⟨t, -, rfl, -⟩ | ⟨-, t, queue, hq, rfl, rfl⟩
  · exact wanes_of_eq rfl ha
  refine ⟨?_, ?_, fun d u hu => ?_⟩
  · rw [manager_onManager, if_pos rfl]
    exact ha
  · rw [manager_onManager, if_pos rfl]
    exact Queue.remove_sublist hq
  · by_cases hd : d = id
    · subst hd
      rw [Manager.held?_eq_none.mpr (withdraw_dropped_ended h).1] at hu
      cases hu
    · exact (withdraw_agrees h hd).held? ▸ hu

theorem manage_wanes {c : ManagerCall} (hc : (Call.manager m c).inScope s = true)
    (ha : (s.manager m).accepting = false) : Wanes m s (s.manage m c) := by
  refine manage_induction hc (wanes_of_eq rfl ha) (fun r r' t hr _ hi => ?_)
    (fun id s' v _ hw => withdraw_wanes hw ha) (fun up _ => ?_) fun _ => ?_
  · -- a stopped manager takes no ticket in
    have := hi.accepting
    rw [hr.accepting] at this
    cases this
  · constructor <;> rw [manager_onManager, if_pos rfl]
    · exact ha
    · exact fun _ _ => id
  · constructor <;> rw [manager_onManager, if_pos rfl]
    · rfl
    · exact .refl _
    · exact fun _ _ => id

theorem call_wanes {c : Call} (hc : c.inScope s = true) (ha : (s.manager m).accepting = false) :
    Wanes m s (s.call c) := by
  rcases manager_call s c m with h | ⟨d, rfl⟩ | ⟨config, -, hm⟩
  · exact wanes_of_eq h ha
  · exact manage_wanes hc ha
  · -- a manager that is new has not been stopped
    rw [show s.manager m = default from Registry.get_of_size_le (Nat.le_of_eq hm.symm)] at ha
    cases ha

/-- No attempt that is settled is followed by another. -/
theorem settle_wanes (made : t < s.tickets.size) (ha : (s.manager m).accepting = false)
    (hr : (s.manager m).queue.find? (s.ticket t).id = none) (o : Outcome) :
    Wanes m s (s.settle m t o).1 := by
  have lets {g : Manager} (hm : (s.settle m t o).1.manager m = g)
      (hg : g.accepting = (s.manager m).accepting) (hq : g.queue = (s.manager m).queue)
      (hrun : g.running = (s.manager m).running.erase (s.ticket t).id) :
      Wanes m s (s.settle m t o).1 := by
    constructor
    · rw [hm, hg, ha]
    · rw [hm, hq]
    · rw [hm]
      intro d u hu
      rw [Manager.held?, hq, hrun, Table.find?_erase] at hu
      split at hu
      · rename_i hd
        rw [hd, Option.none_or, hr] at hu
        cases hu
      · exact hu
  rcases settle_spec (m := m) made o with ⟨status, tell, -, -, he⟩ | ⟨-, -, he⟩ | ⟨-, -, -, -, he⟩
  · exact lets he.manager rfl rfl rfl
  · rw [he.accepting] at ha
    cases ha
  · exact lets he.manager rfl rfl rfl

end Store

namespace World

variable {w w' v e : World} {a m N c t : Nat} {id : String} {mv : Move} {moves : List Move}
  {f : Frame} {r : Reply} {k : Caller} {o : Outcome} {P : World → Move → Prop}

theorem effect_wanes (h : w.Sound m) (ha : (w.manager m).accepting = false) (mv : Move) :
    Store.Wanes m w.toStore (w.effect mv).toStore := by
  cases mv with
  | call c =>
    rcases effect_call w c with ⟨hc, hs⟩ | hs <;> rw [hs]
    · exact Store.call_wanes hc ha
    · exact Store.wanes_of_eq rfl ha
  | reply b r =>
    have hr := replied w b r
    generalize (w.effect (.reply b r)).toStore = s at hr ⊢
    cases hr with
    | planned jobs hj => exact Store.wanes_of_eq rfl ha
    | settled jobs hj i t o hw =>
      have hv : Store.Wanes m w.toStore { w.toStore with jobs } := Store.wanes_of_eq rfl ha
      have made := h.founded.works b i t hw
      apply hv.trans
      by_cases hi : m = i
      · subst hi
        have hq := h.custody.apart _ t (h.tended.runs b t hw)
        exact Store.settle_wanes (s := { w.toStore with jobs }) made ha hq o
      · exact Store.wanes_of_eq (Store.manager_settle (s := { w.toStore with jobs }) made o hi) ha
  | clock now => exact Store.wanes_of_eq rfl ha
  | elapse nanos => exact Store.wanes_of_eq rfl ha

/-- The tickets of the attempts that manager `m` begins along a run. -/
def departed (m : Nat) : World → List Move → List Nat
  | _, [] => []
  | w, mv :: moves => w.departures m mv ++ departed m (w.step mv) moves

/-- Along a step of a stopped manager every ticket stays queued, leaves the queue for an attempt,
or is let go. -/
theorem step_wanes (h : w.Sound m) (hl : lawful m w mv) (ha : (w.manager m).accepting = false) :
    Store.Wanes m w.toStore (w.step mv).toStore ∧
      (w.departures m mv ++ ((w.step mv).manager m).queue.order).Subperm
        (w.manager m).queue.order := by
  have he := effect_wanes h ha mv
  have hs := step_sequels h.founded mv
  have hacc : ((w.step mv).manager m).accepting = false :=
    (accepting_sequels hs).trans he.accepting
  have hheld (id : String) (t : Nat) (ht : ((w.step mv).manager m).held? id = some t) :
      (w.manager m).held? id = some t :=
    he.held id t (held?_sequels (h.effect hl) hs ▸ ht)
  rcases step_departs h.founded m mv with ⟨hd, hm⟩ | ⟨t, hd, hdep⟩
  · rw [hd, hm]
    exact ⟨⟨hacc, hm ▸ he.order, hheld⟩, he.order.subperm⟩
  · have hb := hdep.begins
    rw [hd, hb.order]
    refine ⟨⟨hacc, ?_, hheld⟩, ?_⟩
    · rw [hb.order]
      exact List.erase_sublist.trans he.order
    · exact (List.perm_cons_erase hb.queued).symm.subperm.trans he.order.subperm

theorem wanes_run (h : w.Sound m) (hl : w.Along (lawful m) moves)
    (ha : (w.manager m).accepting = false) :
    Store.Wanes m w.toStore (w.run moves).toStore ∧
      (departed m w moves ++ ((w.run moves).manager m).queue.order).Subperm
        (w.manager m).queue.order := by
  induction moves generalizing w with
  | nil => exact ⟨Store.wanes_of_eq rfl ha, .refl _⟩
  | cons mv moves ih =>
    obtain ⟨hw, hd⟩ := step_wanes h hl.1 ha
    obtain ⟨hw', hd'⟩ := ih (h.step hl.1) hl.2 hw.accepting
    refine ⟨hw.trans hw', ?_⟩
    rw [departed, List.append_assoc]
    exact ((List.subperm_append_left _).mpr hd').trans hd

/-- The rest of a run takes nothing in either. -/
theorem wanes_append {before after : List Move} (h : w.Sound m)
    (hl : w.Along (lawful m) (before ++ after)) (ha : (w.manager m).accepting = false) :
    Store.Wanes m (w.run before).toStore (w.run (before ++ after)).toStore := by
  obtain ⟨hl₁, hl₂⟩ := along_append.mp hl
  have hb := hl₁.run (fun _ _ h hl => h.step hl) h
  rw [run_append]
  exact (wanes_run hb hl₂ (wanes_run h hl₁ ha).1.accepting).1

/-- To stop a manager leaves what it holds and begins nothing. -/
theorem step_stop (h : w.Founded) (hm : m < w.managers.size) :
    ((w.step (.stop m)).manager m).accepting = false ∧
      ((w.step (.stop m)).manager m).queue.order = (w.manager m).queue.order ∧
      (∀ id, ((w.step (.stop m)).manager m).held? id = (w.manager m).held? id) ∧
      w.departures m (.stop m) = [] := by
  have hc : (Call.manager m .stop).inScope w.toStore = true := by simp [Call.inScope, hm]
  have hs : w.step (.stop m) = World.stop { w with calls := w.calls + 1 } w.calls m := if_pos hc
  obtain ⟨ls, es, -, hw⟩ := wrote_stop { w with calls := w.calls + 1 } w.calls m
  have hp : (w.step (.stop m)).pending.find? w.calls = none := by
    rw [hs, hw]
    exact Option.eq_none_iff_forall_ne_some.mpr fun f hf => Nat.lt_irrefl _ (h.numbered _ f hf)
  have hstore : (w.step (.stop m)).manager m = (w.manage m .stop).manager m := by
    rw [hs, hw]
    rfl
  obtain ⟨ho, hheld⟩ : ((w.manage m .stop).manager m).queue.order = (w.manager m).queue.order ∧
      ∀ id, ((w.manage m .stop).manager m).held? id = (w.manager m).held? id := by
    simp only [Store.manage]
    split
    · rw [Store.manager_onManager, if_pos rfl]
      exact ⟨rfl, fun _ => rfl⟩
    · exact ⟨rfl, fun _ => rfl⟩
  refine ⟨(accepting_sequels (step_sequels h _)).trans (accepting_stop hm), ?_, ?_, ?_⟩
  · rw [hstore, ho]
  · rw [hstore]
    exact hheld
  · rcases step_departs h m (.stop m) with ⟨hd, -⟩ | ⟨t, -, hd⟩
    · exact hd
    · exact (not_works hp hd.works).elim

section Refusal

variable (ha : (w.manager m).accepting = false)
include ha

theorem enlist_stopped (j : Nat) : w.enlist m j = none := by
  simp [Store.enlist, ha]

/-- A stopped manager has nothing to recover, and writes so. -/
theorem recoverOne_stopped (n : Nat) (t : Option Nat) :
    ∃ w', recoverOne m (w, n) t = (w', n) ∧ w.Logged w' := by
  cases t with
  | none => exact ⟨w, rfl, .refl w⟩
  | some t =>
    simp only [recoverOne, Store.reclaim]
    rw [ha]
    by_cases hc : ((w.ticket t).cancelled || (w.ticket t).session == (w.manager m).session) = true
    · rw [if_pos hc]
      exact ⟨w, rfl, .refl w⟩
    · rw [if_neg hc, if_pos (by rfl)]
      exact ⟨_, rfl, logged_log ..⟩

theorem recover_stopped (n : Nat) (ts : List (Option Nat)) :
    ∃ w', ts.foldl (recoverOne m) (w, n) = (w', n) ∧ w.Logged w' := by
  induction ts generalizing w with
  | nil => exact ⟨w, rfl, .refl w⟩
  | cons t ts ih =>
    obtain ⟨v, hv, hl⟩ := recoverOne_stopped ha n t
    have hm : v.manager m = w.manager m := by
      obtain ⟨ls, es, -, rfl⟩ := hl
      rfl
    obtain ⟨u, hu, hl'⟩ := ih (w := v) (hm ▸ ha)
    exact ⟨u, by rw [List.foldl_cons, hv, hu], hl.trans hl'⟩

end Refusal

theorem answers_add_stopped (h : ReachableBy P w) (hw : w.Founded)
    (ha : (w.manager m).accepting = false) {j : Nat}
    (hc : (Call.manager m (.add (some j))).inScope w.toStore = true) :
    (w.step (.call (.manager m (.add (some j))))).answers w.calls =
      [.returned w.calls (.flag false)] := by
  have := answers_add h hw hc []
  rw [enlist_stopped ha] at this
  exact this

theorem answers_recover (h : ReachableBy P w) (ha : (w.manager m).accepting = false)
    {ts : List (Option Nat)} (hc : (Call.manager m (.recover ts)).inScope w.toStore = true) :
    (w.step (.call (.manager m (.recover ts)))).answers w.calls =
      [.returned w.calls (.count 0)] := by
  have hs : w.step (.call (.manager m (.recover ts))) =
      World.recover { w with calls := w.calls + 1 } w.calls m ts := if_pos hc
  obtain ⟨v, hv, hl⟩ := recover_stopped (w := { w with calls := w.calls + 1 }) ha 0 ts
  have hnone : w.answers w.calls = [] := answers_of_calls_le h (Nat.le_refl _)
  rw [hs]
  simp only [recover]
  rw [hv, answers_give, hl.answers]
  exact congrArg _ hnone

/-- What fails and would be tried again ends. -/
theorem verdict_stopped {s : Store} (ha : (s.manager m).accepting = false)
    (ho : o = .again ∨ o = .declined) :
    s.verdict m t o = some (if (s.ticket t).cancelled then .cancelled else .failed) := by
  have again : Store.verdict.again s m t =
      some (if (s.ticket t).cancelled then .cancelled else .failed) := by
    simp only [Store.verdict.again, ha]
    split <;> simp
  rcases ho with rfl | rfl
  · exact again
  · simp only [Store.verdict]
    split
    · rename_i hc
      rw [hc.1]
      rfl
    · exact again

/-- When an attempt ends the work without success, the job was told on account of its ticket
after the step. -/
theorem notified_of_failed (hw : w.Sound m) (hn : 0 ≤ (w.ticket t).runs) (hwork : w.Works a m t)
    (hfail : (w.effect (.reply a r)).Failed m (w.ticket t).id) :
    ((w.step (.reply a r)).ticket t).notified = true := by
  have hf := hw.founded
  have hrun := hw.tended.runs a t hwork
  have still {v : World} (hm : v.manager m = w.manager m) : ¬v.Failed m (w.ticket t).id :=
    not_failed_of_held? (held?_running (hm ▸ hrun))
  rcases step_reply w a r with ⟨he, -⟩ | ⟨f, hp, hx⟩
  · rw [he] at hfail
    exact (still rfl hfail).elim
  have hfw := (works_of_frame hp).mp hwork
  generalize w.effect (.reply a r) = e, w.step (.reply a r) = w' at hx hfail ⊢
  cases hx with
  | passed w' hnone => rw [hnone] at hfw; cases hfw
  | asked v w' g q hv hg hns => exact (still (v := v.ask a g q) (congrFun hv.manager m) hfail).elim
  | closed v w' k o hv hk hns =>
    have hsettled := close_own hw hwork (hk.trans hfw) hv o
    obtain ⟨n, since, tally, rfl⟩ := Caller.eq_of_work (hk.trans hfw)
    generalize v.close (.manager m t n since tally) o = e at hfail hsettled
    refine (hns.notified t).mpr (.inr ?_)
    rcases hsettled with ⟨status, tell, -, hend, -, hover⟩ | ⟨-, -, hr⟩ | ⟨hneg, -⟩
    · rw [Failed, hover.unique, hover.unique] at hfail
      rw [Store.tells_ended hend, (Store.settle_tell hend).mpr hfail]
      rfl
    · -- what is queued again has not failed
      have htk : v.ticket t = w.ticket t := congrFun hv.ticket t
      have hnamed := ((hf.erase a).replanned hv).store.named t (hv.tickets ▸ hf.works a m t hwork)
      have hnone := (Manager.free_iff.mp (Manager.held?_eq_none.mp hfail.held?)).2
      rw [← htk, hr.queued hnamed] at hnone
      cases hnone
    · exact absurd hn (Int.not_le.mpr hneg)

/-- A failed attempt that would be repeated ends the work once its manager has stopped. -/
theorem refused_ends (hw : w.Sound m) (hn : 0 ≤ (w.ticket t).runs)
    (ha : (w.manager m).accepting = false) (hf : w.pending.find? a = some f)
    (hv : w.Rules f r v k o) (hk : k.work = some (m, t)) (ho : o = .again ∨ o = .declined) :
    (w.step (.reply a r)).Over m (w.ticket t).id
        (if (w.ticket t).cancelled then .cancelled else .failed) ∧
      ((w.step (.reply a r)).manager m).counts.failed =
        (w.manager m).counts.failed + (if (w.ticket t).cancelled then 0 else 1) ∧
      ((w.step (.reply a r)).manager m).counts.cancelled =
        (w.manager m).counts.cancelled + (if (w.ticket t).cancelled then 1 else 0) ∧
      ((w.step (.reply a r)).ticket t).notified = true := by
  have hwork : w.Works a m t := (works_of_frame hf).mpr (hv.work.symm.trans hk)
  have hm : v.manager m = w.manager m := congrFun hv.replanned.manager m
  have htk : v.ticket t = w.ticket t := congrFun hv.replanned.ticket t
  have hverdict := verdict_stopped (s := v.toStore) (m := m) (t := t) (hm ▸ ha) ho
  rw [htk] at hverdict
  obtain ⟨hends, hover⟩ : Store.Ends m t (if (w.ticket t).cancelled then .cancelled else .failed)
      v.toStore (w.effect (.reply a r)).toStore ∧ (w.effect (.reply a r)).Over m (w.ticket t).id
        (if (w.ticket t).cancelled then .cancelled else .failed) := by
    rw [effect_rules hf hv]
    rcases close_own hw hwork hk (hv.withPending _).replanned o with
      ⟨status, _, hst, -, hends, hover⟩ | ⟨hst, -⟩ | ⟨hneg, -⟩
    · obtain rfl := Option.some.inj (hst.symm.trans hverdict)
      exact ⟨hends, hover⟩
    · cases hst.symm.trans hverdict
    · exact absurd hn (Int.not_le.mpr hneg)
  obtain ⟨retries, hstep⟩ := counts_step hw.founded m (.reply a r)
  have hcounts : ((w.effect (.reply a r)).manager m).counts = (w.manager m).counts.ended
      (if (w.ticket t).cancelled then .cancelled else .failed) := by
    rw [hends.manager, hm]
    rfl
  refine ⟨hover.sequels (hw.effect trivial) (step_sequels hw.founded _), ?_, ?_,
    notified_of_failed hw hn hwork ?_⟩
  · rw [hstep, hcounts]
    split <;> rfl
  · rw [hstep, hcounts]
    split <;> rfl
  · split at hover
    · exact .inr hover
    · exact .inl hover

theorem notified_run (h : (w.ticket t).notified = true) (moves : List Move) :
    ((w.run moves).ticket t).notified = true := by
  induction moves generalizing w with
  | nil => exact h
  | cons mv moves ih => exact ih ((notified_step w mv t).1 h)

/-- What a stopped manager holds under an id has no successor. -/
theorem Heralded.stopped (h : w.Heralded m id [t]) (hw : ∀ i, w.Sound i)
    (ha : (w.manager m).accepting = false) (hh : ∀ u, (w.manager m).held? id = some u → u = t)
    (hl : w.Along orderly moves) (hs : w.Along (spares m t) moves) :
    (w.run moves).Heralded m id [t] := by
  induction moves generalizing w with
  | nil => exact h
  | cons mv moves ih =>
    obtain ⟨hwane, -⟩ := step_wanes (hw m) (hl.1 m) ha
    have hh' (u : Nat) (hu : ((w.step mv).manager m).held? id = some u) : u = t :=
      hh u (hwane.held id u hu)
    have hadmit : ¬w.Admits m id (w.step mv).toStore := by
      rintro ⟨hf, hn⟩
      obtain ⟨u, hu⟩ : ∃ u, ((w.step mv).manager m).held? id = some u := by
        rw [← Option.isSome_iff_exists, Option.isSome_iff_ne_none]
        intro hx
        rw [Manager.held?_eq_none.mp hx] at hn
        cases hn
      have hold := hwane.held id u hu
      rw [Manager.held?_eq_none.mpr hf] at hold
      cases hold
    have hstep := h.step hw (fun u hu => List.mem_singleton.mpr (hh u hu)) hl.1
      (fun u hu => List.mem_singleton.mp hu ▸ hs.1) hadmit
    refine ih (hstep.congr fun u => ?_) (fun i => (hw i).step (hl.1 i)) hwane.accepting hh' hl.2
      hs.2
    simp only [List.mem_append, List.mem_singleton, Option.mem_toList]
    exact ⟨.inl, fun hu => hu.elim (fun h => h) (hh' u)⟩

/-- Each attempt of the operation takes a ticket from the queue, and nothing is put there. -/
theorem tries_step (hi : w.Idling m a c) (hw : w.Sound m) (hl : lawful m w mv)
    (hacc : (w.manager m).accepting = false) (ha : a < w.calls) :
    (w.step mv).tries a + ((w.step mv).manager m).queue.order.length ≤
      w.tries a + (w.manager m).queue.order.length := by
  have hlen := (step_wanes hw hl hacc).1.order.length_le
  have same (hk : (w.step mv).tries a = w.tries a) :
      (w.step mv).tries a + ((w.step mv).manager m).queue.order.length ≤
        w.tries a + (w.manager m).queue.order.length := by omega
  cases ht : World.taken a w mv with
  | none => exact same (untaken_step hw.founded ha ht).2.2
  | some r =>
    obtain ⟨rfl, f, hf, hr⟩ := taken_eq_some.mp ht
    have hk := tries_reply w a a r
    cases reply_onward hw.founded hf (hi.of_waiting hf).1 hr with
    | waits g hg hdg hst hm hkw => exact same hkw
    | raised x hx hm hp hkw => exact same hkw
    | proceeds h =>
      cases h with
      | idle hs hi hp hkw => exact same (hkw.trans hk)
      | departs t g hdep hg hdr hst hkw =>
        have heff := (effect_wanes hw hacc (.reply a r)).order.length_le
        have hbegin := List.length_erase_of_mem hdep.begins.queued
        have hpos := List.length_pos_of_mem hdep.begins.queued
        rw [hdep.begins.order]
        omega

theorem tries_run (hi : w.Idling m a c) (hw : w.Sound m) (hl : w.Along (lawful m) moves)
    (hacc : (w.manager m).accepting = false) (ha : a < w.calls) :
    (w.run moves).tries a ≤ w.tries a + (w.manager m).queue.order.length := by
  induction moves generalizing w c with
  | nil => exact Nat.le_add_right ..
  | cons mv moves ih =>
    have hstep := tries_step hi hw hl.1 hacc ha
    have hrest := ih (hi.step hw.founded ha mv) (hw.step hl.1) hl.2
      (step_wanes hw hl.1 hacc).1.accepting
      (Nat.lt_of_lt_of_le ha (calls_le_step hw.founded mv))
    exact Nat.le_trans hrest hstep

theorem tries_call (h : w.Founded) (hm : m < w.managers.size) (hk : w.tries w.calls = 0) :
    (w.step (.runUntilIdle m)).tries w.calls +
        ((w.step (.runUntilIdle m)).manager m).queue.order.length ≤
      (w.manager m).queue.order.length := by
  have hk : World.tries { w with calls := w.calls + 1 } w.calls = 0 := hk
  cases call_proceeds h hm with
  | idle hs hi hp hkw =>
    obtain ⟨ls, hs⟩ := hs
    rw [hkw, hk, hs, Nat.zero_add]
    exact Nat.le_refl _
  | departs t f hd hf hdr hst hkw =>
    have hq : t ∈ (w.manager m).queue.order := hd.begins.queued
    have ho : ((w.step (.runUntilIdle m)).manager m).queue.order =
        (w.manager m).queue.order.erase t := hd.begins.order
    have hpos := List.length_pos_of_mem hq
    rw [hkw, hk, ho, List.length_erase_of_mem hq]
    omega

/-- A manager that is not the default one exists. -/
theorem made_of_stopped (ha : (w.manager m).accepting = false) : m < w.managers.size := by
  apply Nat.lt_of_not_le
  intro hm
  rw [show w.manager m = default from Registry.get_of_size_le hm] at ha
  cases ha

/-- Before the last attempt of a ticket ends, nobody is told on its account. -/
theorem unnotified_stopped (hw : ∀ i, w.Sound i) (hm : m < w.managers.size)
    (hl : (w.step (.stop m)).Along orderly moves) (hv : v = (w.step (.stop m)).run moves)
    (hwork : v.Works a m t) (halone : ∀ i, i ≠ m → ¬(w.manager i).knows t)
    (hnew : (w.ticket t).notified = false) (hs : w.Along (spares m t) (.stop m :: moves)) :
    (v.ticket t).notified = false := by
  obtain ⟨hacc, -, hheld, -⟩ := step_stop (hw m).founded hm
  have hstop (i : Nat) : (w.step (.stop m)).Sound i := (hw i).step trivial
  have hlawful := hl.mono fun _ _ hl => hl m
  have hv' : v.Sound m := hv ▸ hlawful.run (fun _ _ h hl => h.step hl) (hstop m)
  -- the manager has held the ticket since it was stopped
  have hhv := held?_running (hv'.tended.runs a t hwork)
  have hh : ((w.step (.stop m)).manager m).held? (v.ticket t).id = some t :=
    (wanes_run (hstop m) hlawful hacc).1.held _ t (hv ▸ hhv)
  obtain ⟨hholds, hid⟩ := holds_of_held? (hw m) (hheld _ ▸ hh)
  have hown : w.Own m (v.ticket t).id t := ⟨(hw m).custody.made t hholds, hid, halone⟩
  have hquiet : ((w.step (.stop m)).ticket t).notified = false := by
    apply Bool.eq_false_iff.mpr
    intro hx
    rcases (notified_step w (.stop m) t).2 hx with hx | hx
    · rw [hnew] at hx
      cases hx
    · cases hx
  have hher : (w.step (.stop m)).Heralded m (v.ticket t).id [t] := by
    refine heralded_none (fun u hu => ?_) (not_failed_of_held? hh) fun u hu => ?_
    · exact List.mem_singleton.mp hu ▸ hown.step (hw m).founded hs.1
    · exact List.mem_singleton.mp hu ▸ hquiet
  have hrun := hher.stopped hstop hacc (fun u hu => Option.some.inj (hu.symm.trans hh)) hl hs.2
  rw [← hv] at hrun
  exact hrun.quiet (not_failed_of_held? hhv) (List.mem_singleton_self t)

/-- A stopped manager is idle after as many attempts as it queues tickets, if not before. -/
theorem idle_stopped (h : ReachableBy P w) (hw : w.Sound m)
    (ha : (w.manager m).accepting = false) (hl : w.Along (lawful m) (.runUntilIdle m :: moves))
    (hv : v = w.run (.runUntilIdle m :: moves)) :
    v.tries w.calls ≤ (w.manager m).queue.size ∧
      (w.along (taken w.calls) (.runUntilIdle m :: moves)).length ≤ 3 * v.tries w.calls ∧
      (v.answers w.calls = [] ∧ (∃ f, v.pending.find? w.calls = some f) ∨
        ∃ x, v.answers w.calls = [x]) := by
  have hf := hw.founded
  have hm := made_of_stopped ha
  have hi := idling_run h hf hm moves
  have hcall := tries_call hf hm (tries_of_calls_le h (Nat.le_refl _))
  have hrest := tries_run (idling_run h hf hm []) (hw.step hl.1) hl.2
    (step_wanes hw hl.1 ha).1.accepting (calls_runUntilIdle hf hm)
  subst hv
  refine ⟨Nat.le_trans hrest hcall, hi.replies_le, ?_⟩
  cases hi with
  | waits f hf hd ha => exact .inl ⟨ha, f, hf⟩
  | returned hp ha => exact .inr ⟨_, ha⟩
  | raised x hp ha => exact .inr ⟨_, ha⟩

/-- A manager that was stopped takes nothing in whatever follows. Each ticket that it queues is
tried once more at most, and none else is. It refuses jobs and recovers nothing. An attempt that
fails and would be repeated ends the work as failed, or as cancelled if the ticket was cancelled,
and the job is told so once. To run the manager until it is idle takes as many attempts as it
queues tickets at most. -/
theorem stop_is_final (h : ReachableBy (fun w mv => orderly w mv ∧ counted mv) w)
    (hm : m < w.managers.size)
    (hl : (w.step (.stop m)).Along (fun w mv => orderly w mv ∧ counted mv) moves)
    (hv : v = (w.step (.stop m)).run moves) :
    (∀ before after, .stop m :: moves = before ++ after →
      (v.manager m).queue.order.Sublist ((w.run before).manager m).queue.order) ∧
    ((departed m w (.stop m :: moves) ++ (v.manager m).queue.order).Nodup ∧
      ∀ t ∈ departed m w (.stop m :: moves), t ∈ (w.manager m).queue.order) ∧
    (∀ j < v.jobs.size, (v.step (.call (.manager m (.add (some j))))).answers v.calls =
      [.returned v.calls (.flag false)]) ∧
    (∀ ts, (∀ t, some t ∈ ts → t < v.tickets.size) →
      (v.step (.call (.manager m (.recover ts)))).answers v.calls =
        [.returned v.calls (.count 0)]) ∧
    (∀ a f r x k o t u, v.pending.find? a = some f → v.Rules f r x k o → k.work = some (m, t) →
      o = .again ∨ o = .declined → u = v.step (.reply a r) →
      u.Over m (v.ticket t).id (if (v.ticket t).cancelled then .cancelled else .failed) ∧
      (u.manager m).counts.failed =
        (v.manager m).counts.failed + (if (v.ticket t).cancelled then 0 else 1) ∧
      (u.manager m).counts.cancelled =
        (v.manager m).counts.cancelled + (if (v.ticket t).cancelled then 1 else 0) ∧
      (∀ later, (u.run later).notices.count t = 1) ∧
      ((∀ i, i ≠ m → ¬(w.manager i).knows t) → (w.ticket t).notified = false →
        w.Along (spares m t) (.stop m :: moves) → v.notices.count t = 0)) ∧
    ∀ later u, v.Along (fun w mv => orderly w mv ∧ counted mv) (.runUntilIdle m :: later) →
      u = v.run (.runUntilIdle m :: later) →
      u.tries v.calls ≤ (v.manager m).queue.size ∧
      (v.along (taken v.calls) (.runUntilIdle m :: later)).length ≤ 3 * u.tries v.calls ∧
      (u.answers v.calls = [] ∧ (∃ f, u.pending.find? v.calls = some f) ∨
        ∃ x, u.answers v.calls = [x]) := by
  have hkeep (w : World) (mv : Move) (hw : ∀ i, w.InBalance i) (hl : orderly w mv ∧ counted mv)
      (i : Nat) : (w.step mv).InBalance i := (hw i).step (hl.1 i) hl.2
  have hw : ∀ i, w.InBalance i :=
    h.induction (fun now i => ⟨.start i now, fun _ => Int.le_refl 0, rfl⟩) hkeep
  obtain ⟨hacc, horder, -, hdep⟩ := step_stop (hw m).sound.founded hm
  have hstop : ∀ i, (w.step (.stop m)).InBalance i :=
    hkeep w (.stop m) hw ⟨fun _ => trivial, trivial⟩
  have hv' : ∀ i, v.InBalance i := hv ▸ hl.run hkeep hstop
  have hlawful := hl.mono fun _ _ hl => hl.1 m
  obtain ⟨hwane, hsub⟩ := wanes_run (hstop m).sound hlawful hacc
  rw [← hv] at hwane hsub
  have hmv := made_of_stopped hwane.accepting
  have hall (later : List Move) : ReachableBy (fun _ _ => True) (v.run later) := by
    obtain ⟨now, before, -, rfl⟩ := h
    refine ⟨now, before ++ .stop m :: moves ++ later, along_true .., ?_⟩
    rw [hv, run_append, run_append]
    rfl
  have hr : ReachableBy (fun _ _ => True) v := hall []
  refine ⟨?_, ?_, ?_, ?_, ?_, ?_⟩
  · intro before after hsplit
    cases before with
    | nil => exact horder ▸ hwane.order
    | cons mv ms =>
      obtain ⟨rfl, rfl⟩ := List.cons.inj hsplit
      exact hv ▸ (wanes_append (hstop m).sound hlawful hacc).order
  · rw [departed, hdep, List.nil_append]
    rw [horder] at hsub
    refine ⟨?_, fun t ht => hsub.subset (List.mem_append_left _ ht)⟩
    obtain ⟨l, hp, hs⟩ := hsub
    exact hp.nodup_iff.mp ((hw m).sound.custody.queue.nodup.sublist hs)
  · intro j hj
    exact answers_add_stopped hr (hv' m).sound.founded hwane.accepting
      (by simp [Call.inScope, hmv, hj])
  · intro ts hts
    refine answers_recover hr hwane.accepting ?_
    simp only [Call.inScope, hmv, decide_true, Bool.true_and, List.all_eq_true]
    intro t ht
    cases t with
    | none => rfl
    | some t => simpa using hts t ht
  · rintro a f r x k o t u hf hrule hk ho rfl
    have hwork : v.Works a m t := (works_of_frame hf).mpr (hrule.work.symm.trans hk)
    obtain ⟨hover, hfailed, hcancelled, hnotified⟩ := refused_ends (hv' m).sound
      ((hv' m).counted t) hwane.accepting hf hrule hk ho
    refine ⟨hover, hfailed, hcancelled, fun later => ?_, fun halone hnew hspares => ?_⟩
    · have := notices_count (hall (.reply a r :: later)) t
      rwa [run_cons, if_pos (notified_run hnotified later)] at this
    · have := notices_count hr t
      rwa [unnotified_stopped (fun i => (hw i).sound) hm (hl.mono fun _ _ hl => hl.1) hv hwork
        halone hnew hspares] at this
  · intro later u hlu hu
    exact idle_stopped hr (hv' m).sound hwane.accepting (hlu.mono fun _ _ hl => hl.1 m) hu

/-- Two jobs are queued that fail whenever they are tried, and want to be tried again. -/
def insistent : List Move :=
  [.call (.makeJob { id := "a", custom := true }), .call (.makeJob { id := "b" }),
    .call (.makeManager {}), .call (.manager 0 (.add (some 0))), .reply 3 .done,
    .call (.manager 0 (.add (some 1))), .reply 4 .done]

theorem stop_is_final_insistent :
    ∃ moves v, moves = [.runUntilIdle 0, .reply 6 (.outcome .again), .reply 6 .done,
        .reply 6 (.failed "late"), .reply 6 .done] ∧
      v = (((start 0).run insistent).step (.stop 0)).run moves ∧
      departed 0 ((start 0).run insistent) (.stop 0 :: moves) = [0, 1] ∧
      v.answers 6 = [.returned 6 (.count 2)] ∧ (v.manager 0).counts.failed = 2 ∧
      (v.step (.call (.manager 0 (.add (some 0))))).answers 7 = [.returned 7 (.flag false)] := by
  have h : ReachableBy (fun w mv => orderly w mv ∧ counted mv) ((start 0).run insistent) :=
    ⟨0, insistent, by simp only [insistent, Along, orderly, lawful, counted, implies_true,
      and_self], rfl⟩
  refine ⟨_, _, rfl, rfl, by decide +kernel, by decide +kernel, by decide +kernel, ?_⟩
  refine (stop_is_final h (by decide) ?_ rfl).2.2.1 0 (by decide)
  simp only [Along, orderly, lawful, counted, implies_true, and_self]

end World

end Backlog
