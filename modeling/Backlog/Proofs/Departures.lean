import Backlog.Proofs.Attempts

/-!
# The attempts of a manager

A step begins at most one attempt. If a manager begins one, it does so in the store that the
effect of the move leaves, lines apart, and the operation then waits in it. If it begins none,
the manager stays as the effect leaves it.
-/

namespace Backlog.World

variable {w w' u v : World} {a m t : Nat} {mv : Move}

/-- An operation comes to one thing at most before it waits or ends. -/
theorem Sequels.cases (hs : Sequels a w w') :
    Wrote a w w' ∨ ∃ u v, Wrote a w u ∧ Sequel a u v ∧ (∃ f, v.pending.find? a = some f) ∧
      Wrote a v w' := by
  induction hs with
  | refl => exact .inl (.refl a w)
  | @tail x y hx hs ih =>
    have waits {f : Frame} (hf : y.pending.find? a = some f) (hw : Wrote a w x) :
        Wrote a w y ∨ ∃ u v, Wrote a w u ∧ Sequel a u v ∧ (∃ f, v.pending.find? a = some f) ∧
          Wrote a v y := .inr ⟨x, y, hw, hs, ⟨f, hf⟩, .refl a y⟩
    rcases ih with hw | ⟨u, v, hu, huv, ⟨f, hf⟩, hv⟩
    · cases hs with
      | wrote ls es he => exact .inl (hw.trans ⟨ls, es, he, rfl⟩)
      | told j t next ha ht hn => exact waits (Table.find?_insert_same ..) hw
      | welcomed j t ha => exact waits (Table.find?_insert_same ..) hw
      | departed i t s tally ha hc =>
        obtain ⟨f, q, -, hp, -⟩ := depart_events x a i s t tally
        exact waits (by rw [hp, Table.find?_insert_same]) hw
    · -- an operation that waits only writes
      have busy (ha : x.Active a) : False := by
        obtain ⟨ls, es, -, rfl⟩ := hv
        exact Option.some_ne_none f (hf.symm.trans ha.2)
      refine .inr ⟨u, v, hu, huv, ⟨f, hf⟩, ?_⟩
      cases hs with
      | wrote ls es he => exact hv.trans ⟨ls, es, he, rfl⟩
      | told j t next ha ht hn => exact (busy ha).elim
      | welcomed j t ha => exact (busy ha).elim
      | departed i t s tally ha hc => exact (busy ha).elim

/-- The ticket of an attempt that manager `m` has begun and that is in progress. -/
def departure? (w : World) (m : Nat) : Event → Option Nat
  | .entered a _ t _ => if w.Works a m t then some t else none
  | _ => none

/-- The tickets that manager `m` begins attempts of in a step. -/
def departures (w : World) (m : Nat) (mv : Move) : List Nat :=
  (w.news (w.step mv)).filterMap ((w.step mv).departure? m)

theorem departure?_eq_none {e : Event} (h : ∀ id, w.attempt? m id e = none) :
    w.departure? m e = none := by
  cases e with
  | entered a j t n =>
    refine if_neg fun hw => ?_
    have := h (w.ticket t).id
    rw [attempt?, if_pos ⟨hw, rfl⟩] at this
    cases this
  | _ => rfl

theorem departure?_of_isNote {es : List Event} (h : ∀ e ∈ es, e.isNote a = true) :
    es.reverse.filterMap (w.departure? m) = [] := by
  refine List.filterMap_eq_nil_iff.mpr fun e he => departure?_eq_none fun id => ?_
  exact attempt?_of_isNote (h e (List.mem_reverse.mp he))

/-- The effect of a move begins no attempt of a manager. -/
theorem departures_eq (h : w.Founded) {es : List Event}
    (hh : (w.step mv).history = es ++ (w.effect mv).history) :
    w.departures m mv = es.reverse.filterMap ((w.step mv).departure? m) := by
  obtain ⟨es₀, hh₀, -⟩ := effect_events m "" w mv
  have hnil : es₀.reverse.filterMap ((w.step mv).departure? m) = [] := by
    refine List.filterMap_eq_nil_iff.mpr fun e he => departure?_eq_none fun id => ?_
    obtain ⟨es₁, hh₁, hf, hn⟩ := effect_events m id w mv
    obtain rfl : es₀ = es₁ := List.append_cancel_right (hh₀.symm.trans hh₁)
    have he := List.mem_reverse.mp he
    rw [(hf.sequels (step_sequels h mv)).2 e he, (hn e he).1]
  rw [departures, news_eq (by rw [hh, hh₀, ← List.append_assoc]), List.reverse_append,
    List.filterMap_append, hnil, List.nil_append]

/-- The frame is that of an attempt of ticket `t` that manager `m` has just begun. -/
def Opens (w : World) (m t : Nat) (f : Frame) : Prop :=
  ∃ k since tally, k = .manager m t (w.ticket t).runs since tally ∧
    (f = .attempt k ∧ (w.job (w.ticket t).job).custom = true ∨
      f = .body (w.ticket t).job t (w.ticket t).runs k ∧
        (w.job (w.ticket t).job).custom = false)

theorem Opens.work {f : Frame} (h : w.Opens m t f) : f.work = some (m, t) := by
  obtain ⟨k, since, tally, rfl, ⟨rfl, -⟩ | ⟨rfl, -⟩⟩ := h <;> rfl

/-- Manager `m` has claimed ticket `t` in `w` for operation `a`, which waits in the attempt. -/
structure Departs (m a t : Nat) (w w' : World) : Prop where
  active : w.Active a
  claimed : ∃ s ls, w.claim m = some (s, t) ∧ w'.toStore = s.logging ls
  waits : ∃ f, w'.Opens m t f ∧ w'.pending = w.pending.insert a f

/-- What a manager does when it begins an attempt, as the store has it. -/
theorem Departs.begins (h : w.Departs m a t w') : Store.Begins m t w.toStore w'.toStore := by
  obtain ⟨s, ls, hc, hs⟩ := h.claimed
  have hb := Store.claim_begins hc
  rw [hs]
  exact ⟨hb.queued, hb.runnable, hb.manager, hb.other, hb.jobs, hb.size, hb.ticket, hb.others⟩

theorem Departs.works (h : w.Departs m a t w') : w'.Works a m t := by
  obtain ⟨f, hf, hp⟩ := h.waits
  rw [works_of_frame (by rw [hp, Table.find?_insert_same]), hf.work]

/-- Lines before and after do not matter. -/
theorem Departs.wrote (h : u.Departs m a t v) (hu : Wrote a w u) (hv : Wrote a v w') :
    w.Departs m a t w' := by
  obtain ⟨ls, es, -, rfl⟩ := hu
  obtain ⟨ls', es', -, rfl⟩ := hv
  obtain ⟨s, _, hc, hs⟩ := h.claimed
  have hs' := congrArg (Store.logging · ls') hs
  exact ⟨h.active, ⟨_, ls', Store.claim_logging hc w.loggers, hs'⟩, h.waits⟩

theorem departs_depart (ha : w.Active a) {s : Store} (hc : w.claim m = some (s, t))
    (tally : Option Nat) : w.Departs m a t (w.depart a m s t tally) := by
  have hs : (w.depart a m s t tally).toStore = s := toStore_depart ..
  obtain ⟨f, q, hf, he⟩ := enter_eq { w with toStore := s } a t (s.ticket t).runs
    (.manager m t (s.ticket t).runs s.uptime tally)
  refine ⟨ha, ⟨s, s.loggers, hc, hs⟩, f, ⟨_, s.uptime, tally, rfl, ?_⟩, congrArg World.pending he⟩
  rw [hs]
  exact hf

/-- The events of a sequel show whether an attempt of the manager has begun. -/
theorem Sequel.departs (hs : Sequel a w w') (m : Nat) : ∃ es, w'.history = es ++ w.history ∧
    (es.reverse.filterMap (w'.departure? m) = [] ∧ w'.manager m = w.manager m ∨
      ∃ t, es.reverse.filterMap (w'.departure? m) = [t] ∧ w.Departs m a t w') := by
  cases hs with
  | wrote ls es he => exact ⟨es, rfl, .inl ⟨departure?_of_isNote he, rfl⟩⟩
  | told j t next ha ht hn => exact ⟨[_], rfl, .inl ⟨rfl, rfl⟩⟩
  | welcomed j t ha => exact ⟨[_], rfl, .inl ⟨rfl, rfl⟩⟩
  | departed i t s tally ha hc =>
    obtain ⟨f, q, hf, hp, hh⟩ := depart_events w a i s t tally
    refine ⟨_, hh, ?_⟩
    have hwork : (w.depart a i s t tally).Works a m t ↔ i = m := by
      rw [works_of_frame (by rw [hp, Table.find?_insert_same]), hf]
      simp
    by_cases hi : i = m
    · subst hi
      exact .inr ⟨t, by simp [departure?, hwork], departs_depart ha hc tally⟩
    · refine .inl ⟨by simp [departure?, hwork, hi], ?_⟩
      rw [toStore_depart]
      exact (Store.claim_begins hc).other m (Ne.symm hi)

/-- A step begins an attempt of the manager, or leaves it as the effect of the move does. -/
theorem step_departs (h : w.Founded) (m : Nat) (mv : Move) :
    (w.departures m mv = [] ∧ (w.step mv).manager m = (w.effect mv).manager m) ∨
      ∃ t, w.departures m mv = [t] ∧ (w.effect mv).Departs m (w.acting mv) t (w.step mv) := by
  have hdep (es : List Event) (hh : (w.step mv).history = es ++ (w.effect mv).history) :
      w.departures m mv = es.reverse.filterMap ((w.step mv).departure? m) := departures_eq h hh
  rcases (step_sequels h mv).cases with ⟨ls, es, he, hv⟩ | ⟨u, v, hu, huv, -, hv⟩
  · exact .inl ⟨by rw [hdep es (by rw [hv]), departure?_of_isNote he], by rw [hv]; rfl⟩
  obtain ⟨mid, hmid, hm⟩ := Sequel.departs huv m
  have hone : w.departures m mv = mid.reverse.filterMap (v.departure? m) := by
    obtain ⟨ls, es, he, rfl⟩ := hu
    obtain ⟨ls', es', he', hv⟩ := hv
    rw [hdep (es' ++ (mid ++ es)) (by rw [hv, hmid]; simp), hv]
    simp only [List.reverse_append, List.filterMap_append, departure?_of_isNote he,
      departure?_of_isNote he', List.nil_append, List.append_nil]
    rfl
  rcases hm with ⟨hnil, hm⟩ | ⟨t, ht, hd⟩
  · refine .inl ⟨hone.trans hnil, ?_⟩
    obtain ⟨ls, es, -, rfl⟩ := hu
    obtain ⟨ls', es', -, hv⟩ := hv
    rw [hv]
    exact hm
  · exact .inr ⟨t, hone.trans ht, hd.wrote hu hv⟩

/-- What follows a move counts no end. -/
theorem counts_step (h : w.Founded) (m : Nat) (mv : Move) : ∃ retries,
    ((w.step mv).manager m).counts = { ((w.effect mv).manager m).counts with retries } := by
  rcases step_departs h m mv with ⟨-, hm⟩ | ⟨t, -, hd⟩
  · exact ⟨_, by rw [hm]⟩
  · obtain ⟨counts, rfl | rfl, hm⟩ := hd.begins.manager <;> exact ⟨_, by rw [hm]⟩

end Backlog.World
