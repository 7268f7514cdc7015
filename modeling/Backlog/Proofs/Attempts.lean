import Backlog.Proofs.LifeCycle
import Mathlib.Data.List.Basic

/-!
# The attempts of an id

Which attempts a manager begins under an id is read off the history. An attempt waits at the
end of the step in which it begins, so that the operation tells for whom it was begun.
-/

namespace Backlog.World

instance (w : World) (a m t : Nat) : Decidable (w.Works a m t) := inferInstanceAs (Decidable (_ = _))

/-- What was added to the history, oldest first. -/
def news (w w' : World) : List Event :=
  (w'.history.take (w'.history.length - w.history.length)).reverse

/-- The number of the attempt that the event begins, if manager `m` makes it under the id. -/
def attempt? (w : World) (m : Nat) (id : String) : Event → Option Int
  | .entered a _ t n => if w.Works a m t ∧ (w.ticket t).id = id then some n else none
  | _ => none

/-- The attempts that manager `m` begins under the id in a step. -/
def begun (w : World) (m : Nat) (id : String) (mv : Move) : List Int :=
  (w.news (w.step mv)).filterMap ((w.step mv).attempt? m id)

/-- The attempts that manager `m` begins under the id along a run. -/
def attempts (m : Nat) (id : String) : World → List Move → List Int
  | _, [] => []
  | w, mv :: moves => w.begun m id mv ++ attempts m id (w.step mv) moves

variable {w w' : World} {a m t : Nat} {id : String} {s : Store} {es : List Event}

theorem news_eq (h : w'.history = es ++ w.history) : w.news w' = es.reverse := by
  simp [news, h]

/-- Attempts that have just begun wait. -/
def Fresh (w : World) (es : List Event) : Prop :=
  ∀ a j t n, .entered a j t n ∈ es → t < w.tickets.size ∧ ∃ f, w.pending.find? a = some f

theorem Fresh.sequel (h : w.Fresh es) (hs : Sequel a w w') : w'.Fresh es := by
  intro b j t n he
  obtain ⟨ht, f, hf⟩ := h b j t n he
  obtain ⟨x, hk, -⟩ := keeps_sequel hs
  exact ⟨Nat.lt_of_lt_of_le ht hk.tickets, f, waits_sequel hs hf⟩

/-- Whose attempts they are does not change within the step. -/
theorem Fresh.attempt?_sequel (h : w.Fresh es) (hs : Sequel a w w') {e : Event} (he : e ∈ es) :
    w'.attempt? m id e = w.attempt? m id e := by
  cases e with
  | entered b j t n =>
    obtain ⟨ht, f, hf⟩ := h b j t n he
    have hw : w'.Works b m t ↔ w.Works b m t := by
      rw [works_of_frame hf, works_of_frame (waits_sequel hs hf)]
    simp only [attempt?, hw, id_sequel hs ht]
  | _ => rfl

theorem Fresh.sequels (h : w.Fresh es) (hs : Sequels a w w') :
    w'.Fresh es ∧ ∀ e ∈ es, w'.attempt? m id e = w.attempt? m id e := by
  induction hs with
  | refl => exact ⟨h, fun _ _ => rfl⟩
  | tail _ hs ih =>
    exact ⟨ih.1.sequel hs, fun e he => (ih.1.attempt?_sequel hs he).trans (ih.2 e he)⟩

theorem attempt?_of_isNote {e : Event} (he : e.isNote a = true) : w.attempt? m id e = none := by
  cases e <;> first | rfl | cases he

/-- A departure is written down and waits. -/
theorem depart_events (w : World) (a m : Nat) (s : Store) (t : Nat) (tally : Option Nat) :
    ∃ f q, f.work = some (m, t) ∧
      (w.depart a m s t tally).pending = w.pending.insert a f ∧
      (w.depart a m s t tally).history =
        [.asked a q, .entered a (s.ticket t).job t (s.ticket t).runs] ++ w.history := by
  obtain ⟨f, q, hf, he⟩ := enter_eq { w with toStore := s } a t (s.ticket t).runs
    (.manager m t (s.ticket t).runs s.uptime tally)
  refine ⟨f, q, ?_, congrArg World.pending he, congrArg World.history he⟩
  rcases hf with ⟨rfl, -⟩ | ⟨rfl, -⟩ <;> rfl

theorem depart_fresh (hc : w.claim m = some (s, t)) (ht : t < w.tickets.size)
    (tally : Option Nat) (q : Hook) :
    (w.depart a m s t tally).Fresh
      [.asked a q, .entered a (s.ticket t).job t (s.ticket t).runs] := by
  obtain ⟨f, _, -, hp, -⟩ := depart_events w a m s t tally
  intro b j u n he
  simp only [List.mem_cons, reduceCtorEq, List.not_mem_nil, or_false, false_or,
    Event.entered.injEq] at he
  obtain ⟨rfl, -, rfl, -⟩ := he
  refine ⟨?_, f, by rw [hp, Table.find?_insert_same]⟩
  rw [toStore_depart]
  exact Nat.lt_of_lt_of_le ht (Store.claim_begins hc).size

theorem attempt?_depart (w : World) (i : Nat) (s : Store) (tally : Option Nat) :
    (w.depart a i s t tally).attempt? m id (.entered a (s.ticket t).job t (s.ticket t).runs) =
      if i = m ∧ (s.ticket t).id = id then some (s.ticket t).runs else none := by
  obtain ⟨f, _, hf, hp, -⟩ := depart_events w a i s t tally
  have hw : (w.depart a i s t tally).Works a m t ↔ i = m := by
    rw [works_of_frame (f := f) (by rw [hp, Table.find?_insert_same]), hf]
    simp
  simp only [attempt?, hw, toStore_depart]

/-- A sequel that begins no attempt under the id adds no event that does. -/
theorem sequel_quiet (h : w.Founded) (hs : Sequel a w w') (hn : ¬Starts m id a w w') :
    ∃ es, w'.history = es ++ w.history ∧ w'.Fresh es ∧ ∀ e ∈ es, w'.attempt? m id e = none := by
  cases hs with
  | wrote ls es he =>
    refine ⟨es, rfl, fun b j t n hb => ?_, fun e hb => attempt?_of_isNote (he e hb)⟩
    cases he _ hb
  | told j t next ha ht hn => exact ⟨[_], rfl, by simp [Fresh], by simp [attempt?]⟩
  | welcomed j t ha => exact ⟨[_], rfl, by simp [Fresh], by simp [attempt?]⟩
  | departed i t s tally ha hc =>
    have hb := Store.claim_begins hc
    obtain ⟨_, q, -, -, hh⟩ := depart_events w a i s t tally
    refine ⟨_, hh, depart_fresh hc (h.store.known i t (.inl hb.queued)) tally q, fun e he => ?_⟩
    rcases List.mem_cons.mp he with rfl | he
    · rfl
    · rw [List.mem_singleton.mp he, attempt?_depart, if_neg]
      rintro ⟨rfl, hid⟩
      exact hn ⟨t, s, tally, ha, hc, by rw [← hid, hb.ticket], rfl⟩

/-- An observer follows the attempts of an id through what follows a move. What it relies on
must hold up when nothing begins, and it must expect every attempt that does. -/
theorem Sequels.observe {σ : Type} {f : σ → Int → Option σ} {R : σ → World → Prop}
    (quiet : ∀ x w w', w.Sound m → R x w → Sequel a w w' → ¬Starts m id a w w' → R x w')
    (starts : ∀ x w t s tally, w.Sound m → R x w → w.Active a → w.claim m = some (s, t) →
      (w.ticket t).id = id →
      ∃ x', f x (s.ticket t).runs = some x' ∧ R x' (w.depart a m s t tally))
    (h : w.Sound m) (hs : Sequels a w w') {x : σ} (hx : R x w) :
    ∃ es x', w'.history = es ++ w.history ∧ w'.Fresh es ∧
      (es.reverse.filterMap (w'.attempt? m id)).foldlM f x = some x' ∧ R x' w' := by
  induction hs with
  | refl => exact ⟨[], x, rfl, by simp [Fresh], rfl, hx⟩
  | @tail v w' hv hs ih =>
    obtain ⟨es, y, hh, hf, hy, hr⟩ := ih
    have hsound := h.sequels hv
    have hold : es.reverse.filterMap (w'.attempt? m id) =
        es.reverse.filterMap (v.attempt? m id) :=
      List.filterMap_congr fun e he => hf.attempt?_sequel hs (List.mem_reverse.mp he)
    have join {es' : List Event} (hf' : w'.Fresh es') : w'.Fresh (es' ++ es) := by
      intro b j t n he
      rcases List.mem_append.mp he with he | he
      · exact hf' b j t n he
      · exact (hf.sequel hs) b j t n he
    by_cases hn : Starts m id a v w'
    · obtain ⟨t, s, tally, ha, hc, hid, rfl⟩ := hn
      have hb := Store.claim_begins hc
      have ht := hsound.founded.store.known m t (.inl hb.queued)
      obtain ⟨_, q, -, -, hh'⟩ := depart_events v a m s t tally
      obtain ⟨z, hz, hrz⟩ := starts y v t s tally hsound hr ha hc hid
      refine ⟨_, z, by rw [hh', hh, List.append_assoc], join (depart_fresh hc ht tally q), ?_, hrz⟩
      have hsid : (s.ticket t).id = id := by rw [hb.ticket]; exact hid
      have hnew : [Event.asked a q, .entered a (s.ticket t).job t (s.ticket t).runs].reverse.filterMap
          ((v.depart a m s t tally).attempt? m id) = [(s.ticket t).runs] := by
        change List.filterMap _ [Event.entered .., Event.asked ..] = _
        rw [List.filterMap_cons, attempt?_depart, if_pos ⟨rfl, hsid⟩]
        rfl
      rw [List.reverse_append, List.filterMap_append, hold, hnew, List.foldlM_append, hy]
      simp [hz]
    · obtain ⟨es', hh', hf', hnone⟩ := sequel_quiet hsound.founded hs hn
      refine ⟨es' ++ es, y, by rw [hh', hh, List.append_assoc], join hf', ?_,
        quiet y v w' hsound hr hs hn⟩
      have hnil : es'.reverse.filterMap (w'.attempt? m id) = [] :=
        List.filterMap_eq_nil_iff.mpr fun e he => hnone e (List.mem_reverse.mp he)
      rw [List.reverse_append, List.filterMap_append, hold, hnil, List.append_nil, hy]

/-- What a move does at once begins no attempt of a manager and ends no operation. -/
theorem effect_events (m : Nat) (id : String) (w : World) (mv : Move) :
    ∃ es, (w.effect mv).history = es ++ w.history ∧ (w.effect mv).Fresh es ∧
      ∀ e ∈ es, (w.effect mv).attempt? m id e = none ∧ ∀ b, e.isNote b = false := by
  have still {v : World} (hv : v.history = w.history) : ∃ es, v.history = es ++ w.history ∧
      v.Fresh es ∧ ∀ e ∈ es, v.attempt? m id e = none ∧ ∀ b, e.isNote b = false :=
    ⟨[], hv, nofun, nofun⟩
  have ask {v : World} {a : Nat} {f : Frame} {q : Hook} (hv : v.history = w.history) :
      ∃ es, (v.ask a f q).history = es ++ w.history ∧ (v.ask a f q).Fresh es ∧
        ∀ e ∈ es, (v.ask a f q).attempt? m id e = none ∧ ∀ b, e.isNote b = false :=
    ⟨[.asked a q], congrArg _ hv, by simp [Fresh], by simp [attempt?, Event.isNote]⟩
  cases mv with
  | call c =>
    simp only [effect]
    split
    · rename_i hc
      cases c with
      | run t n =>
        obtain ⟨f, q, hf, he⟩ := enter_eq { w with calls := w.calls + 1 } w.calls t n .client
        have hp : (World.enter { w with calls := w.calls + 1 } w.calls t n
            .client).pending.find? w.calls = some f :=
          (congrArg (·.pending.find? w.calls) he).trans (Table.find?_insert_same ..)
        have hwork : f.work = none := by rcases hf with ⟨rfl, -⟩ | ⟨rfl, -⟩ <;> rfl
        refine ⟨[.asked w.calls q, .entered w.calls (w.ticket t).job t n], congrArg _ he,
          fun b j u i hb => ?_, fun e hb => ?_⟩
        · simp only [List.mem_cons, reduceCtorEq, List.not_mem_nil, or_false, false_or,
            Event.entered.injEq] at hb
          obtain ⟨rfl, -, rfl, -⟩ := hb
          rw [toStore_begin]
          exact ⟨of_decide_eq_true hc, f, hp⟩
        · rcases List.mem_cons.mp hb with rfl | hb
          · exact ⟨rfl, fun _ => rfl⟩
          · rw [List.mem_singleton.mp hb]
            refine ⟨if_neg fun hw => ?_, fun _ => rfl⟩
            have := (works_of_frame hp).mp hw.1
            rw [hwork] at this
            cases this
      | attempt t n => exact ask rfl
      | _ => exact still rfl
    · exact still rfl
  | reply a r =>
    obtain ⟨-, es, hh, hq⟩ := history_reply w a r
    refine ⟨es, hh, fun b j t n he => ?_, fun e he => ?_⟩
    · obtain ⟨q, hq⟩ := hq _ he
      cases hq
    · obtain ⟨q, rfl⟩ := hq e he
      exact ⟨rfl, fun _ => rfl⟩
  | clock now => exact still rfl
  | elapse nanos => exact still rfl

/-- What an observer relies on after the effect of a move it relies on after the step. -/
theorem step_observe {σ : Type} {f : σ → Int → Option σ} {R : σ → World → Prop}
    (quiet : ∀ a x w w', w.Sound m → R x w → Sequel a w w' → ¬Starts m id a w w' → R x w')
    (starts : ∀ a x w t s tally, w.Sound m → R x w → w.Active a → w.claim m = some (s, t) →
      (w.ticket t).id = id →
      ∃ x', f x (s.ticket t).runs = some x' ∧ R x' (w.depart a m s t tally))
    (h : w.Sound m) {mv : Move} (hl : lawful m w mv) {x : σ} (hx : R x (w.effect mv)) :
    ∃ x', (w.begun m id mv).foldlM f x = some x' ∧ R x' (w.step mv) := by
  obtain ⟨es, hh, hf, hnone⟩ := effect_events m id w mv
  obtain ⟨es', x', hh', hf', hx', hr⟩ := Sequels.observe (quiet _) (starts _) (h.effect hl)
    (step_sequels h.founded mv) hx
  refine ⟨x', ?_, hr⟩
  have hnil : es.reverse.filterMap ((w.step mv).attempt? m id) = [] := by
    apply List.filterMap_eq_nil_iff.mpr
    intro e he
    have he := List.mem_reverse.mp he
    rw [(hf.sequels (step_sequels h.founded mv)).2 e he, (hnone e he).1]
  rw [begun, news_eq (by rw [hh', hh, ← List.append_assoc]), List.reverse_append,
    List.filterMap_append, hnil, List.nil_append, hx']

end Backlog.World
