import Backlog.Proofs.Calls
import Backlog.Proofs.Replies
import Backlog.Proofs.Runs
import Backlog.Proofs.Steps

/-!
# Worlds in order

Tickets stay in order whatever happens, and the operations that wait concern tickets that
exist.
-/

namespace Backlog

namespace World

variable {w w' v : World} {a b m t : Nat}

/-- An attempt that begins waits at once. -/
theorem enter_eq (w : World) (a t : Nat) (n : Int) (k : Caller) : ∃ f h,
    (f = .attempt k ∧ (w.job (w.ticket t).job).custom = true ∨
      f = .body (w.ticket t).job t n k ∧ (w.job (w.ticket t).job).custom = false) ∧
    w.enter a t n k = (w.emit (.entered a (w.ticket t).job t n)).ask a f h := by
  simp only [enter]
  split
  · rename_i hc
    exact ⟨_, _, .inl ⟨rfl, hc⟩, rfl⟩
  · rename_i hc
    exact ⟨_, _, .inr ⟨rfl, by simpa using hc⟩, rfl⟩

@[simp] theorem toStore_enter (w : World) (a t : Nat) (n : Int) (k : Caller) :
    (w.enter a t n k).toStore = w.toStore := by
  obtain ⟨f, h, -, he⟩ := enter_eq w a t n k
  rw [he]
  rfl

theorem works_enter {n : Int} {k : Caller} {u : Nat} :
    (w.enter a u n k).Works b m t ↔ b = a ∧ k.work = some (m, t) ∨ b ≠ a ∧ w.Works b m t := by
  obtain ⟨f, h, hf, he⟩ := enter_eq w a u n k
  rw [he, works_ask]
  rcases hf with ⟨rfl, -⟩ | ⟨rfl, -⟩ <;> rfl

theorem toStore_depart (w : World) (a i : Nat) (s : Store) (t : Nat) (tally : Option Nat) :
    (w.depart a i s t tally).toStore = s := toStore_enter ..

theorem works_depart {i u : Nat} {s : Store} {tally : Option Nat} :
    (w.depart a i s u tally).Works b m t ↔
      b = a ∧ some (i, u) = some (m, t) ∨ b ≠ a ∧ w.Works b m t := works_enter

/-- An operation that does no work adds none to what the others do. -/
theorem works_elsewhere {c p : Prop} (hc : ¬c) (hp : b = a → ¬p) :
    b = a ∧ c ∨ b ≠ a ∧ p ↔ p := by
  constructor
  · intro h
    rcases h with ⟨-, h⟩ | ⟨-, h⟩
    · exact absurd h hc
    · exact h
  · intro h
    exact .inr ⟨fun hb => hp hb h, h⟩

/-- An operation that did no work and is asked for none works for nobody. -/
theorem works_ask_idle {f : Frame} {q : Hook} (hp : v.pending = w.pending)
    (ha : w.pending.find? a = none) (hf : f.work = none) :
    (v.ask a f q).Works b m t ↔ w.Works b m t := by
  rw [works_ask, hf, Works, hp]
  apply works_elsewhere (Option.some_ne_none _).symm
  rintro rfl
  exact not_works ha

/-- An attempt that one manager begins is no work for another. -/
theorem works_depart_other {i u : Nat} {s : Store} {tally : Option Nat} (hi : i ≠ m)
    (ha : w.pending.find? a = none) :
    (w.depart a i s u tally).Works b m t ↔ w.Works b m t := by
  refine works_depart.trans (works_elsewhere ?_ ?_)
  · rintro ⟨⟩
    exact hi rfl
  · rintro rfl
    exact not_works ha

/-- Calls that run an attempt do nothing to the store at once. -/
theorem toStore_begin (w : World) (a : Nat) (c : Call) :
    (w.begin a c).toStore = w.toStore.call c := by
  cases c with
  | run t n => exact toStore_enter ..
  | _ => rfl

/-- What a call does at once is what it does to the store, unless it names no object. -/
theorem effect_call (w : World) (c : Call) :
    c.inScope w.toStore = true ∧ (w.effect (.call c)).toStore = w.toStore.call c ∨
      w.effect (.call c) = w := by
  simp only [effect]
  split
  · rename_i hc
    exact .inl ⟨hc, toStore_begin ..⟩
  · exact .inr rfl

/-- No call begins or ends an attempt of a manager at once. -/
theorem works_call (h : w.Founded) (c : Call) : (w.effect (.call c)).Works b m t ↔ w.Works b m t := by
  have client {p : Prop} (hp : p ↔ b = w.calls ∧ none = some (m, t) ∨ b ≠ w.calls ∧ w.Works b m t) :
      p ↔ w.Works b m t := by
    refine hp.trans (works_elsewhere (Option.some_ne_none _).symm ?_)
    rintro rfl hb
    obtain ⟨f, hf, -⟩ := Option.bind_eq_some_iff.mp hb
    exact Nat.lt_irrefl _ (h.numbered _ f hf)
  simp only [effect]
  split
  · cases c with
    | run t n => exact client works_enter
    | attempt t n => exact client works_ask
    | _ => exact .rfl
  · exact .rfl

namespace Founded

theorem start (now : Int) : (start now).Founded where
  store := {
    job := nofun
    named := nofun
    known := fun _ _ h => absurd ((Manager.knows_congr rfl rfl rfl).mp h) Manager.knows_default
    queued := fun _ _ h => nomatch h }
  numbered := nofun
  coherent := nofun
  works := nofun

/-- An operation that was begun waits in a new frame. -/
theorem ask (h : w.Founded) (ha : a < w.calls) {f : Frame} (hf : f.Coherent)
    (hw : ∀ m t, f.work = some (m, t) → t < w.tickets.size) (k : Hook) :
    (w.ask a f k).Founded where
  store := h.store
  numbered b g hb := by
    change (w.pending.insert a f).find? b = some g at hb
    rcases Table.find?_of_insert hb with ⟨rfl, -⟩ | hb
    · exact ha
    · exact h.numbered b g hb
  coherent b g hb := by
    change (w.pending.insert a f).find? b = some g at hb
    rcases Table.find?_of_insert hb with ⟨-, rfl⟩ | hb
    · exact hf
    · exact h.coherent b g hb
  works b m t hb := by
    rcases works_ask.mp hb with ⟨-, hb⟩ | ⟨-, hb⟩
    · exact hw m t hb
    · exact h.works b m t hb

theorem enter (h : w.Founded) (ha : a < w.calls) (n : Int) {k : Caller}
    (hk : ∀ j, (Frame.body j t n k).Coherent)
    (hw : ∀ m u, k.work = some (m, u) → u < w.tickets.size) : (w.enter a t n k).Founded := by
  obtain ⟨f, q, hf, he⟩ := enter_eq w a t n k
  have hm : (w.emit (.entered a (w.ticket t).job t n)).Founded :=
    ⟨h.store, h.numbered, h.coherent, h.works⟩
  rw [he]
  rcases hf with ⟨rfl, -⟩ | ⟨rfl, -⟩
  · exact hm.ask ha (f := .attempt k) trivial hw q
  · exact hm.ask ha (hk _) hw q

/-- The store changes, and no operation does. -/
theorem withStore (h : w.Founded) {s : Store} (hs : s.Founded)
    (hz : w.tickets.size ≤ s.tickets.size) : Founded { w with toStore := s } where
  store := hs
  numbered := h.numbered
  coherent := h.coherent
  works b m t hb := Nat.lt_of_lt_of_le (h.works b m t hb) hz

theorem erase (h : w.Founded) (a : Nat) : Founded { w with pending := w.pending.erase a } where
  store := h.store
  numbered b f hb := h.numbered b f (Table.find?_of_erase hb)
  coherent b f hb := h.coherent b f (Table.find?_of_erase hb)
  works b m t hb := by
    simp only [Works] at hb
    obtain ⟨f, hf, hw⟩ := Option.bind_eq_some_iff.mp hb
    exact h.works b m t (by rw [Works, Table.find?_of_erase hf]; exact hw)

theorem sequel (h : w.Founded) (hs : Sequel a w w') : w'.Founded := by
  cases hs with
  | wrote ls es he =>
    have hl : Store.Founded { w.toStore with loggers := ls } :=
      h.store.keepSame (Store.keeps_of_eq rfl rfl) rfl rfl rfl
    exact ⟨hl, h.numbered, h.coherent, h.works⟩
  | told j t next ha ht hn =>
    have hk := h.store.onTicket ht (f := ({ · with notified := true })) (h.store.job t ht)
      (h.store.named t ht)
    have hz := Nat.le_of_eq (Store.size_onTicket (f := ({ · with notified := true })) ht).symm
    exact (h.withStore hk hz).ask ha.1 (f := .told next) trivial nofun _
  | welcomed j t ha =>
    exact h.ask ha.1 (f := .told (.give (.flag true))) trivial nofun _
  | departed m t s tally ha hc =>
    have hb := Store.claim_begins hc
    have ht := h.store.known m t (.inl hb.queued)
    refine (h.withStore (h.store.claim hc) hb.size).enter ha.1 _ (fun _ => ⟨rfl, rfl⟩) ?_
    rintro _ _ ⟨⟩
    exact Nat.lt_of_lt_of_le ht hb.size

theorem sequels (h : w.Founded) (hs : Sequels a w w') : w'.Founded := by
  induction hs with
  | refl => exact h
  | tail _ hs ih => exact ih.sequel hs

theorem close (h : w.Founded) {k : Caller}
    (hk : ∀ m t, k.work = some (m, t) → t < w.tickets.size) (o : Outcome) :
    (w.close k o).Founded := by
  cases k with
  | client => exact h
  | manager m t n since tally =>
    exact h.withStore (h.store.settle (hk m t rfl) o) (Store.keeps_settle (x := none) ..).tickets

theorem replanned (h : w.Founded) (hv : w.Replanned v) : v.Founded := by
  obtain ⟨jobs, rfl, hk⟩ := hv
  exact h.withStore (h.store.keepSame hk rfl rfl rfl) (Nat.le_refl _)

theorem heard (h : w.Founded) (ha : a < w.calls) {f : Frame} (hf : f.Coherent)
    (hw : ∀ m t, f.work = some (m, t) → t < w.tickets.size) (hh : Heard w a f w') :
    w'.Founded := by
  cases hh with
  | closed v k o hv hk =>
    refine (h.replanned hv).close (fun m t ht => ?_) o
    rw [hv.tickets]
    exact hw m t (hk ▸ ht)
  | asked v g q hv hg hc =>
    have hcalls : v.calls = w.calls := by
      obtain ⟨jobs, rfl, -⟩ := hv
      rfl
    refine (h.replanned hv).ask (hcalls ▸ ha) (hc hf) (fun m t ht => ?_) q
    rw [hv.tickets]
    exact hw m t (hg ▸ ht)
  | passed hn => exact h

theorem effect (h : w.Founded) (mv : Move) : (w.effect mv).Founded := by
  cases mv with
  | call c =>
    simp only [World.effect]
    split
    · rename_i hc
      have hs : Founded { w with calls := w.calls + 1 } :=
        ⟨h.store, fun a f hf => Nat.lt_succ_of_lt (h.numbered a f hf), h.coherent, h.works⟩
      have hcall := h.store.call hc
      cases c with
      | run t n => exact hs.enter (Nat.lt_succ_self _) n (fun _ => trivial) fun _ _ hk => by cases hk
      | attempt t n =>
        exact hs.ask (Nat.lt_succ_self _) (f := .body _ t n .client) trivial
          (fun _ _ hk => by cases hk) _
      | _ => exact hs.withStore hcall (Store.keeps_call ..).tickets
    · exact h
  | reply a r =>
    rcases effect_reply w a r with he | ⟨f, hf, hh⟩
    · rw [he]
      exact h
    · refine (h.erase a).heard (h.numbered a f hf) (h.coherent a f hf) (fun m t hw => ?_) hh
      exact h.works a m t ((works_of_frame hf).mpr hw)
  | clock now =>
    have hs : Store.Founded { w.toStore with now } :=
      h.store.keepSame (Store.keeps_of_eq rfl rfl) rfl rfl rfl
    exact ⟨hs, h.numbered, h.coherent, h.works⟩
  | elapse nanos =>
    have hs : Store.Founded { w.toStore with uptime := w.uptime + nanos } :=
      h.store.keepSame (Store.keeps_of_eq rfl rfl) rfl rfl rfl
    exact ⟨hs, h.numbered, h.coherent, h.works⟩

theorem step (h : w.Founded) (mv : Move) : (w.step mv).Founded :=
  (h.effect mv).sequels (step_sequels h mv)

theorem run (h : w.Founded) (moves : List Move) : (w.run moves).Founded :=
  (along_true w moves).run (I := Founded) (fun _ mv h _ => h.step mv) h

end Founded

theorem Reachable.founded (h : Reachable w) : w.Founded :=
  h.induction Founded.start fun _ mv hw => hw.step mv

end World

end Backlog
