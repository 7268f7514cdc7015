import Backlog.Proofs.Departures
import Backlog.Proofs.Draining
import Backlog.Proofs.Queues
import Backlog.Proofs.Rulings

/-!
# Running until idle

An operation that runs a manager until it is idle waits in its last attempt, or until a job
was told of its end, or it has ended itself. Each attempt takes three replies at most. The
operation ends normally when nothing can run, and then returns how many attempts it began.
-/

namespace Backlog

/-- An attempt begins for operation `a`. -/
def Event.enters (a : Nat) : Event → Bool
  | .entered b .. => b == a
  | _ => false

/-- The manager that is run until it is idle, and how many attempts were begun by now. -/
def Next.drives : Next → Option (Nat × Nat)
  | .proceed m _ (some i) => some (m, i + 1)
  | _ => none

def Caller.drives : Caller → Option (Nat × Nat)
  | .manager m _ _ _ (some i) => some (m, i + 1)
  | _ => none

def Frame.drives : Frame → Option (Nat × Nat)
  | .told next => next.drives
  | .attempt k | .body _ _ _ k | .plan _ _ _ _ k => k.drives

/-- How many replies the last attempt has had by then, at most. -/
def Frame.stage : Frame → Nat
  | .attempt _ | .body .. => 0
  | .plan .. => 1
  | .told _ => 2

@[simp] theorem Caller.drives_next (k : Caller) (o : Outcome) : (k.next o).drives = k.drives := by
  cases k with
  | client => rfl
  | manager m t n since tally => cases tally <;> rfl

theorem Next.eq_of_drives {next : Next} {m k : Nat} (h : next.drives = some (m, k)) :
    ∃ o i, next = .proceed m o (some i) ∧ k = i + 1 := by
  cases next with
  | give v => cases h
  | proceed i o tally =>
    cases tally with
    | none => cases h
    | some n =>
      obtain ⟨rfl, rfl⟩ := Prod.mk.inj (Option.some.inj h)
      exact ⟨o, n, rfl, rfl⟩

theorem Frame.stage_le (f : Frame) : f.stage ≤ 2 := by cases f <;> simp [stage]

theorem Caller.work_of_drives {k : Caller} {m n : Nat} (h : k.drives = some (m, n)) :
    ∃ t, k.work = some (m, t) := by
  cases k with
  | client => cases h
  | manager i t n since tally =>
    cases tally with
    | none => cases h
    | some i => exact ⟨t, by rw [← (Prod.mk.inj (Option.some.inj h)).1]; rfl⟩

theorem Frame.work_of_drives {f : Frame} {m n i t : Nat} (hd : f.drives = some (m, n))
    (hw : f.work = some (i, t)) : i = m := by
  have same {k : Caller} (hd : k.drives = some (m, n)) (hw : k.work = some (i, t)) : i = m := by
    obtain ⟨u, hu⟩ := Caller.work_of_drives hd
    exact (Prod.mk.inj (Option.some.inj (hw.symm.trans hu))).1
  cases f with
  | told next => cases hw
  | _ => exact same hd hw

abbrev Move.runUntilIdle (m : Nat) : Move := .call (.manager m .runUntilIdle)

namespace World

variable {w w' u v e : World} {a b m k t : Nat} {f : Frame} {r : Reply} {mv : Move}

/-- How many attempts were begun for operation `a`. -/
def tries (w : World) (a : Nat) : Nat := w.history.countP (·.enters a)

theorem tries_eq {l : List Event} (h : w'.history = l ++ w.history)
    (hn : ∀ e ∈ l, e.enters a = false) : w'.tries a = w.tries a := by
  rw [tries, h, List.countP_append, List.countP_eq_zero.mpr (by simpa using hn), Nat.zero_add]
  rfl

theorem Wrote.tries (h : Wrote b w w') (a : Nat) : w'.tries a = w.tries a := by
  obtain ⟨ls, es, he, rfl⟩ := h
  refine tries_eq rfl fun e hm => ?_
  have hn := he e hm
  cases e <;> first | rfl | cases hn

/-- The effect of a move begins no attempt for another operation. -/
theorem tries_effect (hne : ∀ c, mv = .call c → a ≠ w.calls) :
    (w.effect mv).tries a = w.tries a := by
  have still {v : World} (hv : v.history = w.history) : v.tries a = w.tries a :=
    tries_eq (l := []) hv nofun
  cases mv with
  | call c =>
    simp only [effect]
    split
    · cases c with
      | run t n =>
        obtain ⟨f, q, -, he⟩ := enter_eq { w with calls := w.calls + 1 } w.calls t n .client
        refine tries_eq (l := [.asked w.calls q, .entered w.calls (w.ticket t).job t n])
          (congrArg World.history he) ?_
        simp [Event.enters, Ne.symm (hne _ rfl)]
      | attempt t n => exact tries_eq (l := [_]) rfl (by simp [Event.enters])
      | _ => exact still rfl
    · exact still rfl
  | reply b r =>
    obtain ⟨-, es, hh, hq⟩ := history_reply w b r
    refine tries_eq hh fun e he => ?_
    obtain ⟨q, rfl⟩ := hq e he
    rfl
  | clock now => exact still rfl
  | elapse nanos => exact still rfl

theorem tries_reply (w : World) (a b : Nat) (r : Reply) :
    (w.effect (.reply b r)).tries a = w.tries a :=
  tries_effect fun c hc => by cases hc

theorem tries_sequel (hs : Sequel b w w') (hne : a ≠ b) : w'.tries a = w.tries a := by
  cases hs with
  | wrote ls es he => exact Wrote.tries ⟨ls, es, he, rfl⟩ a
  | told j t next ha ht hn => exact tries_eq (l := [_]) rfl (by simp [Event.enters])
  | welcomed j t ha => exact tries_eq (l := [_]) rfl (by simp [Event.enters])
  | departed i t s tally ha hc =>
    obtain ⟨_, q, -, -, hh⟩ := depart_events w b i s t tally
    exact tries_eq hh (by simp [Event.enters, Ne.symm hne])

/-- Other operations begin no attempts for this one. -/
theorem tries_other (h : w.Founded) (hne : a ≠ w.acting mv) :
    (w.step mv).tries a = w.tries a := by
  have he : (w.effect mv).tries a = w.tries a := tries_effect fun c hc => by
    subst hc
    exact hne
  rw [← he]
  have hs := step_sequels h mv
  generalize w.step mv = w' at hs
  induction hs with
  | refl => rfl
  | tail _ hs ih => exact (tries_sequel hs hne).trans ih

/-- No attempts were begun for operations that were not. -/
theorem tries_of_calls_le {P : World → Move → Prop} (h : ReachableBy P w) (ha : w.calls ≤ a) :
    w.tries a = 0 := by
  suffices w.Founded ∧ ∀ a, w.calls ≤ a → w.tries a = 0 from this.2 a ha
  refine h.induction (I := fun w => w.Founded ∧ ∀ a, w.calls ≤ a → w.tries a = 0)
    (fun now => ⟨.start now, fun _ _ => rfl⟩) fun w mv ⟨hf, hw⟩ _ =>
    ⟨hf.step mv, fun a ha => ?_⟩
  have hold := hw a (Nat.le_trans (calls_le_step hf mv) ha)
  rcases acting_ne hf mv ha with hh | hne
  · rw [tries, hh]
    exact hold
  · rw [tries_other hf hne, hold]

/-- Operation `a` runs manager `m` on after `k` attempts: nothing can run and it returns their
number, or it begins one more. -/
inductive Proceeds (m a k : Nat) (w w' : World) : Prop
  | idle (hs : ∃ ls, w'.toStore = w.toStore.logging ls)
    (hi : (w'.manager m).ready? w'.ticket (w'.time m) = none)
    (hp : w'.pending.find? a = none) (hk : w'.tries a = w.tries a)
    (ha : w'.answers a = .returned a (.count k) :: w.answers a)
  | departs (t : Nat) (f : Frame) (hd : w.Departs m a t w') (hf : w'.pending.find? a = some f)
    (hdr : f.drives = some (m, k + 1)) (hst : f.stage = 0) (hk : w'.tries a = w.tries a + 1)
    (ha : w'.answers a = w.answers a)

theorem depart_drives (w : World) (a m : Nat) (s : Store) (t k : Nat) :
    ∃ f, (w.depart a m s t (some k)).pending.find? a = some f ∧ f.drives = some (m, k + 1) ∧
      f.stage = 0 ∧ (w.depart a m s t (some k)).tries a = w.tries a + 1 ∧
      (w.depart a m s t (some k)).answers a = w.answers a := by
  obtain ⟨f, q, hf, he⟩ := enter_eq { w with toStore := s } a t (s.ticket t).runs
    (.manager m t (s.ticket t).runs s.uptime (some k))
  have hh : (w.depart a m s t (some k)).history =
      [.asked a q, .entered a (s.ticket t).job t (s.ticket t).runs] ++ w.history :=
    congrArg World.history he
  have hp : (w.depart a m s t (some k)).pending = w.pending.insert a f := congrArg World.pending he
  refine ⟨f, by rw [hp, Table.find?_insert_same], ?_, ?_, ?_, answers_eq hh (by simp [Event.ends])⟩
  · rcases hf with ⟨rfl, -⟩ | ⟨rfl, -⟩ <;> rfl
  · rcases hf with ⟨rfl, -⟩ | ⟨rfl, -⟩ <;> rfl
  · simp [tries, hh, Event.enters, Nat.add_comm]

theorem next_proceeds (ha : w.Active a) (m k : Nat) : Proceeds m a k w (w.next a m (some k)) := by
  cases hc : w.claim m with
  | none =>
    have hw : w.next a m (some k) = w.give a (.count k) := by
      simp only [next]
      rw [hc]
      rfl
    rw [hw]
    have hr := Store.ready?_eq_claim w.toStore m
    rw [hc] at hr
    exact .idle ⟨w.loggers, rfl⟩ hr ha.2 ((wrote_give w a _).tries a) (answers_give ..)
  | some p =>
    obtain ⟨s, t⟩ := p
    obtain ⟨_, ⟨ls, es, he, rfl⟩, hans, hn⟩ := next_claimed hc a (some k)
    obtain ⟨x, hx⟩ : ∃ x : World, x = { w with loggers := ls, history := es ++ w.history } :=
      ⟨_, rfl⟩
    have hwx : Wrote a w x := ⟨ls, es, he, hx⟩
    have hxc : x.claim m = some (s.logging ls, t) := hx ▸ Store.claim_logging hc ls
    have hw : w.next a m (some k) = x.depart a m (s.logging ls) t (some k) := by
      rw [hn, hx]
      rfl
    obtain ⟨f, hf, hdr, hst, hk, hxa⟩ := depart_drives x a m (s.logging ls) t k
    rw [hw]
    refine .departs t f ((departs_depart (hwx.active ha) hxc (some k)).wrote hwx (.refl a _)) hf hdr
      hst (hk.trans (by rw [hwx.tries])) (hxa.trans ?_)
    rw [← hans, hx]
    rfl

/-- Lines before do not matter. -/
theorem Proceeds.logged (h : Proceeds m a k u w') (hu : w.Logged u) : Proceeds m a k w w' := by
  have hk := (hu.wrote a).tries a
  have ha := hu.answers a
  cases h with
  | idle hs hi hp hkw haw =>
    obtain ⟨ls, es, -, rfl⟩ := hu
    exact .idle hs hi hp (hkw.trans hk) (by rw [haw, ha])
  | departs t f hd hf hdr hst hkw haw =>
    exact .departs t f (hd.wrote (hu.wrote a) (.refl a _)) hf hdr hst (by rw [hkw, hk])
      (haw.trans ha)

theorem Rules.drives {o : Outcome} {c : Caller} (h : w.Rules f r v c o) :
    c.drives = f.drives ∧ f.stage < 2 := by
  cases h <;> exact ⟨rfl, by simp [Frame.stage]⟩

/-- To settle an attempt answers nobody and lets nobody go on. -/
theorem Rules.closed {o : Outcome} {c : Caller} (h : w.Rules f r v c o)
    (hu : (v.close c o).Logged u) (a : Nat) :
    u.pending = w.pending ∧ u.calls = w.calls ∧ u.tries a = w.tries a ∧
      u.answers a = w.answers a := by
  have ht := (hu.wrote a).tries a
  have ha := hu.answers a
  obtain ⟨jobs, rfl, -⟩ := h.replanned
  obtain ⟨ls, es, -, rfl⟩ := hu
  exact ⟨rfl, rfl, ht, ha⟩

/-- What a reply to operation `a`, which runs manager `m` and has begun `k` attempts, leads to from
its effect `e`: the operation waits again for the same attempt, it proceeds, or it ends with a
fault. -/
inductive Onward (m a k : Nat) (f : Frame) (r : Reply) (w e w' : World) : Prop
  | waits (g : Frame) (hg : w'.pending.find? a = some g) (hd : g.drives = some (m, k))
    (hs : f.stage < g.stage) (hm : w'.manager m = e.manager m) (hk : w'.tries a = w.tries a)
    (ha : w'.answers a = w.answers a)
    (hj : ∀ j t n reason c, g = .plan j t n reason c →
      f = .body j t n c ∧ n < (w.job j).retryLimit ∧ w'.manager m = w.manager m)
    (hw : ∀ c, g ≠ .attempt c)
  | proceeds (h : Proceeds m a k e w')
  | raised (x : Fault)
    (hx : (∃ next y, f = .told next ∧ r = .threw y ∧ x = .thrown y) ∨
      ∃ t, f.work = some (m, t) ∧ (w.ticket t).runs < 0)
    (hm : w'.manager m = e.manager m) (hp : w'.pending.find? a = none)
    (hk : w'.tries a = w.tries a) (ha : w'.answers a = .raised a x :: w.answers a)

theorem reply_onward (h : w.Founded) (hf : w.pending.find? a = some f)
    (hd : f.drives = some (m, k)) (hr : f.takes r = true) :
    Onward m a k f r w (w.effect (.reply a r)) (w.step (.reply a r)) := by
  rw [effect_taken hf hr, step_taken hf hr]
  obtain ⟨x, hx⟩ : ∃ x : World, x = { w with pending := w.pending.erase a } := ⟨_, rfl⟩
  have hact : x.Active a := by
    rw [hx]
    exact ⟨h.numbered a f hf, Table.find?_erase_same ..⟩
  have hk : x.tries a = w.tries a := by rw [hx]; rfl
  have ha : x.answers a = w.answers a := by rw [hx]; rfl
  rw [← hx]
  have hres := resumes (w := x) hr a
  generalize x.hear a f r = e, x.resume a f r = w' at hres ⊢
  cases hres with
  | asked j t n reason c q hfr hl =>
    subst hfr
    refine .waits (.plan j t n reason c) (Table.find?_insert_same ..) hd Nat.zero_lt_one rfl
      ?_ ?_ ?_ fun d hd => by cases hd
    · exact (tries_eq (w := x) (l := [.asked a q]) rfl (by simp [Event.enters])).trans hk
    · exact (answers_eq (w := x) (l := [.asked a q]) rfl (by simp [Event.ends])).trans ha
    · rintro _ _ _ _ _ ⟨⟩
      exact ⟨rfl, by rw [hx] at hl; exact hl, by rw [hx]; rfl⟩
  | threw next y hfr hr =>
    refine .raised (.thrown y) (.inl ⟨next, y, hfr, hr, rfl⟩) rfl hact.2 ?_ ?_
    · exact ((wrote_raise x a _).tries a).trans hk
    · rw [answers_raise, ha]
  | done next hfr hr =>
    subst hfr
    obtain ⟨o, i, rfl, rfl⟩ := Next.eq_of_drives hd
    exact .proceeds (next_proceeds hact m (i + 1))
  | failed u v c o i t fault hv hc hs hu =>
    obtain ⟨hpu, -, hku, hau⟩ := hv.closed hu a
    have hwork : f.work = some (i, t) := hv.work.symm.trans hc
    obtain rfl := Frame.work_of_drives hd hwork
    have made : t < v.tickets.size := by
      rw [hv.replanned.tickets, hx]
      exact h.works a i t ((works_of_frame hf).mpr hwork)
    have hneg := Store.settle_error made hs
    rw [hv.replanned.ticket, hx] at hneg
    refine .raised fault (.inr ⟨t, hwork, hneg⟩) ?_ ?_ ?_ ?_
    · obtain ⟨ls, es, -, rfl⟩ := hu
      rfl
    · exact (congrArg (·.find? a) hpu).trans hact.2
    · exact ((wrote_raise u a _).tries a).trans (hku.trans hk)
    · rw [answers_raise, hau, ha]
  | told u v c o i t j hv hc hu hn =>
    obtain ⟨-, -, hku, hau⟩ := hv.closed hu a
    refine .waits (.told (c.next o)) (Table.find?_insert_same ..) ?_ hv.drives.2 ?_ ?_ ?_
      (fun _ _ _ _ _ hg => by cases hg) fun d hd => by cases hd
    · exact (Caller.drives_next c o).trans (hv.drives.1.trans hd)
    · obtain ⟨ls, es, -, rfl⟩ := hu
      rfl
    · exact (tries_eq (w := u) (l := [_]) rfl (by simp [Event.enters])).trans (hku.trans hk)
    · exact (answers_eq (w := u) (l := [_]) rfl (by simp [Event.ends])).trans (hau.trans ha)
  | went u v c o hv hu =>
    obtain ⟨hpu, hcu, -, -⟩ := hv.closed hu a
    have hact : u.Active a := ⟨hcu ▸ hact.1, (congrArg (·.find? a) hpu).trans hact.2⟩
    obtain ⟨o', i, hnext, rfl⟩ := Next.eq_of_drives
      ((Caller.drives_next c o).trans (hv.drives.1.trans hd))
    rw [hnext]
    exact .proceeds ((next_proceeds hact m (i + 1)).logged hu)

/-- The reply that operation `a` takes by the move. -/
def taken (a : Nat) (w : World) : Move → Option Reply
  | .reply b r =>
    if b = a ∧ ∃ f, w.pending.find? a = some f ∧ f.takes r = true then some r else none
  | _ => none

/-- Operation `a` has run manager `m` with `c` replies so far, and none of it is left open: it
waits in the last attempt that it began, or it has ended. -/
inductive Idling (m a c : Nat) (w : World) : Prop
  | waits (f : Frame) (hf : w.pending.find? a = some f) (hd : f.drives = some (m, w.tries a))
    (ha : w.answers a = []) (hc : c + 3 ≤ 3 * w.tries a + f.stage)
  | returned (hp : w.pending.find? a = none)
    (ha : w.answers a = [.returned a (.count (w.tries a))]) (hc : c ≤ 3 * w.tries a)
  | raised (x : Fault) (hp : w.pending.find? a = none) (ha : w.answers a = [.raised a x])
    (hc : c ≤ 3 * w.tries a)

theorem taken_eq_some : taken a w mv = some r ↔
    mv = .reply a r ∧ ∃ f, w.pending.find? a = some f ∧ f.takes r = true := by
  cases mv with
  | reply b i =>
    simp only [taken, Option.ite_none_right_eq_some, Option.some.injEq, Move.reply.injEq]
    constructor
    · rintro ⟨⟨rfl, h⟩, rfl⟩
      exact ⟨⟨rfl, rfl⟩, h⟩
    · rintro ⟨⟨rfl, rfl⟩, h⟩
      exact ⟨⟨rfl, h⟩, rfl⟩
  | _ => simp [taken]

/-- A reply that the operation does not take changes nothing. -/
theorem step_own (ha : a < w.calls) (hn : taken a w mv = none) (he : a = w.acting mv) :
    w.step mv = w := by
  cases mv with
  | reply b r =>
    obtain rfl : a = b := he
    cases hf : w.pending.find? a with
    | none => exact step_reply_none hf r
    | some f =>
      refine step_untaken hf (Bool.eq_false_iff.mpr fun hr => ?_)
      rw [taken_eq_some.mpr ⟨rfl, f, hf, hr⟩] at hn
      cases hn
  | _ => exact absurd he (Nat.ne_of_lt ha)

/-- An operation stays as it is until it takes a reply. -/
theorem untaken_step (h : w.Founded) (ha : a < w.calls) (hn : taken a w mv = none) :
    (w.step mv).pending.find? a = w.pending.find? a ∧ (w.step mv).answers a = w.answers a ∧
      (w.step mv).tries a = w.tries a := by
  by_cases he : a = w.acting mv
  · rw [step_own ha hn he]
    exact ⟨rfl, rfl, rfl⟩
  · obtain ⟨hans, hp⟩ := step_other h he
    exact ⟨hp, hans, tries_other h he⟩

theorem Proceeds.idling {c : Nat} (h : Proceeds m a k w w') (ha : w.answers a = [])
    (hk : w.tries a = k) (hc : c ≤ 3 * k) : Idling m a c w' := by
  cases h with
  | idle hs hi hp hkw haw =>
    refine .returned hp ?_ (by omega)
    rw [haw, ha, hkw, hk]
  | departs t f hd hf hdr hst hkw haw =>
    exact .waits f hf (by rw [hdr, hkw, hk]) (haw.trans ha) (by omega)

/-- While the operation waits, it does so in its last attempt. -/
theorem Idling.of_waiting {c : Nat} (h : w.Idling m a c) (hf : w.pending.find? a = some f) :
    f.drives = some (m, w.tries a) ∧ w.answers a = [] ∧ c + 3 ≤ 3 * w.tries a + f.stage := by
  cases h with
  | waits g hg hd ha hc =>
    obtain rfl : g = f := Option.some.inj (hg.symm.trans hf)
    exact ⟨hd, ha, hc⟩
  | returned hp => cases hp.symm.trans hf
  | raised x hp => cases hp.symm.trans hf

theorem Idling.step {c : Nat} (h : w.Idling m a c) (hw : w.Founded) (ha : a < w.calls) (mv : Move) :
    (w.step mv).Idling m a (c + (taken a w mv).toList.length) := by
  cases ht : taken a w mv with
  | none =>
    obtain ⟨hp, hans, hk⟩ := untaken_step hw ha ht
    cases h with
    | waits f hf hd ha hc =>
      exact .waits f (hp.trans hf) (by rw [hk, hd]) (hans.trans ha) (by rw [hk]; exact hc)
    | returned hn ha hc =>
      exact .returned (hp.trans hn) (by rw [hans, ha, hk]) (by rw [hk]; exact hc)
    | raised x hn ha hc => exact .raised x (hp.trans hn) (hans.trans ha) (by rw [hk]; exact hc)
  | some r =>
    obtain ⟨rfl, f, hf, hr⟩ := taken_eq_some.mp ht
    obtain ⟨hd, ha, hc⟩ := h.of_waiting hf
    have hst := f.stage_le
    change (w.step (.reply a r)).Idling m a (c + 1)
    cases reply_onward hw hf hd hr with
    | waits g hg hdg hs hm hk hag =>
      exact .waits g hg (by rw [hk, hdg]) (hag.trans ha) (by rw [hk]; omega)
    | proceeds hp => exact hp.idling ((answers_effect ..).trans ha) (tries_reply ..) (by omega)
    | raised x hx hm hp hk hax => exact .raised x hp (by rw [hax, ha]) (by rw [hk]; omega)

theorem Idling.run {c : Nat} (h : w.Idling m a c) (hw : w.Founded) (ha : a < w.calls)
    (moves : List Move) : (w.run moves).Idling m a (c + (w.along (taken a) moves).length) := by
  induction moves generalizing w c with
  | nil => exact h
  | cons mv moves ih =>
    have hs := ih (h.step hw ha mv) (hw.step mv) (Nat.lt_of_lt_of_le ha (calls_le_step hw mv))
    rwa [along, List.length_append, ← Nat.add_assoc]

/-- A manager is run until it is idle. -/
theorem call_proceeds (h : w.Founded) (hm : m < w.managers.size) :
    Proceeds m w.calls 0 { w with calls := w.calls + 1 } (w.step (.runUntilIdle m)) := by
  have hs : w.step (.runUntilIdle m) =
      World.next { w with calls := w.calls + 1 } w.calls m (some 0) :=
    if_pos (by simp [Call.inScope, hm])
  rw [hs]
  refine next_proceeds ⟨Nat.lt_succ_self _, ?_⟩ m 0
  exact Option.eq_none_iff_forall_ne_some.mpr fun f hf => Nat.lt_irrefl _ (h.numbered _ f hf)

theorem calls_runUntilIdle (h : w.Founded) (hm : m < w.managers.size) :
    w.calls < (w.step (.runUntilIdle m)).calls := by
  rw [calls_step h, calls_effect, if_pos (by simp [Call.inScope, hm])]
  exact Nat.lt_succ_self _

theorem Idling.replies_le {c : Nat} (h : w.Idling m a c) : c ≤ 3 * w.tries a := by
  cases h with
  | waits f hf hd ha hc =>
    have := f.stage_le
    omega
  | returned hp ha hc => exact hc
  | raised x hp ha hc => exact hc

/-- Wherever a run leads, the operation waits for a hook or has ended, after three replies for
each attempt at most. -/
theorem idling_run {P : World → Move → Prop} (h : ReachableBy P w) (hw : w.Founded)
    (hm : m < w.managers.size) (moves : List Move) :
    ((w.step (.runUntilIdle m)).run moves).Idling m w.calls
      ((w.step (.runUntilIdle m)).along (taken w.calls) moves).length := by
  have ha : w.answers w.calls = [] := answers_of_calls_le h (Nat.le_refl _)
  have hk : w.tries w.calls = 0 := tries_of_calls_le h (Nat.le_refl _)
  have hc := (call_proceeds hw hm).idling ha hk (Nat.le_refl 0)
  simpa using hc.run (hw.step _) (calls_runUntilIdle hw hm) moves

end World

end Backlog
