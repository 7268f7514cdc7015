import Backlog.Proofs.Tracking

/-!
# Retries

A manager tries the job of an id that it has admitted as the retry loop says, whatever else
happens in between. A cancellation ends the work or leaves it to the attempt in progress, and
a stop lets at most one more attempt begin.
-/

namespace Backlog.World

/-- What happens along a run to the work that manager `m` has under the id. -/
def signals (m : Nat) (id : String) : World → List Move → List Signal
  | _, [] => []
  | w, mv :: moves =>
    (w.cue m id mv).toList ++ (w.begun m id mv).map .attempt ++ signals m id (w.step mv) moves

variable {w v : World} {a m j t : Nat} {id : String} {n limit : Int} {asks : Bool}
  {l : Loop} {status : Status} {mv : Move}

/-- The client lets manager `m` alone have the work of the id, until the id is admitted again. -/
def undisturbed (m : Nat) (id : String) (w : World) (mv : Move) : Prop :=
  lawful m w mv ∧ leftAlone m id w mv ∧ ¬w.Admits m id (w.step mv).toStore

theorem Sound.undisturbed (hw : w.Sound m) {moves : List Move}
    (hu : w.Along (undisturbed m id) moves) : (w.run moves).Sound m :=
  hu.run (fun _ _ hw hu => hw.step hu.1) hw

theorem Tracks.step (h : w.Tracks m id j limit asks l) (hw : w.Sound m)
    (hu : undisturbed m id w mv) :
    ∃ l', l.run limit asks ((w.cue m id mv).toList ++ (w.begun m id mv).map .attempt) = some l' ∧
      (w.step mv).Tracks m id j limit asks l' := by
  obtain ⟨hl, ha, hn⟩ := hu
  obtain ⟨l₁, hcue, h₁⟩ := h.effect hw ha fun he => hn (admits_step hw.founded he)
  obtain ⟨l', hbegun, h'⟩ := step_observe (m := m)
    (f := fun l n => Loop.step limit asks l (.attempt n))
    (R := fun l w => w.Tracks m id j limit asks l) (fun _ _ _ _ hw h hs hn => h.quiet hw hs hn)
    (fun _ _ _ _ _ _ hw h ha hc hid => h.starts hw ha hc hid) hw hl h₁
  refine ⟨l', ?_, h'⟩
  rw [Loop.run_append, hcue, Option.bind_some, Loop.run, List.foldlM_map]
  exact hbegun

/-- The loop follows the work along a run. -/
theorem Tracks.run (h : w.Tracks m id j limit asks l) (hw : w.Sound m) {moves : List Move}
    (hu : w.Along (undisturbed m id) moves) :
    ∃ l', l.run limit asks (signals m id w moves) = some l' ∧
      (w.run moves).Tracks m id j limit asks l' := by
  induction moves generalizing w l with
  | nil => exact ⟨l, rfl, h⟩
  | cons mv moves ih =>
    obtain ⟨l₁, hs, h₁⟩ := h.step hw hu.1
    obtain ⟨l', hr, h'⟩ := ih h₁ (hw.step hu.1.1) hu.2
    refine ⟨l', ?_, h'⟩
    rw [signals, Loop.run_append, hs]
    exact hr

theorem hears_cases {f : Frame} {r : Reply} {x : Signal} (h : f.hears r = some x) :
    x = .succeeded ∨ x = .failed ∨ ∃ retry, x = .planned retry := by
  cases f <;> cases r <;> cases h
  · exact .inl rfl
  · exact .inr (.inl rfl)
  · exact .inr (.inl rfl)
  · exact .inr (.inr ⟨_, rfl⟩)
  · exact .inr (.inr ⟨_, rfl⟩)

/-- No move means an attempt, and what means a cancellation or a stop is one. -/
theorem cue_of_move {x : Signal} (h : w.cue m id mv = some x) :
    (∀ n, x ≠ .attempt n) ∧ (x = .cancel → mv = .cancel m id) ∧ (x = .stop → mv = .stop m) := by
  rcases cue_cases h with ⟨rfl, rfl⟩ | ⟨rfl, rfl⟩ | ⟨a, r, f, t, -, -, -, hx⟩
  · exact ⟨nofun, fun _ => rfl, nofun⟩
  · exact ⟨nofun, nofun, fun _ => rfl⟩
  · rcases hears_cases hx with rfl | rfl | ⟨retry, rfl⟩ <;> exact ⟨nofun, nofun, nofun⟩

/-- The attempts of a work are those that its signals tell of. -/
theorem numbers_signals (w : World) (moves : List Move) :
    Loop.numbers (signals m id w moves) = attempts m id w moves := by
  have hcue (w : World) (mv : Move) : Loop.numbers (w.cue m id mv).toList = [] := by
    cases h : w.cue m id mv with
    | none => rfl
    | some x => exact Loop.numbers_cons (cue_of_move h).1
  have hmap (ns : List Int) : Loop.numbers (ns.map .attempt) = ns := by
    induction ns with
    | nil => rfl
    | cons n ns ih => exact congrArg (n :: ·) ih
  induction moves generalizing w with
  | nil => rfl
  | cons mv moves ih =>
    rw [signals, Loop.numbers_append, Loop.numbers_append, hcue, hmap, ih]
    rfl

/-- The loop is over when the work is. -/
theorem Tracks.ended_iff (h : w.Tracks m id j limit asks l) (hw : w.Sound m) :
    l.stage = .ended status ↔ w.Over m id status := by
  rcases h.stands.place hw with ⟨n, t, hs, hq⟩ | ⟨n, t, hs, hr⟩ | ⟨s, hs, ho⟩
  · rw [hs]
    refine ⟨nofun, fun ho => ?_⟩
    rw [(Manager.free_iff.mp ho.free).2] at hq
    cases hq
  · constructor
    · intro he
      rw [he] at hs
      exact hs.elim nofun nofun
    · intro ho
      rw [(Manager.free_iff.mp ho.free).1] at hr
      cases hr
  · rw [hs]
    refine ⟨fun he => Stage.ended.inj he ▸ ho, fun ho' => ?_⟩
    rw [Option.some.inj (ho.finished.symm.trans ho'.finished)]

/-- What is queued is ready, and nothing else is. -/
theorem Tracks.queued (h : w.Tracks m id j limit asks l) (hw : w.Sound m) :
    (∀ t, (w.manager m).queue.find? id = some t → ∃ n, l.stage = .ready n) ∧
      Loop.leftover l.stage ≤ ((w.manager m).queue.find? id).toList.length := by
  rcases h.stands.place hw with ⟨n, t, hs, hq⟩ | ⟨n, t, hs, hr⟩ | ⟨s, hs, ho⟩
  · rw [hs, hq]
    exact ⟨fun _ _ => ⟨n, rfl⟩, Nat.le_refl 1⟩
  · rw [hw.custody.apart id t hr]
    rcases hs with hs | hs <;> rw [hs] <;> exact ⟨nofun, Nat.le_refl 0⟩
  · rw [hs, (Manager.free_iff.mp ho.free).2]
    exact ⟨nofun, Nat.le_refl 0⟩

/-- The signals of a run that neither cancels the id nor stops its manager. -/
theorem signals_plain {w : World} {moves : List Move} (hc : .cancel m id ∉ moves)
    (hs : .stop m ∉ moves) :
    .cancel ∉ signals m id w moves ∧ .stop ∉ signals m id w moves := by
  induction moves generalizing w with
  | nil => exact ⟨nofun, nofun⟩
  | cons mv moves ih =>
    rw [List.mem_cons, not_or] at hc hs
    obtain ⟨ihc, ihs⟩ := ih (w := w.step mv) hc.2 hs.2
    have hmap {x : Signal} (hx : x ∈ (w.begun m id mv).map Signal.attempt) :
        x ≠ .cancel ∧ x ≠ .stop := by
      obtain ⟨n, -, rfl⟩ := List.mem_map.mp hx
      exact ⟨nofun, nofun⟩
    simp only [signals]
    simp only [List.mem_append, Option.mem_toList, not_or]
    refine ⟨⟨⟨fun h => ?_, fun h => (hmap h).1 rfl⟩, ihc⟩, ⟨fun h => ?_, fun h => (hmap h).2 rfl⟩, ihs⟩
    · exact hc.1 ((cue_of_move h).2.1 rfl).symm
    · exact hs.1 ((cue_of_move h).2.2 rfl).symm

/-- What follows the cancellation of a work. -/
theorem Tracks.cancelled (h : w.Tracks m id j limit asks l) (hw : w.Sound m)
    (hheld : (w.manager m).free id = false) {after : List Move}
    (hu : w.Along (undisturbed m id) (.cancel m id :: after)) :
    attempts m id w (.cancel m id :: after) = [] ∧
    (∀ t, (w.manager m).queue.find? id = some t →
      (w.run (.cancel m id :: after)).Over m id .cancelled) ∧
    ∀ status, (w.run (.cancel m id :: after)).Over m id status →
      status = if .succeeded ∈ signals m id w (.cancel m id :: after)
        then .succeeded else .cancelled := by
  obtain ⟨l', hr, ht⟩ := h.run hw hu
  have hw' := hw.undisturbed hu
  -- the cancellation comes first, and the loop is closed by it
  obtain ⟨xs, hxs⟩ : ∃ xs, signals m id w (.cancel m id :: after) = .cancel :: xs := by
    simp only [signals]
    rw [show w.cue m id (.cancel m id) = some .cancel from if_pos ⟨rfl, rfl⟩]
    exact ⟨_, rfl⟩
  rw [hxs, Loop.run_cons] at hr
  have hr : l.cancel.run limit asks xs = some l' := hr
  have hopen (status : Status) (hs : l.stage = .ended status) : False := by
    have := ((h.ended_iff hw).mp hs).free
    rw [hheld] at this
    cases this
  refine ⟨?_, fun t hq => ?_, fun status ho => ?_⟩
  · rw [← numbers_signals, hxs]
    exact (Loop.numbers_closed (Loop.closed_cancel l) hr : Loop.numbers xs = [])
  · obtain ⟨n, hn⟩ := (h.queued hw).1 t hq
    refine (ht.ended_iff hw').mp (Loop.ended_run ?_ hr)
    rw [Loop.cancel, hn]
  · have hstatus := Loop.status_closed (Loop.closed_cancel l) (fun s hs => ?_) hr
      ((ht.ended_iff hw').mpr ho)
    · rw [hstatus, hxs]
      simp only [List.mem_cons, reduceCtorEq, false_or]
    · rcases Loop.cancel_cases l with hk | hk <;> rw [hk] at hs
      · exact (hopen s hs).elim
      · exact (Stage.ended.inj hs).symm

/-- What follows the stop of a manager that had a work. -/
theorem Tracks.stopped (h : w.Tracks m id j limit asks l) (hw : w.Sound m)
    (hacc : (w.manager m).accepting = false) {moves : List Move}
    (hu : w.Along (undisturbed m id) moves) :
    (attempts m id w moves).length ≤ ((w.manager m).queue.find? id).toList.length := by
  obtain ⟨l', hr, -⟩ := h.run hw hu
  have hstopped : l.stopped = true := by
    rw [h.accepting] at hacc
    simpa using hacc
  have hle := Loop.numbers_stopped hstopped hr
  rw [numbers_signals] at hle
  exact Nat.le_trans hle (h.queued hw).2

/-- What becomes of a work of the id that `n` attempts were made of, along moves from `w`. -/
structure TriedAsLoop (m : Nat) (id : String) (limit : Int) (asks : Bool) (n : Int) (w : World)
    (moves : List Move) : Prop where
  /-- The loop comes to what the work comes to. -/
  loop : ∃ l, Loop.run limit asks { stage := .ready n } (signals m id w moves) = some l ∧
    ∀ status, l.stage = .ended status ↔ (w.run moves).Over m id status
  numbered : ∃ k : Nat, k ≤ max 1 (limit - n) ∧
    attempts m id w moves = (List.range k).map fun i : Nat => n + 1 + i
  /-- A work that nobody interferes with makes the attempts of the plain loop and ends like it. -/
  plain : .cancel m id ∉ moves → .stop m ∉ moves → ∀ status, (w.run moves).Over m id status →
    plainLoop limit (n + 1) (Loop.tries (signals m id w moves)) =
      (attempts m id w moves, some status)
  /-- A work that is cancelled makes no other attempt. If it was queued it is cancelled at once,
  else it ends with its attempt. -/
  cancelled : ∀ before after, moves = before ++ .cancel m id :: after →
    ((w.run before).manager m).free id = false →
    attempts m id (w.run before) (.cancel m id :: after) = [] ∧
    (∀ t, ((w.run before).manager m).queue.find? id = some t →
      (w.run moves).Over m id .cancelled) ∧
    ∀ status, (w.run moves).Over m id status →
      status = if .succeeded ∈ signals m id (w.run before) (.cancel m id :: after)
        then .succeeded else .cancelled
  /-- A work whose manager has stopped makes one more attempt if it is still queued. -/
  stopped : ∀ before after, moves = before ++ after →
    ((w.run before).manager m).accepting = false →
    (attempts m id (w.run before) after).length ≤
      (((w.run before).manager m).queue.find? id).toList.length

theorem Tracks.triedAsLoop (h : w.Tracks m id j limit asks { stage := .ready n }) (hw : w.Sound m)
    {moves : List Move} (hu : w.Along (undisturbed m id) moves) :
    w.TriedAsLoop m id limit asks n moves := by
  obtain ⟨l, hr, ht⟩ := h.run hw hu
  have hover (status : Status) : l.stage = .ended status ↔ (w.run moves).Over m id status :=
    ht.ended_iff (hw.undisturbed hu)
  refine ⟨⟨l, hr, hover⟩, ?_, fun hc hs status ho => ?_, ?_, ?_⟩
  · obtain ⟨k, hk, hle⟩ := Loop.numbers_run hr
    rw [numbers_signals] at hk
    exact ⟨k, hle, hk⟩
  · have hp := Loop.plain_run ⟨rfl, rfl⟩ (fun _ hk => by cases hk) (signals_plain hc hs) hr
      ((hover status).mpr ho)
    rwa [Loop.Plain, numbers_signals] at hp
  · rintro before after rfl hheld
    obtain ⟨hu₁, hu₂⟩ := along_append.mp hu
    obtain ⟨l₁, -, h₁⟩ := h.run hw hu₁
    rw [run_append]
    exact h₁.cancelled (hw.undisturbed hu₁) hheld hu₂
  · rintro before after rfl hacc
    obtain ⟨hu₁, hu₂⟩ := along_append.mp hu
    obtain ⟨l₁, -, h₁⟩ := h.run hw hu₁
    exact h₁.stopped (hw.undisturbed hu₁) hacc hu₂

/-- A work that is admitted is queued, and from then on tried as the loop says. -/
theorem retries_follow_loop (h : ReachableBy (lawful m) w) (hl : lawful m w mv)
    (ha : w.Admits m id (w.step mv).toStore) (hv : v = w.step mv) :
    ∃ t, (v.manager m).queue.find? id = some t ∧ w.begun m id mv = [] ∧
      ∀ limit asks, v.Tried (v.ticket t).job limit asks → 0 ≤ (v.ticket t).runs →
        (∀ i, i ≠ m → ¬(v.manager i).knows t) →
        ∀ moves, v.Along (undisturbed m id) moves →
          v.TriedAsLoop m id limit asks (v.ticket t).runs moves := by
  subst hv
  have hw := h.sound.step hl
  obtain ⟨⟨hacc, t, -, hq, hc⟩, hb⟩ := admission h.sound hl ha
  refine ⟨t, hq, hb, fun limit asks htried hn halone moves hu => ?_⟩
  have hid := ((hw.custody.queue.find id t).mp hq).2
  have htracks : (w.step mv).Tracks m id ((w.step mv).ticket t).job limit asks
      { stage := .ready ((w.step mv).ticket t).runs } :=
    ⟨hacc, htried, .ready t _ hq ⟨hid, rfl, rfl, hc, halone⟩ hn⟩
  exact htracks.triedAsLoop hw hu

/-- A manager and a job that may be tried twice. -/
def prepared : World := (start 0).run
  [.call (.makeJob { id := "a", retryLimit := 2, asksPlan := true }), .call (.makeManager {})]

/-- Both attempts fail, and the job wants to go on after the first. -/
def failing : List Move :=
  [.call (.manager 0 .runNext), .reply 3 (.failed "late"), .reply 3 (.plan .again),
    .call (.manager 0 .runNext), .reply 4 (.failed "late")]

/-- A job that fails twice where two attempts are allowed. -/
theorem retries_follow_loop_failing :
    attempts 0 "a" (prepared.step (.call (.manager 0 (.add (some 0))))) failing = [1, 2] ∧
      plainLoop 2 1 (Loop.tries
        (signals 0 "a" (prepared.step (.call (.manager 0 (.add (some 0))))) failing)) =
        ([1, 2], some .failed) := by
  have hr : ReachableBy (lawful 0) prepared := ⟨0, _, by simp only [Along, lawful, and_self], rfl⟩
  have hl : lawful 0 prepared (.call (.manager 0 (.add (some 0)))) := trivial
  have ha : prepared.Admits 0 "a" (prepared.step (.call (.manager 0 (.add (some 0))))).toStore := by
    simp only [Store.Admits]
    decide
  obtain ⟨t, hq, -, h⟩ := retries_follow_loop hr hl ha rfl
  obtain rfl : t = 0 := Option.some.inj (hq.symm.trans (by decide))
  have hu : (prepared.step (.call (.manager 0 (.add (some 0))))).Along (undisturbed 0 "a")
      failing := by
    simp only [failing, Along, undisturbed, lawful, leftAlone, Store.Admits, true_and, and_true]
    decide
  have hloop := h 2 true (by unfold Store.Tried; decide) (by decide) (fun i hi => ?_) failing hu
  · have hn : attempts 0 "a" (prepared.step (.call (.manager 0 (.add (some 0))))) failing = [1, 2] := by
      decide
    have hp := hloop.plain (by simp [failing]) (by simp [failing]) .failed ⟨by decide, by decide⟩
    rw [hn] at hp
    exact ⟨hn, hp⟩
  · rw [show (prepared.step (.call (.manager 0 (.add (some 0))))).manager i = default from
      Registry.get_of_size_le (Nat.one_le_iff_ne_zero.mpr hi)]
    exact Manager.knows_default

end Backlog.World
