import Backlog.Proofs.Attempts

/-!
# The answers of operations

An operation that was begun ends once at most, with a value or a fault. An operation that has
ended stays so, and one that waits goes on by a reply to it and by nothing else.
-/

namespace Backlog

/-- The event is an end of operation `a`. -/
def Event.ends (a : Nat) : Event → Bool
  | .returned b _ | .raised b _ => b == a
  | _ => false

theorem Event.isNote_of_ends {a : Nat} {e : Event} (h : e.ends a = true) : e.isNote a = true := by
  cases e <;> first | exact h | cases h

theorem Event.ends_of_isNote {a b : Nat} {e : Event} (h : e.isNote b = true) (hne : a ≠ b) :
    e.ends a = false := by
  cases e <;> simp_all [isNote, ends, Ne.symm]

namespace World

variable {w w' : World} {a b m : Nat} {l : List Event} {f : Frame} {r : Reply}

/-- How operation `a` ended. -/
def answers (w : World) (a : Nat) : List Event := w.history.filter (·.ends a)

theorem answers_eq (h : w'.history = l ++ w.history) (hn : ∀ e ∈ l, e.ends a = false) :
    w'.answers a = w.answers a := by
  rw [answers, h, List.filter_append, List.filter_eq_nil_iff.mpr (by simpa using hn)]
  rfl

theorem answers_give (w : World) (a : Nat) (v : Value) :
    (w.give a v).answers a = .returned a v :: w.answers a :=
  List.filter_cons_of_pos (by simp [Event.ends])

theorem answers_raise (w : World) (a : Nat) (f : Fault) :
    (w.raise a f).answers a = .raised a f :: w.answers a :=
  List.filter_cons_of_pos (by simp [Event.ends])

/-- A line that a manager writes answers nobody. -/
theorem answers_note (w : World) (m : Nat) (level : Level) (id message : String)
    (fields : List (String × String)) :
    (w.note m level id message fields).answers a = w.answers a ∧
      (w.note m level id message fields).pending = w.pending := by
  simp only [note, log]
  split <;> exact ⟨rfl, rfl⟩

theorem answers_effect (w : World) (mv : Move) (a : Nat) :
    (w.effect mv).answers a = w.answers a := by
  obtain ⟨es, hh, -, hn⟩ := effect_events 0 "" w mv
  refine answers_eq hh fun e he => Bool.eq_false_iff.mpr fun hb => ?_
  have := (hn e he).2 a
  rw [Event.isNote_of_ends hb] at this
  cases this

theorem answers_sequel (hs : Sequel b w w') (hne : a ≠ b) : w'.answers a = w.answers a := by
  cases hs with
  | wrote ls es he => exact answers_eq rfl fun e hm => Event.ends_of_isNote (he e hm) hne
  | told j t next ha ht hn => exact answers_eq (l := [_]) rfl (by simp [Event.ends])
  | welcomed j t ha => exact answers_eq (l := [_]) rfl (by simp [Event.ends])
  | departed i t s tally ha hc =>
    obtain ⟨_, q, -, -, hh⟩ := depart_events w b i s t tally
    exact answers_eq hh (by simp [Event.ends])

theorem calls_sequel (hs : Sequel b w w') : w'.calls = w.calls := by
  cases hs with
  | departed i t s tally ha hc =>
    obtain ⟨f, q, -, he⟩ := enter_eq { w with toStore := s } b t (s.ticket t).runs
      (.manager i t (s.ticket t).runs s.uptime tally)
    exact (congrArg World.calls he).trans rfl
  | _ => rfl

/-- A step of another operation neither ends this one nor lets it go on. -/
theorem step_other (h : w.Founded) {mv : Move} (hne : a ≠ w.acting mv) :
    (w.step mv).answers a = w.answers a ∧
      (w.step mv).pending.find? a = w.pending.find? a := by
  suffices ∀ {v v' : World}, Sequels (w.acting mv) v v' →
      v'.answers a = v.answers a ∧ v'.pending.find? a = v.pending.find? a by
    obtain ⟨ha, hp⟩ := this (step_sequels h mv)
    exact ⟨ha.trans (answers_effect ..), hp.trans (pending_effect hne)⟩
  intro v v' hs
  induction hs with
  | refl => exact ⟨rfl, rfl⟩
  | tail _ hs ih =>
    exact ⟨(answers_sequel hs hne).trans ih.1, (pending_sequel hs hne).trans ih.2⟩

theorem calls_effect (w : World) (c : Call) :
    (w.effect (.call c)).calls = if c.inScope w.toStore then w.calls + 1 else w.calls := by
  simp only [effect]
  split
  · cases c with
    | run t n =>
      obtain ⟨f, q, -, he⟩ := enter_eq { w with calls := w.calls + 1 } w.calls t n .client
      exact (congrArg World.calls he).trans rfl
    | _ => rfl
  · rfl

theorem calls_step (h : w.Founded) (mv : Move) : (w.step mv).calls = (w.effect mv).calls := by
  have hs := step_sequels h mv
  generalize w.step mv = w' at hs
  induction hs with
  | refl => rfl
  | tail _ hs ih => exact (calls_sequel hs).trans ih

theorem calls_le_step (h : w.Founded) (mv : Move) : w.calls ≤ (w.step mv).calls := by
  rw [calls_step h]
  cases mv with
  | call c =>
    rw [calls_effect]
    split <;> omega
  | reply a r => exact Nat.le_of_eq (history_reply w a r).1.symm
  | clock now => exact Nat.le_refl _
  | elapse nanos => exact Nat.le_refl _

theorem calls_le_run (h : w.Founded) (moves : List Move) : w.calls ≤ (w.run moves).calls := by
  induction moves generalizing w with
  | nil => exact Nat.le_refl _
  | cons mv moves ih => exact Nat.le_trans (calls_le_step h mv) (ih (h.step mv))

/-- Nobody is answered who does not wait. -/
theorem step_reply_none (hp : w.pending.find? a = none) (r : Reply) : w.step (.reply a r) = w := by
  simp only [step]
  rw [hp]

theorem step_taken (hf : w.pending.find? a = some f) (hr : f.takes r = true) :
    w.step (.reply a r) = World.resume { w with pending := w.pending.erase a } a f r := by
  simp only [step]
  rw [hf]
  exact if_pos hr

theorem step_untaken (hf : w.pending.find? a = some f) (hr : f.takes r = false) :
    w.step (.reply a r) = w := by
  simp only [step]
  rw [hf]
  exact if_neg (by simp [hr])

/-- An operation that has ended stays as it is. -/
theorem ended_step (h : w.Founded) (ha : a < w.calls) (hp : w.pending.find? a = none) (mv : Move) :
    (w.step mv).answers a = w.answers a ∧ (w.step mv).pending.find? a = none := by
  have other (hne : a ≠ w.acting mv) :
      (w.step mv).answers a = w.answers a ∧ (w.step mv).pending.find? a = none := by
    rw [← hp]
    exact step_other h hne
  cases mv with
  | reply b r =>
    by_cases hb : a = b
    · subst hb
      rw [step_reply_none hp]
      exact ⟨rfl, hp⟩
    · exact other hb
  | _ => exact other (Nat.ne_of_lt ha)

theorem ended_run (h : w.Founded) (ha : a < w.calls) (hp : w.pending.find? a = none)
    (moves : List Move) : (w.run moves).answers a = w.answers a := by
  induction moves generalizing w with
  | nil => rfl
  | cons mv moves ih =>
    obtain ⟨hs, hp'⟩ := ended_step h ha hp mv
    rw [run_cons, ih (h.step mv) (Nat.lt_of_lt_of_le ha (calls_le_step h mv)) hp', hs]

/-- An operation waits until it gets a reply that it takes. -/
theorem waits_step (h : w.Founded) (hf : w.pending.find? a = some f) {mv : Move}
    (hn : ∀ r, mv = .reply a r → f.takes r = false) :
    (w.step mv).answers a = w.answers a ∧ (w.step mv).pending.find? a = some f := by
  by_cases ha : a = w.acting mv
  · subst ha
    cases mv with
    | reply b r =>
      have hs : w.step (.reply b r) = w := step_untaken hf (hn r rfl)
      rw [hs]
      exact ⟨rfl, hf⟩
    | _ => exact absurd (h.numbered _ f hf) (Nat.lt_irrefl _)
  · rw [← hf]
    exact step_other h ha

/-- The first reply of a run that an operation takes which waits in the frame. -/
def reply? (a : Nat) (f : Frame) : List Move → Option Reply
  | [] => none
  | .reply b r :: moves => if b = a ∧ f.takes r then some r else reply? a f moves
  | _ :: moves => reply? a f moves

/-- What holds while an operation waits, and what then holds by the reply that it takes, comes
to hold in a run by the first such reply. -/
theorem reply?_run {P : World → Move → Prop} {J : Option Reply → World → Prop}
    (wait : ∀ w mv, J none w → P w mv → (∀ r, mv = .reply a r → f.takes r = false) →
      J none (w.step mv))
    (answer : ∀ w r, J none w → P w (.reply a r) → f.takes r = true →
      J (some r) (w.step (.reply a r)))
    (after : ∀ r w mv, J (some r) w → P w mv → J (some r) (w.step mv)) {moves : List Move}
    (h : w.Along P moves) (hj : J none w) : J (reply? a f moves) (w.run moves) := by
  induction moves generalizing w with
  | nil => exact hj
  | cons mv moves ih =>
    have goOn (hn : ∀ r, mv = .reply a r → f.takes r = false) :
        J (reply? a f moves) (w.run (mv :: moves)) := ih h.2 (wait w mv hj h.1 hn)
    cases mv with
    | reply b r =>
      simp only [reply?]
      split
      · rename_i hr
        obtain ⟨rfl, ht⟩ := hr
        rw [run_cons]
        exact h.2.run (after r) (answer w r hj h.1 ht)
      · rename_i hr
        apply goOn
        intro i hi
        cases hi
        exact Bool.eq_false_iff.mpr fun ht => hr ⟨rfl, ht⟩
    | _ => exact goOn nofun

/-- A step that changes the history belongs to an operation that was begun by its end. -/
theorem acting_ne (h : w.Founded) (mv : Move) (ha : (w.step mv).calls ≤ a) :
    (w.step mv).history = w.history ∨ a ≠ w.acting mv := by
  cases mv with
  | call c =>
    rw [calls_step h, calls_effect] at ha
    split at ha
    · exact .inr (Nat.ne_of_gt ha)
    · rename_i hc
      have hs : w.step (.call c) = w := if_neg hc
      exact .inl (by rw [hs])
  | reply b r =>
    cases hf : w.pending.find? b with
    | none => exact .inl (by rw [step_reply_none hf])
    | some f =>
      have hb := h.numbered b f hf
      have hle := calls_le_step h (.reply b r)
      exact .inr (Nat.ne_of_gt (Nat.lt_of_lt_of_le hb (Nat.le_trans hle ha)))
  | clock now => exact .inl rfl
  | elapse nanos => exact .inl rfl

/-- Operations that were not begun have no answers. -/
theorem answers_of_calls_le {P : World → Move → Prop} (h : ReachableBy P w) (ha : w.calls ≤ a) :
    w.answers a = [] := by
  suffices w.Founded ∧ ∀ a, w.calls ≤ a → w.answers a = [] from this.2 a ha
  refine h.induction (I := fun w => w.Founded ∧ ∀ a, w.calls ≤ a → w.answers a = [])
    (fun now => ⟨.start now, fun _ _ => rfl⟩) fun w mv ⟨hf, hw⟩ _ =>
    ⟨hf.step mv, fun a ha => ?_⟩
  have hold := hw a (Nat.le_trans (calls_le_step hf mv) ha)
  rcases acting_ne hf mv ha with hh | hne
  · rw [answers, hh]
    exact hold
  · rw [(step_other hf hne).1, hold]

end World

end Backlog
