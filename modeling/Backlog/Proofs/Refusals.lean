import Backlog.Proofs.Conservation
import Backlog.Proofs.Accounting
import Backlog.Proofs.Hooks

/-!
# Calls that are refused

A manager refuses to add a job, to cancel an id or to begin an attempt, and a queue refuses a
ticket, before anything is written. What is not refused at once is not refused later. So a call that
is refused leaves all objects, all counters and all other operations as they are, and its answer is
all that is heard of it.
-/

namespace Backlog

/-- The event is an answer of this kind. -/
def Event.refuses : Event → Bool
  | .returned _ (.flag false) | .returned _ (.outcome none) | .raised _ .noJob => true
  | _ => false

/-- Once its last hook is done, the operation gives what it was called for. -/
def Next.grants : Next → Bool
  | .give (.flag false) | .give (.outcome none) => false
  | _ => true

def Frame.grants : Frame → Bool
  | .told next => next.grants
  | _ => true

@[simp] theorem Caller.grants_next (k : Caller) (o : Outcome) : (k.next o).grants = true := by
  cases k <;> rfl

namespace Store

variable {s : Store} {m : Nat}

/-- What stands against the call. -/
def refuses (s : Store) : Call → Prop
  | .manager _ (.add none) | .queue _ (.push none) => True
  | .manager m (.add (some j)) =>
    (s.manager m).accepting = false ∨ (s.manager m).free (s.job j).id = false
  | .manager m (.cancel id) => (s.manager m).free id = true
  | .manager m .runNext => ∀ t ∈ (s.manager m).queue.order,
    (s.ticket t).runnable (s.time m) (s.manager m).network (s.manager m).busy = false
  | .queue q (.push (some t)) =>
    (s.queue q).closed = true ∨ (s.queue q).index.contains (s.ticket t).id = true
  | _ => False

theorem claim_eq_none : s.claim m = none ↔ s.refuses (.manager m .runNext) := by
  rw [← Option.map_eq_none_iff (f := Prod.snd), ← ready?_eq_claim]
  simp only [Manager.ready?, Queue.ready?, List.find?_eq_none, Bool.not_eq_true]
  rfl

end Store

namespace World

variable {w w' : World} {a m t : Nat} {c : Call} {e : Event} {mv : Move}
  {x : Next}

/-- Operation `a` is not refused, and what it waits for does not lead to that. -/
structure Granted (a : Nat) (w : World) : Prop where
  waits : ∀ f, w.pending.find? a = some f → f.grants = true
  answers : ∀ e ∈ w.answers a, e.refuses = false

namespace Granted

theorem congr (h : w.Granted a) (hp : w'.pending.find? a = w.pending.find? a)
    (ha : w'.answers a = w.answers a) : w'.Granted a :=
  ⟨fun f hf => h.waits f (hp.symm.trans hf), fun e he => h.answers e (ha ▸ he)⟩

theorem give (h : w.Granted a) {v : Value} (hv : (Next.give v).grants = true) :
    (w.give a v).Granted a := by
  refine ⟨h.waits, fun e he => ?_⟩
  rw [answers_give] at he
  rcases List.mem_cons.mp he with rfl | he
  · cases v with
    | flag b => cases b <;> first | rfl | cases hv
    | outcome o => cases o <;> first | rfl | cases hv
    | _ => rfl
  · exact h.answers e he

theorem raise (h : w.Granted a) {x : Fault} (hx : x ≠ .noJob) : (w.raise a x).Granted a := by
  refine ⟨h.waits, fun e he => ?_⟩
  rw [answers_raise] at he
  rcases List.mem_cons.mp he with rfl | he
  · cases x <;> first | rfl | exact absurd rfl hx
  · exact h.answers e he

theorem ask (h : w.Granted a) {f : Frame} (hf : f.grants = true) (q : Hook) :
    (w.ask a f q).Granted a := by
  refine ⟨fun g hg => ?_, fun e he => h.answers e ?_⟩
  · have hg' : (w.pending.insert a f).find? a = some g := hg
    rw [Table.find?_insert_same] at hg'
    exact Option.some.inj hg' ▸ hf
  · rwa [answers_eq (l := [.asked a q]) rfl (by simp [Event.ends])] at he

theorem note (h : w.Granted a) (m : Nat) (level : Level) (id message : String)
    (fields : List (String × String)) : (w.note m level id message fields).Granted a := by
  obtain ⟨ha, hp⟩ := answers_note (a := a) w m level id message fields
  exact h.congr (by rw [hp]) ha

/-- An attempt that begins is granted. -/
theorem enter (h : w.Granted a) (t : Nat) (n : Int) (k : Caller) : (w.enter a t n k).Granted a := by
  obtain ⟨f, q, hf, he⟩ := enter_eq w a t n k
  rw [he]
  have hw : (w.emit (.entered a (w.ticket t).job t n)).Granted a :=
    h.congr rfl (answers_eq (l := [_]) rfl (by simp [Event.ends]))
  refine hw.ask ?_ q
  rcases hf with ⟨rfl, -⟩ | ⟨rfl, -⟩ <;> rfl

/-- A manager that is to run on ends with a tally. -/
theorem next (h : w.Granted a) {tally : Option Nat} (hc : tally = none → w.claim m ≠ none) :
    (w.next a m tally).Granted a := by
  simp only [World.next]
  split
  · rename_i hn
    cases tally with
    | none => exact absurd hn (hc rfl)
    | some n => exact h.give rfl
  · rename_i s u hs
    have hw : World.Granted a { w with toStore := s } := h.congr rfl rfl
    exact (hw.note ..).enter ..

theorem resumeNext (h : w.Granted a) (hn : x.grants = true) : (w.resumeNext a x).Granted a := by
  cases x with
  | give v => exact h.give hn
  | proceed m o tally =>
    cases tally with
    | none => exact h.give rfl
    | some n => exact h.next nofun

theorem tell (h : w.Granted a) (t : Nat) (hn : x.grants = true) : (w.tell a t x).Granted a := by
  simp only [World.tell]
  split
  · exact h.resumeNext hn
  · exact ask (w := { w with toStore := w.onTicket t ({ · with notified := true }) })
      (f := .told x) (h.congr rfl rfl) hn _

/-- A reply to the operation leads to no refusal. -/
theorem reply (h : w.Granted a) (hw : w.Founded) (r : Reply) :
    (w.step (.reply a r)).Granted a := by
  rcases step_resumes w a r with ⟨hs, -⟩ | ⟨f, hf, -, hr⟩
  · rwa [hs]
  have hu : World.Granted a { w with pending := w.pending.erase a } :=
    ⟨fun g hg => absurd ((Table.find?_erase_same ..).symm.trans hg) nofun, h.answers⟩
  generalize w.effect (.reply a r) = v, w.step (.reply a r) = w' at hr
  have closed {u v : World} {k : Caller} {o : Outcome}
      (hv : Rules { w with pending := w.pending.erase a } f r v k o)
      (hl : (v.close k o).Logged u) : u.Granted a := by
    obtain ⟨jobs, rfl, -⟩ := hv.replanned
    obtain ⟨ls, es, he, rfl⟩ := hl
    refine hu.congr rfl (answers_eq rfl fun e hm => ?_)
    obtain ⟨l, x, rfl⟩ := he e hm
    rfl
  cases hr with
  | asked j t n reason k q hfr hl =>
    exact (hu.congr rfl rfl : World.Granted a
      (World.intend { w with pending := w.pending.erase a } j none)).ask rfl q
  | threw next x hfr hr => exact hu.raise nofun
  | done next hfr hr =>
    subst hfr
    exact hu.resumeNext (h.waits _ hf)
  | failed u v k o m t x hv hk hs hl =>
    refine (closed hv hl).raise ?_
    have made : t < v.tickets.size := by
      rw [hv.replanned.tickets]
      exact hw.works a m t ((works_of_frame hf).mpr (hv.work ▸ hk))
    rcases Store.settle_spec (m := m) made o with ⟨_, _, -, he, -⟩ | ⟨-, ⟨_, he⟩, -⟩ |
      ⟨-, -, -, he, -⟩ <;> cases hs.symm.trans he
    nofun
  | told u v k o m t j hv hk hl hn =>
    exact ask (w := { u with toStore := u.onTicket t ({ · with notified := true }) })
      (f := .told (k.next o)) ((closed hv hl).congr rfl rfl) (k.grants_next o) _
  | went u v k o hv hl => exact (closed hv hl).resumeNext (k.grants_next o)

theorem step (h : w.Granted a) (hw : w.Founded) (ha : a < w.calls) (mv : Move) :
    (w.step mv).Granted a := by
  by_cases hne : a = w.acting mv
  · cases mv with
    | reply b r =>
      obtain rfl : a = b := hne
      exact h.reply hw r
    | _ => exact absurd hne (Nat.ne_of_lt ha)
  · obtain ⟨hs, hp⟩ := step_other hw hne
    exact h.congr hp hs

/-- What is granted stays granted. -/
theorem run (h : w.Granted a) (hw : w.Founded) (ha : a < w.calls) (moves : List Move) :
    (w.run moves).Granted a := by
  induction moves generalizing w with
  | nil => exact h
  | cons mv moves ih =>
    exact ih (h.step hw ha mv) (hw.step mv) (Nat.lt_of_lt_of_le ha (calls_le_step hw mv))

end Granted

end World

end Backlog
