import Backlog.Proofs.Endings

/-!
# Cancellations

A cancellation is never lost. The id that it meets is free from then on, or its ticket is
marked while it runs, and then no new ticket carries on the work. So no further attempt begins
until the id is admitted again.
-/

namespace Backlog

/-- Manager `m` is called to cancel the id. -/
abbrev Move.cancel (m : Nat) (id : String) : Move := .call (.manager m (.cancel id))

/-- The attempt that waits in the frame has the standard outcomes. -/
def Frame.standard : Frame → Bool
  | .body .. | .plan .. => true
  | _ => false

namespace World

variable {w w' v : World} {a b m t : Nat} {id : String}

/-- The id is free, or its attempt runs and is cancelled. -/
def Doomed (m : Nat) (id : String) (w : World) : Prop :=
  (w.manager m).free id = true ∨
    ∃ t, (w.manager m).running.find? id = some t ∧ (w.ticket t).cancelled = true

theorem Doomed.not_starts (h : w.Doomed m id) (hw : w.Sound m) : ¬Starts m id a w w' := by
  apply World.not_starts hw
  rcases h with hf | ⟨t, hr, -⟩
  · exact (Manager.free_iff.mp hf).2
  · exact hw.custody.apart id t hr

theorem Doomed.agrees (h : w.Doomed m id) (ha : (w.manager m).Agrees (w'.manager m) id)
    (hc : ∀ t, (w.manager m).running.find? id = some t → (w.ticket t).cancelled = true →
      (w'.ticket t).cancelled = true) : w'.Doomed m id :=
  h.imp (fun hf => ha.free.trans hf) fun ⟨t, hr, ht⟩ => ⟨t, ha.running.trans hr, hc t hr ht⟩

theorem Doomed.sequel (h : w.Doomed m id) (hw : w.Sound m) (hs : Sequel a w w') :
    w'.Doomed m id :=
  h.agrees (sequel_agrees hs (h.not_starts hw)) fun t hr ht =>
    (cancelled_sequel hs (hw.custody.made t (.inr ⟨id, hr⟩))).trans ht

/-- A cancelled ticket gets no other attempt. -/
theorem verdict_ne_none {s : Store} (h : (s.ticket t).cancelled = true) (o : Outcome) :
    s.verdict m t o ≠ none := by
  cases o <;> simp [Store.verdict, Store.verdict.again, h]

theorem toStore_cancel (hm : m < w.managers.size) :
    (w.effect (.cancel m id)).toStore =
      ((w.withdraw m id).map Prod.fst).getD w.toStore :=
  toStore_manage (by simp [Call.inScope, hm])

theorem cancelled_cancelTicket (s : Store) (t : Nat) :
    ((s.cancelTicket t).ticket t).cancelled = true := by
  change ((s.onTicket t _).ticket t).cancelled = true
  rw [Store.ticket_onTicket, if_pos rfl]

/-- A cancellation leaves its id free or its ticket marked. -/
theorem doomed_cancel (hm : m < w.managers.size) (id : String) :
    (w.effect (.cancel m id)).Doomed m id := by
  simp only [Doomed]
  rw [toStore_cancel hm]
  cases hw : w.withdraw m id with
  | none => exact .inl (Store.withdraw_eq_none.mp hw)
  | some p =>
    rw [Option.map_some, Option.getD_some]
    obtain ⟨s, d⟩ := p
    cases d with
    | dropped t => exact .inl (Store.withdraw_dropped_ended hw).1
    | marked t =>
      rcases Store.withdraw_cases hw with ⟨u, hr, rfl, -⟩ | ⟨-, u, queue, -, -, hd⟩
      · exact .inr ⟨u, hr, cancelled_cancelTicket w.toStore u⟩
      · cases hd

/-- A doomed id stays so until it is admitted again. -/
theorem Doomed.effect (h : w.Doomed m id) (hw : w.Sound m) {mv : Move}
    (hn : ¬w.Admits m id (w.effect mv).toStore) : (w.effect mv).Doomed m id := by
  by_cases hc : mv = .cancel m id
  · subst hc
    by_cases hm : m < w.managers.size
    · exact doomed_cancel hm id
    · simp only [World.effect]
      rw [if_neg (by simp [Call.inScope, hm])]
      exact h
  by_cases hr : ∃ a r t, mv = .reply a r ∧ w.Works a m t ∧ (w.ticket t).id = id
  · -- the cancelled attempt itself goes on
    obtain ⟨a, r, t, rfl, hwork, rfl⟩ := hr
    have hrun := hw.tended.runs a t hwork
    have hmark : (w.ticket t).cancelled = true := by
      rcases h with hf | ⟨u, hu, hmark⟩
      · rw [(Manager.free_iff.mp hf).1] at hrun
        cases hrun
      · rw [hrun] at hu
        exact Option.some.inj hu ▸ hmark
    rcases effect_reply w a r with he | ⟨f, hf, hh⟩
    · rwa [he]
    generalize w.effect (.reply a r) = w' at hh
    have hwork' := (works_of_frame hf).mp hwork
    cases hh with
    | closed v k o hv hk =>
      rcases close_own hw hwork (hk.trans hwork') hv o with ⟨_, _, -, -, -, ho⟩ | ⟨hd, -⟩ |
        ⟨-, hd, -⟩
      · exact .inl ho.free
      · exact absurd hd (verdict_ne_none (by rw [hv.ticket]; exact hmark) o)
      · rw [hmark] at hd
        cases hd
    | asked v g q hv hg hc =>
      refine .inr ⟨t, ?_, ?_⟩
      · change (v.manager m).running.find? _ = some t
        rwa [hv.manager]
      · change (v.ticket t).cancelled = true
        rwa [hv.ticket]
    | passed hn =>
      rw [hn] at hwork'
      cases hwork'
  · have ha := effect_agrees hw.founded hc fun a r t he hw hid => hr ⟨a, r, t, he, hw, hid⟩
    apply h.agrees (ha.resolve_right hn)
    intro t hr ht
    exact cancelled_effect (hw.custody.made t (.inr ⟨id, hr⟩)) ht mv

/-- No attempt begins under an id that is doomed by what a move does at once. -/
theorem begun_doomed (hw : w.Sound m) {mv : Move} (hl : lawful m w mv)
    (h : (w.effect mv).Doomed m id) : w.begun m id mv = [] ∧ (w.step mv).Doomed m id := by
  obtain ⟨_, hx, hd⟩ := step_observe (σ := Unit) (f := fun _ _ => none)
    (R := fun _ w => w.Doomed m id) (fun _ _ _ _ hw hd hs _ => hd.sequel hw hs)
    (fun a _ w t s tally hw hd ha hc hid =>
      absurd ⟨t, s, tally, ha, hc, hid, rfl⟩ (hd.not_starts hw)) hw hl (x := ()) h
  refine ⟨?_, hd⟩
  cases hb : w.begun m id mv with
  | nil => rfl
  | cons n ns =>
    rw [hb, List.foldlM_cons] at hx
    cases hx

theorem attempts_doomed (hw : w.Sound m) (h : w.Doomed m id) {moves : List Move}
    (hl : w.Along (fun w mv => lawful m w mv ∧ ¬w.Admits m id (w.step mv).toStore) moves) :
    attempts m id w moves = [] := by
  induction moves generalizing w with
  | nil => rfl
  | cons mv moves ih =>
    have he : (w.effect mv).Doomed m id :=
      h.effect hw fun ha => hl.1.2 (admits_step hw.founded ha)
    obtain ⟨hb, hd⟩ := begun_doomed hw hl.1.1 he
    rw [attempts, hb, List.nil_append]
    exact ih (hw.step hl.1.1) hd hl.2

/-- A cancelled attempt of the standard kind ends with the first reply that it takes. -/
theorem over_of_reply (hw : w.Sound m) {f : Frame} (hf : w.pending.find? a = some f)
    (hs : f.standard = true) (hwork : w.Works a m t) (hc : (w.ticket t).cancelled = true)
    {r : Reply} (hr : f.takes r = true) :
    (w.effect (.reply a r)).Over m (w.ticket t).id
      (if r = .succeeded then .succeeded else .cancelled) := by
  have hk := (works_of_frame hf).mp hwork
  have hco := hw.founded.coherent a f hf
  have ended {v : World} {k : Caller} {o : Outcome} (status : Status)
      (hv : Replanned { w with pending := w.pending.erase a } v) (hk : k.work = some (m, t))
      (ho : v.verdict m t o = some status) : (v.close k o).Over m (w.ticket t).id status :=
    over_of_verdict hw hwork hk hv (fun _ => hc) ho
  have failed {v : World} {j : Nat} {n : Int} {k : Caller} (hk : k.work = some (m, t))
      (hv : Replanned { w with pending := w.pending.erase a } v) :
      (v.closeFailed j t n k).Over m (w.ticket t).id .cancelled := by
    have ho : v.failureOutcome j t n = .cancelled := by
      rw [failureOutcome, hv.ticket]
      exact if_pos hc
    rw [closeFailed, ho]
    exact ended .cancelled hv hk rfl
  have falter {j : Nat} {n : Int} {k : Caller} (hk : k.work = some (m, t)) (reason : String) :
      (World.falter { w with pending := w.pending.erase a } a j t n reason k).Over m
        (w.ticket t).id .cancelled := by
    simp only [World.falter]
    rw [if_neg fun hn => hn.2 hc]
    exact failed hk ((Replanned.refl _).intend j none)
  rw [effect_taken hf hr]
  cases f with
  | told next => cases hs
  | attempt k => cases hs
  | body j u n k =>
    obtain ⟨i, since, tally, rfl⟩ := Caller.eq_of_work hk
    obtain ⟨rfl, rfl⟩ := hco
    cases r with
    | succeeded => exact ended .succeeded (.refl _) rfl rfl
    | failed reason => exact falter rfl reason
    | threw x => exact falter rfl _
    | _ => cases hr
  | plan j u n reason k =>
    obtain ⟨i, since, tally, rfl⟩ := Caller.eq_of_work hk
    obtain ⟨rfl, rfl⟩ := hco
    cases r with
    | plan p => exact failed rfl ((Replanned.refl _).intend j _)
    | threw x => exact failed rfl ((Replanned.refl _).intend j _)
    | _ => cases hr

/-- How an attempt of the standard kind ends that was cancelled, by the reply that ends it. -/
def cancelledStatus : Option Reply → Status
  | none => .running
  | some r => if r = .succeeded then .succeeded else .cancelled

/-- A cancelled attempt of the standard kind runs until it ends by a reply. -/
theorem status_cancelled (hw : w.Sound m) {f : Frame} (hf : w.pending.find? a = some f)
    (hs : f.standard = true) (hwork : w.Works a m t) (hc : (w.ticket t).cancelled = true)
    (hid : (w.ticket t).id = id) {moves : List Move}
    (hl : w.Along (fun w mv => lawful m w mv ∧ ¬w.Admits m id (w.step mv).toStore) moves)
    (now : Int) : ((w.run moves).manager m).status (w.run moves).ticket now id =
      cancelledStatus (reply? a f moves) := by
  let J (r : Option Reply) (w : World) : Prop := w.Sound m ∧ r.elim
    (w.pending.find? a = some f ∧ (w.ticket t).cancelled = true ∧ (w.ticket t).id = id)
    fun r => w.Over m id (if r = .succeeded then .succeeded else .cancelled)
  have hwork := (works_of_frame hf).mp hwork
  have hj : J (reply? a f moves) (w.run moves) := by
    refine reply?_run (fun w mv hj hp hn => ?_) (fun w r hj hp hr => ?_)
      (fun r w mv hj hp => ?_) hl ⟨hw, hf, hc, hid⟩
    · obtain ⟨hw, hf, hc, hid⟩ := hj
      have hh := hw.held ((works_of_frame hf).mpr hwork)
      exact ⟨hw.step hp.1, (waits_step hw.founded hf hn).2,
        cancelled_step hw.founded (hw.custody.made t hh) hc mv, (hw.id_step hp.1 hh).trans hid⟩
    · obtain ⟨hw, hf, hc, rfl⟩ := hj
      have ho := over_of_reply hw hf hs ((works_of_frame hf).mpr hwork) hc hr
      exact ⟨hw.step hp.1, ho.sequels (hw.effect hp.1) (step_sequels hw.founded _)⟩
    · exact ⟨hj.1.step hp.1, hj.2.step hj.1 hp.1 hp.2⟩
  cases hr : reply? a f moves with
  | none =>
    rw [hr] at hj
    obtain ⟨hw, hf, -, rfl⟩ := hj
    have hrun := hw.tended.runs a t ((works_of_frame hf).mpr hwork)
    rw [Manager.status, if_pos ((Table.contains_iff ..).mpr ⟨t, hrun⟩)]
    rfl
  | some r =>
    rw [hr] at hj
    exact hj.2.status_eq ..

/-- How an operation ends that gives the value once a job was told, by the reply for the job. -/
def endings (a : Nat) (v : Value) : Option Reply → List Event
  | none => []
  | some (.threw x) => [.raised a (.thrown x)]
  | some _ => [.returned a v]

theorem answers_told (h : w.Founded) {v : Value} (hf : w.pending.find? a = some (.told (.give v)))
    (ha : w.answers a = []) (moves : List Move) :
    (w.run moves).answers a = endings a v (reply? a (.told (.give v)) moves) := by
  let J (r : Option Reply) (w : World) : Prop := w.Founded ∧ a < w.calls ∧
    w.answers a = endings a v r ∧
    w.pending.find? a = r.elim (some (.told (.give v))) fun _ => none
  have hall : w.Along (fun _ _ => True) moves := along_true w moves
  refine (reply?_run (J := J) (fun w mv hj _ hn => ?_) (fun w r hj _ hr => ?_)
    (fun r w mv hj _ => ?_) hall ⟨h, h.numbered a _ hf, ha, hf⟩).2.2.1
  · obtain ⟨hw, hc, ha, hf⟩ := hj
    obtain ⟨hs, hp⟩ := waits_step hw hf hn
    exact ⟨hw.step mv, Nat.lt_of_lt_of_le hc (calls_le_step hw mv), hs.trans ha, hp⟩
  · obtain ⟨hw, hc, ha, hf⟩ := hj
    refine ⟨hw.step _, Nat.lt_of_lt_of_le hc (calls_le_step hw _), ?_⟩
    rw [step_taken hf hr]
    cases r with
    | done =>
      refine ⟨(answers_give ..).trans (congrArg _ ha), Table.find?_erase_same ..⟩
    | threw x =>
      refine ⟨(answers_raise ..).trans (congrArg _ ha), Table.find?_erase_same ..⟩
    | _ => cases hr
  · obtain ⟨hw, hc, ha, hp⟩ := hj
    obtain ⟨hs, hp'⟩ := ended_step hw hc hp mv
    exact ⟨hw.step mv, Nat.lt_of_lt_of_le hc (calls_le_step hw mv), hs.trans ha, hp'⟩

theorem cancel_free (hf : (w.manager m).free id = true) :
    w.cancel a m id = w.give a (.flag false) := by
  simp only [World.cancel]
  rw [Store.withdraw_eq_none.mpr hf]

/-- A call to cancel a running id answers at once. -/
theorem answers_cancel_running (hr : (w.manager m).running.find? id = some t)
    (ha : w.answers a = []) (hp : w.pending.find? a = none) :
    (w.cancel a m id).answers a = [.returned a (.flag true)] ∧
      (w.cancel a m id).pending.find? a = none := by
  simp only [World.cancel]
  rw [Store.withdraw_running hr]
  obtain ⟨hn, hq⟩ := answers_note (a := a) { w with toStore := w.cancelTicket t } m .warn id
    "cancel requested" [("event", "job_cancel"), ("state", "Running")]
  exact ⟨(answers_give ..).trans (congrArg _ (hn.trans ha)),
    (congrArg (·.find? a) hq).trans hp⟩

/-- A call to cancel a queued id answers at once or waits until the job is told. -/
theorem answers_cancel_queued (hr : (w.manager m).running.find? id = none)
    (hq : (w.manager m).queue.find? id = some t) (ha : w.answers a = [])
    (hp : w.pending.find? a = none) :
    ((w.ticket t).notified = true → (w.cancel a m id).answers a = [.returned a (.flag true)] ∧
      (w.cancel a m id).pending.find? a = none) ∧
    ((w.ticket t).notified = false → (w.cancel a m id).answers a = [] ∧
      (w.cancel a m id).pending.find? a = some (.told (.give (.flag true)))) := by
  obtain ⟨s, hw, hs⟩ : ∃ s, w.withdraw m id = some (s, .dropped t) ∧
      (s.ticket t).notified = (w.ticket t).notified := by
    obtain ⟨queue, hw⟩ := Store.withdraw_queued hr hq
    refine ⟨_, hw, ?_⟩
    change ((w.onTicket t _).ticket t).notified = _
    rw [Store.ticket_onTicket, if_pos rfl]
  simp only [World.cancel]
  rw [hw]
  dsimp only
  obtain ⟨v, hv⟩ : ∃ v, v = { w with toStore := s }.note m .warn id "cancelled"
    [("event", "job_cancel"), ("state", "Queued")] := ⟨_, rfl⟩
  rw [← hv]
  have hv' := answers_note (a := a) { w with toStore := s } m .warn id "cancelled"
    [("event", "job_cancel"), ("state", "Queued")]
  rw [← hv] at hv'
  have hk : (v.ticket t).notified = (w.ticket t).notified := by
    rw [hv, ← hs]
    simp only [note, log]
    split <;> rfl
  simp only [tell]
  rw [hk]
  refine ⟨fun hn => ?_, fun hn => ?_⟩ <;> rw [hn]
  · exact ⟨(answers_give ..).trans (congrArg _ (hv'.1.trans ha)),
      (congrArg (·.find? a) hv'.2).trans hp⟩
  · exact ⟨hv'.1.trans ha, Table.find?_insert_same ..⟩

/-- What was queued is cancelled at once. -/
theorem over_cancel_queued (h : w.Sound m) (hm : m < w.managers.size)
    (hq : (w.manager m).queue.find? id = some t) :
    (w.effect (.cancel m id)).Over m id .cancelled := by
  obtain ⟨queue, hw⟩ := Store.withdraw_queued (h.custody.queued_apart hq) hq
  obtain ⟨hfree, hfin⟩ := Store.withdraw_dropped_ended hw
  constructor <;> rw [toStore_cancel hm, hw]
  · exact hfree
  · exact hfin

/-- What runs is marked at once. -/
theorem cancelled_cancel_running (h : w.Sound m) (hm : m < w.managers.size)
    (hr : (w.manager m).running.find? id = some t) :
    ((w.step (.cancel m id)).ticket t).cancelled = true := by
  have he : ((w.effect (.cancel m id)).ticket t).cancelled = true := by
    rw [toStore_cancel hm, Store.withdraw_running hr]
    exact cancelled_cancelTicket w.toStore t
  have made := Nat.lt_of_lt_of_le (h.custody.made t (.inr ⟨id, hr⟩))
    (keeps_effect w (.cancel m id)).tickets
  exact (ticket_sequels (step_sequels h.founded _) made).2.trans he

/-- The answer to a call to cancel an id, along any run that follows. -/
theorem answers_cancel (hs : w.Sound m) (hm : m < w.managers.size) (ha : w.answers w.calls = [])
    {moves : List Move} (hv : v = (w.step (.cancel m id)).run moves) :
    ((w.manager m).free id = true → v.answers w.calls = [.returned w.calls (.flag false)]) ∧
    (∀ t, (w.manager m).running.find? id = some t →
      v.answers w.calls = [.returned w.calls (.flag true)]) ∧
    ∀ t, (w.manager m).queue.find? id = some t → v.answers w.calls =
      if (w.ticket t).notified then [.returned w.calls (.flag true)]
      else endings w.calls (.flag true) (reply? w.calls (.told (.give (.flag true))) moves) := by
  subst hv
  have hs' : (w.step (.cancel m id)).Founded := hs.founded.step _
  have hp : w.pending.find? w.calls = none := Option.eq_none_iff_forall_ne_some.mpr fun f hf =>
    Nat.lt_irrefl _ (hs.founded.numbered _ f hf)
  have hscope : (Call.manager m (.cancel id)).inScope w.toStore = true := by
    simp [Call.inScope, hm]
  have hstep : w.step (.cancel m id) =
      World.cancel { w with calls := w.calls + 1 } w.calls m id := if_pos hscope
  -- an answer that is given at once stays
  have atOnce {e : Event}
      (he : (World.cancel { w with calls := w.calls + 1 } w.calls m id).answers w.calls = [e] ∧
        (World.cancel { w with calls := w.calls + 1 } w.calls m id).pending.find? w.calls = none) :
      ((w.step (.cancel m id)).run moves).answers w.calls = [e] := by
    rw [← hstep] at he
    have hcalls : w.calls < (w.step (.cancel m id)).calls := by
      rw [calls_step hs.founded, calls_effect, if_pos hscope]
      exact Nat.lt_succ_self _
    rw [ended_run hs' hcalls he.2, he.1]
  refine ⟨fun hf => ?_, fun t hr => ?_, fun t hq => ?_⟩
  · apply atOnce
    rw [cancel_free (w := { w with calls := w.calls + 1 }) hf]
    exact ⟨(answers_give ..).trans (congrArg _ ha), hp⟩
  · exact atOnce (answers_cancel_running (w := { w with calls := w.calls + 1 }) hr ha hp)
  · obtain ⟨htold, hwait⟩ := answers_cancel_queued (w := { w with calls := w.calls + 1 })
      (hs.custody.queued_apart hq) hq ha hp
    split
    · rename_i hk
      exact atOnce (htold hk)
    · rename_i hk
      have he := hwait (by simpa using hk)
      rw [← hstep] at he
      exact answers_told hs' he.2 he.1 moves

/-- A call to cancel an id says whether the id was held, once the job of a queued one was told.
From then on no attempt begins under the id until it is admitted again: what was queued is
cancelled at once, and a standard attempt that ran ends cancelled unless it succeeds. -/
theorem cancellation_kept (h : ReachableBy (lawful m) w) (hm : m < w.managers.size) (id : String)
    {moves : List Move} (hv : v = (w.step (.cancel m id)).run moves)
    (hl : (w.step (.cancel m id)).Along (lawful m) moves) :
    ((w.manager m).free id = true → v.answers w.calls = [.returned w.calls (.flag false)]) ∧
    (∀ t, (w.manager m).running.find? id = some t →
      v.answers w.calls = [.returned w.calls (.flag true)]) ∧
    (∀ t, (w.manager m).queue.find? id = some t → v.answers w.calls =
      if (w.ticket t).notified then [.returned w.calls (.flag true)]
      else endings w.calls (.flag true) (reply? w.calls (.told (.give (.flag true))) moves)) ∧
    ((w.step (.cancel m id)).Along (fun w mv => ¬w.Admits m id (w.step mv).toStore) moves →
      attempts m id w (.cancel m id :: moves) = [] ∧
      (∀ t now, (w.manager m).queue.find? id = some t →
        (v.manager m).status v.ticket now id = .cancelled) ∧
      ∀ b t f now, w.Works b m t → (w.ticket t).id = id → w.pending.find? b = some f →
        f.standard = true →
        (v.manager m).status v.ticket now id = cancelledStatus (reply? b f moves)) := by
  have hs := h.sound
  have hlc : lawful m w (.cancel m id) := trivial
  have hs' := hs.step hlc
  obtain ⟨hfree, hrun, hqueue⟩ :=
    answers_cancel hs hm (answers_of_calls_le h (Nat.le_refl _)) hv
  subst hv
  refine ⟨hfree, hrun, hqueue, fun hn => ⟨?_, fun t now hq => ?_, ?_⟩⟩
  · obtain ⟨hb, hd⟩ := begun_doomed hs hlc (doomed_cancel hm id)
    rw [attempts, hb, List.nil_append]
    exact attempts_doomed hs' hd (hl.and hn)
  · have ho := (over_cancel_queued hs hm hq).sequels (hs.effect hlc) (step_sequels hs.founded _)
    exact (ho.run hs' (hl.and hn)).status_eq ..
  · intro b t f now hwork hid hf hstd
    have hr := hs.tended.runs b t hwork
    rw [hid] at hr
    have hno (r : Reply) (he : Move.cancel m id = .reply b r) : f.takes r = false := by
      cases he
    have hf' := (waits_step hs.founded hf hno).2
    have hwork' : (w.step (.cancel m id)).Works b m t :=
      (works_of_frame hf').mpr ((works_of_frame hf).mp hwork)
    exact status_cancelled hs' hf' hstd hwork' (cancelled_cancel_running hs hm hr)
      ((hs.id_step hlc (hs.held hwork)).trans hid) (hl.and hn) now

/-- One job is queued. -/
def queued : List Move :=
  [.call (.makeJob { id := "a" }), .call (.makeManager {}), .call (.manager 0 (.add (some 0))),
    .reply 2 .done]

/-- The body of the job runs. -/
def running : List Move := queued ++ [.call (.manager 0 .runNext)]

/-- The cancellation of a running job whose body then fails. -/
theorem cancellation_kept_running :
    (((start 0).run running).step (.cancel 0 "a")).answers 4 = [.returned 4 (.flag true)] ∧
      attempts 0 "a" ((start 0).run running) [.cancel 0 "a", .reply 3 (.failed "late")] = [] ∧
      (((start 0).run (running ++ [.cancel 0 "a", .reply 3 (.failed "late")])).manager 0).status
        ((start 0).run (running ++ [.cancel 0 "a", .reply 3 (.failed "late")])).ticket 0 "a" =
          .cancelled := by
  have hr : ReachableBy (lawful 0) ((start 0).run running) :=
    ⟨0, running, by simp only [running, queued, List.cons_append, List.nil_append, Along, lawful,
      and_self], rfl⟩
  have hl : (((start 0).run running).step (.cancel 0 "a")).Along (lawful 0)
      [.reply 3 (.failed "late")] := ⟨trivial, trivial⟩
  have hl' : (((start 0).run running).step (.cancel 0 "a")).Along (lawful 0) [] := trivial
  have h := (cancellation_kept hr (by decide) "a" rfl hl).2.2.2
    ⟨by unfold Store.Admits; decide, trivial⟩
  refine ⟨(cancellation_kept hr (by decide) "a" rfl hl').2.1 0 (by decide), h.1, ?_⟩
  exact h.2.2 3 0 (.body 0 0 1 (.manager 0 0 1 0 none)) 0 (by decide) (by decide) (by decide) rfl

/-- Not every call to cancel an id that is held returns: the job may throw when it is told. -/
theorem cancel_may_raise :
    ¬∀ (w : World) (m : Nat) (id : String) (moves : List Move), ReachableBy (lawful m) w →
      m < w.managers.size → (w.manager m).free id = false →
      ((w.step (.cancel m id)).run moves).pending.find? w.calls = none →
      ((w.step (.cancel m id)).run moves).answers w.calls = [.returned w.calls (.flag true)] := by
  intro h
  have hr : ReachableBy (lawful 0) ((start 0).run queued) :=
    ⟨0, queued, by simp only [queued, Along, lawful, and_self], rfl⟩
  have := h ((start 0).run queued) 0 "a" [.reply 3 (.threw (.runtime "no"))] hr (by decide)
    (by decide) (by decide)
  exact absurd this (by decide)

end World

end Backlog
