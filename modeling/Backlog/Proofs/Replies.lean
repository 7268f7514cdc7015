import Backlog.Proofs.Effects

/-!
# What a reply does

An attempt that gets a reply ends, waits for the plan of its job, or was not waited for. What
the job has planned is all that changes before that, so that the store changes by a plan and by
what it takes to settle the attempt.
-/

namespace Backlog.World

variable {w w' v : World} {a b i m t u : Nat} {f : Frame} {r : Reply}

theorem works_ask {h : Hook} :
    (w.ask a f h).Works b m t ↔ b = a ∧ f.work = some (m, t) ∨ b ≠ a ∧ w.Works b m t := by
  change ((w.pending.insert a f).find? b).bind _ = _ ↔ _
  rw [Table.find?_insert]
  by_cases hb : b = a
  · simp [hb]
  · simp [hb, Works]

theorem works_erase (hp : w'.pending = w.pending.erase a) :
    w'.Works b m t ↔ b ≠ a ∧ w.Works b m t := by
  simp only [Works]
  rw [hp, Table.find?_erase]
  by_cases hb : b = a <;> simp [hb]

theorem not_works (hp : w.pending.find? a = none) : ¬w.Works a m t := by
  rw [Works, hp]
  intro h
  cases h

/-- An operation waits in one attempt at a time. -/
theorem Works.unique (h : w.Works a m t) (h' : w.Works a i u) : m = i ∧ t = u :=
  Prod.mk.inj (Option.some.inj (h.symm.trans h'))

/-- To leave an operation out that works for nobody leaves out no work. -/
theorem works_apart (h : ¬w.Works a m t) : b ≠ a ∧ w.Works b m t ↔ w.Works b m t := by
  apply and_iff_right_of_imp
  rintro hb rfl
  exact h hb

theorem works_of_frame (hf : w.pending.find? a = some f) : w.Works a m t ↔ f.work = some (m, t) := by
  rw [Works, hf]
  rfl

/-- Jobs have other plans, and nothing else differs. -/
def Replanned (w v : World) : Prop :=
  ∃ jobs, v = { w with toStore := { w.toStore with jobs } } ∧ Store.Keeps none w.toStore v.toStore

theorem Replanned.refl (w : World) : w.Replanned w := ⟨w.jobs, rfl, .refl ..⟩

theorem Replanned.intend (h : w.Replanned v) (j : Nat) (p : Option RetryPlan) :
    w.Replanned (v.intend j p) := by
  obtain ⟨jobs, rfl, hk⟩ := h
  exact ⟨_, rfl, hk.trans (Store.keeps_onJob _ _ fun _ => rfl)⟩

theorem Replanned.manager (h : w.Replanned v) : v.manager = w.manager := by
  obtain ⟨jobs, rfl, -⟩ := h
  rfl

theorem Replanned.tickets (h : w.Replanned v) : v.tickets = w.tickets := by
  obtain ⟨jobs, rfl, -⟩ := h
  rfl

theorem Replanned.ticket (h : w.Replanned v) : v.ticket = w.ticket := by
  obtain ⟨jobs, rfl, -⟩ := h
  rfl

theorem Replanned.pending (h : w.Replanned v) : v.pending = w.pending := by
  obtain ⟨jobs, rfl, -⟩ := h
  rfl

/-- What comes of a reply to an operation that waited in frame `f`. -/
inductive Heard (w : World) (a : Nat) (f : Frame) : World → Prop
  | closed (v : World) (k : Caller) (o : Outcome) (hv : w.Replanned v) (hk : k.work = f.work) :
    Heard w a f (v.close k o)
  | asked (v : World) (g : Frame) (q : Hook) (hv : w.Replanned v) (hg : g.work = f.work)
    (hc : f.Coherent → g.Coherent) : Heard w a f (v.ask a g q)
  | passed (hf : f.work = none) : Heard w a f w

theorem heard_falter (w : World) (a j t : Nat) (n : Int) (reason : String) (k : Caller) :
    Heard w a (.body j t n k) (w.falter a j t n reason k) := by
  have hv := (Replanned.refl w).intend j none
  refine falter_cases (P := fun v _ => Heard w a _ v) (fun _ _ => ?_) (fun _ _ _ => ?_) fun _ => ?_
  · exact .asked _ (.plan j t n reason k) _ hv rfl (by cases k <;> exact fun h => h)
  · exact .closed _ k _ (hv.intend j _) rfl
  · exact .closed _ k _ hv rfl

theorem heard (w : World) (a : Nat) (ht : f.takes r = true) :
    Heard w a f (w.hear a f r) := by
  cases f with
  | told next => exact .passed rfl
  | attempt k =>
    cases r with
    | outcome o => exact .closed w k o (.refl w) rfl
    | _ => cases ht
  | body j t n k =>
    cases r with
    | succeeded => exact .closed w k .success (.refl w) rfl
    | failed reason => exact heard_falter ..
    | threw x => exact heard_falter ..
    | _ => cases ht
  | plan j t n reason k =>
    have hv := (Replanned.refl w).intend j
    cases r with
    | plan p => exact .closed _ k _ (hv _) rfl
    | threw x => exact .closed _ k _ (hv _) rfl
    | _ => cases ht

theorem effect_taken (hf : w.pending.find? a = some f) (hr : f.takes r = true) :
    w.effect (.reply a r) = World.hear { w with pending := w.pending.erase a } a f r := by
  simp only [effect]
  rw [hf]
  exact if_pos hr

theorem effect_untaken (hf : w.pending.find? a = some f) (hr : f.takes r = false) :
    w.effect (.reply a r) = w := by
  simp only [effect]
  rw [hf]
  exact if_neg (by simp [hr])

/-- A reply that nobody waits for changes nothing. -/
theorem effect_reply (w : World) (a : Nat) (r : Reply) :
    w.effect (.reply a r) = w ∨ ∃ f, w.pending.find? a = some f ∧
      Heard { w with pending := w.pending.erase a } a f (w.effect (.reply a r)) := by
  cases hf : w.pending.find? a with
  | none =>
    left
    simp only [effect]
    rw [hf]
  | some f =>
    cases hr : f.takes r with
    | false => exact .inl (effect_untaken hf hr)
    | true =>
      right
      rw [effect_taken hf hr]
      exact ⟨f, rfl, heard _ a hr⟩

/-- A reply begins no operation, and at once a job is asked something at most. -/
theorem history_reply (w : World) (a : Nat) (r : Reply) :
    (w.effect (.reply a r)).calls = w.calls ∧ ∃ es,
      (w.effect (.reply a r)).history = es ++ w.history ∧ ∀ e ∈ es, ∃ q, e = .asked a q := by
  rcases effect_reply w a r with he | ⟨f, -, hh⟩
  · rw [he]
    exact ⟨rfl, [], rfl, nofun⟩
  generalize w.effect (.reply a r) = w' at hh
  cases hh with
  | closed v k o hv hk =>
    obtain ⟨jobs, rfl, -⟩ := hv
    exact ⟨rfl, [], rfl, nofun⟩
  | asked v g q hv hg hc =>
    obtain ⟨jobs, rfl, -⟩ := hv
    exact ⟨rfl, [.asked a q], rfl, fun e he => ⟨q, List.mem_singleton.mp he⟩⟩
  | passed hn => exact ⟨rfl, [], rfl, nofun⟩

/-- A reply ends the attempt that waited for it, which is settled, or it leaves every attempt in
progress. Before that jobs have other plans, and nothing else changes. -/
theorem works_reply (w : World) (a : Nat) (r : Reply) :
    ∃ jobs, Store.Keeps none w.toStore { w.toStore with jobs } ∧
      ((∃ m t o, w.Works a m t ∧
        (w.effect (.reply a r)).toStore = (Store.settle { w.toStore with jobs } m t o).1 ∧
        ∀ b i u, (w.effect (.reply a r)).Works b i u ↔ b ≠ a ∧ w.Works b i u) ∨
      (w.effect (.reply a r)).toStore = { w.toStore with jobs } ∧
        ∀ b i u, (w.effect (.reply a r)).Works b i u ↔ w.Works b i u) := by
  rcases effect_reply w a r with he | ⟨f, hf, hh⟩
  · rw [he]
    exact ⟨w.jobs, .refl .., .inr ⟨rfl, fun _ _ _ => .rfl⟩⟩
  generalize w.effect (.reply a r) = w' at hh
  have quiet (hn : f.work = none) {b i u : Nat} : b ≠ a ∧ w.Works b i u ↔ w.Works b i u :=
    works_apart fun hw => by
      rw [works_of_frame hf, hn] at hw
      cases hw
  cases hh with
  | closed v k o hv hk =>
    have hp : (v.close k o).pending = w.pending.erase a := hv.pending
    obtain ⟨jobs, rfl, hj⟩ := hv
    refine ⟨jobs, hj, ?_⟩
    cases k with
    | client => exact .inr ⟨rfl, fun b i u => (works_erase hp).trans (quiet hk.symm)⟩
    | manager m t n since tally =>
      exact .inl ⟨m, t, o, (works_of_frame hf).mpr hk.symm, rfl, fun b i u => works_erase hp⟩
  | asked v g q hv hg hc =>
    have hp := hv.pending
    obtain ⟨jobs, rfl, hj⟩ := hv
    refine ⟨jobs, hj, .inr ⟨rfl, fun b i u => ?_⟩⟩
    rw [works_ask, works_erase (w := w) hp]
    by_cases hb : b = a
    · subst hb
      simpa [hg] using (works_of_frame hf).symm
    · simp [hb]
  | passed hn =>
    exact ⟨w.jobs, .refl .., .inr ⟨rfl, fun b i u => (works_erase (w := w) rfl).trans (quiet hn)⟩⟩

/-- What a reply to operation `a` makes of the store: jobs have other plans, and the attempt that
the operation waited in is settled if it has ended. -/
inductive Replied (w : World) (a : Nat) : Store → Prop
  | planned (jobs : Registry Job) (hj : Store.Keeps none w.toStore { w.toStore with jobs }) :
    Replied w a { w.toStore with jobs }
  | settled (jobs : Registry Job) (hj : Store.Keeps none w.toStore { w.toStore with jobs })
    (m t : Nat) (o : Outcome) (hw : w.Works a m t) :
    Replied w a (Store.settle { w.toStore with jobs } m t o).1

theorem replied (w : World) (a : Nat) (r : Reply) :
    Replied w a (w.effect (.reply a r)).toStore := by
  obtain ⟨jobs, hj, ⟨m, t, o, hw, he, -⟩ | ⟨he, -⟩⟩ := works_reply w a r <;> rw [he]
  · exact .settled jobs hj m t o hw
  · exact .planned jobs hj

end Backlog.World
