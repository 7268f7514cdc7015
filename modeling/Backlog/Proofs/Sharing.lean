import Backlog.Proofs.Following
import Backlog.World.Step

/-!
# Worlds that follow each other

The worlds of a client that shares a process, and of the same client alone, follow each other
if the stores do, if the same of its operations wait, in the same way, and if it was told the
same about them. Whatever an operation runs into, it runs into in both worlds.
-/

namespace Backlog

/-- The operation that the event tells of. -/
def Event.operation : Event → Option Nat
  | .logged .. => none
  | .entered a .. | .asked a _ | .returned a _ | .raised a _ => some a

namespace World

/-- What happened to some operations. -/
def observed (w : World) (own : Nat → Bool) : List Event :=
  w.history.filter (·.operation.any own)

/-- The client has moved the world from its footing to `w`, and has the share `ρ` now; alone it
has moved to `u`. -/
structure Follows (b : Footing) (ρ : Share) (w u : World) : Prop where
  store : w.toStore.Follows b ρ u.toStore
  calls : Charts b.share.calls b.world.calls ρ.calls w.calls u.calls
  pending : ∀ {a a'}, Listed ρ.calls a a' →
    Option.Rel (Frame.Alike ρ) (w.pending.find? a) (u.pending.find? a')
  waiting : ∀ a, a ∉ ρ.calls → w.pending.find? a = b.world.pending.find? a
  observed : List.Forall₂ (Event.Alike ρ) (w.observed (· ∈ ρ.calls)) (u.observed fun _ => true)
  unheard : ∀ own : Nat → Bool, (∀ a, own a = true → a ∉ ρ.calls) →
    w.observed own = b.world.observed own

namespace Follows

variable {b : Footing} {ρ σ : Share} {w u : World} {a a' j j' t t' m m' : Nat}

/-- A new store, and what may have joined the share with it. -/
theorem withStore (h : w.Follows b ρ u) (hw : ρ.Gains σ) {s v : Store} (hs : s.Follows b σ v) :
    Follows b σ { w with toStore := s } { u with toStore := v } where
  store := hs
  calls := by
    rw [hw.same]
    exact h.calls
  pending ha := by
    rw [hw.same] at ha
    exact (h.pending ha).imp fun _ _ => hw.frame
  waiting c hc := h.waiting c (hw.same ▸ hc)
  observed := by
    rw [hw.same]
    exact h.observed.imp fun _ _ => hw.event
  unheard own ho := h.unheard own fun c hc => hw.same ▸ ho c hc

theorem setStore (h : w.Follows b ρ u) {s v : Store} (hs : s.Follows b ρ v) :
    Follows b ρ { w with toStore := s } { u with toStore := v } := h.withStore (.refl ρ) hs

/-! ### What is written and told -/

/-- Lines that either world writes do not count. -/
theorem logLeft (h : w.Follows b ρ u) (l : Nat) (line : Line) :
    (w.log l line).Follows b ρ u := by
  simp only [World.log]
  split
  · exact h
  · exact { h with store := { h.store with } }

theorem logRight (h : w.Follows b ρ u) (l : Nat) (line : Line) :
    w.Follows b ρ (u.log l line) := by
  simp only [World.log]
  split
  · exact h
  · exact { h with store := { h.store with } }

theorem note (h : w.Follows b ρ u) {level level' : Level} {id id' message message' : String}
    {fields fields' : List (String × String)} :
    (w.note m level id message fields).Follows b ρ (u.note m' level' id' message' fields') :=
  (h.logLeft ..).logRight ..

theorem announce (h : w.Follows b ρ u) {message message' : String}
    {fields fields' : List (String × String)} :
    (w.announce m message fields).Follows b ρ (u.announce m' message' fields') :=
  (h.logLeft ..).logRight ..

theorem emit (h : w.Follows b ρ u) {e f : Event} (he : e.Alike ρ f) :
    (w.emit e).Follows b ρ (u.emit f) := by
  obtain ⟨a, a', ha, hea, hfa⟩ : ∃ a a', Listed ρ.calls a a' ∧ e.operation = some a ∧
      f.operation = some a' := by
    cases he with
    | entered ha | asked ha | returned ha | raised ha => exact ⟨_, _, ha, rfl, rfl⟩
  refine { h with store := { h.store with }, observed := ?_, unheard := fun own ho => ?_ }
  · simp only [World.observed, World.emit, List.filter_cons, hea, hfa, Option.any_some, ha.mem,
      decide_true, ↓reduceIte]
    exact .cons he h.observed
  · have hn : own a = false := Bool.eq_false_iff.mpr fun hown => ho a hown ha.mem
    rw [← h.unheard own ho]
    simp only [World.observed, World.emit, List.filter_cons, hea, Option.any_some, hn,
      Bool.false_eq_true, ↓reduceIte]

theorem give (h : w.Follows b ρ u) (ha : Listed ρ.calls a a') {v v' : Value} (hv : v.Alike ρ v') :
    (w.give a v).Follows b ρ (u.give a' v') := h.emit (.returned ha hv)

theorem raise (h : w.Follows b ρ u) (ha : Listed ρ.calls a a') (f : Fault) :
    (w.raise a f).Follows b ρ (u.raise a' f) := h.emit (.raised ha f)

theorem ask (h : w.Follows b ρ u) (ha : Listed ρ.calls a a') {f f' : Frame} (hf : f.Alike ρ f')
    {k k' : Hook} (hk : k.Alike ρ k') : (w.ask a f k).Follows b ρ (u.ask a' f' k') := by
  have h' : Follows b ρ { w with pending := w.pending.insert a f }
      { u with pending := u.pending.insert a' f' } :=
    { h with
      store := { h.store with }
      pending := fun {c c'} hc => by
        simp only [Table.find?_insert, h.calls.eq_iff hc ha]
        split
        · exact .some hf
        · exact h.pending hc
      waiting := fun c hc => by
        rw [Table.find?_insert, if_neg fun he : c = a => hc (he ▸ ha.mem)]
        exact h.waiting c hc }
  exact h'.emit (.asked ha hk)

/-! ### Attempts -/

theorem standard (h : w.Follows b ρ u) (ha : Listed ρ.calls a a') (hj : Listed ρ.jobs j j')
    (ht : Listed ρ.tickets t t') (n : Int) {k k' : Caller} (hk : k.Alike ρ k') :
    (w.standard a j t n k).Follows b ρ (u.standard a' j' t' n k') :=
  h.ask ha (.body hj ht n hk) (.body hj ht n)

theorem enter (h : w.Follows b ρ u) (ha : Listed ρ.calls a a') (ht : Listed ρ.tickets t t')
    (n : Int) {k k' : Caller} (hk : k.Alike ρ k') :
    (w.enter a t n k).Follows b ρ (u.enter a' t' n k') := by
  have hj := (h.store.ticket ht).job
  have h' := h.emit (.entered ha hj ht n)
  have hc := Job.eq_of_bare (h'.store.job hj) Job.custom fun _ => rfl
  simp only [World.enter, hc]
  split
  · exact h'.ask ha (.attempt hk) (.attempt hj ht n)
  · exact h'.standard ha hj ht n hk

theorem next (h : w.Follows b ρ u) (ha : Listed ρ.calls a a') (hm : Listed ρ.managers m m')
    (tally : Option Nat) : (w.next a m tally).Follows b ρ (u.next a' m' tally) := by
  have hc := h.store.claim hm
  simp only [World.next]
  generalize w.claim m = x, u.claim m' = y at hc
  cases hc with
  | none =>
    apply h.give ha
    cases tally with
    | none => exact .outcome none
    | some n => exact .count n
  | some hx =>
    obtain ⟨hs, ht⟩ := hx
    have hn := Ticket.eq_of_bare (hs.ticket ht).bare Ticket.runs fun _ => rfl
    dsimp only
    rw [hn, hs.sameUptime]
    exact (h.setStore hs).note.enter ha ht _ (.manager hm ht ..)

theorem proceed (h : w.Follows b ρ u) (ha : Listed ρ.calls a a') (hm : Listed ρ.managers m m')
    (o : Outcome) (tally : Option Nat) :
    (w.proceed a m o tally).Follows b ρ (u.proceed a' m' o tally) := by
  cases tally with
  | none => exact h.give ha (.outcome (some o))
  | some n => exact h.next ha hm (some (n + 1))

theorem resumeNext (h : w.Follows b ρ u) (ha : Listed ρ.calls a a') {x x' : Next}
    (hx : x.Alike ρ x') : (w.resumeNext a x).Follows b ρ (u.resumeNext a' x') := by
  cases hx with
  | give hv => exact h.give ha hv
  | proceed hm o tally => exact h.proceed ha hm o tally

theorem tell (h : w.Follows b ρ u) (ha : Listed ρ.calls a a') (ht : Listed ρ.tickets t t')
    {x x' : Next} (hx : x.Alike ρ x') : (w.tell a t x).Follows b ρ (u.tell a' t' x') := by
  have hn : (w.ticket t).notified = (u.ticket t').notified :=
    Ticket.eq_of_bare (h.store.ticket ht).bare Ticket.notified fun _ => rfl
  simp only [World.tell, hn]
  split
  · exact h.resumeNext ha hx
  · have hs : (w.onTicket t ({ · with notified := true })).Follows b ρ
        (u.onTicket t' ({ · with notified := true })) :=
      h.store.changeTicket ht (fun _ => rfl) (fun _ => rfl) fun _ => rfl
    exact (h.setStore hs).ask ha (.told hx) (.ended (hs.ticket ht).job ht)

theorem report (h : w.Follows b ρ u) (m m' t t' : Nat) (n : Int) (since : Nat) (o : Outcome)
    (e : Store.Ending) : (w.report m t n since o e).Follows b ρ (u.report m' t' n since o e) := by
  cases e with
  | retried delay => exact h.note
  | ended status tell => cases status <;> exact h.note

/-- The end of an attempt may bring a ticket for the next one. -/
theorem conclude (h : w.Follows b ρ u) (ha : Listed ρ.calls a a') {k k' : Caller}
    (hk : k.Alike ρ k') (o : Outcome) :
    ∃ σ, ρ.Gains σ ∧ (w.conclude a k o).Follows b σ (u.conclude a' k' o) := by
  cases hk with
  | @manager m m' t t' hm ht n since tally =>
    obtain ⟨he, σ, hw, hs⟩ := h.store.settle hm ht o
    simp only [World.conclude]
    generalize w.settle m t o = x, u.settle m' t' o = y at he hs
    obtain ⟨s, ending⟩ := x
    obtain ⟨v, ending'⟩ := y
    obtain rfl : ending = ending' := he
    have h' := h.withStore hw hs
    have ha : Listed σ.calls a a' := ha.mono hw.calls
    have hm := hm.mono hw.managers
    refine ⟨σ, hw, ?_⟩
    cases ending with
    | error f => exact h'.raise ha f
    | ok e =>
      have h' := h'.report m m' t t' n since o e
      cases e with
      | retried delay => exact h'.proceed ha hm o tally
      | ended status told =>
        cases told with
        | false => exact h'.proceed ha hm o tally
        | true => exact h'.tell ha (ht.mono hw.tickets) (.proceed hm o tally)

theorem failureOutcome (h : w.Follows b ρ u) (hj : Listed ρ.jobs j j')
    (ht : Listed ρ.tickets t t') (n : Int) :
    w.failureOutcome j t n = u.failureOutcome j' t' n := by
  have hc : (w.ticket t).cancelled = (u.ticket t').cancelled :=
    Ticket.eq_of_bare (h.store.ticket ht).bare Ticket.cancelled fun _ => rfl
  have hp : (w.job j).plan = (u.job j').plan :=
    Job.eq_of_bare (h.store.job hj) Job.plan fun _ => rfl
  have hl : (w.job j).retryLimit = (u.job j').retryLimit :=
    Job.eq_of_bare (h.store.job hj) Job.retryLimit fun _ => rfl
  simp only [World.failureOutcome, hc, hp, hl]

theorem conclusion (h : w.Follows b ρ u) (ha : Listed ρ.calls a a') (hj : Listed ρ.jobs j j')
    (ht : Listed ρ.tickets t t') (n : Int) (reason : String) {k k' : Caller}
    (hk : k.Alike ρ k') :
    ∃ σ, ρ.Gains σ ∧ (w.conclusion a j t n reason k).Follows b σ
      (u.conclusion a' j' t' n reason k') := by
  simp only [World.conclusion]
  have h' : Follows b ρ
      ((w.job j).logger.elim w fun l => w.log l {
        level := .warn, job := some (w.job j).id, message := "attempt failed"
        fields := [("attempt", toString n), ("error", reason)] })
      ((u.job j').logger.elim u fun l => u.log l {
        level := .warn, job := some (u.job j').id, message := "attempt failed"
        fields := [("attempt", toString n), ("error", reason)] }) := by
    cases (w.job j).logger <;> cases (u.job j').logger
    · exact h
    · exact h.logRight ..
    · exact h.logLeft ..
    · exact (h.logLeft ..).logRight ..
  rw [h'.failureOutcome hj ht]
  exact h'.conclude ha hk _

theorem planned (h : w.Follows b ρ u) (ha : Listed ρ.calls a a') (hj : Listed ρ.jobs j j')
    (ht : Listed ρ.tickets t t') (n : Int) (reason : String) {k k' : Caller}
    (hk : k.Alike ρ k') (p : RetryPlan) :
    ∃ σ, ρ.Gains σ ∧ (w.planned a j t n reason k p).Follows b σ
      (u.planned a' j' t' n reason k' p) := by
  have hs : (w.onJob j ({ · with plan := some p })).Follows b ρ
      (u.onJob j' ({ · with plan := some p })) := h.store.changeJob hj fun _ => rfl
  exact (h.setStore hs).conclusion ha hj ht n reason hk

theorem failed (h : w.Follows b ρ u) (ha : Listed ρ.calls a a') (hj : Listed ρ.jobs j j')
    (ht : Listed ρ.tickets t t') (n : Int) (reason : String) {k k' : Caller}
    (hk : k.Alike ρ k') :
    ∃ σ, ρ.Gains σ ∧ (w.failed a j t n reason k).Follows b σ (u.failed a' j' t' n reason k') := by
  have hs : (w.onJob j ({ · with plan := none })).Follows b ρ
      (u.onJob j' ({ · with plan := none })) := h.store.changeJob hj fun _ => rfl
  have h' := h.setStore hs
  have hb := h.store.job hj
  have hl : (w.job j).retryLimit = (u.job j').retryLimit :=
    Job.eq_of_bare hb Job.retryLimit fun _ => rfl
  have hp : (w.job j).asksPlan = (u.job j').asksPlan := Job.eq_of_bare hb Job.asksPlan fun _ => rfl
  have hc := Ticket.eq_of_bare (h'.store.ticket ht).bare Ticket.cancelled fun _ => rfl
  simp only [World.failed, hl, hp, hc]
  split
  · split
    · exact ⟨ρ, .refl ρ, h'.ask ha (.plan hj ht n reason hk) (.plan hj ht n reason _)⟩
    · exact h'.planned ha hj ht n reason hk .again
  · exact h'.conclusion ha hj ht n reason hk

/-! ### Operations of a manager -/

theorem add (h : w.Follows b ρ u) (ha : Listed ρ.calls a a') (hm : Listed ρ.managers m m')
    (hj : Listed ρ.jobs j j') :
    ∃ σ, ρ.Gains σ ∧ (w.add a m (some j)).Follows b σ (u.add a' m' (some j')) := by
  have he := h.store.enlist hm hj
  simp only [World.add]
  generalize w.enlist m j = x, u.enlist m' j' = y at he
  cases he with
  | none => exact ⟨ρ, .refl ρ, h.give ha (.flag false)⟩
  | some hx =>
    obtain ⟨σ, hw, ht, hs⟩ := hx
    exact ⟨σ, hw, (h.withStore hw hs).note.ask (ha.mono hw.calls) (.told (.give (.flag true)))
      (.added (hj.mono hw.jobs) ht)⟩

theorem cancel (h : w.Follows b ρ u) (ha : Listed ρ.calls a a') (hm : Listed ρ.managers m m')
    (id : String) : (w.cancel a m id).Follows b ρ (u.cancel a' m' id) := by
  have hc := h.store.withdraw hm id
  simp only [World.cancel]
  generalize w.withdraw m id = x, u.withdraw m' id = y at hc
  cases hc with
  | none => exact h.give ha (.flag false)
  | @some x y hx =>
    obtain ⟨hs, hv⟩ := hx
    obtain ⟨s, v⟩ := x
    obtain ⟨s', v'⟩ := y
    cases hv with
    | marked ht => exact (h.setStore hs).note.give ha (.flag true)
    | dropped ht => exact (h.setStore hs).note.tell ha ht (.give (.flag true))

theorem setNetwork (h : w.Follows b ρ u) (ha : Listed ρ.calls a a') (hm : Listed ρ.managers m m')
    (up : Bool) : (w.setNetwork a m up).Follows b ρ (u.setNetwork a' m' up) := by
  have hg := h.store.manager hm
  have hs : (w.onManager m ({ · with network := up })).Follows b ρ
      (u.onManager m' ({ · with network := up })) :=
    h.store.onManager hm { hg with network := rfl }
  have hn : (w.manager m).network = (u.manager m').network := hg.network
  simp only [World.setNetwork, hn]
  apply give _ ha .unit
  split
  · exact h.setStore hs
  · exact (h.setStore hs).announce

theorem stop (h : w.Follows b ρ u) (ha : Listed ρ.calls a a') (hm : Listed ρ.managers m m') :
    (w.stop a m).Follows b ρ (u.stop a' m') := by
  have hg := h.store.manager hm
  have hn : (w.manager m).accepting = (u.manager m').accepting := hg.accepting
  simp only [World.stop, hn]
  apply give _ ha .unit
  split
  · exact (h.setStore (h.store.onManager hm hg.stop)).announce
  · exact h

theorem makeManager (h : w.Follows b ρ u) (ha : Listed ρ.calls a a') (c : Config) :
    ∃ σ, ρ.Gains σ ∧ (w.makeManager a c).Follows b σ (u.makeManager a' c) := by
  obtain ⟨σ, hw, hm, hs⟩ := h.store.establish c
  exact ⟨σ, hw, (h.withStore hw hs).announce.give (ha.mono hw.calls) (.manager hm)⟩

end Follows

end World

end Backlog
