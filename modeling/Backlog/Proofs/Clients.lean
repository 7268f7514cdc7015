import Backlog.Proofs.Answers
import Backlog.Proofs.Sharing

/-!
# Moves of a client

A client says what it does with the things it made by the numbers they would have if it were
alone. Its share says which they are in the process. A move in the process is followed by the
same move when the client is alone.
-/

namespace Backlog

/-- Nothing is taken over from elsewhere. -/
def ManagerCall.plain : ManagerCall → Bool
  | .recover _ => false
  | _ => true

/-- The ticket keeps its stamp and its job, and writes where its manager says. -/
def TicketEdit.plain : TicketEdit → Bool
  | .stamp _ | .job _ | .context .. => false
  | _ => true

/-- Tickets come from managers, and so do loggers. -/
def Call.plain : Call → Bool
  | .makeJob _ | .editJob .. | .makeManager _ => true
  | .editTicket _ e => e.plain
  | .manager _ c => c.plain
  | _ => false

def Move.plain : Move → Bool
  | .call c => c.plain
  | _ => true

/-- Time passes for all. -/
def Move.isTime : Move → Bool
  | .clock _ | .elapse _ => true
  | _ => false

namespace Share

/-- What the client says in its own numbers, in those of the process. There is nothing to say of
what the client does not have. -/
def ofManagerCall (ρ : Share) : ManagerCall → Option ManagerCall
  | .add (some j) => ρ.jobs[j]?.map (.add ∘ some)
  | c => some c

def ofCall (ρ : Share) : Call → Option Call
  | .editJob j e => ρ.jobs[j]?.map (.editJob · e)
  | .editTicket t e => ρ.tickets[t]?.map (.editTicket · e)
  | .manager m c => ρ.managers[m]?.bind fun n => (ρ.ofManagerCall c).map (.manager n)
  | c => some c

def ofMove (ρ : Share) : Move → Option Move
  | .call c => (ρ.ofCall c).map .call
  | .reply a r => ρ.calls[a]?.map (.reply · r)
  | mv => some mv

/-- The call names nothing but what the client has. -/
def coversCall (ρ : Share) : Call → Prop
  | .editJob j _ => j ∈ ρ.jobs
  | .editTicket t _ => t ∈ ρ.tickets
  | .manager m (.add (some j)) => m ∈ ρ.managers ∧ j ∈ ρ.jobs
  | .manager m _ => m ∈ ρ.managers
  | _ => True

def covers (ρ : Share) : Move → Prop
  | .call c => ρ.coversCall c
  | .reply a _ => a ∈ ρ.calls
  | _ => True

/-- Whatever the process can be told about what the client has, the client can say. -/
theorem exists_ofCall {ρ : Share} {c : Call} (hc : c.plain = true) (h : ρ.coversCall c) :
    ∃ c₀ : Call, c₀.plain = true ∧ ρ.ofCall c₀ = some c := by
  cases c with
  | makeJob p => exact ⟨.makeJob p, rfl, rfl⟩
  | makeManager c => exact ⟨.makeManager c, rfl, rfl⟩
  | editJob j e =>
    obtain ⟨k, hk⟩ := List.mem_iff_getElem?.mp h
    exact ⟨.editJob k e, rfl, by simp only [ofCall, hk, Option.map_some]⟩
  | editTicket t e =>
    obtain ⟨k, hk⟩ := List.mem_iff_getElem?.mp h
    exact ⟨.editTicket k e, hc, by simp only [ofCall, hk, Option.map_some]⟩
  | manager m c =>
    obtain ⟨hm, c₀, hc₀, hp⟩ : m ∈ ρ.managers ∧ ∃ c₀ : ManagerCall, c₀.plain = true ∧
        ρ.ofManagerCall c₀ = some c := by
      cases c with
      | add j =>
        cases j with
        | none => exact ⟨h, .add none, rfl, rfl⟩
        | some j =>
          obtain ⟨k, hk⟩ := List.mem_iff_getElem?.mp h.2
          refine ⟨h.1, .add (some k), rfl, ?_⟩
          simp only [ofManagerCall, hk, Option.map_some, Function.comp_apply]
      | recover ts => cases hc
      | runNext => exact ⟨h, .runNext, rfl, rfl⟩
      | runUntilIdle => exact ⟨h, .runUntilIdle, rfl, rfl⟩
      | cancel id => exact ⟨h, .cancel id, rfl, rfl⟩
      | network up => exact ⟨h, .network up, rfl, rfl⟩
      | stop => exact ⟨h, .stop, rfl, rfl⟩
    obtain ⟨k, hk⟩ := List.mem_iff_getElem?.mp hm
    exact ⟨.manager k c₀, hc₀, by simp only [ofCall, hk, hp, Option.bind_some, Option.map_some]⟩
  | _ => cases hc

theorem exists_ofMove {ρ : Share} {mv : Move} (hc : mv.plain = true) (h : ρ.covers mv) :
    ∃ mv₀ : Move, mv₀.plain = true ∧ ρ.ofMove mv₀ = some mv := by
  cases mv with
  | call c =>
    obtain ⟨c₀, hc₀, hp⟩ := exists_ofCall hc h
    exact ⟨.call c₀, hc₀, by simp only [ofMove, hp, Option.map_some]⟩
  | reply a r =>
    obtain ⟨k, hk⟩ := List.mem_iff_getElem?.mp h
    exact ⟨.reply k r, rfl, by simp only [ofMove, hk, Option.map_some]⟩
  | clock now => exact ⟨.clock now, rfl, rfl⟩
  | elapse nanos => exact ⟨.elapse nanos, rfl, rfl⟩

end Share

namespace World.Follows

variable {b : Footing} {ρ σ : Share} {w w' u v : World} {a a' m m' : Nat}

/-! ### One move of the client -/

theorem callManager (h : w.Follows b ρ u) (ha : Listed ρ.calls a a')
    (hm : Listed ρ.managers m m') {c c' : ManagerCall} (hc : c.plain = true)
    (hp : ρ.ofManagerCall c = some c') :
    ∃ σ, ρ.Gains σ ∧ (w.callManager a m c').Follows b σ (u.callManager a' m' c) := by
  cases c with
  | add j =>
    cases j with
    | none =>
      obtain rfl := Option.some.inj hp
      exact ⟨ρ, .refl ρ, h.raise ha .noJob⟩
    | some j =>
      obtain ⟨i, hi, rfl⟩ := Option.map_eq_some_iff.mp hp
      exact h.add ha hm hi
  | recover ts => cases hc
  | runNext =>
    obtain rfl := Option.some.inj hp
    exact ⟨ρ, .refl ρ, h.next ha hm none⟩
  | runUntilIdle =>
    obtain rfl := Option.some.inj hp
    exact ⟨ρ, .refl ρ, h.next ha hm (some 0)⟩
  | cancel id =>
    obtain rfl := Option.some.inj hp
    exact ⟨ρ, .refl ρ, h.cancel ha hm id⟩
  | network up =>
    obtain rfl := Option.some.inj hp
    exact ⟨ρ, .refl ρ, h.setNetwork ha hm up⟩
  | stop =>
    obtain rfl := Option.some.inj hp
    exact ⟨ρ, .refl ρ, h.stop ha hm⟩

theorem editTicket (h : w.Follows b ρ u) (ha : Listed ρ.calls a a') {t t' : Nat}
    (ht : Listed ρ.tickets t t') {e : TicketEdit} (he : e.plain = true) :
    (w.perform a (.editTicket t e)).Follows b ρ (u.perform a' (.editTicket t' e)) := by
  have done {s v : Store} (hs : s.Follows b ρ v) :
      (World.give { w with toStore := s } a .unit).Follows b ρ
        (World.give { u with toStore := v } a' .unit) := (h.setStore hs).give ha .unit
  cases e with
  | stamp n | job j | context l s => cases he
  | priority p =>
    have hs : (w.onTicket t ({ · with priority := p })).Follows b ρ
        (u.onTicket t' ({ · with priority := p })) :=
      h.store.changeTicket ht (fun _ => rfl) (fun _ => rfl) fun _ => rfl
    exact done (hs.changeJob (h.store.ticket ht).job fun _ => rfl)
  | cancel => exact done (h.store.cancelTicket ht)
  | session id =>
    have hk := h.store.ticket ht
    exact done (h.store.onTicket ht ⟨hk.bare, hk.job, hk.stamp⟩)
  | runs | created | notBefore | success =>
    exact done (h.store.changeTicket ht (fun _ => rfl) (fun _ => rfl) fun _ => rfl)

theorem perform (h : w.Follows b ρ u) (ha : Listed ρ.calls a a') {c c' : Call}
    (hc : c.plain = true) (hp : ρ.ofCall c = some c') :
    ∃ σ, ρ.Gains σ ∧ (w.perform a c').Follows b σ (u.perform a' c) := by
  cases c with
  | makeJob p =>
    obtain rfl := Option.some.inj hp
    simp only [World.perform]
    cases Job.make p with
    | error f => exact ⟨ρ, .refl ρ, h.raise ha f⟩
    | ok j =>
      obtain ⟨σ, hw, hj, hs⟩ := h.store.addJob j
      exact ⟨σ, hw, (h.withStore hw hs).give (ha.mono hw.calls) (.job hj)⟩
  | editJob j e =>
    obtain ⟨i, hi, rfl⟩ := Option.map_eq_some_iff.mp hp
    have hb (x : Job) : (e.apply x).bare = e.apply x.bare := by cases e <;> rfl
    exact ⟨ρ, .refl ρ, (h.setStore (h.store.changeJob hi hb)).give ha .unit⟩
  | editTicket t e =>
    obtain ⟨i, hi, rfl⟩ := Option.map_eq_some_iff.mp hp
    exact ⟨ρ, .refl ρ, h.editTicket ha hi hc⟩
  | makeManager c =>
    obtain rfl := Option.some.inj hp
    exact h.makeManager ha c
  | manager m c =>
    obtain ⟨n, hn, hp⟩ := Option.bind_eq_some_iff.mp hp
    obtain ⟨c', hc', rfl⟩ := Option.map_eq_some_iff.mp hp
    exact h.callManager ha hn hc hc'
  | _ => cases hc

theorem resume (h : w.Follows b ρ u) (ha : Listed ρ.calls a a') {f f' : Frame}
    (hf : f.Alike ρ f') (r : Reply) :
    ∃ σ, ρ.Gains σ ∧ (w.resume a f r).Follows b σ (u.resume a' f' r) := by
  have same : ∃ σ, ρ.Gains σ ∧ w.Follows b σ u := ⟨ρ, .refl ρ, h⟩
  cases hf with
  | told hx =>
    cases r with
    | done => exact ⟨ρ, .refl ρ, h.resumeNext ha hx⟩
    | threw x => exact ⟨ρ, .refl ρ, h.raise ha _⟩
    | _ => exact same
  | attempt hk =>
    cases r with
    | outcome o => exact h.conclude ha hk o
    | _ => exact same
  | body hj ht n hk =>
    cases r with
    | succeeded => exact h.conclude ha hk .success
    | failed reason => exact h.failed ha hj ht n reason hk
    | threw x => exact h.failed ha hj ht n _ hk
    | _ => exact same
  | plan hj ht n reason hk =>
    cases r with
    | plan p => exact h.planned ha hj ht n reason hk p
    | threw x => exact h.planned ha hj ht n _ hk .never
    | _ => exact same

/-- The operation that begins is the client's from now on. -/
theorem begin (h : w.Follows ⟨ρ, w⟩ ρ u) (hn : w.pending.find? w.calls = none)
    (ho : w.observed (· == w.calls) = []) (hu : u.pending.find? u.calls = none) :
    Follows ⟨ρ, w⟩ { ρ with calls := ρ.calls ++ [w.calls] } { w with calls := w.calls + 1 }
      { u with calls := u.calls + 1 } := by
  have hw : ρ.Within { ρ with calls := ρ.calls ++ [w.calls] } :=
    { Share.Within.refl ρ with calls := List.prefix_append .. }
  have hold : w.observed (· ∈ ρ.calls ++ [w.calls]) = w.observed (· ∈ ρ.calls) := by
    refine List.filter_congr fun e he => ?_
    have hne : e.operation ≠ some w.calls := fun hop => by
      have : e ∈ w.observed (· == w.calls) := List.mem_filter.mpr ⟨he, by simp [hop]⟩
      rw [ho] at this
      cases this
    cases hop : e.operation with
    | none => rfl
    | some c =>
      have hc : c ≠ w.calls := fun hc => hne (hop.trans (congrArg some hc))
      simp [hc]
  exact {
    store := { h.store with
      tickets := h.store.tickets.imp hw.ticket
      managers := h.store.managers.imp hw.manager }
    calls := h.calls.push
    pending := fun {c c'} hc => by
      rcases listed_concat.mp hc with hc | ⟨hcw, hcu⟩
      · exact (h.pending hc).imp fun _ _ => hw.frame
      · rw [hcw, hcu.trans h.calls.length, hn, hu]
        exact .none
    waiting := fun c hc => rfl
    observed := by
      have := h.observed.imp fun _ _ => hw.event
      rw [← hold] at this
      exact this
    unheard := fun own _ => rfl }

/-- What the client says of what it does not have changes nothing when it is alone. -/
theorem step_nothing (h : w.Follows b ρ u) (hu : u.Founded) {mv : Move} (hc : mv.plain = true)
    (hp : ρ.ofMove mv = none) : u.step mv = u := by
  have outside {l : List Nat} {n k i : Nat} (hl : Picks l n k) (hi : l[i]? = none) : ¬i < k :=
    hl.length ▸ Nat.not_lt.mpr (List.getElem?_eq_none_iff.mp hi)
  have refused {c : Call} (hs : c.inScope u.toStore = false) : u.step (.call c) = u :=
    if_neg (Bool.eq_false_iff.mp hs)
  have hjobs := h.store.jobs.toPicks
  cases mv with
  | clock | elapse => cases hp
  | reply a r =>
    have ha := outside h.calls.toPicks (Option.map_eq_none_iff.mp hp)
    exact step_reply_none (Option.eq_none_iff_forall_ne_some.mpr fun f hf =>
      ha (hu.numbered a f hf)) r
  | call c =>
    apply refused
    replace hp := Option.map_eq_none_iff.mp hp
    cases c with
    | editJob j e =>
      have hj := outside hjobs (Option.map_eq_none_iff.mp hp)
      simpa only [Call.inScope, decide_eq_false_iff_not] using hj
    | editTicket t e =>
      have ht := outside h.store.tickets.toPicks (Option.map_eq_none_iff.mp hp)
      simp only [Call.inScope, decide_eq_false ht, Bool.false_and]
    | manager m c =>
      cases hm : ρ.managers[m]? with
      | none =>
        have hm := outside h.store.managers.toPicks hm
        simp only [Call.inScope, decide_eq_false hm, Bool.false_and]
      | some n =>
        simp only [Share.ofCall, hm, Option.bind_some, Option.map_eq_none_iff] at hp
        cases c with
        | add j =>
          cases j with
          | none => cases hp
          | some j =>
            have hj := outside hjobs (Option.map_eq_none_iff.mp hp)
            simp only [Call.inScope, Option.all_some, decide_eq_false hj, Bool.and_false]
        | _ => cases hp
    | _ => cases hp

/-- What the client names is there in both worlds. -/
theorem inScope (h : w.Follows b ρ u) {c c' : Call} (hc : c.plain = true)
    (hp : ρ.ofCall c = some c') : c'.inScope w.toStore = true ∧ c.inScope u.toStore = true := by
  have found {l : List Nat} {n k i j : Nat} (hl : Picks l n k) (hj : l[i]? = some j) :
      j < n ∧ i < k := ⟨hl.lt_left hj, hl.lt_right hj⟩
  have hjobs := h.store.jobs.toPicks
  cases c with
  | makeJob p | makeManager c =>
    obtain rfl := Option.some.inj hp
    exact ⟨rfl, rfl⟩
  | editJob j e =>
    obtain ⟨i, hi, rfl⟩ := Option.map_eq_some_iff.mp hp
    simpa only [Call.inScope, decide_eq_true_eq] using found hjobs hi
  | editTicket t e =>
    obtain ⟨i, hi, rfl⟩ := Option.map_eq_some_iff.mp hp
    obtain ⟨hw, hu⟩ := found h.store.tickets.toPicks hi
    cases e with
    | stamp n | job j | context l s => cases hc
    | _ => simp [Call.inScope, hw, hu]
  | manager m c =>
    obtain ⟨n, hn, hp⟩ := Option.bind_eq_some_iff.mp hp
    obtain ⟨c', hc', rfl⟩ := Option.map_eq_some_iff.mp hp
    obtain ⟨hw, hu⟩ := found h.store.managers.toPicks hn
    cases c with
    | add j =>
      cases j with
      | none =>
        obtain rfl := Option.some.inj hc'
        simp [Call.inScope, hw, hu]
      | some j =>
        obtain ⟨i, hi, rfl⟩ := Option.map_eq_some_iff.mp hc'
        obtain ⟨hjw, hju⟩ := found hjobs hi
        simp [Call.inScope, hw, hu, hjw, hju]
    | recover ts => cases hc
    | _ =>
      obtain rfl := Option.some.inj hc'
      simp [Call.inScope, hw, hu]
  | _ => cases hc

/-- An operation that goes on waits no longer. -/
theorem erase (h : w.Follows b ρ u) (ha : Listed ρ.calls a a') :
    Follows b ρ { w with pending := w.pending.erase a }
      { u with pending := u.pending.erase a' } :=
  { h with
    store := { h.store with }
    pending := fun {c c'} hc => by
      simp only [Table.find?_erase, h.calls.eq_iff hc ha]
      split
      · exact .none
      · exact h.pending hc
    waiting := fun c hc => by
      rw [Table.find?_erase, if_neg fun he : c = a => hc (he ▸ ha.mem)]
      exact h.waiting c hc }

/-- A move of the client in the process is followed by the same move when it is alone. -/
theorem step (h : w.Follows ⟨ρ, w⟩ ρ u) (hw : w.Founded) (hu : u.Founded)
    (ho : w.observed (· == w.calls) = []) {mv mv' : Move} (hc : mv.plain = true)
    (ht : mv.isTime = false) (hp : ρ.ofMove mv = some mv') :
    ∃ σ, (w.step mv').Follows ⟨ρ, w⟩ σ (u.step mv) := by
  have idle {w : World} (hw : w.Founded) : w.pending.find? w.calls = none :=
    Option.eq_none_iff_forall_ne_some.mpr fun f hf => Nat.lt_irrefl _ (hw.numbered _ f hf)
  cases mv with
  | clock | elapse => cases ht
  | call c =>
    obtain ⟨c', hc', rfl⟩ := Option.map_eq_some_iff.mp hp
    have hb := h.begin (idle hw) ho (idle hu)
    have ha : Listed (ρ.calls ++ [w.calls]) w.calls u.calls :=
      listed_concat.mpr (.inr ⟨rfl, h.calls.length.symm⟩)
    obtain ⟨σ, -, hs⟩ := hb.perform ha hc hc'
    obtain ⟨hscope, hscope'⟩ := h.inScope hc hc'
    refine ⟨σ, ?_⟩
    simp only [World.step, hscope, hscope', ↓reduceIte]
    exact hs
  | reply a r =>
    obtain ⟨n, ha, rfl⟩ := Option.map_eq_some_iff.mp hp
    have hf := h.pending ha
    generalize hx : w.pending.find? n = x, hy : u.pending.find? a = y at hf
    cases hf with
    | none =>
      rw [step_reply_none hx, step_reply_none hy]
      exact ⟨ρ, h⟩
    | @some f f' hf =>
      have htakes : f.takes r = f'.takes r := by cases hf <;> cases r <;> rfl
      cases hr : f'.takes r with
      | true =>
        rw [step_taken hx (htakes.trans hr), step_taken hy hr]
        obtain ⟨σ, -, hs⟩ := (h.erase ha).resume ha hf r
        exact ⟨σ, hs⟩
      | false =>
        rw [step_untaken hx (htakes.trans hr), step_untaken hy hr]
        exact ⟨ρ, h⟩

end World.Follows

end Backlog
