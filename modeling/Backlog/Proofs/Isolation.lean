import Backlog.Proofs.Clients
import Mathlib.Logic.Function.Basic

/-!
# Isolation

Any number of clients take turns in one process. Whatever the others do in between, what a client
made fares as it does when the client is alone at the same times. Only sessions, and the stamps
that the clients share, differ.
-/

namespace Backlog

/-- The share with all that was made between the two worlds. -/
def Share.grown (ρ : Share) (w w' : World) : Share where
  jobs := joined ρ.jobs w.jobs.size w'.jobs.size
  tickets := joined ρ.tickets w.tickets.size w'.tickets.size
  managers := joined ρ.managers w.managers.size w'.managers.size
  calls := joined ρ.calls w.calls w'.calls
  stamps := joined ρ.stamps w.nextStamp w'.nextStamp

/-- A move of a client, in its own numbers. -/
structure Turn where
  client : Nat
  move : Move

/-- The client makes the move or lives through it. -/
def Turn.reaches (x : Turn) (i : Nat) : Bool := x.client == i || x.move.isTime

/-- A process and the shares of its clients. -/
structure Scene where
  world : World
  share : Nat → Share

namespace Scene

def start (now : Int) : Scene := ⟨World.start now, fun _ => {}⟩

/-- What a move of a client makes is the client's. -/
def move (S : Scene) (i : Nat) (mv : Move) : Scene :=
  let w := S.world.step mv
  ⟨w, Function.update S.share i ((S.share i).grown S.world w)⟩

def turn (S : Scene) (x : Turn) : Scene :=
  ((S.share x.client).ofMove x.move).elim S (S.move x.client)

def run (S : Scene) (script : List Turn) : Scene := script.foldl turn S

/-- Each move of the process is one of a client that names nothing but what it has. -/
def Covers : Scene → List (Nat × Move) → Prop
  | _, [] => True
  | S, (i, mv) :: moves => mv.plain = true ∧ (S.share i).covers mv ∧ Covers (S.move i mv) moves

/-- Whatever clients do in the process, they can say in their own numbers. -/
theorem exists_script {S : Scene} {moves : List (Nat × Move)} (h : S.Covers moves) :
    ∃ script : List Turn, (∀ x ∈ script, x.move.plain = true) ∧
      (S.run script).world = S.world.run (moves.map Prod.snd) := by
  induction moves generalizing S with
  | nil => exact ⟨[], List.forall_mem_nil _, rfl⟩
  | cons x moves ih =>
    obtain ⟨i, mv⟩ := x
    obtain ⟨hc, hs, hm⟩ := h
    obtain ⟨mv₀, hc₀, hp⟩ := Share.exists_ofMove hc hs
    obtain ⟨script, hx, hw⟩ := ih hm
    have hturn : S.turn ⟨i, mv₀⟩ = S.move i mv := by simp only [turn, hp, Option.elim_some]
    refine ⟨⟨i, mv₀⟩ :: script, List.forall_mem_cons.mpr ⟨hc₀, hx⟩, ?_⟩
    change ((S.turn ⟨i, mv₀⟩).run script).world = (S.world.step mv).run (moves.map Prod.snd)
    rw [hturn]
    exact hw

end Scene

/-- The moves that the client makes or lives through. -/
def solo (i : Nat) (script : List Turn) : List Move :=
  (script.filter (·.reaches i)).map (·.move)

namespace World.Follows

variable {b : Footing} {ρ σ τ : Share} {w w' u v : World}

/-- The share after a move is the one before it and all that was made. -/
theorem share_eq (h : w.Follows b ρ u) : ρ = b.share.grown b.world w := by
  simp only [Share.grown, ← h.store.jobs.grown, ← h.store.tickets.grown, ← h.store.managers.grown,
    ← h.calls.grown, ← h.store.stamps.grown]

theorem anew (h : w.Follows b ρ u) : w.Follows ⟨ρ, w⟩ ρ u :=
  { h with
    store := h.store.anew rfl
    calls := h.calls.toPicks.charts
    waiting := fun _ _ => rfl
    unheard := fun _ _ => rfl }

/-- Time passes for the client wherever it is. -/
theorem time (h : w.Follows ⟨ρ, w⟩ ρ u) {mv : Move} (ht : mv.isTime = true) :
    (w.step mv).Follows ⟨ρ, w.step mv⟩ ρ (u.step mv) := by
  cases mv with
  | clock now => exact { h with store := { h.store with now := rfl, sameNow := rfl } }
  | elapse nanos =>
    exact { h with
      store := { h.store with
        uptime := rfl
        sameUptime := congrArg (· + nanos) h.store.sameUptime } }
  | call | reply => cases ht

/-- Another client may wait while this one moves, and finds what it left. -/
theorem bystander (h : w'.Follows ⟨ρ, w⟩ σ u) (hv : w.Follows ⟨τ, w⟩ τ v)
    (ha : ρ.Apart τ) : w'.Follows ⟨τ, w'⟩ τ v := by
  have hc := h.calls.disjoint hv.calls.toPicks ha.calls
  have ho := h.unheard (· ∈ τ.calls) fun c hτ hσ => hc hσ (of_decide_eq_true hτ)
  exact {
    store := h.store.bystander hv.store ha
    calls := (hv.calls.toPicks.mono h.calls.le).charts
    pending := fun hi => by
      rw [h.waiting _ fun hσ => hc hσ hi.mem]
      exact hv.pending hi
    waiting := fun _ _ => rfl
    observed := by
      rw [ho]
      exact hv.observed
    unheard := fun _ _ => rfl }

/-- What the client makes is nobody else's. -/
theorem apart (h : w'.Follows ⟨ρ, w⟩ σ u) (hv : w.Follows ⟨τ, w⟩ τ v)
    (ha : ρ.Apart τ) : σ.Apart τ where
  jobs := h.store.jobs.disjoint hv.store.jobs.toPicks ha.jobs
  tickets := h.store.tickets.disjoint hv.store.tickets.toPicks ha.tickets
  managers := h.store.managers.disjoint hv.store.managers.toPicks ha.managers
  calls := h.calls.disjoint hv.calls.toPicks ha.calls

end World.Follows

namespace Scene

/-- Every client's world when it is alone is followed in the process, and no two clients have
anything in common. -/
structure Sound (S : Scene) (alone : Nat → World) : Prop where
  follows : ∀ i, S.world.Follows ⟨S.share i, S.world⟩ (S.share i) (alone i)
  apart : ∀ i j, i ≠ j → (S.share i).Apart (S.share j)
  founded : S.world.Founded
  alone : ∀ i, (alone i).Founded
  quiet : ∀ a, S.world.calls ≤ a → S.world.observed (· == a) = []

theorem Sound.start (now : Int) : (start now).Sound fun _ => World.start now where
  follows _ := {
    store := {
      now := rfl, uptime := rfl, sameNow := rfl, sameUptime := rfl
      jobs := .start
      tickets := .start
      managers := .start
      stamps := Picks.charts ⟨rfl, List.pairwise_singleton .., fun i hi => by
        rw [List.mem_singleton.mp hi]
        exact Nat.zero_lt_one⟩ }
    calls := Picks.charts ⟨rfl, .nil, nofun⟩
    pending := nofun
    waiting := fun _ _ => rfl
    observed := .nil
    unheard := fun _ _ => rfl }
  apart _ _ _ := ⟨nofun, nofun, nofun, nofun⟩
  founded := .start now
  alone _ := .start now
  quiet _ _ := rfl

variable {S : Scene} {alone : Nat → World} {i : Nat} {mv mv' : Move}

theorem turn_time (ht : mv.isTime = true) : S.turn ⟨i, mv⟩ = ⟨S.world.step mv, S.share⟩ := by
  have hg : (S.share i).grown S.world (S.world.step mv) = S.share i := by
    cases mv with
    | clock | elapse => simp [Share.grown, joined, World.step]
    | call | reply => cases ht
  have hp : (S.share i).ofMove mv = some mv := by
    cases mv with
    | clock | elapse => rfl
    | call | reply => cases ht
  simp only [Scene.turn, hp, Option.elim_some, Scene.move, hg, Function.update_eq_self]

/-- Where time passes, it passes for all. -/
theorem Sound.time (h : S.Sound alone) (ht : mv.isTime = true) :
    (S.turn ⟨i, mv⟩).Sound fun j => (alone j).step mv := by
  rw [turn_time ht]
  refine ⟨fun j => (h.follows j).time ht, h.apart, h.founded.step mv, fun j => (h.alone j).step mv,
    fun a ha => ?_⟩
  cases mv with
  | clock | elapse => exact h.quiet a ha
  | call | reply => cases ht

/-- Where one client moves, nothing of the others' has changed. -/
theorem Sound.move (h : S.Sound alone) {σ : Share} {u : World}
    (hs : (S.world.step mv').Follows ⟨S.share i, S.world⟩ σ u) (hu : u.Founded)
    (hp : (S.share i).ofMove mv = some mv') :
    (S.turn ⟨i, mv⟩).Sound (Function.update alone i u) := by
  have hturn : S.turn ⟨i, mv⟩ = ⟨S.world.step mv', Function.update S.share i σ⟩ := by
    rw [hs.share_eq]
    simp only [Scene.turn, hp, Option.elim_some, Scene.move]
  have hnew {j : Nat} (hj : j ≠ i) : σ.Apart (S.share j) :=
    hs.apart (h.follows j) (h.apart i j (Ne.symm hj))
  rw [hturn]
  refine ⟨fun j => ?_, fun j k hjk => ?_, h.founded.step mv', fun j => ?_, fun a ha => ?_⟩
  · by_cases hj : j = i
    · subst hj
      simp only [Function.update_self]
      exact hs.anew
    · simp only [Function.update_of_ne hj]
      exact hs.bystander (h.follows j) (h.apart i j (Ne.symm hj))
  · by_cases hj : j = i <;> by_cases hk : k = i
    · exact absurd (hj.trans hk.symm) hjk
    · subst hj
      simpa only [Function.update_self, Function.update_of_ne hk] using hnew hk
    · subst hk
      simpa only [Function.update_self, Function.update_of_ne hj] using (hnew hj).symm
    · simpa only [Function.update_of_ne hj, Function.update_of_ne hk] using h.apart j k hjk
  · by_cases hj : j = i
    · subst hj
      simpa only [Function.update_self] using hu
    · simpa only [Function.update_of_ne hj] using h.alone j
  · have hn : a ∉ σ.calls := fun hm => Nat.not_lt.mpr ha (hs.calls.below a hm)
    have ho := hs.unheard (· == a) fun c hc => by
      rw [beq_iff_eq.mp hc]
      exact hn
    exact ho.trans (h.quiet a (Nat.le_trans hs.calls.le ha))

/-- A turn reaches the one client who takes it, and all if it lets time pass. -/
theorem Sound.turn (h : S.Sound alone) {x : Turn} (hx : x.move.plain = true) :
    (S.turn x).Sound fun i => if x.reaches i then (alone i).step x.move else alone i := by
  obtain ⟨i, mv⟩ := x
  cases ht : mv.isTime with
  | true =>
    simp only [Turn.reaches, ht, Bool.or_true, ↓reduceIte]
    exact h.time ht
  | false =>
    have hreach : (fun j => if Turn.reaches ⟨i, mv⟩ j then (alone j).step mv else alone j) =
        Function.update alone i ((alone i).step mv) := by
      funext j
      by_cases hj : j = i
      · subst hj
        simp [Turn.reaches]
      · simp [Turn.reaches, ht, hj, Ne.symm hj]
    rw [hreach]
    cases hp : (S.share i).ofMove mv with
    | none =>
      have hturn : S.turn ⟨i, mv⟩ = S := by simp only [Scene.turn, hp, Option.elim_none]
      rw [hturn, (h.follows i).step_nothing (h.alone i) hx hp, Function.update_eq_self]
      exact h
    | some mv' =>
      have hquiet := h.quiet S.world.calls (Nat.le_refl _)
      obtain ⟨σ, hs⟩ := (h.follows i).step h.founded (h.alone i) hquiet hx ht hp
      exact h.move hs ((h.alone i).step mv) hp

/-- Each client lives through the script as through its own part of it. -/
theorem Sound.run (h : S.Sound alone) {script : List Turn}
    (hx : ∀ x ∈ script, x.move.plain = true) :
    (S.run script).Sound fun i => (alone i).run (solo i script) := by
  induction script generalizing S alone with
  | nil => exact h
  | cons x script ih =>
    have h' := ih (h.turn (hx x List.mem_cons_self)) fun y hy => hx y (List.mem_cons_of_mem x hy)
    have hsolo (i : Nat) : (if x.reaches i then (alone i).step x.move else alone i).run
        (solo i script) = (alone i).run (solo i (x :: script)) := by
      simp only [solo, List.filter_cons]
      split <;> rfl
    simp only [hsolo] at h'
    exact h'

/-- Whatever clients do in turns with what they made, each is told the same as when it does its
part alone at the same times: the same results, and the same hooks with the same numbers of
attempts. Of its jobs and tickets only sessions, stamps and loggers may differ, and the stamps are
in the same order. Each of its managers counts the same, gives the same status to every id, names
the same next time and holds the same ids in the same order. -/
theorem managers_isolated {now : Int} {script : List Turn}
    (hx : ∀ x ∈ script, x.move.plain = true) (i : Nat) {S : Scene}
    (hS : S = (Scene.start now).run script) {u : World}
    (hu : u = (World.start now).run (solo i script)) :
    List.Forall₂ (Event.Alike (S.share i)) (S.world.observed (· ∈ (S.share i).calls))
        (u.observed fun _ => true) ∧
      (∀ k < u.jobs.size, ∃ j, Listed (S.share i).jobs j k ∧
        (S.world.job j).bare = (u.job k).bare) ∧
      (∀ k < u.tickets.size, ∃ t, Listed (S.share i).tickets t k ∧
        (S.world.ticket t).Alike (S.share i) (u.ticket k)) ∧
      ∀ k < u.managers.size, ∃ m, Listed (S.share i).managers m k ∧
        (S.world.manager m).Alike (S.share i) (u.manager k) ∧
        (S.world.manager m).counts = (u.manager k).counts ∧
        (∀ id, (S.world.manager m).status S.world.ticket (S.world.time m) id =
          (u.manager k).status u.ticket (u.time k) id) ∧
        (S.world.manager m).nextTime S.world.ticket (S.world.time m) =
          (u.manager k).nextTime u.ticket (u.time k) ∧
        (S.world.manager m).queue.order.map (fun t => (S.world.ticket t).id) =
          (u.manager k).queue.order.map fun t => (u.ticket t).id := by
  have h := ((Sound.start now).run hx).follows i
  rw [← hS, ← hu] at h
  refine ⟨h.observed, fun k hk => ?_, fun k hk => ?_, fun k hk => ?_⟩
  · obtain ⟨j, hj⟩ := h.store.jobs.listed hk
    exact ⟨j, hj, h.store.job hj⟩
  · obtain ⟨t, ht⟩ := h.store.tickets.listed hk
    exact ⟨t, ht, h.store.ticket ht⟩
  · obtain ⟨m, hm⟩ := h.store.managers.listed hk
    have hg := h.store.manager hm
    refine ⟨m, hm, hg, hg.counts, fun id => ?_, ?_, ?_⟩
    · rw [h.store.time hm]
      exact hg.status h.store.ticket ..
    · simp only [Manager.nextTime, h.store.time hm, hg.network, hg.busy]
      exact hg.queue.nextTime h.store.ticket ..
    · exact forall₂_map (fun _ _ ht => Queue.Alike.id h.store.ticket ht) hg.queue.order

/-- Two clients have jobs of the same id. While one of them waits for a hook the other goes on, and
both let an attempt fail, so that their stamps alternate. -/
def interleaved : List Turn :=
  [⟨0, .call (.makeManager {})⟩, ⟨1, .call (.makeManager {})⟩, ⟨0, .call (.makeJob { id := "a" })⟩,
    ⟨1, .call (.makeJob { id := "a" })⟩, ⟨1, .call (.makeJob { id := "b" })⟩,
    ⟨1, .call (.manager 0 (.add (some 0)))⟩, ⟨0, .call (.manager 0 (.add (some 0)))⟩,
    ⟨1, .reply 3 .done⟩, ⟨0, .reply 2 .done⟩, ⟨0, .call (.manager 0 .runUntilIdle)⟩,
    ⟨1, .call (.manager 0 (.add (some 1)))⟩, ⟨0, .reply 3 (.failed "x")⟩, ⟨1, .reply 4 .done⟩,
    ⟨1, .call (.manager 0 .runNext)⟩, ⟨0, .reply 3 .succeeded⟩, ⟨1, .reply 5 (.failed "y")⟩]

theorem managers_isolated_interleaved :
    ∃ S u, S = (Scene.start 0).run interleaved ∧
      u = (World.start 0).run (solo 1 interleaved) ∧
      (S.share 1).managers = [1] ∧ (S.share 1).stamps = [0, 1, 3, 5] ∧
      List.Forall₂ (Event.Alike (S.share 1)) (S.world.observed (· ∈ (S.share 1).calls))
        (u.observed fun _ => true) ∧
      (S.world.manager 1).counts = (u.manager 0).counts ∧
      (S.world.manager 1).queue.order.map (fun t => (S.world.ticket t).id) = ["b", "a"] := by
  have hm : (((Scene.start 0).run interleaved).share 1).managers = [1] := by decide +kernel
  obtain ⟨he, -, -, hk⟩ := @managers_isolated 0 interleaved (by decide) 1 _ rfl _ rfl
  obtain ⟨m, hs, -, hc, -, -, ho⟩ := hk 0 (by decide +kernel)
  obtain rfl : m = 1 := by
    rw [hm] at hs
    exact (Option.some.inj hs).symm
  exact ⟨_, _, rfl, rfl, hm, by decide +kernel, he, hc, ho.trans (by decide +kernel)⟩

end Scene

end Backlog
