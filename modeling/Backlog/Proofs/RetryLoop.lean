import Backlog.Status
import Mathlib.Data.List.Basic

/-!
# The retry loop

What becomes of a work that is taken in. Its job is tried until it succeeds, the limit is
reached or the job declines. A cancellation ends the work or leaves it to the attempt in
progress, and after a stop no attempt is repeated. Left alone this is the plain loop.
-/

namespace Backlog

/-- How far a work has come. -/
inductive Stage where
  /-- The next attempt may begin, after `n` of them. -/
  | ready (n : Int)
  | trying (n : Int)
  /-- Attempt `n` failed, and the job is asked whether to go on. -/
  | asking (n : Int)
  | ended (status : Status)
  deriving DecidableEq, Repr

/-- What happens to a work. -/
inductive Signal where
  | attempt (n : Int)
  | succeeded
  | failed
  | planned (retry : Bool)
  | cancel
  | stop
  deriving DecidableEq, Repr

structure Loop where
  stage : Stage
  cancelled : Bool := false
  stopped : Bool := false
  deriving DecidableEq, Repr

/-- What becomes of an attempt: it succeeds, or it fails and the job would go on or not. -/
inductive Try where
  | success
  | failure (goesOn : Bool)
  deriving DecidableEq, Repr

/-- The plain loop from attempt `n` on: which attempts it makes and how it ends. -/
def plainLoop (limit n : Int) : List Try → List Int × Option Status
  | [] => ([], none)
  | .success :: _ => ([n], some .succeeded)
  | .failure goesOn :: tries =>
    if limit ≤ n then ([n], some .failed)
    else if goesOn then (plainLoop limit (n + 1) tries).map (n :: ·) id
    else ([n], some .failed)

namespace Loop

/-- What becomes of a work whose attempt `n` is to be repeated. -/
def again (l : Loop) (n : Int) : Stage := if l.stopped then .ended .failed else .ready n

/-- What becomes of a work whose attempt `n` failed. A job that `asks` has a say in it below
the limit. -/
def fail (limit : Int) (asks : Bool) (l : Loop) (n : Int) : Stage :=
  if l.cancelled then .ended .cancelled
  else if limit ≤ n then .ended .failed
  else if asks then .asking n
  else l.again n

/-- What becomes of a work whose job has said whether to go on after attempt `n`. -/
def answer (l : Loop) (n : Int) (retry : Bool) : Stage :=
  if l.cancelled then .ended .cancelled
  else if retry then l.again n
  else .ended .failed

def cancel (l : Loop) : Loop :=
  match l.stage with
  | .ready _ => { l with stage := .ended .cancelled }
  | .trying _ | .asking _ => { l with cancelled := true }
  | .ended _ => l

/-- What a signal makes of the work, if it can come then. -/
def step (limit : Int) (asks : Bool) (l : Loop) : Signal → Option Loop
  | .attempt k =>
    match l.stage with
    | .ready n => if k = n + 1 then some { l with stage := .trying k } else none
    | _ => none
  | .succeeded =>
    match l.stage with
    | .trying _ => some { l with stage := .ended .succeeded }
    | _ => none
  | .failed =>
    match l.stage with
    | .trying n => some { l with stage := l.fail limit asks n }
    | _ => none
  | .planned retry =>
    match l.stage with
    | .asking n => some { l with stage := l.answer n retry }
    | _ => none
  | .cancel => some l.cancel
  | .stop => some { l with stopped := true }

def run (limit : Int) (asks : Bool) (l : Loop) (signals : List Signal) : Option Loop :=
  signals.foldlM (step limit asks) l

/-- The numbers of the attempts, in order. -/
def numbers (signals : List Signal) : List Int :=
  signals.filterMap fun
    | .attempt n => some n
    | _ => none

variable {limit : Int} {asks : Bool} {l l' : Loop} {x : Signal} {signals : List Signal}
  {n : Int} {status : Status}

theorem run_cons :
    l.run limit asks (x :: signals) = (l.step limit asks x).bind (·.run limit asks signals) :=
  List.foldlM_cons

theorem run_append {more : List Signal} :
    l.run limit asks (signals ++ more) =
      (l.run limit asks signals).bind (·.run limit asks more) :=
  List.foldlM_append

theorem numbers_append (signals more : List Signal) :
    numbers (signals ++ more) = numbers signals ++ numbers more :=
  List.filterMap_append

theorem run_cons_eq_some (h : l.run limit asks (x :: signals) = some l') :
    ∃ l₁, l.step limit asks x = some l₁ ∧ l₁.run limit asks signals = some l' := by
  rw [run_cons] at h
  exact Option.bind_eq_some_iff.mp h

/-- Whatever can come to a work, and what it makes of the work. -/
theorem step_cases (h : l.step limit asks x = some l') :
    (∃ n, l.stage = .ready n ∧ x = .attempt (n + 1) ∧ l' = { l with stage := .trying (n + 1) }) ∨
    (∃ n, l.stage = .trying n ∧ x = .succeeded ∧ l' = { l with stage := .ended .succeeded }) ∨
    (∃ n, l.stage = .trying n ∧ x = .failed ∧ l' = { l with stage := l.fail limit asks n }) ∨
    (∃ n retry, l.stage = .asking n ∧ x = .planned retry ∧
      l' = { l with stage := l.answer n retry }) ∨
    (x = .cancel ∧ l' = l.cancel) ∨ (x = .stop ∧ l' = { l with stopped := true }) := by
  obtain ⟨stage, cancelled, stopped⟩ := l
  cases x with
  | attempt k =>
    cases stage with
    | ready n =>
      simp only [step] at h
      split at h
      · rename_i hk
        exact .inl ⟨n, rfl, by rw [hk], by rw [← hk]; exact (Option.some.inj h).symm⟩
      · cases h
    | _ => cases h
  | succeeded =>
    cases stage with
    | trying n => exact .inr (.inl ⟨n, rfl, rfl, (Option.some.inj h).symm⟩)
    | _ => cases h
  | failed =>
    cases stage with
    | trying n => exact .inr (.inr (.inl ⟨n, rfl, rfl, (Option.some.inj h).symm⟩))
    | _ => cases h
  | planned retry =>
    cases stage with
    | asking n => exact .inr (.inr (.inr (.inl ⟨n, retry, rfl, rfl, (Option.some.inj h).symm⟩)))
    | _ => cases h
  | cancel => exact .inr (.inr (.inr (.inr (.inl ⟨rfl, (Option.some.inj h).symm⟩))))
  | stop => exact .inr (.inr (.inr (.inr (.inr ⟨rfl, (Option.some.inj h).symm⟩))))

/-- The stages that can follow an attempt which is to be repeated. -/
theorem again_cases (l : Loop) (n : Int) :
    l.again n = .ready n ∨ l.again n = .ended .failed := by
  simp only [again]
  cases l.stopped
  · exact .inl rfl
  · exact .inr rfl

/-- The stages that can follow a failed attempt. -/
theorem fail_cases (limit : Int) (asks : Bool) (l : Loop) (n : Int) :
    (∃ status, l.fail limit asks n = .ended status) ∨
      n < limit ∧ (l.fail limit asks n = .asking n ∨ l.fail limit asks n = .ready n) := by
  simp only [fail]
  split
  · exact .inl ⟨_, rfl⟩
  split
  · exact .inl ⟨_, rfl⟩
  rename_i hn
  have hn : n < limit := Int.not_le.mp hn
  split
  · exact .inr ⟨hn, .inl rfl⟩
  · exact (again_cases l n).elim (fun h => .inr ⟨hn, .inr h⟩) fun h => .inl ⟨_, h⟩

/-- The stages that can follow an answer of the job. -/
theorem answer_cases (l : Loop) (n : Int) (retry : Bool) :
    (∃ status, l.answer n retry = .ended status) ∨ l.answer n retry = .ready n := by
  simp only [answer]
  split
  · exact .inl ⟨_, rfl⟩
  split
  · exact (again_cases l n).symm.imp_left fun h => ⟨_, h⟩
  · exact .inl ⟨_, rfl⟩

/-- How many attempts can still begin. -/
def budget (limit : Int) : Stage → Int
  | .ready n | .asking n => max 1 (limit - n)
  | .trying n => max 0 (limit - n)
  | .ended _ => 0

/-- The number of the last attempt. -/
def made : Stage → Int
  | .ready n | .trying n | .asking n => n
  | .ended _ => 0

theorem budget_nonneg (limit : Int) (stage : Stage) : 0 ≤ budget limit stage := by
  cases stage <;> simp only [budget] <;> omega

/-- A cancellation ends the work or leaves its stage. -/
theorem cancel_cases (l : Loop) :
    l.cancel.stage = l.stage ∨ l.cancel.stage = .ended .cancelled := by
  simp only [cancel]
  split
  · exact .inr rfl
  · exact .inl rfl
  · exact .inl rfl
  · exact .inl rfl

/-- What a signal does to the count of attempts and to the number that can still begin. -/
theorem step_budget (h : l.step limit asks x = some l') :
    (∃ n, l.stage = .ready n ∧ x = .attempt (n + 1) ∧ l'.stage = .trying (n + 1)) ∨
    (∀ n, x ≠ .attempt n) ∧ budget limit l'.stage ≤ budget limit l.stage ∧
      (made l'.stage = made l.stage ∨ ∃ status, l'.stage = .ended status) := by
  have ended {s : Stage} (status : Status) (hs : s = .ended status) :
      budget limit s ≤ budget limit l.stage ∧ (made s = made l.stage ∨ ∃ t, s = .ended t) := by
    subst hs
    exact ⟨budget_nonneg limit l.stage, .inr ⟨_, rfl⟩⟩
  rcases step_cases h with ⟨n, hn, rfl, rfl⟩ | ⟨n, hn, rfl, rfl⟩ | ⟨n, hn, rfl, rfl⟩ |
    ⟨n, retry, hn, rfl, rfl⟩ | ⟨rfl, rfl⟩ | ⟨rfl, rfl⟩
  · exact .inl ⟨n, hn, rfl, rfl⟩
  · exact .inr ⟨nofun, ended _ rfl⟩
  · refine .inr ⟨nofun, ?_⟩
    rcases fail_cases limit asks l n with ⟨status, hs⟩ | ⟨hlt, hs | hs⟩
    · exact ended status hs
    · dsimp only
      rw [hs, hn]
      exact ⟨by simp only [budget]; omega, .inl rfl⟩
    · dsimp only
      rw [hs, hn]
      exact ⟨by simp only [budget]; omega, .inl rfl⟩
  · refine .inr ⟨nofun, ?_⟩
    rcases answer_cases l n retry with ⟨status, hs⟩ | hs
    · exact ended status hs
    · dsimp only
      rw [hs, hn]
      exact ⟨Int.le_refl _, .inl rfl⟩
  · refine .inr ⟨nofun, ?_⟩
    rcases cancel_cases l with hs | hs
    · rw [hs]
      exact ⟨Int.le_refl _, .inl rfl⟩
    · exact ended _ hs
  · exact .inr ⟨nofun, Int.le_refl _, .inl rfl⟩

theorem numbers_cons (hx : ∀ n, x ≠ .attempt n) : numbers (x :: signals) = numbers signals := by
  cases x with
  | attempt n => exact absurd rfl (hx n)
  | _ => rfl

/-- Attempts are numbered without a gap, and no more begin than the limit leaves. -/
theorem numbers_run (h : l.run limit asks signals = some l') :
    ∃ k : Nat, numbers signals = (List.range k).map (fun i : Nat => made l.stage + 1 + i) ∧
      k ≤ budget limit l.stage := by
  induction signals generalizing l with
  | nil => exact ⟨0, rfl, budget_nonneg limit l.stage⟩
  | cons x signals ih =>
    obtain ⟨l₁, hs, hr⟩ := run_cons_eq_some h
    obtain ⟨k, hk, hb⟩ := ih hr
    rcases step_budget hs with ⟨n, hn, rfl, hl⟩ | ⟨hx, hle, hm⟩
    · refine ⟨k + 1, ?_, ?_⟩
      · change (n + 1) :: numbers signals = _
        rw [hk, hn, hl, List.range_succ_eq_map, List.map_cons, List.map_map]
        simp only [made, Function.comp_def]
        congr 1
        · omega
        · apply List.map_congr_left
          intro i _
          omega
      · rw [hn]
        rw [hl] at hb
        simp only [budget] at hb ⊢
        omega
    · refine ⟨k, ?_, Int.le_trans hb hle⟩
      rw [numbers_cons hx, hk]
      rcases hm with hm | ⟨status, hm⟩
      · rw [hm]
      · rw [hm] at hb
        obtain rfl : k = 0 := by
          simp only [budget] at hb
          omega
        rfl

/-- No attempt begins any more: the work is over, or its last attempt is cancelled. -/
def closed (l : Loop) : Bool :=
  match l.stage with
  | .ready _ => false
  | .trying _ | .asking _ => l.cancelled
  | .ended _ => true

theorem closed_cancel (l : Loop) : l.cancel.closed = true := by
  obtain ⟨stage, cancelled, stopped⟩ := l
  cases stage <;> rfl

theorem closed_step (hc : l.closed = true) (h : l.step limit asks x = some l') :
    l'.closed = true ∧ ∀ n, x ≠ .attempt n := by
  obtain ⟨stage, cancelled, stopped⟩ := l
  cases stage with
  | ready n => cases hc
  | trying n =>
    obtain rfl : cancelled = true := hc
    cases x <;> cases h <;> exact ⟨rfl, nofun⟩
  | asking n =>
    obtain rfl : cancelled = true := hc
    cases x <;> cases h <;> exact ⟨rfl, nofun⟩
  | ended status => cases x <;> cases h <;> exact ⟨rfl, nofun⟩

/-- No attempt begins after a cancellation. -/
theorem numbers_closed (hc : l.closed = true) (h : l.run limit asks signals = some l') :
    numbers signals = [] := by
  induction signals generalizing l with
  | nil => rfl
  | cons x signals ih =>
    obtain ⟨l₁, hs, hr⟩ := run_cons_eq_some h
    obtain ⟨hc₁, hx⟩ := closed_step hc hs
    exact (numbers_cons hx).trans (ih hc₁ hr)

/-- What is over stays as it is. -/
theorem ended_run (hl : l.stage = .ended status) (h : l.run limit asks signals = some l') :
    l'.stage = .ended status := by
  induction signals generalizing l with
  | nil => rw [← Option.some.inj h, hl]
  | cons x signals ih =>
    obtain ⟨l₁, hs, hr⟩ := run_cons_eq_some h
    refine ih ?_ hr
    rcases step_cases hs with ⟨n, hn, -, -⟩ | ⟨n, hn, -, -⟩ | ⟨n, hn, -, -⟩ |
      ⟨n, retry, hn, -, -⟩ | ⟨-, rfl⟩ | ⟨-, rfl⟩
    · rw [hl] at hn; cases hn
    · rw [hl] at hn; cases hn
    · rw [hl] at hn; cases hn
    · rw [hl] at hn; cases hn
    · rw [cancel, hl]
      exact hl
    · exact hl

/-- What is closed ends cancelled unless its last attempt succeeds. -/
theorem status_closed (hc : l.closed = true) (hl : ∀ s, l.stage = .ended s → s = .cancelled)
    (h : l.run limit asks signals = some l') (ho : l'.stage = .ended status) :
    status = if .succeeded ∈ signals then .succeeded else .cancelled := by
  induction signals generalizing l with
  | nil =>
    obtain rfl := Option.some.inj h
    exact hl _ ho
  | cons x signals ih =>
    obtain ⟨l₁, hs, hr⟩ := run_cons_eq_some h
    have rest (hx : x ≠ .succeeded) (hl₁ : ∀ s, l₁.stage = .ended s → s = .cancelled) :
        status = if .succeeded ∈ x :: signals then .succeeded else .cancelled := by
      rw [ih (closed_step hc hs).1 hl₁ hr]
      simp only [List.mem_cons, hx.symm, false_or]
    have mark {n : Int} (hn : l.stage = .trying n ∨ l.stage = .asking n) : l.cancelled = true := by
      rcases hn with hn | hn <;> rwa [closed, hn] at hc
    rcases step_cases hs with ⟨n, hn, -, -⟩ | ⟨n, hn, rfl, rfl⟩ | ⟨n, hn, rfl, rfl⟩ |
      ⟨n, retry, hn, rfl, rfl⟩ | ⟨rfl, rfl⟩ | ⟨rfl, rfl⟩
    · rw [closed, hn] at hc
      cases hc
    · rw [ended_run rfl hr] at ho
      rw [if_pos List.mem_cons_self]
      exact (Stage.ended.inj ho).symm
    · refine rest nofun fun s hs => ?_
      rw [fail, if_pos (mark (.inl hn))] at hs
      exact (Stage.ended.inj hs).symm
    · refine rest nofun fun s hs => ?_
      rw [answer, if_pos (mark (.inr hn))] at hs
      exact (Stage.ended.inj hs).symm
    · refine rest nofun fun s hs => ?_
      rcases cancel_cases l with hk | hk <;> rw [hk] at hs
      · exact hl s hs
      · exact (Stage.ended.inj hs).symm
    · exact rest nofun hl

/-- One attempt can begin after a stop if the work is ready for it. -/
def leftover : Stage → Nat
  | .ready _ => 1
  | _ => 0

/-- Nothing is repeated after a stop. -/
theorem stopped_step (hs : l.stopped = true) (h : l.step limit asks x = some l') :
    l'.stopped = true ∧ leftover l'.stage + (numbers [x]).length ≤ leftover l.stage := by
  have again (n : Int) : leftover (l.again n) = 0 := by
    simp only [again]
    rw [hs]
    rfl
  rcases step_cases h with ⟨n, hn, rfl, rfl⟩ | ⟨n, hn, rfl, rfl⟩ | ⟨n, hn, rfl, rfl⟩ |
    ⟨n, retry, hn, rfl, rfl⟩ | ⟨rfl, rfl⟩ | ⟨rfl, rfl⟩
  · rw [hn]
    exact ⟨hs, Nat.le_refl 1⟩
  · exact ⟨hs, Nat.zero_le _⟩
  · have hz : leftover (l.fail limit asks n) = 0 := by
      simp only [fail]
      split
      · rfl
      split
      · rfl
      split
      · rfl
      · exact again n
    exact ⟨hs, by dsimp only; rw [hz]; exact Nat.zero_le _⟩
  · have hz : leftover (l.answer n retry) = 0 := by
      simp only [answer]
      split
      · rfl
      split
      · exact again n
      · rfl
    exact ⟨hs, by dsimp only; rw [hz]; exact Nat.zero_le _⟩
  · constructor
    · simp only [cancel]
      split <;> exact hs
    · rcases cancel_cases l with hc | hc <;> rw [hc]
      · exact Nat.le_refl _
      · exact Nat.zero_le _
  · exact ⟨rfl, Nat.le_refl _⟩

/-- At most one attempt begins after a stop, and none if one was in progress. -/
theorem numbers_stopped (hs : l.stopped = true) (h : l.run limit asks signals = some l') :
    (numbers signals).length ≤ leftover l.stage := by
  induction signals generalizing l with
  | nil => exact Nat.zero_le _
  | cons x signals ih =>
    obtain ⟨l₁, h₁, hr⟩ := run_cons_eq_some h
    obtain ⟨hs₁, hle⟩ := stopped_step hs h₁
    have := ih hs₁ hr
    rw [← List.singleton_append, numbers_append, List.length_append]
    omega

/-- Whether the job goes on after a failure that these signals follow. One that is not asked
does. -/
def goesOn : List Signal → Bool
  | .planned retry :: _ => retry
  | _ => true

/-- What became of the attempts. -/
def tries : List Signal → List Try
  | [] => []
  | .succeeded :: signals => .success :: tries signals
  | .failed :: signals => .failure (goesOn signals) :: tries signals
  | _ :: signals => tries signals

/-- What the signals come to that end the work with a status. -/
def Plain (limit : Int) (status : Status) (signals : List Signal) : Stage → Prop
  | .ready n => plainLoop limit (n + 1) (tries signals) = (numbers signals, some status)
  | .trying n => plainLoop limit n (tries signals) = (n :: numbers signals, some status)
  | .asking n =>
    plainLoop limit n (.failure (goesOn signals) :: tries signals) =
      (n :: numbers signals, some status)
  | .ended s => s = status ∧ signals = []

/-- A work that is ready is not being asked about. -/
theorem goesOn_of_ready (hl : l.stage = .ready n) (h : l.run limit asks signals = some l') :
    goesOn signals = true := by
  cases signals with
  | nil => rfl
  | cons x signals =>
    cases x with
    | planned retry =>
      obtain ⟨l₁, hs, -⟩ := run_cons_eq_some h
      simp only [step] at hs
      rw [hl] at hs
      cases hs
    | _ => rfl

theorem again_plain (hl : l.stopped = false) : l.again n = .ready n := by
  rw [again, hl]
  rfl

theorem fail_plain (hl : l.cancelled = false ∧ l.stopped = false) : l.fail limit asks n =
    if limit ≤ n then .ended .failed else if asks then .asking n else .ready n := by
  rw [fail, hl.1, again_plain hl.2]
  rfl

theorem answer_plain (hl : l.cancelled = false ∧ l.stopped = false) (retry : Bool) :
    l.answer n retry = if retry then .ready n else .ended .failed := by
  rw [answer, hl.1, again_plain hl.2]
  rfl

/-- Left alone, a work goes as the plain loop does. -/
theorem plain_run (hl : l.cancelled = false ∧ l.stopped = false)
    (ha : ∀ n, l.stage = .asking n → n < limit) (hx : .cancel ∉ signals ∧ .stop ∉ signals)
    (h : l.run limit asks signals = some l') (ho : l'.stage = .ended status) :
    Plain limit status signals l.stage := by
  induction signals generalizing l with
  | nil =>
    obtain rfl := Option.some.inj h
    rw [ho]
    exact ⟨rfl, rfl⟩
  | cons x signals ih =>
    obtain ⟨l₁, hs, hr⟩ := run_cons_eq_some h
    have hx' : .cancel ∉ signals ∧ .stop ∉ signals :=
      ⟨fun hm => hx.1 (List.mem_cons_of_mem x hm), fun hm => hx.2 (List.mem_cons_of_mem x hm)⟩
    have rest {stage : Stage} (ha : ∀ n, stage = .asking n → n < limit)
        (hr : run limit asks { l with stage } signals = some l') :
        Plain limit status signals stage := ih (l := { l with stage }) hl ha hx' hr
    have ended {s : Status} (hr : run limit asks { l with stage := .ended s } signals = some l') :
        s = status ∧ signals = [] :=
      rest (fun _ hk => by cases hk) hr
    have ready {n : Int} (hr : run limit asks { l with stage := .ready n } signals = some l') :
        plainLoop limit (n + 1) (tries signals) = (numbers signals, some status) :=
      rest (fun _ hk => by cases hk) hr
    rcases step_cases hs with ⟨n, hn, rfl, rfl⟩ | ⟨n, hn, rfl, rfl⟩ | ⟨n, hn, rfl, rfl⟩ |
      ⟨n, retry, hn, rfl, rfl⟩ | ⟨rfl, -⟩ | ⟨rfl, -⟩
    · rw [hn]
      exact rest (fun _ hk => by cases hk) hr
    · obtain ⟨rfl, rfl⟩ := ended hr
      rw [hn]
      rfl
    · rw [hn]
      change plainLoop limit n (.failure (goesOn signals) :: tries signals) =
        (n :: numbers signals, some status)
      rw [fail_plain hl] at hr
      split at hr
      · rename_i hle
        obtain ⟨rfl, rfl⟩ := ended hr
        exact if_pos hle
      rename_i hlt
      split at hr
      · refine rest (fun k hk => ?_) hr
        cases hk
        exact Int.not_le.mp hlt
      · rw [plainLoop, if_neg hlt, if_pos (goesOn_of_ready rfl hr), ready hr]
        rfl
    · have hlt := Int.not_le.mpr (ha n hn)
      rw [hn]
      change plainLoop limit n (.failure retry :: tries signals) =
        (n :: numbers signals, some status)
      rw [plainLoop, if_neg hlt]
      rw [answer_plain hl] at hr
      split at hr
      · rename_i hretry
        rw [if_pos hretry, ready hr]
        rfl
      · rename_i hretry
        obtain ⟨rfl, rfl⟩ := ended hr
        exact if_neg hretry
    · exact absurd List.mem_cons_self hx.1
    · exact absurd List.mem_cons_self hx.2

end Loop

end Backlog
