import Mathlib.Algebra.Order.Ring.Int
import Backlog.Deadline

/-!
# Deadlines as clamped sums

A delay is turned into nanoseconds first and added to the present then, and each of the two stops
at `latest`. Nothing leaves its word on the way. What comes out is the sum, or `latest` if the sum
is beyond, unless the present is before zero and the delay alone is beyond `latest`. In that case
the deadline is too early by what the delay was cut.
-/

namespace Backlog

/-- The least number a word holds. -/
def Width.least (w : Width) : Int := -w.greatest - 1

/-- A deadline in a wide word. The least number stands for none. -/
def deadlineWord (d : Option Int) : Int := d.getD Width.wide.least

@[simp] theorem deadlineWord_none : deadlineWord none = Width.wide.least := rfl
@[simp] theorem deadlineWord_some (d : Int) : deadlineWord (some d) = d := rfl

theorem least_wide : Width.wide.least = -9223372036854775808 := by decide

theorem latest_eq : latest = 9223372036854775806 := by decide

variable {now now' delay delay' : Int}

section

variable {m : Type → Type} [Monad m] {keep : Keep m}

/-- A delay alone stops at the latest deadline, or as far below zero. -/
theorem nanosBy_eq (hk : keep.Lenient) (ms : Int) :
    nanosBy keep ms = pure (max (-latest) (min (ms * 1000000) latest)) := by
  have hl := latest_eq
  have hq : latest / nanosPerMilli = 9223372036854 := by decide
  unfold nanosBy
  rw [hq]
  split
  · rw [min_eq_right (by omega), max_eq_right (by omega)]
  split
  · rw [max_eq_left (by omega)]
  · rw [min_eq_left (by omega), max_eq_right (by omega)]
    apply hk
    constructor <;> simp only [Width.greatest, nanosPerMilli] <;> omega

/-- However late the present and however long the delay, no result on the way leaves its word. -/
theorem deadlineBy_eq [LawfulMonad m] (hk : keep.Lenient) (hn : Width.wide.Holds now)
    (delay : Int) : deadlineBy keep now delay = pure (if delay ≤ 0 then none
      else some (min (now + min (delay * 1000000) latest) latest)) := by
  have hl := latest_eq
  have hlow := hn.1
  simp only [Width.greatest] at hlow
  unfold deadlineBy
  by_cases hd : delay ≤ 0
  · simp only [if_pos hd]
  simp only [if_neg hd]
  obtain ⟨ns, hns⟩ : ∃ ns, ns = min (delay * 1000000) latest := ⟨_, rfl⟩
  have hroom : Width.wide.Holds (latest - ns) := by
    constructor <;> simp only [Width.greatest] <;> omega
  rw [nanosBy_eq hk, ← hns, max_eq_right (by omega), pure_bind, hk hroom, pure_bind]
  split
  · rw [min_eq_right (by omega)]
  · have hsum : Width.wide.Holds (now + ns) := by
      constructor <;> simp only [Width.greatest] <;> omega
    rw [hk hsum, pure_bind, min_eq_left (by omega)]

theorem deadline_eq (hn : Width.wide.Holds now) (delay : Int) :
    deadline now delay = if delay ≤ 0 then none
      else some (min (now + min (delay * 1000000) latest) latest) :=
  deadlineBy_eq lenient_exactly hn delay

theorem deadlineBy_lenient [LawfulMonad m] (hk : keep.Lenient) (hn : Width.wide.Holds now)
    (delay : Int) : deadlineBy keep now delay = pure (deadline now delay) := by
  rw [deadlineBy_eq hk hn, deadline_eq hn]

end

theorem deadlineWord_of_pos (hn : Width.wide.Holds now) (hd : 0 < delay) :
    deadlineWord (deadline now delay) = min (now + min (delay * 1000000) latest) latest := by
  rw [deadline_eq hn, if_neg (by omega), deadlineWord_some]

/-- A deadline that a delay has set is never read as none. -/
theorem least_lt_deadlineWord (hn : Width.wide.Holds now) (hd : 0 < delay) :
    Width.wide.least < deadlineWord (deadline now delay) := by
  have hl := latest_eq
  have hs := least_wide
  have hlow := hn.1
  simp only [Width.greatest] at hlow
  rw [deadlineWord_of_pos hn hd]
  omega

theorem deadlineWord_eq_least_iff (hn : Width.wide.Holds now) :
    deadlineWord (deadline now delay) = Width.wide.least ↔ delay ≤ 0 := by
  constructor
  · intro h
    by_contra hd
    exact absurd h (ne_of_gt (least_lt_deadlineWord hn (by omega)))
  · intro h
    rw [deadline_of_nonpos now h, deadlineWord_none]

/-- Later on and with a longer delay, the deadline is not earlier. -/
theorem deadlineWord_mono (hn : Width.wide.Holds now) (hn' : Width.wide.Holds now')
    (hnow : now ≤ now') (hdelay : delay ≤ delay') :
    deadlineWord (deadline now delay) ≤ deadlineWord (deadline now' delay') := by
  by_cases hd : delay ≤ 0
  · rw [(deadlineWord_eq_least_iff hn).mpr hd]
    by_cases hd' : delay' ≤ 0
    · rw [(deadlineWord_eq_least_iff hn').mpr hd']
    · exact le_of_lt (least_lt_deadlineWord hn' (by omega))
  · rw [deadlineWord_of_pos hn (by omega), deadlineWord_of_pos hn' (by omega)]
    omega

/-- The deadline of a positive delay lies between the present and `latest`. -/
theorem deadlineWord_bounds (hn : Width.wide.Holds now) (hd : 0 < delay) :
    min now latest ≤ deadlineWord (deadline now delay) ∧
      deadlineWord (deadline now delay) ≤ latest := by
  have hl := latest_eq
  rw [deadlineWord_of_pos hn hd]
  omega

/-- The deadline of a delay is none exactly if the delay is not positive, and is computed without
leaving a word. It is the sum of the present and the delay, or `latest` if that is earlier, exactly
if the present is not before zero or the delay alone is not beyond `latest`. In all cases it is the
sum of the present and the delay cut to `latest`, itself cut to `latest`. -/
theorem deadline_is_clamped_sum (hn : Width.wide.Holds now) (delay : Int) :
    deadlineBy checked now delay = some (deadline now delay) ∧
    (deadlineWord (deadline now delay) = Width.wide.least ↔ delay ≤ 0) ∧
    (0 < delay → deadlineWord (deadline now delay) =
      min (now + min (delay * 1000000) (2 ^ 63 - 2)) (2 ^ 63 - 2)) ∧
    (0 < delay → (deadlineWord (deadline now delay) =
      min (now + delay * 1000000) (2 ^ 63 - 2) ↔ 0 ≤ now ∨ delay * 1000000 ≤ 2 ^ 63 - 2)) := by
  have hl : latest = 2 ^ 63 - 2 := rfl
  refine ⟨deadlineBy_lenient lenient_checked hn delay, deadlineWord_eq_least_iff hn,
    fun hd => deadlineWord_of_pos hn hd, fun hd => ?_⟩
  rw [deadlineWord_of_pos hn hd, ← hl]
  have hpos : 0 < latest := by decide
  omega

/-- The longest delay at the last moment, and one that is cut although the sum is not beyond
`latest`. -/
theorem deadline_is_clamped_sum_extreme :
    deadlineWord (deadline (2 ^ 63 - 1) (2 ^ 63 - 1)) = 2 ^ 63 - 2 ∧
      deadlineWord (deadline (-10 ^ 18) (10 ^ 13)) = 2 ^ 63 - 2 - 10 ^ 18 := by
  have h := deadline_is_clamped_sum (by decide : Width.wide.Holds (2 ^ 63 - 1)) (2 ^ 63 - 1)
  have h' := deadline_is_clamped_sum (by decide : Width.wide.Holds (-10 ^ 18)) (10 ^ 13)
  exact ⟨h.2.2.1 (by decide), h'.2.2.1 (by decide)⟩

/-- The sum of this present and this delay fits a word and is not beyond `latest`, but the deadline
is another one. -/
theorem deadline_is_not_sum :
    Width.wide.Holds (-10 ^ 18) ∧ Width.wide.Holds (10 ^ 13) ∧
      min (-10 ^ 18 + 10 ^ 13 * 1000000) (2 ^ 63 - 2) = (9000000000000000000 : Int) ∧
      deadline (-10 ^ 18) (10 ^ 13) = some 8223372036854775806 := by
  decide

end Backlog
