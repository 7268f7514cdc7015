import Mathlib.Algebra.Order.Ring.Int
import Backlog.RetryPlan

/-!
# Backoff as a capped exponential

The wait after an attempt is the base, or the base doubled for every attempt but the first, at most
twenty times. A wait that no wide word holds is the longest one, and a positive cap bounds it.
Nothing leaves its word on the way: whether the product fits is decided by a quotient.
-/

namespace Backlog.Backoff

/-- The base after `runs` attempts, each but the first of which doubles it until it was doubled
twenty times. -/
def doubled (runs base : Int) : Int := base * 2 ^ (min (runs - 1) 20).toNat

/-- The wait without a cap. -/
def uncapped (kind : Backoff) (runs base : Int) : Int :=
  match kind with
  | .fixed => base
  | .doubling => min (doubled runs base) longest
  | .off | .other _ => 0

/-- The wait under a cap. One that is not positive is none. -/
def capped (cap wait : Int) : Int := if 0 < cap then min wait cap else wait

variable {kind : Backoff} {runs runs' base base' cap cap' : Int}

section

variable {m : Type → Type} [Monad m] {keep : Keep m}

/-- The quotient tells whether the product is beyond the longest wait, without computing it. -/
theorem product_eq (hk : keep.Lenient) {factor : Int} (hb : 0 < base) (hf : 0 < factor) :
    (if longest / factor < base then pure longest else keep .wide (base * factor)) =
      pure (min (base * factor) longest) := by
  split
  · rename_i h
    have hbeyond : longest < base * factor := (Int.ediv_lt_iff_lt_mul hf).mp h
    rw [min_eq_right (le_of_lt hbeyond)]
  · rename_i h
    have hwithin : base * factor ≤ longest := (Int.le_ediv_iff_mul_le hf).mp (not_lt.mp h)
    have hpositive : 0 < base * factor := mul_pos hb hf
    rw [min_eq_left hwithin]
    apply hk
    constructor
    · simp only [Width.greatest]
      omega
    · exact hwithin

variable [LawfulMonad m]

theorem doubledBy_eq (hk : keep.Lenient) (hr : Width.narrow.Holds runs) (hruns : 0 < runs)
    (hb : 0 < base) : doubledBy keep runs base = pure (min (doubled runs base) longest) := by
  obtain ⟨k, hk20, hdoublings⟩ : ∃ k ≤ 20, (min (runs - 1) 20).toNat = k := ⟨_, by omega, rfl⟩
  have hfits : (2 : Int) ^ k ≤ 2 ^ 20 := pow_le_pow_right₀ (by decide) hk20
  have hfactor : (0 : Int) < 2 ^ k := pow_pos (by decide) k
  have hprev : Width.narrow.Holds (runs - 1) := by
    obtain ⟨hlow, hhigh⟩ := hr
    constructor <;> simp only [Width.greatest] at * <;> omega
  have hpow : Width.wide.Holds (Int.pow 2 k) := by
    change Width.wide.Holds (2 ^ k)
    constructor <;> simp only [Width.greatest] <;> omega
  have hmost : (min (max 0 (runs - 1)) mostDoublings).toNat = k := by
    rw [max_eq_right (by omega)]
    exact hdoublings
  unfold doubledBy
  rw [hk hprev, pure_bind]
  simp only [hmost]
  rw [hk hpow, pure_bind, doubled, hdoublings]
  exact product_eq hk hb hfactor

theorem delayBy_eq (hk : keep.Lenient) (hr : Width.narrow.Holds runs) (kind : Backoff)
    (base cap : Int) : delayBy keep kind runs base cap =
      pure (if runs ≤ 0 ∨ base ≤ 0 then 0 else capped cap (uncapped kind runs base)) := by
  have cap_eq (d : Int) : (if 0 < cap ∧ cap < d then cap else d) = capped cap d := by
    unfold capped
    split <;> split <;> omega
  unfold delayBy
  by_cases h : runs ≤ 0 ∨ base ≤ 0
  · simp only [if_pos h]
  · simp only [if_neg h]
    cases kind with
    | doubling =>
      have hruns : 0 < runs := by omega
      have hbase : 0 < base := by omega
      simp only [doubledBy_eq hk hr hruns hbase, pure_bind, cap_eq, uncapped]
    | _ => simp only [pure_bind, cap_eq, uncapped]

theorem delay_eq (hr : Width.narrow.Holds runs) (kind : Backoff) (base cap : Int) :
    delay kind runs base cap =
      if runs ≤ 0 ∨ base ≤ 0 then 0 else capped cap (uncapped kind runs base) :=
  delayBy_eq lenient_exactly hr kind base cap

theorem delayBy_lenient (hk : keep.Lenient) (hr : Width.narrow.Holds runs) (kind : Backoff)
    (base cap : Int) : delayBy keep kind runs base cap = pure (delay kind runs base cap) := by
  rw [delayBy_eq hk hr, delay_eq hr]

end

theorem doubled_pos (hb : 0 < base) : 0 < doubled runs base := mul_pos hb (pow_pos (by decide) _)

theorem doubled_mono (hb : 0 < base) (hruns : runs ≤ runs') (hbase : base ≤ base') :
    doubled runs base ≤ doubled runs' base' := by
  have hpow : (2 : Int) ^ (min (runs - 1) 20).toNat ≤ 2 ^ (min (runs' - 1) 20).toNat :=
    pow_le_pow_right₀ (by decide) (by omega)
  exact mul_le_mul hbase hpow (le_of_lt (pow_pos (by decide) _)) (by omega)

theorem uncapped_of_ne (hf : kind ≠ .fixed) (hd : kind ≠ .doubling) (runs base : Int) :
    uncapped kind runs base = 0 := by
  cases kind with
  | fixed => exact absurd rfl hf
  | doubling => exact absurd rfl hd
  | _ => rfl

theorem uncapped_nonneg (hb : 0 < base) : 0 ≤ uncapped kind runs base := by
  cases kind with
  | fixed => exact le_of_lt hb
  | doubling => exact le_min (le_of_lt (doubled_pos hb)) (by decide)
  | _ => exact le_refl 0

theorem uncapped_mono (hb : 0 < base) (hruns : runs ≤ runs') (hbase : base ≤ base') :
    uncapped kind runs base ≤ uncapped kind runs' base' := by
  cases kind with
  | fixed => exact hbase
  | doubling => exact min_le_min_right longest (doubled_mono hb hruns hbase)
  | _ => exact le_refl 0

theorem capped_zero (cap : Int) : capped cap 0 = 0 := by
  unfold capped
  split <;> omega

theorem capped_nonneg {wait : Int} (hw : 0 ≤ wait) : 0 ≤ capped cap wait := by
  unfold capped
  split <;> omega

theorem capped_mono {wait wait' : Int} (hw : wait ≤ wait') :
    capped cap wait ≤ capped cap wait' := by
  unfold capped
  split <;> omega

theorem capped_mono_cap {wait : Int} (hc : 0 < cap) (hcap : cap ≤ cap') :
    capped cap wait ≤ capped cap' wait := by
  rw [capped, capped, if_pos hc, if_pos (by omega)]
  omega

theorem delay_nonneg (hr : Width.narrow.Holds runs) : 0 ≤ delay kind runs base cap := by
  rw [delay_eq hr]
  split
  · exact le_refl 0
  · exact capped_nonneg (uncapped_nonneg (by omega))

/-- After more attempts and with a longer base, the wait is not shorter. -/
theorem delay_mono (hr : Width.narrow.Holds runs) (hr' : Width.narrow.Holds runs')
    (hruns : runs ≤ runs') (hbase : base ≤ base') :
    delay kind runs base cap ≤ delay kind runs' base' cap := by
  by_cases h : runs ≤ 0 ∨ base ≤ 0
  · rw [delay_eq hr, if_pos h]
    exact delay_nonneg hr'
  · rw [delay_eq hr, delay_eq hr', if_neg h, if_neg (by omega)]
    exact capped_mono (uncapped_mono (by omega) hruns hbase)

theorem delay_mono_cap (hr : Width.narrow.Holds runs) (hc : 0 < cap) (hcap : cap ≤ cap') :
    delay kind runs base cap ≤ delay kind runs base cap' := by
  rw [delay_eq hr, delay_eq hr]
  split
  · exact le_refl 0
  · exact capped_mono_cap hc hcap

/-- The wait is computed without leaving a word. There is none before the first attempt, without a
base, or if the kind is neither fixed nor doubling. Else it is the base, or the base doubled for
every attempt but the first, at most twenty times and up to the greatest wide number, and a positive
cap bounds it. It is never negative, and more attempts, a longer base or a higher cap do not make it
shorter. -/
theorem delay_is_capped_exponential (hr : Width.narrow.Holds runs) (kind : Backoff)
    (base cap : Int) :
    delayBy checked kind runs base cap = some (delay kind runs base cap) ∧
    (runs ≤ 0 ∨ base ≤ 0 ∨ kind ≠ .fixed ∧ kind ≠ .doubling → delay kind runs base cap = 0) ∧
    (0 < runs → 0 < base → delay .fixed runs base cap = if 0 < cap then min base cap else base) ∧
    (0 < runs → 0 < base → delay .doubling runs base cap =
      let d := min (base * 2 ^ (min (runs - 1) 20).toNat) (2 ^ 63 - 1)
      if 0 < cap then min d cap else d) ∧
    0 ≤ delay kind runs base cap ∧
    (∀ runs', Width.narrow.Holds runs' → runs ≤ runs' →
      delay kind runs base cap ≤ delay kind runs' base cap) ∧
    (∀ base', base ≤ base' → delay kind runs base cap ≤ delay kind runs base' cap) ∧
    ∀ cap', 0 < cap → cap ≤ cap' → delay kind runs base cap ≤ delay kind runs base cap' := by
  refine ⟨delayBy_lenient lenient_checked hr kind base cap, fun h => ?_, fun hruns hb => ?_,
    fun hruns hb => ?_, delay_nonneg hr,
    fun runs' hr' hruns => delay_mono hr hr' hruns (le_refl base),
    fun base' hbase => delay_mono hr hr (le_refl runs) hbase,
    fun cap' hc hcap => delay_mono_cap hr hc hcap⟩
  · rw [delay_eq hr]
    split
    · rfl
    · obtain ⟨hf, hd⟩ : kind ≠ .fixed ∧ kind ≠ .doubling := by
        rcases h with h | h | h
        · omega
        · omega
        · exact h
      rw [uncapped_of_ne hf hd, capped_zero]
  · rw [delay_eq hr, if_neg (by omega)]
    rfl
  · rw [delay_eq hr, if_neg (by omega)]
    rfl

/-- The last base that can still be doubled twenty times, the first that cannot, and a cap. -/
theorem delay_is_capped_exponential_boundary :
    delay .doubling 21 8796093022207 0 = 9223372036853727232 ∧
      delay .doubling 22 8796093022208 0 = 9223372036854775807 ∧
      delay .doubling 3 100 350 = 350 := by
  have h (runs base cap : Int) (hr : Width.narrow.Holds runs) (hruns : 0 < runs)
      (hb : 0 < base) := (delay_is_capped_exponential hr .doubling base cap).2.2.2.1 hruns hb
  exact ⟨h 21 _ 0 (by decide) (by decide) (by decide), h 22 _ 0 (by decide) (by decide) (by decide),
    h 3 100 350 (by decide) (by decide) (by decide)⟩

end Backlog.Backoff
