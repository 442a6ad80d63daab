import Mathlib.Algebra.Order.Floor.Div
import UniSdk.Planner.LowPower

/-!
# The ticks of a low-power sleep

`TLK_PM_SLEEP_US_TICKS` and `TLK_PM_SLEEP_MS_TICKS` turn a duration into a count of the system timer
or, where 32 bits are too few for that, of the 32 kHz clock. Both counts are rounded up in 64 bits and
kept in 32. The largest 32-bit count is chosen for the system timer as well, although it stands for a
sleep without a timer, and the count of the 32 kHz clock is not tested at all.
-/

namespace UniSdk.Planner

open Library.Words

/-- `TLK_TICK_HF_RC_TICKS_FROM_US` and `TLK_TICK_32K_TICKS_FROM_US`, for a counter of `clock` ticks a
second. -/
def tlkTickTicksFromUs (clock us : Nat) : Nat := tlkDivRoundUp (u64 (us * clock)) 1000000

/-- The common text of the two macros, for a conversion `ticksFrom` at a clock. -/
def pmSleepTicks (ticksFrom : Nat → Nat → Nat) (c : PlannerConfig) (clock32k t : Nat) :
    TlkPmSleepTick :=
  let hf := ticksFrom c.stimerTick1S t
  if hf ≤ 2 ^ 32 - 1 then { ticks := u32 hf, tickBase := c.stimerTick1S, mode := .stimer }
  else { ticks := u32 (ticksFrom clock32k t), tickBase := clock32k, mode := .clock32k }

/-- `TLK_PM_SLEEP_US_TICKS`. -/
def tlkPmSleepUsTicks (c : PlannerConfig) (clock32k us : Nat) : TlkPmSleepTick :=
  pmSleepTicks tlkTickTicksFromUs c clock32k us

theorem tlkPmSleepMsTicks_eq (c : PlannerConfig) (clock32k ms : Nat) :
    tlkPmSleepMsTicks c clock32k ms = pmSleepTicks tlkTickTicksFromMs c clock32k ms := rfl

/-- The request asks for `t / unit` seconds: the base is the frequency of the mode, the ticks are the
fewest that last that long, and they are not the value of a sleep without a timer. -/
structure AsksFor (c : PlannerConfig) (clock32k unit t : Nat) (r : TlkPmSleepTick) : Prop where
  base : r.tickBase = match r.mode with
    | .stimer => c.stimerTick1S
    | .clock32k => clock32k
  enough : (t : ℚ) / unit ≤ r.ticks / r.tickBase
  close : (r.ticks : ℚ) / r.tickBase < t / unit + 1 / r.tickBase
  timed : r.ticks ≠ 2 ^ 32 - 1

/-! ## Rounding up -/

/-- The ticks of a time as long as nothing wraps around in 64 bits. -/
theorem ticks_le_iff {unit clock t : Nat} (hunit : 0 < unit) (hwide : t * clock + unit ≤ 2 ^ 64)
    (n : Nat) : tlkDivRoundUp (u64 (t * clock)) unit ≤ n ↔ t * clock ≤ unit * n := by
  have hproduct : u64 (t * clock) = t * clock := u64_of_lt (by omega)
  have hsum : u64 (t * clock + unit - 1) = t * clock + unit - 1 := u64_of_lt (by omega)
  rw [tlkDivRoundUp, hproduct, hsum, ← Nat.ceilDiv_eq_add_pred_div, ceilDiv_le_iff_le_mul hunit]

theorem enough_iff {unit base : Nat} (hunit : 0 < unit) (hbase : 0 < base) (t ticks : Nat) :
    (t : ℚ) / unit ≤ ticks / base ↔ t * base ≤ unit * ticks := by
  rw [div_le_div_iff₀ (by exact_mod_cast hunit) (by exact_mod_cast hbase), Nat.mul_comm unit]
  exact_mod_cast Iff.rfl

theorem close_iff {unit base : Nat} (hunit : 0 < unit) (hbase : 0 < base) (t ticks : Nat) :
    (ticks : ℚ) / base < t / unit + 1 / base ↔ unit * ticks < t * base + unit := by
  have hscaled : (ticks : ℚ) / base < t / unit + 1 / base ↔
      (ticks : ℚ) * unit < t * base + unit := by
    rw [← sub_lt_iff_lt_add, ← sub_div,
      div_lt_div_iff₀ (by exact_mod_cast hbase) (by exact_mod_cast hunit)]
    constructor <;> intro h <;> linarith
  rw [hscaled, Nat.mul_comm unit]
  exact_mod_cast Iff.rfl

/-- A count that is rounded up and narrowed to 32 bits is right exactly when it is below the largest
32-bit value. -/
theorem narrowed_iff {unit clock t : Nat} (hunit : 0 < unit) (hclock : 0 < clock)
    (hwide : t * clock + unit ≤ 2 ^ 64) :
    ((t : ℚ) / unit ≤ u32 (tlkDivRoundUp (u64 (t * clock)) unit) / clock ∧
      (u32 (tlkDivRoundUp (u64 (t * clock)) unit) : ℚ) / clock < t / unit + 1 / clock ∧
      u32 (tlkDivRoundUp (u64 (t * clock)) unit) ≠ 2 ^ 32 - 1) ↔
    t * clock ≤ unit * (2 ^ 32 - 2) := by
  have hle := ticks_le_iff hunit hwide
  generalize tlkDivRoundUp (u64 (t * clock)) unit = ticks at hle
  rw [enough_iff hunit hclock, close_iff hunit hclock, ← hle, ← hle]
  constructor
  · rintro ⟨henough, -, htimed⟩
    have hnarrow : u32 ticks < 2 ^ 32 := Nat.mod_lt _ (by decide)
    rw [u32_of_lt (by omega)] at htimed
    omega
  · intro h
    rw [u32_of_lt (by omega)]
    refine ⟨Nat.le_refl _, ?_, by omega⟩
    have hfewer : ticks = 0 ∨ ¬ t * clock ≤ unit * (ticks - 1) := by
      rw [← hle]
      omega
    rcases hfewer with hzero | hmore
    · rw [hzero]
      omega
    · have hsplit : unit * (ticks - 1) + unit = unit * ticks ∨ ticks = 0 := by
        cases ticks with
        | zero => exact .inr rfl
        | succ k => exact .inl (Nat.mul_succ unit k).symm
      rcases hsplit with hsplit | hzero
      · omega
      · rw [hzero]
        omega

/-- One count fits and is not the reserved value: that of the system timer, or where it is chosen
instead that of the 32 kHz clock. -/
def CountFits (c : PlannerConfig) (clock32k unit t : Nat) : Prop :=
  t * c.stimerTick1S ≤ unit * (2 ^ 32 - 2) ∨
    (unit * (2 ^ 32 - 1) < t * c.stimerTick1S ∧ t * clock32k ≤ unit * (2 ^ 32 - 2))

instance (c : PlannerConfig) (clock32k unit t : Nat) : Decidable (CountFits c clock32k unit t) :=
  inferInstanceAs (Decidable (_ ∨ _))

theorem asksFor_iff {c : PlannerConfig} {clock32k unit t : Nat} (hunit : 0 < unit)
    (hclock : 0 < c.stimerTick1S) (hclock32k : 0 < clock32k)
    (hwide : t * c.stimerTick1S + unit ≤ 2 ^ 64) (hwide32k : t * clock32k + unit ≤ 2 ^ 64) :
    AsksFor c clock32k unit t
        (pmSleepTicks (fun clock t => tlkDivRoundUp (u64 (t * clock)) unit) c clock32k t) ↔
      CountFits c clock32k unit t := by
  have hle := ticks_le_iff hunit hwide
  have hmono : unit * (2 ^ 32 - 2) ≤ unit * (2 ^ 32 - 1) := Nat.mul_le_mul_left unit (by decide)
  unfold pmSleepTicks CountFits
  dsimp only
  split
  · next hchosen =>
    rw [hle] at hchosen
    rw [← narrowed_iff hunit hclock hwide]
    constructor
    · intro h
      exact .inl ⟨h.enough, h.close, h.timed⟩
    · rintro (⟨henough, hclose, htimed⟩ | ⟨hmore, -⟩)
      · exact ⟨rfl, henough, hclose, htimed⟩
      · omega
  · next hchosen =>
    rw [hle] at hchosen
    rw [← narrowed_iff hunit hclock32k hwide32k]
    constructor
    · intro h
      exact .inr ⟨by omega, h.enough, h.close, h.timed⟩
    · rintro (hfew | ⟨-, henough, hclose, htimed⟩)
      · omega
      · exact ⟨rfl, henough, hclose, htimed⟩

/-- The two frequencies and the duration are 32-bit values. -/
theorem product_wide {t clock unit : Nat} (ht : t < 2 ^ 32) (hclock : clock < 2 ^ 32)
    (hunit : unit ≤ 1000000) : t * clock + unit ≤ 2 ^ 64 := by
  have hproduct : t * clock ≤ (2 ^ 32 - 1) * (2 ^ 32 - 1) := Nat.mul_le_mul (by omega) (by omega)
  omega

/-- **Sleep durations convert to ticks correctly exactly where one of the counts fits.** -/
theorem sleep_ticks_iff (c : PlannerConfig) (clock32k t : Nat)
    (hclock : 32000 ≤ c.stimerTick1S ∧ c.stimerTick1S < 2 ^ 32)
    (hclock32k : 0 < clock32k ∧ clock32k < 2 ^ 32) (ht : t < 2 ^ 32) :
    (AsksFor c clock32k 1000000 t (tlkPmSleepUsTicks c clock32k t) ↔
      CountFits c clock32k 1000000 t) ∧
    (AsksFor c clock32k 1000 t (tlkPmSleepMsTicks c clock32k t) ↔ CountFits c clock32k 1000 t) := by
  rw [tlkPmSleepMsTicks_eq]
  exact ⟨asksFor_iff (by decide) (by omega) hclock32k.1
      (product_wide ht hclock.2 (by decide)) (product_wide ht hclock32k.2 (by decide)),
    asksFor_iff (by decide) (by omega) hclock32k.1
      (product_wide ht hclock.2 (by decide)) (product_wide ht hclock32k.2 (by decide))⟩

/-- A thousand microseconds, and as many milliseconds, at 24 MHz. -/
theorem sleep_ticks_iff_thousand :
    AsksFor (pmConfig 24000000) 32768 1000000 1000
        (tlkPmSleepUsTicks (pmConfig 24000000) 32768 1000) ∧
    AsksFor (pmConfig 24000000) 32768 1000 1000
        (tlkPmSleepMsTicks (pmConfig 24000000) 32768 1000) ∧
      (tlkPmSleepMsTicks (pmConfig 24000000) 32768 1000).ticks = 24000000 := by
  have hiff := sleep_ticks_iff (pmConfig 24000000) 32768 1000 (by decide) (by decide) (by decide)
  exact ⟨hiff.1.mpr (by decide), hiff.2.mpr (by decide), by decide⟩

/-- 131 072 seconds are `2^32` ticks at 32 768 Hz, which are narrowed to none. -/
theorem sleep_ticks_narrowed :
    ¬ ∀ (c : PlannerConfig) (clock32k t : Nat),
      32000 ≤ c.stimerTick1S ∧ c.stimerTick1S < 2 ^ 32 → 0 < clock32k ∧ clock32k < 2 ^ 32 →
      t < 2 ^ 32 →
      AsksFor c clock32k 1000000 t (tlkPmSleepUsTicks c clock32k t) ∧
        AsksFor c clock32k 1000 t (tlkPmSleepMsTicks c clock32k t) := by
  intro h
  have hasks := (h (pmConfig 24000000) 32768 131072000 (by decide) (by decide) (by decide)).2
  have henough := hasks.enough
  rw [show tlkPmSleepMsTicks (pmConfig 24000000) 32768 131072000 = ⟨0, 32768, .clock32k⟩ by decide,
    enough_iff (by decide) (by decide)] at henough
  exact absurd henough (by decide)

end UniSdk.Planner
