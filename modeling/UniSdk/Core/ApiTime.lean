import UniSdk.Library.Turns
import UniSdk.Library.Words
import Mathlib.Tactic.NormNum

/-!
# Millisecond and microsecond clocks

`tlk_api_time_micros` and `tlk_api_time_millis` divide the 32-bit system timer by the ticks of their
unit, so they start over when the timer does and not at `2^32` units. `tlk_api_time_delay` multiplies
in 32 bits and widens the product.
-/

namespace UniSdk.Core

open Library.Words Library.Turns

/-- `tlk_stimer_get_tick` when the timer has made `x` ticks since it was started. -/
def tlkStimerGetTick (x : ℚ) : Nat := u32 ⌊x⌋₊

/-- `TLK_STIMER_TICK_1US` and `TLK_STIMER_TICK_1MS` for `UNISDK_STIMER_CLOCK`. -/
def tlkStimerTick1Us (clock : Nat) : Nat := clock / 1000000

def tlkStimerTick1Ms (clock : Nat) : Nat := clock / 1000

def tlkApiTimeMicros (clock : Nat) (x : ℚ) : Nat := tlkStimerGetTick x / tlkStimerTick1Us clock

def tlkApiTimeMillis (clock : Nat) (x : ℚ) : Nat := tlkStimerGetTick x / tlkStimerTick1Ms clock

/-- The argument of `tlk_clock_cclk_delay`. -/
def tlkApiTimeDelay (cclk durationUs : Nat) : Nat := u64 (u32 (cclk * durationUs))

/-- The 32-bit difference of two readings is less than two units away from the time between them. -/
def SubtractsTo (earlier later : Nat) (elapsed : ℚ) : Prop :=
  |((u32 (later + (2 ^ 32 - earlier)) : ℕ) : ℚ) - elapsed| < 2

/-- The system timer does not turn over between two readings in units of `p` ticks, or it turns over
`p` times and stands in an earlier unit than before. -/
def KeepsTime (p : Nat) (x y : ℚ) : Prop :=
  turns (2 ^ 32) y = turns (2 ^ 32) x ∨
    (turns (2 ^ 32) y = turns (2 ^ 32) x + p ∧ reading (2 ^ 32) p y < reading (2 ^ 32) p x)

theorem tick1Us_of_mhz (mhz : Nat) : tlkStimerTick1Us (mhz * 1000000) = mhz :=
  Nat.mul_div_cancel _ (by decide)

theorem tick1Ms_of_mhz (mhz : Nat) : tlkStimerTick1Ms (mhz * 1000000) = 1000 * mhz := by
  unfold tlkStimerTick1Ms
  omega

theorem subtractsTo_iff {p : Nat} (hp : 0 < p) (hfits : 3 * p ≤ 2 ^ 32) {x y : ℚ} (hx : 0 ≤ x)
    (hxy : x ≤ y) (hspan : (y - x) / p < 2 ^ 32) :
    SubtractsTo (tlkStimerGetTick x / p) (tlkStimerGetTick y / p) ((y - x) / p) ↔
      KeepsTime p x y :=
  difference_iff hp hfits hx hxy (by exact_mod_cast hspan)

theorem delay_iff {cclk durationUs : Nat} :
    tlkApiTimeDelay cclk durationUs = cclk * durationUs ↔ cclk * durationUs < 2 ^ 32 := by
  unfold tlkApiTimeDelay u32 u64
  omega

/-- **The clocks can be subtracted exactly where the system timer has not turned over**, and a delay
requests the exact number of cycles exactly when that fits into 32 bits. -/
theorem api_time_iff (mhz : Nat) (hclock : 0 < mhz ∧ mhz * 1000000 < 2 ^ 32) :
    (∀ x y : ℚ, 0 ≤ x → x ≤ y → (y - x) / mhz < 2 ^ 32 →
      (SubtractsTo (tlkApiTimeMicros (mhz * 1000000) x) (tlkApiTimeMicros (mhz * 1000000) y)
        ((y - x) / mhz) ↔ KeepsTime mhz x y)) ∧
    (∀ x y : ℚ, 0 ≤ x → x ≤ y → (y - x) / (1000 * mhz : ℕ) < 2 ^ 32 →
      (SubtractsTo (tlkApiTimeMillis (mhz * 1000000) x) (tlkApiTimeMillis (mhz * 1000000) y)
        ((y - x) / (1000 * mhz : ℕ)) ↔ KeepsTime (1000 * mhz) x y)) ∧
    ∀ cclk durationUs : Nat, cclk < 2 ^ 8 → durationUs < 2 ^ 32 →
      (tlkApiTimeDelay cclk durationUs = cclk * durationUs ↔ cclk * durationUs < 2 ^ 32) := by
  refine ⟨fun x y hx hxy hspan => ?_, fun x y hx hxy hspan => ?_, fun _ _ _ _ => delay_iff⟩
  · rw [tlkApiTimeMicros, tlkApiTimeMicros, tick1Us_of_mhz]
    exact subtractsTo_iff hclock.1 (by omega) hx hxy hspan
  · rw [tlkApiTimeMillis, tlkApiTimeMillis, tick1Ms_of_mhz]
    exact subtractsTo_iff (by omega) (by omega) hx hxy hspan

/-- One second at 24 MHz, and a delay of a thousand microseconds. -/
theorem api_time_iff_24MHz :
    SubtractsTo (tlkApiTimeMicros 24000000 0) (tlkApiTimeMicros 24000000 24000000) 1000000 ∧
    SubtractsTo (tlkApiTimeMillis 24000000 0) (tlkApiTimeMillis 24000000 24000000) 1000 ∧
    tlkApiTimeDelay 96 1000 = 96 * 1000 := by
  obtain ⟨hmicros, hmillis, hdelay⟩ := api_time_iff 24 (by decide)
  have hturns : turns (2 ^ 32) 24000000 = turns (2 ^ 32) 0 := by
    norm_num [turns]
  have hus := (hmicros 0 24000000 le_rfl (by norm_num) (by norm_num)).mpr (.inl hturns)
  have hms := (hmillis 0 24000000 le_rfl (by norm_num) (by norm_num)).mpr (.inl hturns)
  norm_num at hus hms
  exact ⟨hus, hms, (hdelay 96 1000 (by decide) (by decide)).mpr (by decide)⟩

/-- At 24 MHz the readings one microsecond and one millisecond apart on both sides of a turn differ by
far more, and 44.7 seconds at 96 MHz are a delay of 32 cycles. -/
theorem api_time_wraps :
    ¬ SubtractsTo (tlkApiTimeMicros 24000000 4294967272) (tlkApiTimeMicros 24000000 4294967296)
      ((4294967296 - 4294967272) / 24) ∧
    ¬ SubtractsTo (tlkApiTimeMillis 24000000 4294943296) (tlkApiTimeMillis 24000000 4294967296)
      ((4294967296 - 4294943296) / 24000) ∧
    tlkApiTimeDelay 96 44739243 ≠ 96 * 44739243 := by
  refine ⟨?_, ?_, by decide⟩
  · norm_num [SubtractsTo, tlkApiTimeMicros, tlkStimerGetTick, tlkStimerTick1Us, u32]
  · norm_num [SubtractsTo, tlkApiTimeMillis, tlkStimerGetTick, tlkStimerTick1Ms, u32]

end UniSdk.Core
