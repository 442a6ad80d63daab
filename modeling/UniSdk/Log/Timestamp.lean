import Mathlib.Tactic.Linarith
import UniSdk.Library.Words

/-!
# Timestamps of log lines

`tlk_debug_log_get_us` multiplies the machine timer by a million in 64 bits before it divides, so log
time starts over when the product does. The time of an event is split into seconds, milliseconds and
microseconds at three places. The one for events of handlers narrows the milliseconds to 16 bits
before it reduces them, and the other two after.
-/

namespace UniSdk.Log

open Library.Words

/-! ## Log time -/

/-- `tlk_debug_log_get_us` at the counter value `mtime`, for `UNISDK_MTIMER_CYCLES_PER_SECOND`. -/
def tlkDebugLogGetUs (cyclesPerSecond mtime : Nat) : Nat :=
  u64 (mtime * 1000000) / cyclesPerSecond

/-- Log time is the exact number of microseconds whenever that fits into 64 bits. -/
def ExactUs (cyclesPerSecond mtime : Nat) : Prop :=
  mtime * 1000000 / cyclesPerSecond < 2 ^ 64 →
    tlkDebugLogGetUs cyclesPerSecond mtime = mtime * 1000000 / cyclesPerSecond

/-- Up to the counter value `last` log time does not run backwards and is exact. -/
def TellsTime (cyclesPerSecond last : Nat) : Prop :=
  ∀ m₁ m₂, m₁ ≤ m₂ → m₂ ≤ last →
    tlkDebugLogGetUs cyclesPerSecond m₁ ≤ tlkDebugLogGetUs cyclesPerSecond m₂ ∧
      ExactUs cyclesPerSecond m₁ ∧ ExactUs cyclesPerSecond m₂

theorem getUs_of_fits {c m : Nat} (h : m * 1000000 < 2 ^ 64) :
    tlkDebugLogGetUs c m = m * 1000000 / c := by
  rw [tlkDebugLogGetUs, u64_of_lt h]

/-- Below a frequency wider than 64 bits both sides are zero. -/
theorem exactUs_of_lt {c m : Nat} (h : m * 1000000 < max (2 ^ 64) c) :
    tlkDebugLogGetUs c m = m * 1000000 / c := by
  rcases lt_max_iff.mp h with hfits | hslow
  · exact getUs_of_fits hfits
  · have hword : u64 (m * 1000000) < c := Nat.lt_of_le_of_lt (Nat.mod_le _ _) hslow
    rw [tlkDebugLogGetUs, Nat.div_eq_of_lt hslow, Nat.div_eq_of_lt hword]

theorem tellsTime_of_lt {c last : Nat} (h : last * 1000000 < max (2 ^ 64) c) :
    TellsTime c last := by
  intro m₁ m₂ hle hlast
  have h₂ : tlkDebugLogGetUs c m₂ = m₂ * 1000000 / c :=
    exactUs_of_lt (Nat.lt_of_le_of_lt (Nat.mul_le_mul_right _ hlast) h)
  have h₁ : tlkDebugLogGetUs c m₁ = m₁ * 1000000 / c :=
    exactUs_of_lt (Nat.lt_of_le_of_lt (Nat.mul_le_mul_right _ (hle.trans hlast)) h)
  refine ⟨?_, fun _ => h₁, fun _ => h₂⟩
  rw [h₁, h₂]
  exact Nat.div_le_div_right (Nat.mul_le_mul_right _ hle)

/-- The first counter value whose product wraps around. At one tick a second time runs backwards
there, at a higher frequency it is not exact. -/
theorem not_tellsTime_of_wrap {c last : Nat} (hc : 1 ≤ c) (hwidth : c ≤ 2 ^ 64)
    (hlast : 18446744073710 ≤ last) : ¬ TellsTime c last := by
  intro h
  obtain ⟨hmono, -, hexact⟩ := h 18446744073709 18446744073710 (by omega) hlast
  by_cases hone : c = 1
  · rw [hone] at hmono
    exact absurd hmono (by decide)
  · have hmore : 448384 / c + 1 ≤ 18446744073710 * 1000000 / c := by
      rw [← Nat.add_div_right _ (by omega)]
      exact Nat.div_le_div_right (by omega)
    have hfits : 18446744073710 * 1000000 / c < 2 ^ 64 :=
      Nat.lt_of_le_of_lt (Nat.div_le_div_left (show 2 ≤ c by omega) (by decide)) (by decide)
    have hvalue : tlkDebugLogGetUs c 18446744073710 = 448384 / c := rfl
    have := hexact hfits
    omega

theorem not_tellsTime_of_wide {c last : Nat} (hwide : 2 ^ 64 < c) (hlast : c ≤ last * 1000000) :
    ¬ TellsTime c last := by
  intro h
  have hreached : c ≤ (c + 999999) / 1000000 * 1000000 ∧
      (c + 999999) / 1000000 * 1000000 < 2 * c := by omega
  obtain ⟨-, -, hexact⟩ := h _ ((c + 999999) / 1000000) le_rfl (by omega)
  have hone : (c + 999999) / 1000000 * 1000000 / c = 1 :=
    Nat.div_eq_of_lt_le (by omega) (by omega)
  have hzero : tlkDebugLogGetUs c ((c + 999999) / 1000000) = 0 :=
    Nat.div_eq_of_lt ((u64_lt _).trans hwide)
  have := hexact (by rw [hone]; decide)
  omega

/-- **Log time tells the time up to a counter value exactly when the product with a million fits into
64 bits there.** (A frequency that does not fit itself gives zero until the product reaches it.) -/
theorem log_time_iff (c last : Nat) (hc : 1 ≤ c) :
    TellsTime c last ↔ last * 1000000 < max (2 ^ 64) c := by
  refine ⟨fun h => ?_, tellsTime_of_lt⟩
  by_contra hwrap
  have hboth := max_le_iff.mp (Nat.not_lt.mp hwrap)
  by_cases hwidth : c ≤ 2 ^ 64
  · exact not_tellsTime_of_wrap hc hwidth (by omega) h
  · exact not_tellsTime_of_wide (by omega) hboth.2 h

/-- Eight days and twenty-one hours at 24 MHz. -/
theorem log_time_iff_8_days :
    TellsTime 24000000 18446744073709 ∧
      tlkDebugLogGetUs 24000000 18446744073709 = 768614336404 :=
  ⟨(log_time_iff 24000000 18446744073709 (by decide)).mpr (by decide), by decide⟩

/-- The next tick sets log time back to zero. -/
theorem log_time_wraps :
    ¬ ∀ c m₁ m₂ : Nat, 1 ≤ c → m₁ ≤ m₂ → m₂ < 2 ^ 64 →
      tlkDebugLogGetUs c m₁ ≤ tlkDebugLogGetUs c m₂ ∧ ExactUs c m₁ ∧ ExactUs c m₂ := by
  intro h
  have hmono := (h 24000000 18446744073709 18446744073710 (by decide) (by decide) (by decide)).1
  exact absurd hmono (by decide)

/-! ## The fields of a timestamp -/

/-- The three numbers at the start of a line. -/
structure LogStamp where
  seconds : Nat
  millis : Nat
  micros : Nat
  deriving DecidableEq, Repr

/-- In `tlk_debug_log_queue`. -/
def queueStamp (tsUs : Nat) : LogStamp where
  seconds := u32 (tsUs / 1000000 % 100000)
  millis := u16 (tsUs / 1000 % 1000)
  micros := u16 (tsUs % 1000)

/-- In `tlk_debug_log_blocking`. -/
def blockingStamp (timestamp : Nat) : LogStamp where
  seconds := u32 (timestamp / 1000000 % 100000)
  millis := u16 (timestamp / 1000 % 1000)
  micros := u16 (timestamp % 1000)

/-- In the branch of `tlk_debug_log_pump` for events of handlers. -/
def pumpStamp (tsUs : Nat) : LogStamp where
  seconds := u32 (tsUs / 1000000 % 100000)
  millis := u16 (tsUs / 1000) % 1000
  micros := u16 (tsUs % 1000)

/-- The fields are those of the time modulo 100 000 seconds. -/
structure LogStamp.Splits (s : LogStamp) (tsUs : Nat) : Prop where
  sum : s.seconds * 10 ^ 6 + s.millis * 10 ^ 3 + s.micros = tsUs % 10 ^ 11
  millis_lt : s.millis < 1000
  micros_lt : s.micros < 1000

theorem queueStamp_splits (tsUs : Nat) : (queueStamp tsUs).Splits tsUs := by
  constructor <;> simp only [queueStamp, u16, u32] <;> omega

/-- Fields that split the time are determined by it. -/
theorem LogStamp.Splits.unique {s t : LogStamp} {tsUs : Nat} (hs : s.Splits tsUs)
    (ht : t.Splits tsUs) : s = t := by
  obtain ⟨a, b, c⟩ := s
  obtain ⟨a', b', c'⟩ := t
  obtain ⟨hsum, hmillis, hmicros⟩ := hs
  obtain ⟨hsum', hmillis', hmicros'⟩ := ht
  dsimp only at *
  simp only [LogStamp.mk.injEq]
  omega

/-- Narrowing to 16 bits leaves the remainder modulo 1000 for every 125th block of `2^16`, as `2^16`
is 536 modulo 1000. -/
theorem narrow_mod_iff (q : Nat) : u16 q % 1000 = q % 1000 ↔ 125 ∣ q / 2 ^ 16 := by
  unfold u16
  omega

theorem pumpStamp_eq_iff (tsUs : Nat) :
    pumpStamp tsUs = queueStamp tsUs ↔ 125 ∣ tsUs / 65536000 := by
  have hmillis : u16 (tsUs / 1000 % 1000) = tsUs / 1000 % 1000 := by
    unfold u16
    omega
  simp only [pumpStamp, queueStamp, LogStamp.mk.injEq, true_and, and_true]
  rw [hmillis, narrow_mod_iff, Nat.div_div_eq_div_mul]
  exact Iff.rfl

/-- **Timestamps print the same everywhere exactly in every 125th window of 65.536 seconds**, the
first of which begins at the start. -/
theorem timestamps_agree_iff (tsUs : Nat) :
    (pumpStamp tsUs = queueStamp tsUs ∧ blockingStamp tsUs = queueStamp tsUs ∧
      (pumpStamp tsUs).Splits tsUs ∧ (queueStamp tsUs).Splits tsUs ∧
        (blockingStamp tsUs).Splits tsUs) ↔
    125 ∣ tsUs / 65536000 := by
  have hsplits := queueStamp_splits tsUs
  rw [← pumpStamp_eq_iff]
  exact ⟨fun h => h.1, fun h => ⟨h, rfl, h ▸ hsplits, hsplits, hsplits⟩⟩

/-- At 65.536 seconds an event of a handler is printed with no milliseconds. -/
theorem timestamps_differ :
    ¬ ∀ tsUs : Nat, tsUs < 2 ^ 64 →
      pumpStamp tsUs = queueStamp tsUs ∧ blockingStamp tsUs = queueStamp tsUs ∧
        (pumpStamp tsUs).Splits tsUs ∧ (queueStamp tsUs).Splits tsUs ∧
          (blockingStamp tsUs).Splits tsUs := by
  intro h
  exact absurd (h 65536000 (by decide)).1 (by decide)

end UniSdk.Log
